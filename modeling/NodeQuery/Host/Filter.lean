import NodeQuery.Host.Pattern
import NodeQuery.Host.PatternList

/-!
# Host filters

Patterns of one anchor; a filter accepts a host name if one of its patterns does.
-/
namespace NodeQuery.Host

structure Filter where
  anchor : Anchor
  patterns : List Pattern
  deriving DecidableEq, Repr

namespace Filter

def empty (anchor : Anchor) : Filter := ⟨anchor, []⟩

def insert (f : Filter) (text : String) : Except PatternError Filter :=
  match Pattern.compile text f.anchor with
  | .error e => .error e
  | .ok p => .ok { f with patterns := f.patterns ++ [p] }

/-- Inserts texts up to the first that is no pattern; those before it stay. -/
def insertAll (f : Filter) : List String → Filter × Except PatternError Unit
  | [] => (f, .ok ())
  | text :: rest =>
    match f.insert text with
    | .error e => (f, .error e)
    | .ok f => f.insertAll rest

/-- Inserts the patterns of a comma-separated list; none of them if it cannot be split. -/
def insertList (f : Filter) (text : String) : Filter × Except PatternError Unit :=
  match splitPatterns text with
  | .error e => (f, .error e)
  | .ok patterns => f.insertAll patterns

def size (f : Filter) : Nat := f.patterns.length

def isEmpty (f : Filter) : Bool := f.patterns.isEmpty

def accepts (f : Filter) (host : String) : Bool := f.patterns.any (·.accepts host)

end Filter

end NodeQuery.Host

import NodeQuery.Query.Error

/-!
# Tokens of a query

Parentheses stand alone; operators and words are maximal runs of their characters. A run of
operator characters that is no operator ends the scan, and its error arises when a reader gets
there.
-/
namespace NodeQuery.Query

def isSpace (c : Char) : Bool := c = ' ' || c = '\t' || c = '\n' || c = '\r'

def isParenthesis (c : Char) : Bool := c = '(' || c = ')'

def isOperatorChar (c : Char) : Bool := c = '<' || c = '>' || c = '=' || c = '~'

def isWordChar (c : Char) : Bool := !isParenthesis c && !isOperatorChar c && !isSpace c

inductive Symbol where
  | opening | closing | complement
  | comparison (op : Comparison)
  | connective (op : Connective)
  | word (text : String)
  deriving DecidableEq, Repr

namespace Symbol

def text : Symbol → String
  | .opening => "("
  | .closing => ")"
  | .complement => "~"
  | .comparison op => op.symbol
  | .connective op => op.word
  | .word text => text

def ofOperator? (run : String) : Option Symbol :=
  if run = "~" then some .complement else (Comparison.ofSymbol? run).map .comparison

def ofWord (run : String) : Symbol :=
  match Connective.ofWord? run with
  | some op => .connective op
  | none => .word run

end Symbol

/-- A symbol and the number of its first character, from one. -/
structure Token where
  symbol : Symbol
  location : Nat
  deriving DecidableEq, Repr

/-- The tokens of a text and how it ends: at a location behind the last character, or at a run that
is no operator. -/
structure Scan where
  tokens : List Token
  ending : Except QueryError Nat

def Scan.push (token : Token) (s : Scan) : Scan := { s with tokens := token :: s.tokens }

/-- Scans a text whose first character has the given number. -/
def Scan.ofText (location : Nat) : List Char → Scan
  | [] => ⟨[], .ok location⟩
  | c :: rest =>
    if isSpace c then ofText (location + 1) rest
    else if c = '(' then (ofText (location + 1) rest).push ⟨.opening, location⟩
    else if c = ')' then (ofText (location + 1) rest).push ⟨.closing, location⟩
    else if isOperatorChar c then
      let run := c :: rest.takeWhile isOperatorChar
      match Symbol.ofOperator? (String.ofList run) with
      | none => ⟨[], .error ⟨location, .unknownOperator (String.ofList run)⟩⟩
      | some symbol =>
        (ofText (location + run.length) (rest.dropWhile isOperatorChar)).push ⟨symbol, location⟩
    else
      let run := c :: rest.takeWhile isWordChar
      (ofText (location + run.length) (rest.dropWhile isWordChar)).push
        ⟨.ofWord (String.ofList run), location⟩
termination_by text => text.length
decreasing_by
  all_goals simp only [List.length_cons]
  all_goals first
    | exact Nat.lt_succ_self _
    | exact Nat.lt_succ_of_le (List.dropWhile_sublist _).length_le

end NodeQuery.Query

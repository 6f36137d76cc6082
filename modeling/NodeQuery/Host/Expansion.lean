import NodeQuery.Host.Segment

/-!
# Expansion of patterns

A pattern without stars denotes finitely many host names: all ways to choose a member of each set,
the choice in the last set varying fastest.
-/
namespace NodeQuery.Host

/-- The most names that a pattern may expand to. -/
def maxExpansion : Nat := 10000

/-- Extends the names so far by the rest of a pattern; `pattern` is the whole of it. -/
def expandFrom (pattern : String) (names : List String) (text : List Char) :
    Except PatternError (List String) :=
  match _h : Segment.next text with
  | .error e => .error e
  | .ok none => .ok names
  | .ok (some (.star, _)) => .error (.wildcardNotAllowed pattern)
  | .ok (some (.literal c, rest)) => expandFrom pattern (names.map (·.push c)) rest
  | .ok (some (.set terms, rest)) =>
    let members := Term.allMembers terms
    if maxExpansion < names.length * members.length then .error (.expansionTooLarge pattern)
    else
      let extended := names.flatMap fun name => members.map fun n => name ++ toString n
      expandFrom pattern extended rest
termination_by text.length
decreasing_by all_goals exact Segment.length_of_next _h

/-- The host names that a pattern denotes, in the order in which it lists them. -/
def expand (pattern : String) : Except PatternError (List String) :=
  expandFrom pattern [""] pattern.toList

end NodeQuery.Host

import NodeQuery.Host.Error

/-!
# Lists of patterns

Several patterns are written with commas between them. A comma inside brackets belongs to its
pattern.
-/
namespace NodeQuery.Host

/-- Splits the rest of a list, after `pending`, the characters of the current pattern in reverse
order; `inside` says whether a bracket is open. -/
def splitFrom (inside : Bool) (pending : List Char) :
    List Char → Except ListFault (List (List Char))
  | [] =>
    if inside then .error .missingClose
    else if pending.isEmpty then .error .emptyName
    else .ok [pending.reverse]
  | c :: rest =>
    if inside then
      if c = '[' then .error .nestedBracket
      else splitFrom (c != ']') (c :: pending) rest
    else if c = ']' then .error .unmatchedClose
    else if c = ',' then
      if pending.isEmpty then .error .emptyName
      else match splitFrom false [] rest with
        | .error e => .error e
        | .ok patterns => .ok (pending.reverse :: patterns)
    else splitFrom (c == '[') (c :: pending) rest

/-- The patterns of a comma-separated list; the empty text is the empty list. -/
def splitPatterns (text : String) : Except PatternError (List String) :=
  if text.isEmpty then .ok []
  else match splitFrom false [] text.toList with
    | .error fault => .error (.illegalList fault)
    | .ok patterns => .ok (patterns.map String.ofList)

end NodeQuery.Host

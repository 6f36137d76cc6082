import NodeQuery.Host.Segment
import NodeQuery.Marks

/-!
# Host patterns

A pattern with its segments, and the host names that it matches. A star stands for any run of
characters without a dot, a set for the decimal text of one of its members. Patterns are bounded
by the size of the regular expression that they amount to.
-/
namespace NodeQuery.Host

/-- How far a pattern reaches: over the whole name, or over a whole number of its leading
dot-separated elements. -/
inductive Anchor where
  | whole | leading
  deriving DecidableEq, Repr

/-- The largest pattern, in bytes of its regular expression. -/
def maxExpressionSize : Nat := 50000

/-- The characters that a regular expression has to escape. -/
def isEscaped (c : Char) : Bool :=
  "\\.+*?()|[]\x7b\x7d^$#&-~".toList.contains c

namespace Segment

/-- The bytes of a segment in the regular expression: a star is a class of five, a set a group of
four around its members and the bars between them. -/
def expressionSize : Segment → Nat
  | .literal c => c.utf8Size + if isEscaped c then 1 else 0
  | .star => 5
  | .set terms =>
    let members := Term.allMembers terms
    4 + (members.flatMap (Nat.toDigits 10)).length + (members.length - 1)

/-- Reads the segments of a text, after some of the given size. The size is checked before every
segment and at the end. -/
def readAll (size : Nat) (text : List Char) : Except PatternError (List Segment) :=
  if maxExpressionSize < size then .error .expressionTooLarge
  else match _h : next text with
    | .error e => .error e
    | .ok none => .ok []
    | .ok (some (segment, rest)) =>
      match readAll (size + segment.expressionSize) rest with
      | .error e => .error e
      | .ok segments => .ok (segment :: segments)
termination_by text.length
decreasing_by exact length_of_next _h

/-- The positions that a star leads to from those marked in `starts`, among the positions from
`position` on, where `text` is left; `reached` says whether a run begun further left extends to
here. -/
def spread (starts : Array Bool) (position : Nat) (reached : Bool) : List Char → List Nat
  | [] => if reached || starts[position]? == some true then [position] else []
  | c :: rest =>
    let here := reached || starts[position]? == some true
    let onward := spread starts (position + 1) (here && c != '.') rest
    if here then position :: onward else onward

/-- The most digits that a member of a set can have. -/
def maxDigits : Nat := 10

/-- The positions behind decimal texts of members, where `value` is the number of the digits so far
and at most `left` more are read. Nothing but zero itself begins with a zero. -/
def numberEnds (terms : List Term) (host : Array Char) (position value : Nat) : Nat → List Nat
  | 0 => []
  | left + 1 =>
    match host[position]? with
    | none => []
    | some c =>
      if c.isDigit then
        let value := value * 10 + (c.toNat - 48)
        let behind :=
          if value = 0 then [] else numberEnds terms host (position + 1) value left
        if terms.any (·.contains value) then (position + 1) :: behind else behind
      else []

/-- Merges two ascending lists of positions; one that is in both is listed once. -/
def mergePositions : List Nat → List Nat → List Nat
  | [], ys => ys
  | xs, [] => xs
  | x :: xs, y :: ys =>
    if x < y then x :: mergePositions xs (y :: ys)
    else if y < x then y :: mergePositions (x :: xs) ys
    else x :: mergePositions xs ys
termination_by xs ys => xs.length + ys.length

theorem mem_mergePositions {xs ys : List Nat} {p : Nat} :
    p ∈ mergePositions xs ys ↔ p ∈ xs ∨ p ∈ ys := by
  fun_induction mergePositions xs ys with
  | case1 => simp
  | case2 => simp
  | case3 x xs y ys h ih => simp only [List.mem_cons, ih]; grind
  | case4 x xs y ys h₁ h₂ ih => simp only [List.mem_cons, ih]; grind
  | case5 x xs y ys h₁ h₂ ih => simp only [List.mem_cons, ih]; grind

/-- The positions behind the segment, when it begins at one of `starts`. Both are ascending and
list a position once, so that no more of them than the name has can pile up. -/
def advance (host : Array Char) (starts : List Nat) : Segment → List Nat
  | .literal c => (starts.filter fun p => host[p]? == some c).map (· + 1)
  | .star => spread (marks (host.size + 1) starts) 0 false host.toList
  | .set terms =>
    starts.foldr (fun p ends => mergePositions (numberEnds terms host p 0 maxDigits) ends) []

end Segment

/-- The position behind the last line feed. -/
def lastLine (host : Array Char) : Nat :=
  host.size - (host.toList.reverse.takeWhile (· != '\n')).length

/-- Whether a match may end at a position of a name whose last line begins at `lastLine`. Behind
leading elements there is nothing, or a dot and a rest without a line feed. -/
def Anchor.allows (host : Array Char) (lastLine position : Nat) : Anchor → Bool
  | .whole => position == host.size
  | .leading =>
    position == host.size || (host[position]? == some '.' && lastLine ≤ position)

structure Pattern where
  text : String
  anchor : Anchor
  segments : List Segment
  /-- The segments are those of the text. -/
  segments_eq : Segment.readAll 1 text.toList = .ok segments
  deriving DecidableEq, Repr

namespace Pattern

/-- Reads a pattern. The size begins at one, for the mark at the start of the expression. -/
def compile (text : String) (anchor : Anchor) : Except PatternError Pattern :=
  match h : Segment.readAll 1 text.toList with
  | .error e => .error e
  | .ok segments => .ok ⟨text, anchor, segments, h⟩

/-- The positions of the host name that lie behind all segments. -/
def ends (p : Pattern) (host : Array Char) : List Nat :=
  p.segments.foldl (Segment.advance host) [0]

def accepts (p : Pattern) (host : String) : Bool :=
  let characters := host.toList.toArray
  let lastLine := lastLine characters
  (p.ends characters).any (p.anchor.allows characters lastLine ·)

end Pattern

end NodeQuery.Host

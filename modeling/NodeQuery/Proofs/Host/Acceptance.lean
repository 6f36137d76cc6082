import Mathlib.Algebra.GroupWithZero.Nat
import NodeQuery.Proofs.Host.Matching

/-!
# Patterns that are accepted

```text
pattern ::= (literal | "*" | set)*
set     ::= "[" term ("," term)* "]"
term    ::= number | number "-" number
```

A derivation of a pattern keeps what its values forget: the digits of each number, and whether a
term was written as a range, since the size of a set is checked at its ranges only. A text is a
pattern iff it is derived within the limits: on numbers, on the order of a range, on the members of
a set so far at every range, and on the size of the regular expression.
-/
namespace NodeQuery.Host

/-- The number that digits spell. -/
def spelled (digits : List Char) : Nat := Nat.ofDigitChars 10 digits 0

/-- A number is one digit or more; leading zeros are allowed. -/
def IsNumber (digits : List Char) : Prop := digits ≠ [] ∧ ∀ c ∈ digits, c.isDigit = true

theorem IsNumber.spells {digits : List Char} (h : IsNumber digits) :
    SpellsNumber digits (spelled digits) :=
  ⟨h.1, h.2, rfl⟩

theorem SpellsNumber.written {digits : List Char} {n : Nat} (h : SpellsNumber digits n) :
    IsNumber digits ∧ spelled digits = n :=
  ⟨⟨h.ne_nil, h.isDigit⟩, h.value⟩

/-- A term as it is written. -/
inductive WrittenTerm where
  | number (digits : List Char)
  | range (left right : List Char)
  deriving DecidableEq, Repr

namespace WrittenTerm

def text : WrittenTerm → List Char
  | .number digits => digits
  | .range left right => left ++ '-' :: right

/-- The members that the term adds to its set. -/
def members : WrittenTerm → List Nat
  | .number digits => [spelled digits]
  | .range left right => List.range' (spelled left) (spelled right - spelled left + 1)

def Derives : WrittenTerm → Prop
  | .number digits => IsNumber digits
  | .range left right => IsNumber left ∧ IsNumber right

/-- Numbers are not too large, and a range does not go down. -/
def InBounds : WrittenTerm → Prop
  | .number digits => spelled digits ≤ Segment.maxNumber.toNat
  | .range left right =>
    spelled left ≤ Segment.maxNumber.toNat ∧ spelled right ≤ Segment.maxNumber.toNat ∧
      spelled left ≤ spelled right

/-- A range does not bring a set that has `count` members so far above the limit. For a number
nothing is asked. -/
def Fits (count : Nat) : WrittenTerm → Prop
  | .number _ => True
  | .range left right => count + (range left right).members.length ≤ Segment.maxSetSize

/-- Every range fits after the terms before it. -/
def AllFit (count : Nat) : List WrittenTerm → Prop
  | [] => True
  | term :: more => term.Fits count ∧ AllFit (count + term.members.length) more

end WrittenTerm

/-- A segment as it is written. -/
inductive WrittenSegment where
  | literal (c : Char)
  | star
  | set (terms : List WrittenTerm)
  deriving DecidableEq, Repr

namespace WrittenSegment

def text : WrittenSegment → List Char
  | .literal c => [c]
  | .star => ['*']
  | .set terms => '[' :: ([','].intercalate (terms.map WrittenTerm.text) ++ [']'])

def Derives : WrittenSegment → Prop
  | .literal c => c ≠ '*' ∧ c ≠ '[' ∧ c ≠ ','
  | .star => True
  | .set terms => terms ≠ [] ∧ ∀ term ∈ terms, term.Derives

def WithinLimits : WrittenSegment → Prop
  | .literal _ | .star => True
  | .set terms => (∀ term ∈ terms, term.InBounds) ∧ WrittenTerm.AllFit 0 terms

/-- The bytes of the segment in the regular expression: those of the character and of what escapes
it, five for a star, and for a set the digits of all members with bars between them and four bytes
around them. -/
def expressionSize : WrittenSegment → Nat
  | .literal c => c.utf8Size + if isEscaped c then 1 else 0
  | .star => 5
  | .set terms =>
    let members := terms.flatMap WrittenTerm.members
    4 + (members.flatMap (Nat.toDigits 10)).length + (members.length - 1)

end WrittenSegment

namespace Segment

theorem members_number (digits : List Char) :
    (WrittenTerm.number digits).members = (Term.single (spelled digits)).members := by
  simp [Term.members, Term.single, Term.size, WrittenTerm.members]

theorem expressionSize_of_members {terms : List Term} {written : List WrittenTerm}
    (h : written.flatMap WrittenTerm.members = Term.allMembers terms) :
    (Segment.set terms).expressionSize = (WrittenSegment.set written).expressionSize := by
  simp only [expressionSize, WrittenSegment.expressionSize, h]

/-! What is read has a derivation within the limits -/

theorem written_of_readTerm {count : Nat} {text rest : List Char} {term : Term}
    (h : readTerm count text = .ok (term, rest)) :
    ∃ written : WrittenTerm, text = written.text ++ rest ∧ written.Derives ∧ written.InBounds ∧
      written.Fits count ∧ written.members = term.members := by
  rcases readTerm_cases h with ⟨digits, n, rfl, rfl, hdigits, hmax⟩ |
    ⟨left, right, rfl, hleft, hright, hmax, hfits⟩
  · obtain ⟨hnumber, rfl⟩ := hdigits.written
    exact ⟨.number digits, rfl, hnumber, hmax, trivial, members_number digits⟩
  · obtain ⟨hfirst, hvalueFirst⟩ := hleft.written
    obtain ⟨hlast, hvalueLast⟩ := hright.written
    have hmembers : (WrittenTerm.range left right).members = term.members := by
      rw [WrittenTerm.members, hvalueFirst, hvalueLast]
      rfl
    refine ⟨.range left right, by simp [WrittenTerm.text], ⟨hfirst, hlast⟩, ?_, ?_, hmembers⟩
    · rw [WrittenTerm.InBounds, hvalueFirst, hvalueLast]
      exact ⟨Nat.le_trans term.first_le_last hmax, hmax, term.first_le_last⟩
    · rw [WrittenTerm.Fits, hmembers, Term.length_members]
      exact hfits

theorem written_of_readTerms {count : Nat} {text rest : List Char} {terms : List Term}
    (h : readTerms count text = .ok (terms, rest)) :
    ∃ written : List WrittenTerm, written ≠ [] ∧
      text = [','].intercalate (written.map WrittenTerm.text) ++ ']' :: rest ∧
      (∀ term ∈ written, term.Derives) ∧ (∀ term ∈ written, term.InBounds) ∧
      WrittenTerm.AllFit count written ∧
      written.flatMap WrittenTerm.members = Term.allMembers terms := by
  fun_induction readTerms count text generalizing terms rest with
  | case1 => cases h
  | case2 count text term tail hterm =>
    cases h
    obtain ⟨written, rfl, hderives, hbounds, hfits, hmembers⟩ := written_of_readTerm hterm
    refine ⟨[written], by simp, by simp, by simpa using hderives, by simpa using hbounds,
      ⟨hfits, trivial⟩, ?_⟩
    simp [Term.allMembers, hmembers]
  | case3 => cases h
  | case4 count text term tail hterm more tail' hmore ih =>
    cases h
    obtain ⟨written, rfl, hderives, hbounds, hfits, hmembers⟩ := written_of_readTerm hterm
    obtain ⟨others, hne, rfl, hothers, hothersBounds, hothersFit, hothersMembers⟩ := ih hmore
    rw [← Term.length_members, ← hmembers] at hothersFit
    refine ⟨written :: others, by simp, ?_, ?_, ?_, ⟨hfits, hothersFit⟩, ?_⟩
    · rw [List.map_cons, List.intercalate_cons_of_ne_nil (by simpa using hne)]
      simp
    · exact List.forall_mem_cons.mpr ⟨hderives, hothers⟩
    · exact List.forall_mem_cons.mpr ⟨hbounds, hothersBounds⟩
    · rw [List.flatMap_cons, hothersMembers, hmembers]
      rfl
  | case5 => cases h

theorem written_of_next {text rest : List Char} {segment : Segment}
    (h : next text = .ok (some (segment, rest))) :
    ∃ written : WrittenSegment, text = written.text ++ rest ∧ written.Derives ∧
      written.WithinLimits ∧ segment.expressionSize = written.expressionSize := by
  unfold next at h
  split at h
  · cases h
  · cases h
    exact ⟨.star, rfl, trivial, trivial, rfl⟩
  · cases h
  next tail =>
    split at h
    · cases h
    next terms rest' hterms =>
      cases h
      obtain ⟨written, hne, rfl, hderives, hbounds, hfits, hmembers⟩ := written_of_readTerms hterms
      refine ⟨.set written, by simp [WrittenSegment.text], ⟨hne, hderives⟩, ⟨hbounds, hfits⟩, ?_⟩
      exact expressionSize_of_members hmembers
  next c tail hstar hcomma hopening =>
    cases h
    exact ⟨.literal c, rfl, ⟨hstar, hopening, hcomma⟩, trivial, rfl⟩

/-- The size is checked before every segment and at the end; as it only grows, the last check is all
that matters. -/
theorem written_of_readAll {size : Nat} {text : List Char} {segments : List Segment}
    (h : readAll size text = .ok segments) :
    ∃ written : List WrittenSegment, text = written.flatMap WrittenSegment.text ∧
      (∀ segment ∈ written, segment.Derives) ∧ (∀ segment ∈ written, segment.WithinLimits) ∧
      size + (written.map WrittenSegment.expressionSize).sum ≤ maxExpressionSize := by
  fun_induction readAll size text generalizing segments with
  | case1 => cases h
  | case2 => cases h
  | case3 size text hsize hnext =>
    cases h
    rw [eq_nil_of_next hnext]
    exact ⟨[], rfl, by simp, by simp, Nat.le_of_not_lt hsize⟩
  | case4 => cases h
  | case5 size text hsize segment rest hnext more hmore ih =>
    cases h
    obtain ⟨written, rfl, hderives, hlimits, hsame⟩ := written_of_next hnext
    obtain ⟨others, rfl, hothers, hothersLimits, hsum⟩ := ih hmore
    refine ⟨written :: others, List.flatMap_cons.symm, ?_, ?_, ?_⟩
    · exact List.forall_mem_cons.mpr ⟨hderives, hothers⟩
    · exact List.forall_mem_cons.mpr ⟨hlimits, hothersLimits⟩
    · rw [hsame] at hsum
      rw [List.map_cons, List.sum_cons, ← Nat.add_assoc]
      exact hsum

/-! What has a derivation within the limits is read -/

theorem readTerm_of_written {written : WrittenTerm} (hderives : written.Derives)
    (hbounds : written.InBounds) {count : Nat} (hfits : written.Fits count) {c : Char}
    (hc : c.isDigit = false ∧ c ≠ '-') (rest : List Char) :
    ∃ term : Term, readTerm count (written.text ++ c :: rest) = .ok (term, c :: rest) ∧
      written.members = term.members := by
  cases written with
  | number digits =>
    exact ⟨.single (spelled digits), readTerm_number hderives.spells hbounds hc count rest,
      members_number digits⟩
  | range left right =>
    obtain ⟨hleft, hright⟩ := hderives
    obtain ⟨-, hmax, hle⟩ := hbounds
    refine ⟨⟨spelled left, spelled right, hle⟩, ?_, rfl⟩
    rw [WrittenTerm.text, List.append_assoc, List.cons_append,
      readTerm_range hleft.spells hright.spells hle hmax hc.1, if_neg]
    rw [← Term.length_members]
    exact Nat.not_lt.mpr hfits

theorem readTerms_of_written {written : List WrittenTerm} (hne : written ≠ [])
    (hderives : ∀ term ∈ written, term.Derives) (hbounds : ∀ term ∈ written, term.InBounds)
    {count : Nat} (hfits : WrittenTerm.AllFit count written) (rest : List Char) :
    ∃ terms, readTerms count
        ([','].intercalate (written.map WrittenTerm.text) ++ ']' :: rest) = .ok (terms, rest) ∧
      written.flatMap WrittenTerm.members = Term.allMembers terms := by
  induction written generalizing count with
  | nil => contradiction
  | cons term others ih =>
    obtain ⟨hterm, hothers⟩ := List.forall_mem_cons.mp hderives
    obtain ⟨hin, hothersIn⟩ := List.forall_mem_cons.mp hbounds
    obtain ⟨hfit, hothersFit⟩ := hfits
    by_cases hlast : others = []
    · have hclosing : ']'.isDigit = false ∧ ']' ≠ '-' := by decide
      obtain ⟨value, hread, hmembers⟩ := readTerm_of_written hterm hin hfit hclosing rest
      subst hlast
      refine ⟨[value], ?_, by simp [Term.allMembers, hmembers]⟩
      rw [List.map_singleton, List.intercalate_singleton]
      exact readTerms_last hread
    · have hcomma : ','.isDigit = false ∧ ',' ≠ '-' := by decide
      obtain ⟨value, hread, hmembers⟩ := readTerm_of_written hterm hin hfit hcomma
        ([','].intercalate (others.map WrittenTerm.text) ++ ']' :: rest)
      rw [hmembers, Term.length_members] at hothersFit
      obtain ⟨values, hmore, hothersMembers⟩ := ih hlast hothers hothersIn hothersFit
      refine ⟨value :: values, ?_, ?_⟩
      · rw [List.map_cons, List.intercalate_cons_of_ne_nil (by simpa using hlast),
          List.append_assoc, List.append_assoc, List.singleton_append]
        exact readTerms_more hread hmore
      · rw [List.flatMap_cons, hothersMembers, hmembers]
        rfl

theorem next_of_written {written : WrittenSegment} (hderives : written.Derives)
    (hlimits : written.WithinLimits) (rest : List Char) :
    ∃ segment, next (written.text ++ rest) = .ok (some (segment, rest)) ∧
      segment.expressionSize = written.expressionSize := by
  cases written with
  | literal c =>
    obtain ⟨hstar, hopening, hcomma⟩ := hderives
    exact ⟨.literal c, next_literal hstar hopening hcomma rest, rfl⟩
  | star => exact ⟨.star, rfl, rfl⟩
  | set terms =>
    obtain ⟨hne, hterms⟩ := hderives
    obtain ⟨hbounds, hfits⟩ := hlimits
    obtain ⟨values, hread, hmembers⟩ := readTerms_of_written hne hterms hbounds hfits rest
    refine ⟨.set values, ?_, expressionSize_of_members hmembers⟩
    rw [WrittenSegment.text, List.cons_append, List.append_assoc, List.singleton_append]
    exact next_set hread

theorem readAll_of_written {written : List WrittenSegment}
    (hderives : ∀ segment ∈ written, segment.Derives)
    (hlimits : ∀ segment ∈ written, segment.WithinLimits) {size : Nat}
    (hsize : size + (written.map WrittenSegment.expressionSize).sum ≤ maxExpressionSize) :
    ∃ segments, readAll size (written.flatMap WrittenSegment.text) = .ok segments := by
  induction written generalizing size with
  | nil => exact ⟨[], readAll_nil hsize⟩
  | cons segment others ih =>
    obtain ⟨hsegment, hothers⟩ := List.forall_mem_cons.mp hderives
    obtain ⟨hlimit, hothersLimits⟩ := List.forall_mem_cons.mp hlimits
    rw [List.map_cons, List.sum_cons] at hsize
    obtain ⟨value, hnext, hsame⟩ := next_of_written hsegment hlimit
      (others.flatMap WrittenSegment.text)
    have hrest : size + value.expressionSize +
        (others.map WrittenSegment.expressionSize).sum ≤ maxExpressionSize := by omega
    obtain ⟨values, hread⟩ := ih hothers hothersLimits hrest
    rw [List.flatMap_cons]
    exact ⟨value :: values, readAll_cons hnext (by omega) hread⟩

end Segment

/-- A text is accepted as a pattern, however far it is to reach, iff it is derived from the grammar
within the limits. -/
theorem Pattern.compile_ok_iff_derives (text : String) (anchor : Anchor) :
    (∃ p, Pattern.compile text anchor = .ok p) ↔
      ∃ segments : List WrittenSegment, text.toList = segments.flatMap WrittenSegment.text ∧
        (∀ segment ∈ segments, segment.Derives) ∧
        (∀ segment ∈ segments, segment.WithinLimits) ∧
        1 + (segments.map WrittenSegment.expressionSize).sum ≤ maxExpressionSize := by
  constructor
  · rintro ⟨p, hp⟩
    have hread := p.segments_eq
    rw [(Pattern.compile_eq_ok hp).1] at hread
    exact Segment.written_of_readAll hread
  · rintro ⟨written, htext, hderives, hlimits, hsize⟩
    obtain ⟨segments, hread⟩ := Segment.readAll_of_written hderives hlimits hsize
    rw [← htext] at hread
    exact ⟨_, Pattern.compile_of_readAll anchor hread⟩

end NodeQuery.Host

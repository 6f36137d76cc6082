import NodeQuery.Proofs.Host.Matching

/-!
# Sizes of bracket sets

The limit on the members of a set is checked whenever a range is read and at no other time. So the
members of a set up to the end of its last range are within the limit, and whatever a set has above
it are single numbers behind all ranges. Their number is bounded by the size of the pattern alone.
-/
namespace NodeQuery.Host

/-- The terms are some that bring a set, of `count` members so far, to the limit at most, and single
numbers behind them. -/
def Term.WithinLimit (count : Nat) (terms : List Term) : Prop :=
  ∃ limited numbers, terms = limited ++ numbers ∧
    (limited = [] ∨ count + (Term.allMembers limited).length ≤ Segment.maxSetSize) ∧
    ∀ term ∈ numbers, term.size = 1

namespace Segment
open Term

theorem withinLimit_nil (count : Nat) : WithinLimit count [] := ⟨[], [], rfl, .inl rfl, by simp⟩

/-- A term in front keeps the limit if it is a number, or a range that was checked. -/
theorem withinLimit_cons {count : Nat} {term : Term} {more : List Term}
    (hterm : term.size = 1 ∨ count + term.size ≤ maxSetSize)
    (hmore : WithinLimit (count + term.size) more) : WithinLimit count (term :: more) := by
  obtain ⟨limited, numbers, rfl, hlimited, hnumbers⟩ := hmore
  by_cases hnil : limited = []
  · subst hnil
    rcases hterm with hnumber | hrange
    · exact ⟨[], term :: numbers, rfl, .inl rfl, List.forall_mem_cons.mpr ⟨hnumber, hnumbers⟩⟩
    · refine ⟨[term], numbers, rfl, .inr ?_, hnumbers⟩
      simpa [allMembers, length_members] using hrange
  · refine ⟨term :: limited, numbers, rfl, .inr ?_, hnumbers⟩
    rw [length_allMembers_cons, ← Nat.add_assoc]
    exact hlimited.resolve_left hnil

theorem size_of_readTerm {count : Nat} {text rest : List Char} {term : Term}
    (h : readTerm count text = .ok (term, rest)) :
    term.size = 1 ∨ count + term.size ≤ maxSetSize := by
  rcases readTerm_cases h with ⟨digits, n, -, rfl, -, -⟩ | ⟨left, right, -, -, -, -, hfits⟩
  · exact .inl (by simp [single, size])
  · exact .inr hfits

theorem withinLimit_of_readTerms {count : Nat} {text rest : List Char} {terms : List Term}
    (h : readTerms count text = .ok (terms, rest)) : WithinLimit count terms := by
  fun_induction readTerms count text generalizing terms rest with
  | case1 => cases h
  | case2 count text term tail hterm =>
    cases h
    exact withinLimit_cons (size_of_readTerm hterm) (withinLimit_nil _)
  | case3 => cases h
  | case4 count text term tail hterm more tail' hmore ih =>
    cases h
    exact withinLimit_cons (size_of_readTerm hterm) (ih hmore)
  | case5 => cases h

theorem withinLimit_of_readAll {size : Nat} {text : List Char} {segments : List Segment}
    (h : readAll size text = .ok segments) {terms : List Term} (hset : .set terms ∈ segments) :
    WithinLimit 0 terms := by
  fun_induction readAll size text generalizing segments with
  | case1 => cases h
  | case2 => cases h
  | case3 =>
    cases h
    simp at hset
  | case4 => cases h
  | case5 size text _ segment rest hnext more hmore ih =>
    cases h
    rcases List.mem_cons.mp hset with rfl | hset
    · obtain ⟨tail, -, hterms⟩ := readTerms_of_next hnext
      exact withinLimit_of_readTerms hterms
    · exact ih hmore hset

/-! The bound by the size of the pattern -/

theorem size_le_of_readAll {size : Nat} {text : List Char} {segments : List Segment}
    (h : readAll size text = .ok segments) : size ≤ maxExpressionSize := by
  unfold readAll at h
  split at h
  · cases h
  next hsize => exact Nat.le_of_not_lt hsize

/-- The size is checked again behind every segment. -/
theorem expressionSize_le_of_mem {size : Nat} {text : List Char} {segments : List Segment}
    (h : readAll size text = .ok segments) {segment : Segment} (hmem : segment ∈ segments) :
    size + segment.expressionSize ≤ maxExpressionSize := by
  fun_induction readAll size text generalizing segments with
  | case1 => cases h
  | case2 => cases h
  | case3 =>
    cases h
    simp at hmem
  | case4 => cases h
  | case5 size text _ head rest _ more hmore ih =>
    cases h
    rcases List.mem_cons.mp hmem with rfl | hmem
    · exact size_le_of_readAll hmore
    · have hlater := ih hmore hmem
      omega

theorem length_le_length_flatMap_toDigits (numbers : List Nat) :
    numbers.length ≤ (numbers.flatMap (Nat.toDigits 10)).length := by
  induction numbers with
  | nil => simp
  | cons n numbers ih =>
    have hdigit : 0 < (Nat.toDigits 10 n).length := List.length_pos_iff.mpr Nat.toDigits_ne_nil
    rw [List.flatMap_cons, List.length_append, List.length_cons]
    omega

/-- A member takes a digit and a bar, but for the last one, and a set four bytes around them. -/
theorem le_expressionSize_set (terms : List Term) :
    2 * (allMembers terms).length + 3 ≤ (Segment.set terms).expressionSize := by
  have hdigits := length_le_length_flatMap_toDigits (allMembers terms)
  dsimp only [expressionSize]
  omega

/-! A set above the limit -/

theorem length_flatMap_toDigits_range'_le {first size width : Nat}
    (h : first + size ≤ 10 ^ width) (hwidth : 0 < width) :
    ((List.range' first size).flatMap (Nat.toDigits 10)).length ≤ size * width := by
  induction size generalizing first with
  | zero => simp
  | succ size ih =>
    have hfirst : (Nat.toDigits 10 first).length ≤ width :=
      (Nat.length_toDigits_le_iff (by decide) hwidth).mpr (by omega)
    have hlater : first + 1 + size ≤ 10 ^ width := by omega
    have hmore := ih hlater
    rw [List.range'_succ, List.flatMap_cons, List.length_append, Nat.succ_mul]
    omega

theorem expressionSize_set_le {terms : List Term} {count digits : Nat}
    (hcount : (allMembers terms).length ≤ count)
    (hdigits : ((allMembers terms).flatMap (Nat.toDigits 10)).length ≤ digits) :
    (Segment.set terms).expressionSize ≤ 4 + digits + (count - 1) := by
  dsimp only [expressionSize]
  omega

/-- A range that takes the whole limit, and one more number. -/
def overfullTerms : List Term := [⟨0, 9999, by decide⟩, .single 5]

theorem length_overfullTerms : (allMembers overfullTerms).length = 10001 := by
  simp [allMembers, overfullTerms, length_members, size, single]

theorem expressionSize_overfullTerms :
    (Segment.set overfullTerms).expressionSize ≤ 4 + 39001 + (10001 - 1) := by
  have hmembers : allMembers overfullTerms =
      (List.range' 0 1000 ++ List.range' (0 + 1000) 9000) ++ [5] := by
    rw [List.range'_append_1]
    simp [allMembers, overfullTerms, members, size, single]
  have hshort : ((List.range' 0 1000).flatMap (Nat.toDigits 10)).length ≤ 1000 * 3 :=
    length_flatMap_toDigits_range'_le (by decide) (by decide)
  have hlong : ((List.range' (0 + 1000) 9000).flatMap (Nat.toDigits 10)).length ≤ 9000 * 4 :=
    length_flatMap_toDigits_range'_le (by decide) (by decide)
  have hlast : ([5].flatMap (Nat.toDigits 10)).length ≤ 1 := by decide
  refine expressionSize_set_le (Nat.le_of_eq length_overfullTerms) ?_
  rw [hmembers, List.flatMap_append, List.flatMap_append, List.length_append, List.length_append]
  exact Nat.add_le_add (Nat.add_le_add hshort hlong) hlast

theorem readAll_overfull : readAll 1 "[0-9999,5]".toList = .ok [.set overfullTerms] := by
  have hnext : next "[0-9999,5]".toList = .ok (some (.set overfullTerms, [])) :=
    next_set (readTerms_more rfl (readTerms_last rfl))
  have hrest : readAll (1 + (Segment.set overfullTerms).expressionSize) [] = .ok [] :=
    readAll_nil (Nat.le_trans (Nat.add_le_add_left expressionSize_overfullTerms 1) (by decide))
  exact readAll_cons hnext (by decide) hrest

end Segment

namespace Pattern

/-- In a set of an accepted pattern all members are within the limit but for single numbers behind
its last range, and there are never more members than the pattern has room for. -/
theorem set_limited_of_compile {text : String} {anchor : Anchor} {p : Pattern}
    (h : compile text anchor = .ok p) {terms : List Term} (hset : .set terms ∈ p.segments) :
    (∃ limited numbers, terms = limited ++ numbers ∧
      (Term.allMembers limited).length ≤ Segment.maxSetSize ∧ ∀ term ∈ numbers, term.size = 1) ∧
      2 * (Term.allMembers terms).length + 4 ≤ maxExpressionSize := by
  have hread := p.segments_eq
  rw [(compile_eq_ok h).1] at hread
  constructor
  · obtain ⟨limited, numbers, hterms, hlimited, hnumbers⟩ :=
      Segment.withinLimit_of_readAll hread hset
    refine ⟨limited, numbers, hterms, ?_, hnumbers⟩
    rcases hlimited with rfl | hsize
    · simp [Term.allMembers]
    · rwa [Nat.zero_add] at hsize
  · have hpattern := Segment.expressionSize_le_of_mem hread hset
    have hmembers := Segment.le_expressionSize_set terms
    omega

/-- A set with one member more than the limit, all of them but the last from a range. -/
theorem set_limited_of_compile_overfull :
    ∃ p, compile "[0-9999,5]" .whole = .ok p ∧ .set Segment.overfullTerms ∈ p.segments ∧
      (∃ limited numbers, Segment.overfullTerms = limited ++ numbers ∧
        (Term.allMembers limited).length ≤ Segment.maxSetSize ∧
        ∀ term ∈ numbers, term.size = 1) ∧
      2 * (Term.allMembers Segment.overfullTerms).length + 4 ≤ maxExpressionSize := by
  have hcompile := compile_of_readAll .whole Segment.readAll_overfull
  have hset : .set Segment.overfullTerms ∈ [Segment.set Segment.overfullTerms] :=
    List.mem_singleton_self _
  exact ⟨_, hcompile, hset, set_limited_of_compile hcompile hset⟩

/-- The number behind the range is not checked, so a set can have more members than the limit. -/
theorem not_length_allMembers_le_maxSetSize :
    ¬ ∀ text anchor p terms, compile text anchor = .ok p → .set terms ∈ p.segments →
      (Term.allMembers terms).length ≤ Segment.maxSetSize := by
  intro h
  have hcompile := compile_of_readAll .whole Segment.readAll_overfull
  have hle := h _ _ _ Segment.overfullTerms hcompile (List.mem_singleton_self _)
  rw [Segment.length_overfullTerms] at hle
  exact absurd hle (by decide)

end Pattern

end NodeQuery.Host

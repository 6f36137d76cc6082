import NodeQuery.Proofs.RowSet.Refinement

/-!
# Sets inside their universes

A set is bounded if it has no member at or above its size. Every operation keeps that as long as
indices below the size are added, so the sets that a history inside its universes builds are
bounded. A checked operation stops at an index that is not below the size; where it does not stop it
is the operation itself.
-/
namespace NodeQuery.RowSet

/-- No index at or above the size is a member. -/
def Bounded (s : RowSet) : Prop := ∀ index, s.contains index = true → index < s.size

theorem bounded_full (size : Nat) : (full size).Bounded := by
  intro index hindex
  rw [contains_full] at hindex
  exact of_decide_eq_true hindex

section Operations
variable {s t : RowSet}

theorem Bounded.filter (h : s.Bounded) (test : Nat → Bool) : (s.filter test).Bounded := by
  intro index hindex
  rw [contains_filter, Bool.and_eq_true] at hindex
  rw [size_filter]
  exact h index hindex.1

theorem bounded_complement (s : RowSet) (size : Nat) : (s.complement size).Bounded := by
  intro index hindex
  rw [contains_complement, Bool.and_eq_true] at hindex
  rw [size_complement]
  exact of_decide_eq_true hindex.1

theorem Bounded.union (hs : s.Bounded) (ht : t.Bounded) : (s.union t).Bounded := by
  intro index hindex
  rw [contains_union, Bool.or_eq_true] at hindex
  rcases hindex with hleft | hright
  · exact lt_max_of_lt_left (hs index hleft)
  · exact lt_max_of_lt_right (ht index hright)

theorem Bounded.inter (hs : s.Bounded) (t : RowSet) : (s.inter t).Bounded := by
  intro index hindex
  rw [contains_inter, Bool.and_eq_true] at hindex
  exact lt_max_of_lt_left (hs index hindex.1)

theorem Refines.bounded {size : Nat} {members : Finset Nat} (h : Refines s size members) :
    s.Bounded := by
  intro index hindex
  rw [h.size_eq]
  exact h.lt_size index ((h.contains_iff index).mp hindex)

/-- Whatever has been done to a set inside its universe, it is bounded. -/
theorem History.bounded {h : History} (hin : h.InBounds) : h.rows.Bounded :=
  (History.refines hin).bounded

end Operations

/-! Checked operations -/

/-- Changes the set at an index below its size and at no other. -/
def checked (change : RowSet → Nat → RowSet) (s : RowSet) (index : Nat) : Option RowSet :=
  if index < s.size then some (change s index) else none

/-- As `filter`, with every insertion checked. -/
def checkedFilter (s : RowSet) (test : Nat → Bool) : Option RowSet :=
  (s.toList.filter test).foldlM (checked insert) (empty s.size)

/-- As `complement`, with every removal checked. -/
def checkedComplement (s : RowSet) (size : Nat) : Option RowSet :=
  s.toList.foldlM (checked erase) (full size)

/-- Checks let through exactly the indices below the size, which no change alters. -/
theorem foldlM_checked_eq_some_iff {change : RowSet → Nat → RowSet}
    (hsize : ∀ s index, (change s index).size = s.size) {indices : List Nat} {s result : RowSet} :
    indices.foldlM (checked change) s = some result ↔
      (∀ index ∈ indices, index < s.size) ∧ indices.foldl change s = result := by
  induction indices generalizing s with
  | nil => simp
  | cons index indices ih =>
    rw [List.foldlM_cons, List.forall_mem_cons, List.foldl_cons]
    by_cases hindex : index < s.size
    · have hfirst : checked change s index = some (change s index) := if_pos hindex
      have hrest := ih (s := change s index)
      rw [hsize] at hrest
      rw [hfirst, and_iff_right hindex]
      exact hrest
    · have hfirst : checked change s index = none := if_neg hindex
      simp [hfirst, hindex]

theorem Bounded.checkedFilter {s : RowSet} (h : s.Bounded) (test : Nat → Bool) :
    s.checkedFilter test = some (s.filter test) := by
  have hinside : ∀ index ∈ s.toList.filter test, index < (empty s.size).size := by
    intro index hindex
    exact h index (mem_toList.mp (List.mem_filter.mp hindex).1)
  exact (foldlM_checked_eq_some_iff size_insert).mpr ⟨hinside, rfl⟩

/-- Only members are removed, so they have to lie inside the universe of the complement. -/
theorem checkedComplement_eq {s : RowSet} {size : Nat}
    (h : ∀ index, s.contains index = true → index < size) :
    s.checkedComplement size = some (s.complement size) := by
  have hinside : ∀ index ∈ s.toList, index < (full size).size := by
    intro index hindex
    exact h index (mem_toList.mp hindex)
  exact (foldlM_checked_eq_some_iff size_erase).mpr ⟨hinside, rfl⟩

end NodeQuery.RowSet

import Mathlib.Order.Lattice
import NodeQuery.Proofs.RowSet.Membership

/-!
# Laws of union and intersection

The size and the members determine the words, so every law of union and intersection can be read
off the members and the sizes. Combining takes the larger size, in which words that an operand
lacks count as zero: all laws of a distributive lattice hold across sizes, but absorption needs that
the absorbed set is not the larger one.
-/
namespace NodeQuery.RowSet

theorem eq_iff_contains {a b : RowSet} :
    a = b ↔ a.size = b.size ∧ ∀ index, a.contains index = b.contains index := by
  constructor
  · intro h
    subst h
    exact ⟨rfl, fun _ => rfl⟩
  · intro h
    exact eq_of_contains h.1 h.2

theorem eq_iff_words {a b : RowSet} : a = b ↔ a.words = b.words ∧ a.size = b.size := by
  cases a
  cases b
  rw [mk.injEq]
  exact and_comm

section Laws
variable (a b c : RowSet)

theorem union_comm : a.union b = b.union a :=
  eq_of_contains (Nat.max_comm _ _) fun index => by
    rw [contains_union, contains_union, Bool.or_comm]

theorem inter_comm : a.inter b = b.inter a :=
  eq_of_contains (Nat.max_comm _ _) fun index => by
    rw [contains_inter, contains_inter, Bool.and_comm]

theorem union_assoc : (a.union b).union c = a.union (b.union c) :=
  eq_of_contains (Nat.max_assoc _ _ _) fun index => by
    simp only [contains_union, Bool.or_assoc]

theorem inter_assoc : (a.inter b).inter c = a.inter (b.inter c) :=
  eq_of_contains (Nat.max_assoc _ _ _) fun index => by
    simp only [contains_inter, Bool.and_assoc]

theorem union_self : a.union a = a :=
  eq_of_contains (Nat.max_self _) fun index => by rw [contains_union, Bool.or_self]

theorem inter_self : a.inter a = a :=
  eq_of_contains (Nat.max_self _) fun index => by rw [contains_inter, Bool.and_self]

theorem union_inter_distrib : a.union (b.inter c) = (a.union b).inter (a.union c) :=
  eq_of_contains (sup_sup_distrib_left _ _ _) fun index => by
    simp only [contains_union, contains_inter, Bool.or_and_distrib_left]

theorem inter_union_distrib : a.inter (b.union c) = (a.inter b).union (a.inter c) :=
  eq_of_contains (sup_sup_distrib_left _ _ _) fun index => by
    simp only [contains_union, contains_inter, Bool.and_or_distrib_left]

/-- What is not larger adds nothing to the universe. -/
theorem size_absorb {i j : Nat} (h : j ≤ i) : max i (max i j) = i := by
  rw [max_eq_left h, max_self]

variable {a b} in
theorem union_inter_self (h : b.size ≤ a.size) : a.union (a.inter b) = a :=
  eq_of_contains (size_absorb h) fun index => by
    rw [contains_union, contains_inter]
    cases a.contains index <;> simp

variable {a b} in
theorem inter_union_self (h : b.size ≤ a.size) : a.inter (a.union b) = a :=
  eq_of_contains (size_absorb h) fun index => by
    rw [contains_inter, contains_union]
    cases a.contains index <;> simp

end Laws

/-- Sets are equal, in words and size, iff they have one size and the same members. Union and
intersection are commutative, associative and idempotent and distribute over each other, whatever
the sizes, and each absorbs the other by a set that is not larger. -/
theorem lattice_laws (a b c : RowSet) :
    (((a == b) = true ↔ a.words = b.words ∧ a.size = b.size) ∧
      ((a == b) = true ↔
        a.size = b.size ∧ ∀ index, a.contains index = true ↔ b.contains index = true)) ∧
    (a.union b = b.union a ∧ a.inter b = b.inter a) ∧
    ((a.union b).union c = a.union (b.union c) ∧ (a.inter b).inter c = a.inter (b.inter c)) ∧
    (a.union a = a ∧ a.inter a = a) ∧
    (a.union (b.inter c) = (a.union b).inter (a.union c) ∧
      a.inter (b.union c) = (a.inter b).union (a.inter c)) ∧
    (b.size ≤ a.size → a.union (a.inter b) = a ∧ a.inter (a.union b) = a) := by
  refine ⟨⟨?_, ?_⟩, ⟨union_comm a b, inter_comm a b⟩, ⟨union_assoc a b c, inter_assoc a b c⟩,
    ⟨union_self a, inter_self a⟩, ⟨union_inter_distrib a b c, inter_union_distrib a b c⟩, ?_⟩
  · rw [beq_iff_eq]
    exact eq_iff_words
  · rw [beq_iff_eq, eq_iff_contains]
    exact and_congr_right fun _ => forall_congr' fun index => Bool.eq_iff_iff
  · intro h
    exact ⟨union_inter_self h, inter_union_self h⟩

/-- Three sets that lie in one, two and three words. -/
theorem lattice_laws_mixed_sizes :
    (full 3).size ≤ (full 70).size ∧
      (full 70).union ((full 70).inter (full 3)) = full 70 ∧
      (full 70).inter ((full 70).union (full 3)) = full 70 ∧
      (full 70).union ((full 3).inter (empty 130)) =
        ((full 70).union (full 3)).inter ((full 70).union (empty 130)) := by
  have hsize : (full 3).size ≤ (full 70).size := by decide
  obtain ⟨-, -, -, -, hdistrib, habsorb⟩ := lattice_laws (full 70) (full 3) (empty 130)
  exact ⟨hsize, (habsorb hsize).1, (habsorb hsize).2, hdistrib.1⟩

/-- A larger set is not absorbed, even if it is empty. -/
example : (full 3).union ((full 3).inter (empty 70)) ≠ full 3 := by decide

end NodeQuery.RowSet

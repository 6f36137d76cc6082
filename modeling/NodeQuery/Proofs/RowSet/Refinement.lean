import Mathlib.Algebra.Order.Floor.Div
import Mathlib.Data.Finset.Range
import NodeQuery.Proofs.RowSet.Membership

/-!
# Packed sets and finite sets

A history says how a set of rows came about. Read with packed words it builds a set of rows, read
with finite sets it builds the members. Every operation keeps the two in step, so every history
whose indices stay inside their universes ends in words that hold its members and no other bit.
-/
namespace NodeQuery.RowSet

/-- How a set came about: made empty or full, then filled, changed and combined. -/
inductive History where
  | new (size : Nat) (all : Bool)
  | fill (before : History)
  | insert (before : History) (index : Nat)
  | erase (before : History) (index : Nat)
  | union (left right : History)
  | inter (left right : History)
  deriving DecidableEq, Repr

namespace History

/-- The size of the universe; combining takes the larger one. -/
def size : History → Nat
  | .new size _ => size
  | .fill before | .insert before _ | .erase before _ => before.size
  | .union left right | .inter left right => max left.size right.size

/-- Indices are added and removed inside the universe only. -/
def InBounds : History → Prop
  | .new _ _ => True
  | .fill before => before.InBounds
  | .insert before index | .erase before index => before.InBounds ∧ index < before.size
  | .union left right | .inter left right => left.InBounds ∧ right.InBounds

/-- What the operations build of words. -/
def rows : History → RowSet
  | .new size all => if all then full size else empty size
  | .fill before => before.rows.fill
  | .insert before index => before.rows.insert index
  | .erase before index => before.rows.erase index
  | .union left right => left.rows.union right.rows
  | .inter left right => left.rows.inter right.rows

/-- What the operations build of finite sets. -/
def members : History → Finset Nat
  | .new size all => if all then Finset.range size else ∅
  | .fill before => Finset.range before.size
  | .insert before index => Insert.insert index before.members
  | .erase before index => before.members.erase index
  | .union left right => left.members ∪ right.members
  | .inter left right => left.members ∩ right.members

end History

/-- The words hold exactly the members, all of them below the size. -/
structure Refines (s : RowSet) (size : Nat) (members : Finset Nat) : Prop where
  size_eq : s.size = size
  lt_size : ∀ index ∈ members, index < size
  contains_iff : ∀ index, s.contains index = true ↔ index ∈ members

/-! What one operation keeps -/

theorem refines_empty (size : Nat) : Refines (empty size) size ∅ :=
  ⟨rfl, by simp, by simp⟩

theorem refines_full (size : Nat) : Refines (full size) size (Finset.range size) :=
  ⟨rfl, by simp, by simp⟩

namespace Refines
variable {s t : RowSet} {m n : Nat} {a b : Finset Nat}

theorem fill (h : Refines s m a) : Refines s.fill m (Finset.range m) := by
  have hfull := refines_full s.size
  rw [h.size_eq] at hfull
  rwa [RowSet.fill, h.size_eq]

theorem insert (h : Refines s m a) {index : Nat} (hindex : index < m) :
    Refines (s.insert index) m (Insert.insert index a) := by
  have hword : index / 64 < s.words.size := by
    rw [s.size_words, h.size_eq, wordCount]
    omega
  refine ⟨h.size_eq, ?_, ?_⟩
  · exact (Finset.forall_mem_insert _ _ _).mpr ⟨hindex, h.lt_size⟩
  · intro other
    rw [contains_insert hword, Bool.or_eq_true, h.contains_iff, beq_iff_eq, Finset.mem_insert,
      or_comm]

theorem erase (h : Refines s m a) (index : Nat) : Refines (s.erase index) m (a.erase index) := by
  refine ⟨h.size_eq, ?_, ?_⟩
  · intro other hother
    exact h.lt_size other (Finset.mem_of_mem_erase hother)
  · intro other
    rw [contains_erase, Bool.and_eq_true, h.contains_iff, bne_iff_ne, Finset.mem_erase, and_comm]

theorem union (hs : Refines s m a) (ht : Refines t n b) :
    Refines (s.union t) (max m n) (a ∪ b) := by
  refine ⟨congrArg₂ max hs.size_eq ht.size_eq, ?_, ?_⟩
  · intro index hindex
    rcases Finset.mem_union.mp hindex with hleft | hright
    · exact lt_max_of_lt_left (hs.lt_size index hleft)
    · exact lt_max_of_lt_right (ht.lt_size index hright)
  · intro index
    rw [contains_union, Bool.or_eq_true, hs.contains_iff, ht.contains_iff, Finset.mem_union]

theorem inter (hs : Refines s m a) (ht : Refines t n b) :
    Refines (s.inter t) (max m n) (a ∩ b) := by
  refine ⟨congrArg₂ max hs.size_eq ht.size_eq, ?_, ?_⟩
  · intro index hindex
    exact lt_max_of_lt_left (hs.lt_size index (Finset.mem_of_mem_inter_left hindex))
  · intro index
    rw [contains_inter, Bool.and_eq_true, hs.contains_iff, ht.contains_iff, Finset.mem_inter]

end Refines

/-! What a whole history keeps -/

theorem History.refines {h : History} (hin : h.InBounds) : Refines h.rows h.size h.members := by
  induction h with
  | new size all =>
    cases all with
    | false => exact refines_empty size
    | true => exact refines_full size
  | fill before ih => exact (ih hin).fill
  | insert before index ih => exact (ih hin.1).insert hin.2
  | erase before index ih => exact (ih hin.1).erase index
  | union left right ihl ihr => exact (ihl hin.1).union (ihr hin.2)
  | inter left right ihl ihr => exact (ihl hin.1).inter (ihr hin.2)

/-- Every history inside its universes ends in as many words as its size needs, with no bit at or
above the size, whose members are those that finite sets would have. -/
theorem history_refines {h : History} (hin : h.InBounds) :
    h.rows.size = h.size ∧ h.rows.words.size = h.size ⌈/⌉ 64 ∧
      (∀ k word place, h.rows.words[k]? = some word → place < 64 →
        word.toBitVec.getLsbD place = true → 64 * k + place < h.size) ∧
      ∀ index, h.rows.contains index = true ↔ index ∈ h.members := by
  have hrefines := History.refines hin
  refine ⟨hrefines.size_eq, ?_, ?_, hrefines.contains_iff⟩
  · rw [h.rows.size_words, hrefines.size_eq, Nat.ceilDiv_eq_add_pred_div]
    rfl
  · intro k word place hword hplace hbit
    rw [← contains_place hword hplace] at hbit
    exact hrefines.lt_size _ ((hrefines.contains_iff _).mp hbit)

/-- A full set of 70 rows without its first and last one, united with a smaller set. -/
theorem history_refines_mixed_sizes :
    let h : History := .union (.erase (.erase (.new 70 true) 69) 0) (.insert (.new 3 false) 0)
    h.InBounds ∧ h.rows.size = 70 ∧ h.rows.words.size = 70 ⌈/⌉ 64 ∧
      (∀ k word place, h.rows.words[k]? = some word → place < 64 →
        word.toBitVec.getLsbD place = true → 64 * k + place < 70) ∧
      (h.rows.contains 0 = true ↔ 0 ∈ h.members) ∧ 0 ∈ h.members ∧ 69 ∉ h.members := by
  intro h
  have hin : h.InBounds := by simp [h, History.InBounds, History.size]
  obtain ⟨hsize, hwords, hbits, hmembers⟩ := history_refines hin
  have hadded : 0 ∈ h.members := by simp [h, History.members]
  have herased : 69 ∉ h.members := by simp [h, History.members]
  exact ⟨hin, hsize, hwords, hbits, hmembers 0, hadded, herased⟩

end NodeQuery.RowSet

import NodeQuery.Proofs.Query.Universe

/-!
# Equivalent queries

Two expressions are equivalent if they have the same truth value whatever truth values their leaves
have. Equivalent expressions select the same rows of every table, among any candidates, and the sets
that come out are equal word by word: evaluation leaves no bit behind the table and no other size.
Double complements, De Morgan's laws, distribution and absorption are cases of this, at any depth.
-/
namespace NodeQuery.Query

section Constants
open Float.Model (UnpackedFloat)

/-- Numbers that compare as equal are the same, up to the sign of zero. -/
theorem eq_or_zero_of_compare_eq {a b : UnpackedFloat} (h : a.compare b = some .eq) :
    a = b ∨ ∃ s t, a = .zero s ∧ b = .zero t := by
  cases a with
  | notANumber => cases h
  | zero s =>
    cases b with
    | zero t => exact .inr ⟨s, t, rfl, rfl⟩
    | notANumber => cases h
    | infinity t => cases t <;> cases h
    | finite t => cases t <;> cases h
  | infinity s =>
    cases b with
    | infinity t => cases s <;> cases t <;> first | exact .inl rfl | cases h
    | notANumber => cases s <;> cases h
    | zero => cases s <;> cases h
    | finite => cases s <;> cases h
  | finite s m e hm =>
    cases b with
    | notANumber => cases s <;> cases h
    | infinity t => cases s <;> cases t <;> cases h
    | zero => cases s <;> cases h
    | finite t n f hn =>
      left
      cases s with
      | negative =>
        cases t with
        | negative =>
          have horder := Option.some.inj h
          simp only [Ordering.then_eq_eq, Ordering.swap_eq_eq, Int.compare_eq_eq,
            Nat.compare_eq_eq] at horder
          obtain ⟨rfl, rfl⟩ := horder
          rfl
        | positive => cases h
      | positive =>
        cases t with
        | negative => cases h
        | positive =>
          have horder := Option.some.inj h
          simp only [Ordering.then_eq_eq, Int.compare_eq_eq, Nat.compare_eq_eq] at horder
          obtain ⟨rfl, rfl⟩ := horder
          rfl

/-- The sign of zero plays no part in comparisons. -/
theorem compare_zero (a : UnpackedFloat) (s t : UnpackedFloat.Sign) :
    a.compare (.zero s) = a.compare (.zero t) ∧
      (UnpackedFloat.zero s).compare a = (UnpackedFloat.zero t).compare a := by
  cases a with
  | finite u => cases u <;> exact ⟨rfl, rfl⟩
  | notANumber => exact ⟨rfl, rfl⟩
  | infinity u => cases u <;> exact ⟨rfl, rfl⟩
  | zero => exact ⟨rfl, rfl⟩

theorem compare_congr {a b : UnpackedFloat} (h : a.compare b = some .eq) (x : UnpackedFloat) :
    x.compare a = x.compare b ∧ a.compare x = b.compare x := by
  rcases eq_or_zero_of_compare_eq h with rfl | ⟨s, t, rfl, rfl⟩
  · exact ⟨rfl, rfl⟩
  · exact compare_zero x s t

theorem lt_iff_compare {a b : Float} :
    a < b ↔ a.toModel.unpack.compare b.toModel.unpack = some .lt :=
  decide_eq_true_iff.trans beq_iff_eq

theorem le_iff_compare {a b : Float} :
    a ≤ b ↔ (a.toModel.unpack.compare b.toModel.unpack).any Ordering.isLE = true :=
  decide_eq_true_iff

/-- Constants that are equal as numbers compare alike. -/
theorem Comparison.holds_congr {a b : Float} (h : (a == b) = true) (op : Comparison) (x : Float) :
    op.holds x a = op.holds x b := by
  have heq : a.toModel.unpack.compare b.toModel.unpack = some .eq := eq_of_beq h
  obtain ⟨hright, hleft⟩ := compare_congr heq x.toModel.unpack
  unfold Comparison.holds
  cases op with
  | lt => simp only [lt_iff_compare, hright]
  | le => simp only [le_iff_compare, hright]
  | gt => simp only [lt_iff_compare, hleft]
  | ge => simp only [le_iff_compare, hleft]
  | eq => exact congrArg (· == some Ordering.eq) hright

end Constants

/-- A truth value for every leaf. Comparisons with constants that are equal as numbers are equal
leaves, also where the constants are the two zeros. -/
structure Assignment where
  comparison : Comparison → String → Float → Bool
  node : Host.Pattern → Bool
  comparison_congr : ∀ op field {a b : Float}, (a == b) = true →
    comparison op field a = comparison op field b

namespace Expr

def truth (leaves : Assignment) : Expr → Bool
  | .compare op field value => leaves.comparison op field value
  | .node pattern => leaves.node pattern
  | .complement child => !child.truth leaves
  | .combine .and left right => left.truth leaves && right.truth leaves
  | .combine .or left right => left.truth leaves || right.truth leaves

/-- No assignment tells the expressions apart. -/
def Equivalent (e f : Expr) : Prop := ∀ leaves, e.truth leaves = f.truth leaves

variable {ρ : Type u} [Record ρ]

/-- What the leaves select at an index. -/
def leavesAt (rows : Array ρ) (candidates : RowSet) (index : Nat) : Assignment where
  comparison op field value := candidates.contains index && comparesAt rows op field value index
  node pattern := candidates.contains index && nodeAt rows pattern index
  comparison_congr := by
    intro op field a b h
    unfold comparesAt
    simp only [Comparison.holds_congr h]

theorem truth_leavesAt (e : Expr) (rows : Array ρ) (candidates : RowSet) (index : Nat) :
    e.truth (leavesAt rows candidates index) = true ↔ e.HoldsAt rows candidates index := by
  induction e with
  | compare op field value =>
    exact (Bool.and_eq_true _ _).to_iff.trans (and_congr_right fun _ => comparesAt_iff)
  | node pattern => exact (Bool.and_eq_true _ _).to_iff.trans (and_congr_right fun _ => nodeAt_iff)
  | complement child ih =>
    unfold truth HoldsAt
    rw [Bool.not_eq_true', ← Bool.not_eq_true, ih]
  | combine op left right ihl ihr =>
    cases op with
    | and =>
      unfold truth HoldsAt
      rw [Bool.and_eq_true, ihl, ihr]
    | or =>
      unfold truth HoldsAt
      rw [Bool.or_eq_true, ihl, ihr]

/-- Evaluation keeps to the table and computes truth values there. -/
theorem contains_eval (e : Expr) (rows : Array ρ) (candidates : RowSet) (index : Nat) :
    (e.eval rows candidates).contains index =
      (decide (index < rows.size) && e.truth (leavesAt rows candidates index)) := by
  rw [Bool.eq_iff_iff, contains_eval_iff, Bool.and_eq_true, decide_eq_true_eq, truth_leavesAt]

theorem size_eval {rows : Array ρ} {candidates : RowSet} (h : candidates.size = rows.size)
    (e : Expr) : (e.eval rows candidates).size = rows.size := by
  rw [size_eval_eq_universeSize, h, universeSize_self]

/-- Equivalent expressions evaluate to equal sets, size and words, from any candidates of the size
of the table. -/
theorem eval_eq_of_equivalent {e f : Expr} (h : e.Equivalent f) (rows : Array ρ)
    {candidates : RowSet} (hsize : candidates.size = rows.size) :
    e.eval rows candidates = f.eval rows candidates := by
  apply RowSet.eq_of_contains
  · rw [size_eval hsize, size_eval hsize]
  · intro index
    rw [contains_eval, contains_eval, h]

/-- De Morgan's law with the two zeros as constants, where only the second of three rows is a
candidate. -/
theorem eval_eq_of_equivalent_de_morgan :
    let idle : Expr := .compare .le "load" 0.0
    let negated : Expr := .compare .le "load" (-0.0)
    let many : Expr := .compare .gt "users" 5.0
    let e : Expr := .complement (.combine .and idle many)
    let f : Expr := .combine .or (.complement many) (.complement negated)
    let rows : Array Json := #[.null, .object [("load", .integer 0), ("users", .integer 9)], .null]
    let candidates := (RowSet.empty 3).insert 1
    e.Equivalent f ∧ candidates.size = rows.size ∧
      e.eval rows candidates = f.eval rows candidates := by
  intro idle negated many e f rows candidates
  have hequivalent : e.Equivalent f := by
    intro leaves
    have hzero : leaves.comparison .le "load" 0.0 = leaves.comparison .le "load" (-0.0) :=
      leaves.comparison_congr .le "load" (by decide)
    simp only [e, f, idle, negated, many, truth, hzero, Bool.not_and, Bool.or_comm]
  exact ⟨hequivalent, rfl, eval_eq_of_equivalent hequivalent rows rfl⟩

end Expr

end NodeQuery.Query

import NodeQuery.Proofs.Query.Meaning
import NodeQuery.Proofs.RowSet.Universe

/-!
# Evaluation stays inside its universes

Leaves keep the universe of the candidates, complements have the table's, and connectives take the
larger one of their operands. No operation of an evaluation leaves the universe of the set that it
changes, also where candidates and table differ in size: what a complement removes are rows that its
operand selects, and these never reach past the table.
-/
namespace NodeQuery.Query.Expr

/-- The size of the universe of the result, for a table and candidates of the given sizes. -/
def universeSize (tableSize candidateSize : Nat) : Expr → Nat
  | .compare .. | .node _ => candidateSize
  | .complement _ => tableSize
  | .combine _ left right =>
    max (left.universeSize tableSize candidateSize) (right.universeSize tableSize candidateSize)

theorem universeSize_self (size : Nat) (e : Expr) : e.universeSize size size = size := by
  induction e with
  | compare op field value => rfl
  | node pattern => rfl
  | complement child => rfl
  | combine op left right ihl ihr => rw [universeSize, ihl, ihr, Nat.max_self]

variable {ρ : Type u} [Record ρ]

/-- Evaluation that stops where an index is to be added to a set or removed from it that is not
below the size of the set. -/
def checkedEval (rows : Array ρ) (candidates : RowSet) : Expr → Option RowSet
  | .compare op field value => candidates.checkedFilter (comparesAt rows op field value)
  | .node pattern => candidates.checkedFilter (nodeAt rows pattern)
  | .complement child => do (← child.checkedEval rows candidates).checkedComplement rows.size
  | .combine .and left right => do
    return (← left.checkedEval rows candidates).inter (← right.checkedEval rows candidates)
  | .combine .or left right => do
    return (← left.checkedEval rows candidates).union (← right.checkedEval rows candidates)

theorem size_eval_eq_universeSize (e : Expr) (rows : Array ρ) (candidates : RowSet) :
    (e.eval rows candidates).size = e.universeSize rows.size candidates.size := by
  induction e with
  | compare op field value => exact RowSet.size_filter _ _
  | node pattern => exact RowSet.size_filter _ _
  | complement child ih => exact RowSet.size_complement _ _
  | combine op left right ihl ihr =>
    cases op with
    | and => rw [eval, RowSet.size_inter, ihl, ihr, universeSize]
    | or => rw [eval, RowSet.size_union, ihl, ihr, universeSize]

theorem lt_size_of_contains_eval {e : Expr} {rows : Array ρ} {candidates : RowSet} {index : Nat}
    (h : (e.eval rows candidates).contains index = true) : index < rows.size :=
  ((contains_eval_iff e rows candidates index).mp h).1

section Bounded
variable {candidates : RowSet}

theorem bounded_eval (h : candidates.Bounded) (e : Expr) (rows : Array ρ) :
    (e.eval rows candidates).Bounded := by
  induction e with
  | compare op field value => exact h.filter _
  | node pattern => exact h.filter _
  | complement child ih => exact RowSet.bounded_complement _ _
  | combine op left right ihl ihr =>
    cases op with
    | and => exact ihl.inter _
    | or => exact ihl.union ihr

theorem checkedEval_eq (h : candidates.Bounded) (e : Expr) (rows : Array ρ) :
    e.checkedEval rows candidates = some (e.eval rows candidates) := by
  induction e with
  | compare op field value => exact h.checkedFilter _
  | node pattern => exact h.checkedFilter _
  | complement child ih =>
    rw [checkedEval, ih]
    exact RowSet.checkedComplement_eq fun index hindex => lt_size_of_contains_eval hindex
  | combine op left right ihl ihr =>
    cases op with
    | and =>
      rw [checkedEval, ihl, ihr]
      rfl
    | or =>
      rw [checkedEval, ihl, ihr]
      rfl

/-- From any bounded candidates, whether their universe is smaller than the table or larger, every
index that an evaluation adds or removes is below the size of the set it changes, and the result is
bounded, selects rows of the table only and has the universe that its operators prescribe. A
selection from the whole table has the table's. -/
theorem eval_stays_inside (h : candidates.Bounded) (e : Expr) (rows : Array ρ) :
    e.checkedEval rows candidates = some (e.eval rows candidates) ∧
      (e.eval rows candidates).Bounded ∧
      (∀ index, (e.eval rows candidates).contains index = true → index < rows.size) ∧
      (e.eval rows candidates).size = e.universeSize rows.size candidates.size ∧
      (e.select rows).size = rows.size := by
  refine ⟨checkedEval_eq h e rows, bounded_eval h e rows, ?_, ?_, ?_⟩
  · exact fun index hindex => lt_size_of_contains_eval hindex
  · exact size_eval_eq_universeSize e rows candidates
  · exact (size_eval_eq_universeSize e rows _).trans (universeSize_self rows.size e)

/-- A complement within two rows, of a leaf that keeps the universe of 70 candidates. -/
theorem eval_stays_inside_more_candidates :
    let e : Expr := .complement (.compare .gt "load" 1.0)
    let rows : Array Json := #[.object [("load", .integer 2)], .object [("load", .integer 0)]]
    let candidates := RowSet.full 70
    candidates.Bounded ∧ e.checkedEval rows candidates = some (e.eval rows candidates) ∧
      (e.eval rows candidates).Bounded ∧
      (∀ index, (e.eval rows candidates).contains index = true → index < rows.size) ∧
      (e.eval rows candidates).size = e.universeSize rows.size candidates.size ∧
      (e.select rows).size = rows.size := by
  intro e rows candidates
  have hbounded : candidates.Bounded := RowSet.bounded_full 70
  exact ⟨hbounded, eval_stays_inside hbounded e rows⟩

end Bounded

end NodeQuery.Query.Expr

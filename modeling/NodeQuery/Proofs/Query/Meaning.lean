import NodeQuery.Proofs.RowSet.Membership
import NodeQuery.Query.Evaluation

/-!
# The meaning of query expressions

An expression holds or does not hold at an index of a table. Evaluation selects exactly the rows at
which it holds, whatever the sizes of the table and of the candidates, and a row of a table is
selected iff it is selected when it stands alone.
-/
namespace NodeQuery.Query.Expr

variable {ρ : Type u} [Record ρ]

/-- The Boolean meaning at an index. A leaf asks for a candidate; a complement asks for nothing but
that its child fails, so it also holds at indices that are no candidates. -/
def HoldsAt (rows : Array ρ) (candidates : RowSet) (index : Nat) : Expr → Prop
  | .compare op field value =>
    candidates.contains index = true ∧
      ∃ row x, rows[index]? = some row ∧ Record.number? row field = some x ∧ op.holds x value = true
  | .node pattern =>
    candidates.contains index = true ∧
      ∃ row host, rows[index]? = some row ∧ Record.hostName? row = some host ∧
        pattern.accepts host = true
  | .complement child => ¬ child.HoldsAt rows candidates index
  | .combine .and left right =>
    left.HoldsAt rows candidates index ∧ right.HoldsAt rows candidates index
  | .combine .or left right =>
    left.HoldsAt rows candidates index ∨ right.HoldsAt rows candidates index

theorem comparesAt_iff {rows : Array ρ} {op : Comparison} {field : String} {value : Float}
    {index : Nat} : comparesAt rows op field value index = true ↔
      ∃ row x, rows[index]? = some row ∧ Record.number? row field = some x ∧
        op.holds x value = true := by
  simp only [comparesAt, Option.any_eq_true, Option.bind_eq_some_iff]
  constructor
  · rintro ⟨x, ⟨row, hrow, hx⟩, hholds⟩
    exact ⟨row, x, hrow, hx, hholds⟩
  · rintro ⟨row, x, hrow, hx, hholds⟩
    exact ⟨x, ⟨row, hrow, hx⟩, hholds⟩

theorem nodeAt_iff {rows : Array ρ} {pattern : Host.Pattern} {index : Nat} :
    nodeAt rows pattern index = true ↔
      ∃ row host, rows[index]? = some row ∧ Record.hostName? row = some host ∧
        pattern.accepts host = true := by
  simp only [nodeAt, Option.any_eq_true, Option.bind_eq_some_iff]
  constructor
  · rintro ⟨host, ⟨row, hrow, hhost⟩, haccepts⟩
    exact ⟨row, host, hrow, hhost, haccepts⟩
  · rintro ⟨row, host, hrow, hhost, haccepts⟩
    exact ⟨host, ⟨row, hrow, hhost⟩, haccepts⟩

theorem contains_eval_iff (e : Expr) (rows : Array ρ) (candidates : RowSet) (index : Nat) :
    (e.eval rows candidates).contains index = true ↔
      index < rows.size ∧ e.HoldsAt rows candidates index := by
  induction e with
  | compare op field value =>
    rw [eval, RowSet.contains_filter, Bool.and_eq_true, comparesAt_iff]
    constructor
    · rintro ⟨hin, hrow⟩
      obtain ⟨row, x, hget, hx⟩ := hrow
      exact ⟨(Array.getElem?_eq_some_iff.mp hget).1, hin, row, x, hget, hx⟩
    · exact fun h => h.2
  | node pattern =>
    rw [eval, RowSet.contains_filter, Bool.and_eq_true, nodeAt_iff]
    constructor
    · rintro ⟨hin, hrow⟩
      obtain ⟨row, host, hget, hhost⟩ := hrow
      exact ⟨(Array.getElem?_eq_some_iff.mp hget).1, hin, row, host, hget, hhost⟩
    · exact fun h => h.2
  | complement child ih =>
    rw [eval, RowSet.contains_complement, Bool.and_eq_true, decide_eq_true_eq, Bool.not_eq_true',
      ← Bool.not_eq_true, ih]
    exact and_congr_right fun hlt => not_congr (and_iff_right hlt)
  | combine op left right ihl ihr =>
    cases op with
    | and =>
      rw [eval, RowSet.contains_inter, Bool.and_eq_true, ihl, ihr]
      exact and_and_left.symm
    | or =>
      rw [eval, RowSet.contains_union, Bool.or_eq_true, ihl, ihr]
      exact and_or_left.symm

/-- The meaning looks at one row and at whether its index is a candidate, at nothing else. -/
theorem holdsAt_congr {rows others : Array ρ} {candidates chosen : RowSet} {i j : Nat}
    (hrow : rows[i]? = others[j]?) (hin : candidates.contains i = chosen.contains j) (e : Expr) :
    e.HoldsAt rows candidates i ↔ e.HoldsAt others chosen j := by
  induction e with
  | compare op field value => simp only [HoldsAt, hrow, hin]
  | node pattern => simp only [HoldsAt, hrow, hin]
  | complement child ih => exact not_congr ih
  | combine op left right ihl ihr =>
    cases op with
    | and => exact and_congr ihl ihr
    | or => exact or_congr ihl ihr

theorem contains_select (e : Expr) (rows : Array ρ) {index : Nat} (h : index < rows.size) :
    (e.select rows).contains index = e.accepts rows[index] := by
  have hrow : rows[index]? = #[rows[index]][0]? := by simp [h]
  have hin : (RowSet.full rows.size).contains index = (RowSet.full 1).contains 0 := by simp [h]
  rw [Bool.eq_iff_iff, select, accepts, contains_eval_iff, contains_eval_iff,
    holdsAt_congr hrow hin]
  simp [h]

theorem accepts_node (pattern : Host.Pattern) (row : ρ) :
    (node pattern).accepts row = (Record.hostName? row).any pattern.accepts := by
  rw [accepts, eval, RowSet.contains_filter]
  simp [nodeAt]

theorem accepts_or (left right : Expr) (row : ρ) :
    (combine .or left right).accepts row = (left.accepts row || right.accepts row) :=
  RowSet.contains_union _ _ 0

/-- Evaluation computes the Boolean meaning row by row, and selection is a property of the row. -/
theorem eval_rowwise (e : Expr) (rows : Array ρ) :
    (∀ (candidates : RowSet) (index : Nat),
      (e.eval rows candidates).contains index = true ↔
        index < rows.size ∧ e.HoldsAt rows candidates index) ∧
    ∀ index : Fin rows.size, (e.select rows).contains index = e.accepts rows[index] :=
  ⟨contains_eval_iff e rows, fun index => contains_select e rows index.isLt⟩

end NodeQuery.Query.Expr

import NodeQuery.Proofs.Query.Universe
import NodeQuery.Proofs.RowSet.Views

/-!
# Views of a selection

Whichever view of the selected set is read, what is read are the rows that the query accepts. The
indices, the bits and the rows are each said here by the table and the rows' acceptance alone.
-/
namespace NodeQuery.Query.Expr

variable {ρ : Type u} [Record ρ]

/-- The indices of the rows that the query accepts, in ascending order. -/
def acceptedIndices (e : Expr) (rows : List ρ) : List Nat :=
  (List.range rows.length).filter fun index => rows[index]?.any e.accepts

theorem lt_length_of_mem_acceptedIndices {e : Expr} {rows : List ρ} {index : Nat}
    (h : index ∈ e.acceptedIndices rows) : index < rows.length :=
  List.mem_range.mp (List.mem_filter.mp h).1

theorem filterMap_range_getElem? {α : Type u} (rows : List α) :
    (List.range rows.length).filterMap (rows[·]?) = rows := by
  induction rows with
  | nil => rfl
  | cons row rows ih =>
    rw [List.length_cons, List.range_succ_eq_map, List.filterMap_cons, List.filterMap_map]
    exact congrArg (row :: ·) ih

/-- The rows at the accepted indices are the accepted rows. -/
theorem filterMap_acceptedIndices (e : Expr) (rows : List ρ) :
    (e.acceptedIndices rows).filterMap (rows[·]?) = rows.filter e.accepts := by
  conv_rhs => rw [← filterMap_range_getElem? rows]
  rw [acceptedIndices, List.filterMap_filter, List.filter_filterMap]
  congr 1
  funext index
  cases rows[index]? with
  | none => simp
  | some row => simp [Option.filter]

section Table
variable (e : Expr) (rows : List ρ)

theorem size_select : (e.select rows.toArray).size = rows.length := by
  rw [select, size_eval_eq_universeSize, RowSet.full, universeSize_self, List.size_toArray]

theorem contains_select_of_lt {index : Nat} (h : index < rows.length) :
    (e.select rows.toArray).contains index = rows[index]?.any e.accepts := by
  rw [contains_select e rows.toArray (by simpa using h)]
  simp [h]

theorem toList_select : (e.select rows.toArray).toList = e.acceptedIndices rows := by
  have hbounded : (e.select rows.toArray).Bounded := bounded_eval (RowSet.bounded_full _) e _
  rw [hbounded.toList_eq, size_select, acceptedIndices]
  exact List.filter_congr fun index hindex =>
    contains_select_of_lt e rows (List.mem_range.mp hindex)

theorem walk_select : (e.select rows.toArray).walk = e.acceptedIndices rows := by
  rw [RowSet.walk_eq_toList, toList_select]

theorem toBits_select : (e.select rows.toArray).toBits.toList = rows.map e.accepts := by
  rw [RowSet.toList_toBits, size_select]
  refine List.ext_getElem (by simp) fun index hindex _ => ?_
  have hlt : index < rows.length := by simpa using hindex
  rw [List.getElem_map, List.getElem_range, contains_select_of_lt e rows hlt]
  simp [hlt]

end Table

end NodeQuery.Query.Expr

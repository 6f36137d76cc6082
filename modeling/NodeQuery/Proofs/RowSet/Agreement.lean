import Mathlib.Logic.Function.Iterate
import NodeQuery.Proofs.RowSet.Views

/-!
# All views agree

The loops that visit the members take the lowest bit of a word away until none is left, and the
cursor does the same with a pause behind every member. Both come to the members in ascending order,
each of them once, and the cursor, once it has nothing more to yield, never yields again. The count,
the row of bits and the printed members are the length, the marks and the text of that list.
-/
namespace NodeQuery

/-! The loop over the bits of a word -/

/-- The number of zeros below the lowest bit of a word. -/
def trailingZeros (word : UInt64) : Nat :=
  ((List.range 64).find? fun place => word &&& rowBit place != 0).getD 64

theorem rowPlaces_eq_nil_iff {word : UInt64} : rowPlaces word = [] ↔ word = 0 := by
  constructor
  · intro h
    rw [← UInt64.toBitVec_inj]
    refine BitVec.eq_of_getLsbD_eq fun place hplace => ?_
    have hnot : place ∉ rowPlaces word := by simp [h]
    rw [mem_rowPlaces, not_and, Bool.not_eq_true] at hnot
    simpa using hnot hplace
  · intro h
    rw [h, rowPlaces_zero]

/-- The lowest place is the number of zeros below it. -/
theorem rowPlaces_of_ne_zero {word : UInt64} (h : word ≠ 0) :
    rowPlaces word = trailingZeros word :: rowPlaces (word &&& (word - 1)) := by
  obtain ⟨place, places, hplaces⟩ := List.exists_cons_of_ne_nil (mt rowPlaces_eq_nil_iff.mp h)
  have hlowest : trailingZeros word = place := by
    rw [trailingZeros, ← List.head?_filter, ← rowPlaces, hplaces]
    rfl
  rw [hlowest, rowPlaces_of_cons hplaces, hplaces]

/-- The places of the bits of a word, as a loop visits them that takes the lowest bit away until the
word is zero. -/
def peel (word : UInt64) : List Nat :=
  if _h : word = 0 then [] else trailingZeros word :: peel (word &&& (word - 1))
termination_by (rowPlaces word).length
decreasing_by
  rw [rowPlaces_of_ne_zero _h, List.length_cons]
  exact Nat.lt_succ_self _

theorem peel_eq_rowPlaces (word : UInt64) : peel word = rowPlaces word := by
  fun_induction peel word with
  | case1 => rw [rowPlaces_zero]
  | case2 word hword ih => rw [ih, ← rowPlaces_of_ne_zero hword]

namespace RowSet

/-- The members as the loop over all words visits them. -/
def visits (s : RowSet) : List Nat :=
  s.words.toList.zipIdx.flatMap fun (word, k) => (peel word).map (64 * k + ·)

theorem visits_eq_toList (s : RowSet) : s.visits = s.toList := by
  refine List.flatMap_congr fun (word, k) _ => ?_
  dsimp only
  rw [peel_eq_rowPlaces]
  split
  next hzero => simp [hzero]
  next => rfl

/-! The cursor -/

namespace Cursor

/-- The cursor behind a number of calls. -/
def later (c : Cursor) (calls : Nat) : Cursor := (fun c => c.next.2)^[calls] c

theorem pending_later (c : Cursor) (calls : Nat) :
    (c.later calls).pending = c.pending.drop calls := by
  induction calls with
  | zero => rfl
  | succ calls ih =>
    have hstep : c.later (calls + 1) = (c.later calls).next.2 := Function.iterate_succ_apply' _ _ _
    rw [hstep, (next_spec _).2, ih, List.tail_drop]

/-- Every call yields the member at its place, and nothing behind the last one. -/
theorem next_later (c : Cursor) (calls : Nat) : (c.later calls).next.1 = c.pending[calls]? := by
  rw [(next_spec _).1, pending_later, List.head?_drop]

theorem next_later_of_none {c : Cursor} {calls : Nat} (h : (c.later calls).next.1 = none)
    (more : Nat) : (c.later (calls + more)).next.1 = none := by
  rw [next_later, List.getElem?_eq_none_iff] at h ⊢
  omega

end Cursor

/-! Counting, marking and printing -/

theorem foldl_count (start n : Nat) (words : List UInt64) :
    words.foldl (fun n word => if word = 0 then n else n + (rowPlaces word).length) n =
      n + (placesFrom start words).length := by
  induction words generalizing start n with
  | nil => rfl
  | cons word words ih =>
    rw [List.foldl_cons, ih (start + 64), placesFrom, List.length_append, List.length_map,
      ← Nat.add_assoc]
    split
    next hzero => simp [hzero]
    next => rfl

theorem count_eq_length (s : RowSet) : s.count = s.toList.length := by
  rw [count, toList_eq_placesFrom, ← Array.foldl_toList, foldl_count 0 0, Nat.zero_add]

/-- Marks an index, which must lie in the row. -/
def mark (bits : Array Bool) (index : Nat) : Option (Array Bool) :=
  if index < bits.size then some (bits.setIfInBounds index true) else none

/-- As `toBits`, with every write checked. -/
def checkedBits (s : RowSet) : Option (Array Bool) :=
  s.visits.foldlM mark (Array.replicate s.size false)

theorem foldlM_mark {indices : List Nat} {bits : Array Bool}
    (h : ∀ index ∈ indices, index < bits.size) :
    indices.foldlM mark bits =
      some (indices.foldl (fun bits index => bits.setIfInBounds index true) bits) := by
  induction indices generalizing bits with
  | nil => rfl
  | cons index indices ih =>
    obtain ⟨hindex, hrest⟩ := List.forall_mem_cons.mp h
    have hfirst : mark bits index = some (bits.setIfInBounds index true) := if_pos hindex
    rw [List.foldlM_cons, hfirst, List.foldl_cons]
    exact ih (by simpa using hrest)

/-- No write goes beyond the row. -/
theorem Bounded.checkedBits_eq {s : RowSet} (h : s.Bounded) : s.checkedBits = some s.toBits := by
  rw [checkedBits, visits_eq_toList, toBits, marks]
  refine foldlM_mark fun index hindex => ?_
  rw [Array.size_replicate]
  exact h index (mem_toList.mp hindex)

theorem getElem?_toBits {s : RowSet} {index : Nat} (h : index < s.size) :
    s.toBits[index]? = some (s.contains index) := by
  rw [toBits, getElem?_marks, if_pos h, contains_toList]

/-- Writes a member behind those before it, whose number says whether there are any. -/
def putMember (text : String) : Nat × Nat → String
  | (index, before) => (if 0 < before then text ++ "," else text) ++ toString index

/-- The members as a loop writes them that puts a comma in front of all but the first. -/
def written (s : RowSet) : String := s.walk.zipIdx.foldl putMember ""

theorem intercalate_append_cons (separator first second : String) (more : List String) :
    separator.intercalate ((first ++ second) :: more) =
      first ++ separator.intercalate (second :: more) := by
  cases more with
  | nil => simp
  | cons next more => simp [String.intercalate_cons_cons, String.append_assoc]

/-- Behind the first member the loop writes a comma in front of each. -/
theorem foldl_putMember (before : Nat) (indices : List Nat) (text : String) :
    (indices.zipIdx (before + 1)).foldl putMember text =
      String.intercalate "," (text :: indices.map toString) := by
  induction indices generalizing before text with
  | nil => simp
  | cons index indices ih =>
    have hstep : putMember text (index, before + 1) = text ++ "," ++ toString index := by
      rw [putMember, if_pos (Nat.succ_pos before)]
    rw [List.zipIdx_cons, List.foldl_cons, ih, hstep, List.map_cons, intercalate_append_cons,
      String.intercalate_cons_cons]

theorem written_eq_render (s : RowSet) : s.written = s.render := by
  rw [written, walk_eq_toList, render]
  cases s.toList with
  | nil => rfl
  | cons index indices =>
    have hfirst : putMember "" (index, 0) = toString index := by simp [putMember]
    rw [List.zipIdx_cons, List.foldl_cons, foldl_putMember, hfirst, List.map_cons]

/-! All views of a set that was built inside its universe -/

/-- The visits, the walk and the calls of the cursor are one ascending list, that of the members; the
calls behind its end yield nothing. The count is its length, the bits are its marks and are written
inside the row of bits, and the text has its members with commas between them. -/
theorem views_agree {h : History} (hin : h.InBounds) :
    let s := h.rows
    (s.toList.Pairwise (· < ·) ∧ ∀ index, index ∈ s.toList ↔ s.contains index = true) ∧
      s.visits = s.toList ∧
      (s.walk = s.toList ∧ (∀ calls, (s.cursor.later calls).next.1 = s.toList[calls]?) ∧
        ∀ calls, (s.cursor.later calls).next.1 = none →
          ∀ more, (s.cursor.later (calls + more)).next.1 = none) ∧
      s.count = s.toList.length ∧
      (s.checkedBits = some s.toBits ∧ s.toBits.size = s.size ∧
        ∀ index < s.size, s.toBits[index]? = some (s.contains index)) ∧
      s.written = s.render ∧ s.render = String.intercalate "," (s.toList.map toString) := by
  intro s
  have hbounded : s.Bounded := History.bounded hin
  refine ⟨⟨s.pairwise_toList, fun index => mem_toList⟩, s.visits_eq_toList,
    ⟨s.walk_eq_toList, ?_, ?_⟩, s.count_eq_length, ⟨hbounded.checkedBits_eq, ?_, ?_⟩,
    s.written_eq_render, rfl⟩
  · intro calls
    rw [Cursor.next_later, pending_cursor]
  · intro calls hnone
    exact Cursor.next_later_of_none hnone
  · exact size_marks s.size s.toList
  · intro index hindex
    exact getElem?_toBits hindex

/-- Members in the first and the third word, and none between them. -/
theorem views_agree_three_words :
    let h : History := .erase (.union (.new 3 true) (.insert (.new 130 false) 129)) 0
    h.InBounds ∧ h.rows.toList = [1, 2, 129] ∧ h.rows.visits = h.rows.toList ∧
      h.rows.walk = h.rows.toList ∧ (h.rows.cursor.later 2).next.1 = h.rows.toList[2]? ∧
      (h.rows.cursor.later 3).next.1 = h.rows.toList[3]? ∧
      h.rows.count = h.rows.toList.length ∧ h.rows.checkedBits = some h.rows.toBits ∧
      h.rows.written = String.intercalate "," (h.rows.toList.map toString) := by
  intro h
  have hin : h.InBounds := by simp [h, History.InBounds, History.size]
  have hmembers : h.rows.toList = [1, 2, 129] := by decide +kernel
  obtain ⟨-, hvisits, ⟨hwalk, hcalls, -⟩, hcount, ⟨hbits, -⟩, hwritten, htext⟩ := views_agree hin
  exact ⟨hin, hmembers, hvisits, hwalk, hcalls 2, hcalls 3, hcount, hbits, hwritten.trans htext⟩

end RowSet

end NodeQuery

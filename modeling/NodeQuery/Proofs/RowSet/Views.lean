import Mathlib.Data.List.Sort
import NodeQuery.Proofs.RowSet.Universe

/-!
# Views of a set of rows

The members of a set can be listed at once, walked through with a cursor, or read off a row of bits.
A cursor takes the lowest bit of a word, and the word without its lowest bit has the other places
left. So the walk is the list, the list is ascending, and for a bounded set it has the indices below
the size that are members and no others.
-/
namespace NodeQuery

/-! The lowest bit -/

/-- What is left of a number without its lowest bit. -/
theorem testBit_and_sub_one {n place : Nat} (hplace : n.testBit place = true)
    (hlow : ∀ i < place, n.testBit i = false) (i : Nat) :
    (n &&& (n - 1)).testBit i = (n.testBit i && i != place) := by
  have hpow := Nat.two_pow_pos place
  have hmod : n % 2 ^ (place + 1) = 2 ^ place := by
    refine Nat.eq_of_testBit_eq fun j => ?_
    rw [Nat.testBit_mod_two_pow, Nat.testBit_two_pow]
    rcases Nat.lt_trichotomy j place with hj | rfl | hj
    · simp [hlow j hj, hj.ne']
    · simp [hplace]
    · simp [hj.ne, Nat.not_lt.mpr hj]
  -- The number above its lowest bit stays as it is, and the bits below are all set.
  have hpred : n - 1 = 2 ^ (place + 1) * (n / 2 ^ (place + 1)) + (2 ^ place - 1) := by
    have hn := Nat.div_add_mod n (2 ^ (place + 1))
    omega
  have hlt : 2 ^ place - 1 < 2 ^ (place + 1) := by
    rw [Nat.pow_succ]
    omega
  have hbit : (n - 1).testBit i =
      if i < place + 1 then decide (i < place) else n.testBit i := by
    rw [hpred, Nat.testBit_two_pow_mul_add _ hlt, Nat.testBit_two_pow_sub_one]
    split
    · rfl
    next hge =>
      rw [Nat.testBit_div_two_pow, Nat.sub_add_cancel (Nat.le_of_not_lt hge)]
  rw [Nat.testBit_and, hbit]
  rcases Nat.lt_trichotomy i place with hi | rfl | hi
  · simp [hlow i hi]
  · simp
  · simp [hi.ne', Nat.not_lt.mpr hi]

theorem getLsbD_and_sub_one {word : UInt64} {place : Nat}
    (hplace : word.toBitVec.getLsbD place = true)
    (hlow : ∀ i < place, word.toBitVec.getLsbD i = false) (i : Nat) :
    (word &&& (word - 1)).toBitVec.getLsbD i = (word.toBitVec.getLsbD i && i != place) := by
  simp only [← BitVec.testBit_toNat, UInt64.toNat_toBitVec] at hplace hlow ⊢
  have hone : (1 : UInt64) ≤ word := by
    rw [UInt64.le_iff_toNat_le]
    exact Nat.pos_of_ne_zero fun hzero => by simp [hzero] at hplace
  rw [UInt64.toNat_and, UInt64.toNat_sub_of_le _ _ hone]
  exact testBit_and_sub_one hplace hlow i

theorem pairwise_rowPlaces (word : UInt64) : (rowPlaces word).Pairwise (· < ·) :=
  List.pairwise_lt_range.filter _

@[simp] theorem rowPlaces_zero : rowPlaces 0 = [] := by simp [rowPlaces]

theorem length_rowPlaces_le (word : UInt64) : (rowPlaces word).length ≤ 64 := by
  exact (List.length_filter_le _ _).trans (Nat.le_of_eq List.length_range)

/-- A word without its lowest bit has the other places left. -/
theorem rowPlaces_of_cons {word : UInt64} {place : Nat} {places : List Nat}
    (h : rowPlaces word = place :: places) : rowPlaces (word &&& (word - 1)) = places := by
  have hsorted := pairwise_rowPlaces word
  rw [h, List.pairwise_cons] at hsorted
  obtain ⟨hfirst, hplaces⟩ := hsorted
  have hmem : ∀ i, i < 64 ∧ word.toBitVec.getLsbD i = true ↔ i = place ∨ i ∈ places := by
    intro i
    rw [← mem_rowPlaces, h, List.mem_cons]
  obtain ⟨hlt, hbit⟩ := (hmem place).mpr (.inl rfl)
  have hlow : ∀ i < place, word.toBitVec.getLsbD i = false := by
    intro i hi
    refine Bool.eq_false_iff.mpr fun hset => ?_
    rcases (hmem i).mp ⟨hi.trans hlt, hset⟩ with rfl | hrest
    · exact Nat.lt_irrefl _ hi
    · exact Nat.lt_asymm hi (hfirst i hrest)
  refine (pairwise_rowPlaces _).eq_of_mem_iff hplaces fun i => ?_
  rw [mem_rowPlaces, getLsbD_and_sub_one hbit hlow, Bool.and_eq_true, ← and_assoc, hmem,
    bne_iff_ne]
  constructor
  · rintro ⟨rfl | hrest, hne⟩
    · exact absurd rfl hne
    · exact hrest
  · exact fun hrest => ⟨.inr hrest, (hfirst i hrest).ne'⟩

namespace RowSet

/-! The walk -/

/-- The places of the bits of a row of words, the first of them at an index. -/
def placesFrom (start : Nat) : List UInt64 → List Nat
  | [] => []
  | word :: words => (rowPlaces word).map (start + ·) ++ placesFrom (start + 64) words

theorem length_placesFrom_le (start : Nat) (words : List UInt64) :
    (placesFrom start words).length ≤ 64 * words.length := by
  induction words generalizing start with
  | nil => simp [placesFrom]
  | cons word words ih =>
    have hword := length_rowPlaces_le word
    have hwords := ih (start + 64)
    simp only [placesFrom, List.length_append, List.length_map, List.length_cons]
    omega

theorem flatMap_zipIdx_eq_placesFrom (k : Nat) (words : List UInt64) :
    ((words.zipIdx k).flatMap fun (word, k) =>
      if word = 0 then [] else (rowPlaces word).map (64 * k + ·)) = placesFrom (64 * k) words := by
  induction words generalizing k with
  | nil => rfl
  | cons word words ih =>
    rw [List.zipIdx_cons, List.flatMap_cons, ih, placesFrom, Nat.mul_succ]
    congr 1
    by_cases hzero : word = 0
    · simp [hzero]
    · simp [hzero]

theorem toList_eq_placesFrom (s : RowSet) : s.toList = placesFrom 0 s.words.toList :=
  flatMap_zipIdx_eq_placesFrom 0 s.words.toList

namespace Cursor

/-- The members that a cursor has not come to. -/
def pending (c : Cursor) : List Nat := placesFrom c.start (c.current :: c.behind)

theorem next_go_spec (word : UInt64) (start : Nat) (behind : List UInt64) :
    (next.go word start behind).1 = (placesFrom start (word :: behind)).head? ∧
      (next.go word start behind).2.pending = (placesFrom start (word :: behind)).tail := by
  induction behind generalizing word start with
  | nil =>
    unfold next.go
    rw [← List.head?_filter, ← rowPlaces]
    cases hplaces : rowPlaces word with
    | nil => simp [pending, placesFrom, hplaces]
    | cons place places => simp [pending, placesFrom, hplaces, rowPlaces_of_cons hplaces]
  | cons later behind ih =>
    unfold next.go
    rw [← List.head?_filter, ← rowPlaces]
    cases hplaces : rowPlaces word with
    | nil => simpa [placesFrom, hplaces] using ih later (start + 64)
    | cons place places => simp [pending, placesFrom, hplaces, rowPlaces_of_cons hplaces]

/-- A step yields the first of the pending members and leaves the others. -/
theorem next_spec (c : Cursor) :
    c.next.1 = c.pending.head? ∧ c.next.2.pending = c.pending.tail :=
  next_go_spec c.current c.start c.behind

theorem take_spec (steps : Nat) (c : Cursor) : (c.take steps).1 = c.pending.take steps := by
  induction steps generalizing c with
  | zero => rfl
  | succ steps ih =>
    obtain ⟨hfirst, hrest⟩ := next_spec c
    rw [take]
    split
    next behind hnext =>
      rw [hnext] at hfirst
      rw [List.head?_eq_none_iff.mp hfirst.symm, List.take_nil]
    next index behind hnext =>
      rw [hnext] at hfirst hrest
      obtain ⟨more, hpending⟩ := List.head?_eq_some_iff.mp hfirst.symm
      dsimp only
      rw [ih, hrest, hpending, List.tail_cons, List.take_succ_cons]

end Cursor

theorem pending_cursor (s : RowSet) : s.cursor.pending = s.toList := by
  rw [toList_eq_placesFrom, cursor]
  cases s.words.toList with
  | nil => simp [Cursor.pending, placesFrom]
  | cons word words => rfl

/-- The cursor comes to every member, in the order of the list. -/
theorem walk_eq_toList (s : RowSet) : s.walk = s.toList := by
  rw [walk, Cursor.take_spec, pending_cursor]
  refine List.take_of_length_le ?_
  rw [toList_eq_placesFrom, ← Array.length_toList]
  exact length_placesFrom_le 0 _

/-! The list and the bits -/

theorem le_of_mem_placesFrom {start index : Nat} {words : List UInt64}
    (h : index ∈ placesFrom start words) : start ≤ index := by
  induction words generalizing start with
  | nil => simp [placesFrom] at h
  | cons word words ih =>
    rcases List.mem_append.mp h with hword | hwords
    · obtain ⟨place, -, rfl⟩ := List.mem_map.mp hword
      exact Nat.le_add_right _ _
    · exact Nat.le_trans (Nat.le_add_right _ _) (ih hwords)

theorem pairwise_placesFrom (start : Nat) (words : List UInt64) :
    (placesFrom start words).Pairwise (· < ·) := by
  induction words generalizing start with
  | nil => exact .nil
  | cons word words ih =>
    refine List.pairwise_append.mpr ⟨?_, ih _, fun i hi j hj => ?_⟩
    · exact List.pairwise_map.mpr ((pairwise_rowPlaces word).imp (Nat.add_lt_add_left · start))
    · obtain ⟨place, hplace, rfl⟩ := List.mem_map.mp hi
      have hlt := ((mem_rowPlaces word place).mp hplace).1
      have hle := le_of_mem_placesFrom hj
      omega

theorem pairwise_toList (s : RowSet) : s.toList.Pairwise (· < ·) :=
  s.toList_eq_placesFrom ▸ pairwise_placesFrom 0 _

/-- The list of a bounded set is what is left of all indices below its size. -/
theorem Bounded.toList_eq {s : RowSet} (h : s.Bounded) :
    s.toList = (List.range s.size).filter s.contains := by
  refine s.pairwise_toList.eq_of_mem_iff (List.pairwise_lt_range.filter _) fun index => ?_
  rw [mem_toList, List.mem_filter, List.mem_range]
  exact ⟨fun hin => ⟨h index hin, hin⟩, And.right⟩

theorem toList_toBits (s : RowSet) : s.toBits.toList = (List.range s.size).map s.contains := by
  refine List.ext_getElem (by simp [toBits]) fun i hi hi' => ?_
  simp only [toBits, Array.length_toList, size_marks] at hi
  have hbit := getElem?_marks s.size s.toList i
  rw [if_pos hi, contains_toList] at hbit
  obtain ⟨_, hbit⟩ := Array.getElem?_eq_some_iff.mp hbit
  simpa [toBits] using hbit

end RowSet

end NodeQuery

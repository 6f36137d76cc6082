import NodeQuery.RowSet

/-!
# Membership in sets of rows

What each operation on a packed set does to its members. An index belongs to a set iff the bit at
its place of its word is set; every operation is read off the words once, here, and the rest of the
theory speaks of members only.
-/
namespace NodeQuery

theorem toBitVec_rowBit (index : Nat) :
    (rowBit index).toBitVec = BitVec.twoPow 64 (index % 64) := by
  simp [rowBit, UInt64.toBitVec_shiftLeft, BitVec.twoPow_eq]

theorem and_rowBit_ne_zero (word : UInt64) (index : Nat) :
    (word &&& rowBit index != 0) = word.toBitVec.getLsbD (index % 64) := by
  have hplace : index % 64 < 64 := Nat.mod_lt _ (by decide)
  have hzero : word &&& rowBit index = 0 ↔ word.toBitVec.getLsbD (index % 64) = false := by
    rw [← UInt64.toBitVec_inj, UInt64.toBitVec_and, toBitVec_rowBit, BitVec.and_twoPow]
    cases hbit : word.toBitVec.getLsbD (index % 64) with
    | false => simp
    | true =>
      have hne : BitVec.twoPow 64 (index % 64) ≠ 0#64 := by
        intro heq
        have := congrArg (·.getLsbD (index % 64)) heq
        simp [hplace] at this
      simpa using hne
  rw [Bool.eq_iff_iff, bne_iff_ne, Ne, hzero, Bool.not_eq_false]

theorem mem_rowPlaces (word : UInt64) (place : Nat) :
    place ∈ rowPlaces word ↔ place < 64 ∧ word.toBitVec.getLsbD place = true := by
  rw [rowPlaces, List.mem_filter, List.mem_range]
  refine and_congr_right fun hplace => ?_
  rw [and_rowBit_ne_zero, Nat.mod_eq_of_lt hplace]

/-- The mask of the last word holds the places below the rest of the size. -/
theorem getLsbD_rowBit_sub_one (index place : Nat) :
    (rowBit index - 1).toBitVec.getLsbD place = decide (place < index % 64) := by
  have hplace : index % 64 < 64 := Nat.mod_lt _ (by decide)
  have hpow : (rowBit index).toNat = 2 ^ (index % 64) := by
    rw [← UInt64.toNat_toBitVec, toBitVec_rowBit, BitVec.toNat_twoPow_of_lt hplace]
  have hone : (1 : UInt64) ≤ rowBit index := by
    rw [UInt64.le_iff_toNat_le, hpow]
    exact Nat.two_pow_pos _
  rw [← BitVec.testBit_toNat, UInt64.toNat_toBitVec, UInt64.toNat_sub_of_le _ _ hone, hpow]
  exact Nat.testBit_two_pow_sub_one _ _

namespace RowSet

theorem contains_eq (s : RowSet) (index : Nat) :
    s.contains index = (s.words.getD (index / 64) 0).toBitVec.getLsbD (index % 64) := by
  unfold contains
  cases h : s.words[index / 64]? with
  | none => simp [Array.getD_eq_getD_getElem?, h]
  | some word => simp [Array.getD_eq_getD_getElem?, h, and_rowBit_ne_zero]

theorem contains_place {s : RowSet} {k : Nat} {word : UInt64} (h : s.words[k]? = some word)
    {place : Nat} (hplace : place < 64) :
    s.contains (64 * k + place) = word.toBitVec.getLsbD place := by
  have hk : (64 * k + place) / 64 = k := by omega
  have hp : (64 * k + place) % 64 = place := by omega
  rw [contains_eq, hk, hp, Array.getD_eq_getD_getElem?, h, Option.getD_some]

theorem lt_size_words_of_contains {s : RowSet} {index : Nat} (h : s.contains index = true) :
    index / 64 < s.words.size := by
  rcases Nat.lt_or_ge (index / 64) s.words.size with hin | hout
  · exact hin
  · rw [contains_eq, Array.getD_eq_getD_getElem?, Array.getElem?_eq_none hout] at h
    simp at h

@[simp] theorem contains_empty (size index : Nat) : (empty size).contains index = false := by
  rw [contains_eq]
  by_cases h : index / 64 < wordCount size <;> simp [empty, Array.getD_eq_getD_getElem?, h]

@[simp] theorem contains_full (size index : Nat) :
    (full size).contains index = decide (index < size) := by
  have hplace : index % 64 < 64 := Nat.mod_lt _ (by decide)
  rw [contains_eq, full, Array.getD_eq_getD_getElem?, Array.getElem?_ofFn]
  by_cases hword : index / 64 < wordCount size
  · simp only [hword, dite_true, Option.getD_some]
    split
    next hall =>
      have hones : (0xFFFFFFFFFFFFFFFF : UInt64).toBitVec = BitVec.allOnes 64 := by decide
      have hlt : index < size := by omega
      rw [hones, BitVec.getLsbD_allOnes]
      simp [hplace, hlt]
    next hpart =>
      rw [getLsbD_rowBit_sub_one, decide_eq_decide]
      unfold wordCount at hword
      omega
  · have hge : ¬ index < size := by unfold wordCount at hword; omega
    simp [hword, hge]

/-- An index is added if there is a word for it. -/
theorem contains_insert {s : RowSet} {added : Nat} (h : added / 64 < s.words.size) (index : Nat) :
    (s.insert added).contains index = (s.contains index || index == added) := by
  have hplace : added % 64 < 64 := Nat.mod_lt _ (by decide)
  rw [contains_eq, contains_eq, insert]
  simp only [Array.getD_eq_getD_getElem?, Array.getElem?_modify]
  by_cases hword : added / 64 = index / 64
  · rw [if_pos hword, ← hword, Array.getElem?_eq_getElem h]
    have hsame : added % 64 = index % 64 ↔ index = added := by omega
    simp only [Option.map_some, Option.getD_some, UInt64.toBitVec_or, BitVec.getLsbD_or,
      toBitVec_rowBit, BitVec.getLsbD_twoPow, hplace, decide_true, Bool.true_and, hsame]
    rfl
  · have hne : (index == added) = false := by
      rw [beq_eq_false_iff_ne]
      exact fun heq => hword (by rw [heq])
    rw [if_neg hword, hne, Bool.or_false]

@[simp] theorem contains_erase (s : RowSet) (removed index : Nat) :
    (s.erase removed).contains index = (s.contains index && index != removed) := by
  have hplace : index % 64 < 64 := Nat.mod_lt _ (by decide)
  rw [contains_eq, contains_eq, erase]
  simp only [Array.getD_eq_getD_getElem?, Array.getElem?_modify]
  by_cases hword : removed / 64 = index / 64
  · have hsame : removed % 64 = index % 64 ↔ index = removed := by omega
    rw [if_pos hword]
    cases s.words[index / 64]? with
    | none => simp
    | some word =>
      simp only [Option.map_some, Option.getD_some, UInt64.toBitVec_and, UInt64.toBitVec_not,
        BitVec.getLsbD_and, BitVec.getLsbD_not, toBitVec_rowBit, BitVec.getLsbD_twoPow, hplace]
      simp [hsame, Nat.mod_lt, bne]
      rfl
  · have hne : (index != removed) = true := by
      rw [bne_iff_ne]
      exact fun heq => hword (by rw [heq])
    rw [if_neg hword, hne, Bool.and_true]

theorem mem_toList {s : RowSet} {index : Nat} : index ∈ s.toList ↔ s.contains index = true := by
  simp only [toList, List.mem_flatMap, Prod.exists, List.mem_zipIdx_iff_getElem?,
    Array.getElem?_toList]
  constructor
  · intro h
    obtain ⟨word, k, hword, hmem⟩ := h
    split at hmem
    · simp at hmem
    · obtain ⟨place, hplace, rfl⟩ := List.mem_map.mp hmem
      obtain ⟨hlt, hbit⟩ := (mem_rowPlaces word place).mp hplace
      rw [contains_place hword hlt]
      exact hbit
  · intro h
    have hplace : index % 64 < 64 := Nat.mod_lt _ (by decide)
    have hin := lt_size_words_of_contains h
    have hword : s.words[index / 64]? = some s.words[index / 64] := Array.getElem?_eq_getElem hin
    have hbit : s.words[index / 64].toBitVec.getLsbD (index % 64) = true := by
      rw [← contains_place hword hplace, Nat.div_add_mod]
      exact h
    have hne : s.words[index / 64] ≠ 0 := fun hzero => by simp [hzero] at hbit
    refine ⟨_, index / 64, hword, ?_⟩
    rw [if_neg hne, List.mem_map]
    exact ⟨index % 64, (mem_rowPlaces _ _).mpr ⟨hplace, hbit⟩, Nat.div_add_mod index 64⟩

/-- Inserting one index after the other adds them all, where there are words for them. -/
theorem contains_foldl_insert (indices : List Nat) (s : RowSet)
    (h : ∀ added ∈ indices, added / 64 < s.words.size) (index : Nat) :
    (indices.foldl insert s).contains index = (s.contains index || indices.contains index) := by
  induction indices generalizing s with
  | nil => simp
  | cons added indices ih =>
    have hadded := h added List.mem_cons_self
    have hrest : ∀ other ∈ indices, other / 64 < (s.insert added).words.size := by
      intro other hother
      rw [insert, Array.size_modify]
      exact h other (List.mem_cons_of_mem _ hother)
    rw [List.foldl_cons, ih _ hrest, contains_insert hadded, List.contains_cons, Bool.or_assoc]

theorem contains_foldl_erase (indices : List Nat) (s : RowSet) (index : Nat) :
    (indices.foldl erase s).contains index = (s.contains index && !indices.contains index) := by
  induction indices generalizing s with
  | nil => simp
  | cons removed indices ih =>
    rw [List.foldl_cons, ih, contains_erase, List.contains_cons, Bool.not_or, Bool.and_assoc]
    rfl

theorem contains_toList (s : RowSet) (index : Nat) :
    s.toList.contains index = s.contains index := by
  rw [Bool.eq_iff_iff, List.contains_iff_mem, mem_toList]

@[simp] theorem contains_filter (s : RowSet) (test : Nat → Bool) (index : Nat) :
    (s.filter test).contains index = (s.contains index && test index) := by
  have hwords : ∀ added ∈ s.toList.filter test, added / 64 < (empty s.size).words.size := by
    intro added hadded
    have hin := lt_size_words_of_contains (mem_toList.mp (List.mem_filter.mp hadded).1)
    rw [(empty s.size).size_words]
    rwa [s.size_words] at hin
  rw [filter, ofList, contains_foldl_insert _ _ hwords, contains_empty, Bool.false_or,
    Bool.eq_iff_iff, List.contains_iff_mem, List.mem_filter, mem_toList, Bool.and_eq_true]

@[simp] theorem contains_complement (s : RowSet) (size index : Nat) :
    (s.complement size).contains index = (decide (index < size) && !s.contains index) := by
  rw [complement, contains_foldl_erase, contains_full, contains_toList]

/-- Words that an operand lacks count as zero, so the larger universe loses no member. -/
theorem contains_combine (op : UInt64 → UInt64 → UInt64) (bit : Bool → Bool → Bool)
    (hop : ∀ x y place, (op x y).toBitVec.getLsbD place =
      bit (x.toBitVec.getLsbD place) (y.toBitVec.getLsbD place))
    (hzero : bit false false = false) (a b : RowSet) (index : Nat) :
    (combine op a b).contains index = bit (a.contains index) (b.contains index) := by
  rw [contains_eq, contains_eq a, contains_eq b, combine, Array.getD_eq_getD_getElem?,
    Array.getElem?_ofFn]
  by_cases hword : index / 64 < wordCount (max a.size b.size)
  · simp only [hword, dite_true, Option.getD_some]
    exact hop _ _ _
  · have ha : a.words.size ≤ index / 64 := by
      rw [a.size_words]
      unfold wordCount at hword ⊢
      omega
    have hb : b.words.size ≤ index / 64 := by
      rw [b.size_words]
      unfold wordCount at hword ⊢
      omega
    simp [hword, hzero, Array.getD_eq_getD_getElem?, Array.getElem?_eq_none ha,
      Array.getElem?_eq_none hb]

@[simp] theorem contains_union (a b : RowSet) (index : Nat) :
    (a.union b).contains index = (a.contains index || b.contains index) :=
  contains_combine _ (· || ·) (fun x y place => by simp) rfl a b index

@[simp] theorem contains_inter (a b : RowSet) (index : Nat) :
    (a.inter b).contains index = (a.contains index && b.contains index) :=
  contains_combine _ (· && ·) (fun x y place => by simp) rfl a b index

/-! Sizes and equality -/

@[simp] theorem size_insert (s : RowSet) (index : Nat) : (s.insert index).size = s.size := rfl

@[simp] theorem size_erase (s : RowSet) (index : Nat) : (s.erase index).size = s.size := rfl

theorem size_foldl_insert (indices : List Nat) (s : RowSet) :
    (indices.foldl insert s).size = s.size := by
  induction indices generalizing s with
  | nil => rfl
  | cons added indices ih => exact ih (s.insert added)

theorem size_foldl_erase (indices : List Nat) (s : RowSet) :
    (indices.foldl erase s).size = s.size := by
  induction indices generalizing s with
  | nil => rfl
  | cons removed indices ih => exact ih (s.erase removed)

@[simp] theorem size_filter (s : RowSet) (test : Nat → Bool) : (s.filter test).size = s.size :=
  size_foldl_insert _ _

@[simp] theorem size_complement (s : RowSet) (size : Nat) : (s.complement size).size = size :=
  size_foldl_erase _ _

@[simp] theorem size_union (a b : RowSet) : (a.union b).size = max a.size b.size := rfl

@[simp] theorem size_inter (a b : RowSet) : (a.inter b).size = max a.size b.size := rfl

/-- Every bit of the words is asked for by some index, so the members and the size say it all. -/
theorem eq_of_contains {s t : RowSet} (hsize : s.size = t.size)
    (h : ∀ index, s.contains index = t.contains index) : s = t := by
  have hwords : s.words = t.words := by
    apply Array.ext
    · rw [s.size_words, t.size_words, hsize]
    · intro k hs ht
      rw [← UInt64.toBitVec_inj]
      apply BitVec.eq_of_getLsbD_eq
      intro place hplace
      rw [← contains_place (Array.getElem?_eq_getElem hs) hplace,
        ← contains_place (Array.getElem?_eq_getElem ht) hplace]
      exact h (64 * k + place)
  cases s
  cases t
  cases hsize
  cases hwords
  rfl

end RowSet

end NodeQuery

/-!
# Marks

A row of flags over the indices below a bound, set for those that a list names. It answers in one
step whether the list names an index.
-/
namespace NodeQuery

/-- A flag for every index below `size`, set for those that are listed. -/
def marks (size : Nat) (indices : List Nat) : Array Bool :=
  indices.foldl (fun flags index => flags.setIfInBounds index true) (Array.replicate size false)

theorem getElem?_foldl_mark (indices : List Nat) (flags : Array Bool) (i : Nat) :
    (indices.foldl (fun flags index => flags.setIfInBounds index true) flags)[i]? =
      flags[i]?.map fun flag => flag || indices.contains i := by
  induction indices generalizing flags with
  | nil => cases h : flags[i]? <;> simp [h]
  | cons index indices ih =>
    rw [List.foldl_cons, ih, Array.getElem?_setIfInBounds]
    by_cases hi : index = i
    · subst hi
      by_cases hb : index < flags.size
      · simp [hb]
      · simp [hb]
    · simp [hi, Ne.symm hi]

@[simp] theorem getElem?_marks (size : Nat) (indices : List Nat) (i : Nat) :
    (marks size indices)[i]? = if i < size then some (indices.contains i) else none := by
  rw [marks, getElem?_foldl_mark, Array.getElem?_replicate]
  split <;> simp

@[simp] theorem size_marks (size : Nat) (indices : List Nat) :
    (marks size indices).size = size := by
  suffices h : ∀ flags : Array Bool, (indices.foldl
      (fun flags index => flags.setIfInBounds index true) flags).size = flags.size by
    simp [marks, h]
  intro flags
  induction indices generalizing flags with
  | nil => rfl
  | cons index indices ih => simp [ih]

end NodeQuery

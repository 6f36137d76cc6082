import Mathlib.Data.List.TakeWhile

/-!
# Maximal runs

A run of a class of characters is maximal if the text behind it does not go on with the class. A
text that begins with a maximal run is cut behind it by `takeWhile` and `dropWhile`.
-/
namespace NodeQuery.Text

/-- The text does not go on with a character of the class. -/
def EndsRun (p : Char → Bool) (rest : List Char) : Prop := ∀ c ∈ rest.head?, p c = false

theorem endsRun_nil {p : Char → Bool} : EndsRun p [] := fun c hc => by cases hc

theorem endsRun_cons {p : Char → Bool} {c : Char} (h : p c = false) (rest : List Char) :
    EndsRun p (c :: rest) := by
  intro d hd
  cases hd
  exact h

theorem EndsRun.append {p : Char → Bool} {left right : List Char} (hleft : EndsRun p left)
    (hright : EndsRun p right) : EndsRun p (left ++ right) := by
  cases left with
  | nil => exact hright
  | cons c left => exact endsRun_cons (hleft c rfl) _

/-- A run of a class is over where a run of a larger class is. -/
theorem EndsRun.imp {p q : Char → Bool} {rest : List Char} (h : EndsRun p rest)
    (hpq : ∀ c, q c = true → p c = true) : EndsRun q rest := by
  intro c hc
  cases hq : q c with
  | false => rfl
  | true => exact absurd (hpq c hq) (by simp [h c hc])

theorem endsRun_dropWhile (p : Char → Bool) (text : List Char) :
    EndsRun p (text.dropWhile p) := by
  intro c hc
  have hnot := List.head?_dropWhile_not p text
  rw [Option.mem_def.mp hc] at hnot
  exact hnot

theorem endsRun_append_cons_iff {p : Char → Bool} {c : Char} (h : p c = false)
    (left right : List Char) : EndsRun p (left ++ c :: right) ↔ EndsRun p left := by
  cases left with
  | nil => simp [EndsRun, h]
  | cons d left => simp [EndsRun]

/-- A class holds of the first characters iff they lie in the run that it takes. -/
theorem le_length_takeWhile_iff {p : Char → Bool} {text : List Char} {k : Nat}
    (hk : k ≤ text.length) :
    k ≤ (text.takeWhile p).length ↔ ∀ c ∈ text.take k, p c = true := by
  induction text generalizing k with
  | nil =>
    have hzero : k = 0 := Nat.le_zero.mp hk
    simp [hzero]
  | cons c text ih =>
    cases k with
    | zero => simp
    | succ k =>
      have hrest := ih (Nat.le_of_succ_le_succ hk)
      cases hc : p c with
      | true => simp [hc, hrest]
      | false => simp [hc]

theorem takeWhile_run {p : Char → Bool} {run rest : List Char} (hrun : ∀ c ∈ run, p c = true)
    (hends : EndsRun p rest) : (run ++ rest).takeWhile p = run := by
  rw [List.takeWhile_append_of_pos hrun]
  cases rest with
  | nil => simp
  | cons c rest =>
    have hc : p c = false := hends c rfl
    simp [hc]

theorem dropWhile_run {p : Char → Bool} {run rest : List Char} (hrun : ∀ c ∈ run, p c = true)
    (hends : EndsRun p rest) : (run ++ rest).dropWhile p = rest := by
  rw [List.dropWhile_append_of_pos hrun]
  cases rest with
  | nil => rfl
  | cons c rest =>
    have hc : p c = false := hends c rfl
    simp [hc]

/-- A run is cut off at the first character that is not of its class. -/
theorem eq_of_run_append_cons {p : Char → Bool} {left right rest more : List Char} {c d : Char}
    (hleft : ∀ x ∈ left, p x = true) (hright : ∀ x ∈ right, p x = true) (hc : p c = false)
    (hd : p d = false) (h : left ++ c :: rest = right ++ d :: more) :
    left = right ∧ c = d ∧ rest = more := by
  have hrun := congrArg (List.takeWhile p) h
  have hbehind := congrArg (List.dropWhile p) h
  rw [takeWhile_run hleft (endsRun_cons hc rest), takeWhile_run hright (endsRun_cons hd more)]
    at hrun
  rw [dropWhile_run hleft (endsRun_cons hc rest), dropWhile_run hright (endsRun_cons hd more)]
    at hbehind
  exact ⟨hrun, List.cons.inj hbehind⟩

/-- The run is of the class and could not be longer on either side. -/
structure MaximalRun (p : Char → Bool) (before run rest : List Char) : Prop where
  ne_nil : run ≠ []
  of_class : ∀ c ∈ run, p c = true
  ends_before : EndsRun p before.reverse
  ends_behind : EndsRun p rest

theorem maximalRun_takeWhile {p : Char → Bool} {c : Char} (hc : p c = true)
    {before : List Char} (hbefore : EndsRun p before.reverse) (rest : List Char) :
    MaximalRun p before (c :: rest.takeWhile p) (rest.dropWhile p) := by
  refine ⟨List.cons_ne_nil _ _, ?_, hbefore, endsRun_dropWhile p rest⟩
  intro d hd
  rcases List.mem_cons.mp hd with rfl | hd
  · exact hc
  · exact List.mem_takeWhile_imp hd

/-- Behind its first character a maximal run is what is taken off. -/
theorem MaximalRun.exists_cons {p : Char → Bool} {before run rest : List Char}
    (h : MaximalRun p before run rest) :
    ∃ c more, run = c :: more ∧ p c = true ∧ (more ++ rest).takeWhile p = more ∧
      (more ++ rest).dropWhile p = rest := by
  obtain ⟨c, more, rfl⟩ := List.exists_cons_of_ne_nil h.ne_nil
  obtain ⟨hc, hmore⟩ := List.forall_mem_cons.mp h.of_class
  exact ⟨c, more, rfl, hc, takeWhile_run hmore h.ends_behind, dropWhile_run hmore h.ends_behind⟩

/-- Behind characters of another class no run of the class goes on. -/
theorem endsRun_reverse_append {p : Char → Bool} {run : List Char} (hne : run ≠ [])
    (hrun : ∀ c ∈ run, p c = false) (before : List Char) : EndsRun p (before ++ run).reverse := by
  obtain ⟨d, more, hlast⟩ := List.exists_cons_of_ne_nil (List.reverse_ne_nil_iff.mpr hne)
  have hmem : d ∈ run.reverse := by simp [hlast]
  rw [List.reverse_append, hlast, List.cons_append]
  exact endsRun_cons (hrun d (List.mem_reverse.mp hmem)) (more ++ before.reverse)

/-- A run lies in front of a character that is not of its class. -/
theorem exists_of_run_append {p : Char → Bool} {run rest left right : List Char} {c : Char}
    (hrun : ∀ d ∈ run, p d = true) (hc : p c = false) (h : left ++ c :: right = run ++ rest) :
    ∃ more, left = run ++ more ∧ rest = more ++ c :: right := by
  rcases List.append_eq_append_iff.mp h with ⟨more, hleft, hrest⟩ | ⟨more, hleft, hrest⟩
  · cases more with
    | nil => exact ⟨[], by simpa using hleft.symm, by simpa using hrest.symm⟩
    | cons d more =>
      obtain ⟨rfl, -⟩ := List.cons.inj hrest
      have hmem : c ∈ run := by simp [hleft]
      simp [hrun c hmem] at hc
  · exact ⟨more, hleft, hrest⟩

end NodeQuery.Text

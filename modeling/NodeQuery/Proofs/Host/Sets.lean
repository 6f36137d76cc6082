import NodeQuery.Host.Compression
import NodeQuery.Proofs.Host.Grammar

/-!
# Printed sets

Numbers are cut into runs, runs are printed as terms, and the reader of sets gives the numbers back
in their order.
-/
namespace NodeQuery.Host
open Text

theorem le_of_mem_runs {numbers : List Nat} : ∀ run ∈ runs numbers, run.1 ≤ run.2 := by
  fun_induction runs numbers with
  | case1 => simp
  | case2 n rest hrest ih => simp
  | case3 n rest last more hrest ih =>
    rw [hrest] at ih
    intro run h
    rcases List.mem_cons.mp h with rfl | hmore
    · have hle := ih (n + 1, last) List.mem_cons_self
      dsimp only at hle ⊢
      omega
    · exact ih _ (List.mem_cons_of_mem _ hmore)
  | case4 n rest first last more hrest hne ih =>
    rw [hrest] at ih
    intro run h
    rcases List.mem_cons.mp h with rfl | hmore
    · exact Nat.le_refl n
    · exact ih run hmore

theorem flatMap_runs (numbers : List Nat) :
    (runs numbers).flatMap (fun run => List.range' run.1 (run.2 - run.1 + 1)) = numbers := by
  fun_induction runs numbers with
  | case1 => rfl
  | case2 n rest hrest ih =>
    rw [hrest] at ih
    simp [← ih]
  | case3 n rest last more hrest ih =>
    have hle : (n + 1, last).1 ≤ (n + 1, last).2 :=
      le_of_mem_runs _ (hrest ▸ List.mem_cons_self)
    have hsize : last - n + 1 = (last - (n + 1) + 1) + 1 := by
      simp only at hle
      omega
    rw [hrest] at ih
    rw [List.flatMap_cons] at ih ⊢
    rw [hsize, List.range'_succ, List.cons_append, ih]
  | case4 n rest first last more hrest hne ih =>
    rw [hrest] at ih
    rw [List.flatMap_cons, ih]
    simp

theorem runs_ne_nil {numbers : List Nat} (hsome : numbers ≠ []) : runs numbers ≠ [] := by
  intro hnil
  have hback := flatMap_runs numbers
  rw [hnil] at hback
  exact hsome hback.symm

theorem spellsNumber_toDigits (n : Nat) : SpellsNumber (Nat.toDigits 10 n) n :=
  ⟨Nat.toDigits_ne_nil, fun _ hc => isDigit_of_mem_toDigits hc, Nat.ofDigitChars_ten_toDigits⟩

theorem toList_rangeText (first last : Nat) :
    (s!"{first}-{last}").toList = Nat.toDigits 10 first ++ '-' :: Nat.toDigits 10 last := by
  change (toString first ++ "-" ++ toString last).toList = _
  simp [String.toList_append]

theorem spellsTerm_runText {first last : Nat} (hle : first ≤ last) :
    SpellsTerm (runText (first, last)).toList ⟨first, last, hle⟩ := by
  rw [runText]
  split
  next heq =>
    subst heq
    rw [toList_toString]
    exact .single (spellsNumber_toDigits first)
  next hne =>
    rw [toList_rangeText]
    exact .range (spellsNumber_toDigits first) (spellsNumber_toDigits last) hle

theorem spellsTerms_runs {parts : List (Nat × Nat)} (hsome : parts ≠ [])
    (hle : ∀ run ∈ parts, run.1 ≤ run.2) :
    ∃ terms : List Term, terms.map (fun term => (term.first, term.last)) = parts ∧
      SpellsTerms (String.intercalate "," (parts.map runText)).toList terms := by
  induction parts with
  | nil => contradiction
  | cons run parts ih =>
    have hrun := spellsTerm_runText (hle run List.mem_cons_self)
    cases parts with
    | nil => exact ⟨[⟨run.1, run.2, hle run List.mem_cons_self⟩], rfl, .last hrun⟩
    | cons next more =>
      obtain ⟨terms, hterms, hspells⟩ :=
        ih (List.cons_ne_nil next more) fun r hr => hle r (List.mem_cons_of_mem run hr)
      refine ⟨⟨run.1, run.2, hle run List.mem_cons_self⟩ :: terms, ?_, ?_⟩
      · rw [List.map_cons, hterms]
      · rw [List.map_cons, List.map_cons, String.intercalate_cons_cons]
        simpa [String.toList_append] using SpellsTerms.more hrun hspells

/-- The printed numbers are a set whose terms are their runs. -/
theorem exists_terms_runsText {numbers : List Nat} (hsome : numbers ≠ []) :
    ∃ terms : List Term, terms.map (fun term => (term.first, term.last)) = runs numbers ∧
      SpellsTerms (runsText numbers).toList terms :=
  spellsTerms_runs (runs_ne_nil hsome) le_of_mem_runs

theorem allMembers_of_runs {terms : List Term} {numbers : List Nat}
    (h : terms.map (fun term => (term.first, term.last)) = runs numbers) :
    Term.allMembers terms = numbers := by
  rw [← flatMap_runs numbers, ← h, List.flatMap_map]
  rfl

/-- The printed numbers are a set with these members, in this order. -/
theorem spellsTerms_runsText {numbers : List Nat} (hsome : numbers ≠ []) :
    ∃ terms, Term.allMembers terms = numbers ∧ SpellsTerms (runsText numbers).toList terms := by
  obtain ⟨terms, hterms, hspells⟩ := exists_terms_runsText hsome
  exact ⟨terms, allMembers_of_runs hterms, hspells⟩

/-! Reading what was printed -/

def runSize (run : Nat × Nat) : Nat := run.2 - run.1 + 1

/-- In a set with `count` members in front of these runs, no range brings the members that are read
so far above the limit. A number on its own is not checked, whatever the number of members is. -/
def RangesFit (count : Nat) : List (Nat × Nat) → Prop
  | [] => True
  | run :: more =>
    (run.1 < run.2 → count + runSize run ≤ Segment.maxSetSize) ∧
      RangesFit (count + runSize run) more

instance RangesFit.decidable (count : Nat) :
    (parts : List (Nat × Nat)) → Decidable (RangesFit count parts)
  | [] => inferInstanceAs (Decidable True)
  | run :: more =>
    have := RangesFit.decidable (count + runSize run) more
    inferInstanceAs (Decidable (_ ∧ _))

/-- A full set still takes numbers on their own, but no range. -/
example : RangesFit 0 [(1, 10000), (20000, 20000)] ∧
    ¬RangesFit 0 [(1, 10000), (20000, 20001)] := by decide

theorem rangesFit_of_flatMap {count : Nat} {parts : List (Nat × Nat)}
    (h : count + (parts.flatMap fun run => List.range' run.1 (runSize run)).length ≤
      Segment.maxSetSize) : RangesFit count parts := by
  induction parts generalizing count with
  | nil => trivial
  | cons run parts ih =>
    rw [List.flatMap_cons, List.length_append, List.length_range', ← Nat.add_assoc] at h
    exact ⟨fun _ => Nat.le_trans (Nat.le_add_right _ _) h, ih h⟩

theorem rangesFit_of_length_le {numbers : List Nat} (h : numbers.length ≤ Segment.maxSetSize) :
    RangesFit 0 (runs numbers) := by
  rw [← flatMap_runs numbers, ← Nat.zero_add (List.length _)] at h
  exact rangesFit_of_flatMap h

/-- A range that does not fit its set is all that the reader refuses in front of a comma or a
closing bracket. -/
theorem readTerm_runText {first last : Nat} (hle : first ≤ last)
    (hmax : last ≤ Segment.maxNumber.toNat) {c : Char} (hc : c.isDigit = false ∧ c ≠ '-')
    (count : Nat) (rest : List Char) :
    Segment.readTerm count ((runText (first, last)).toList ++ c :: rest) =
      if first < last ∧ Segment.maxSetSize < count + runSize (first, last) then
        .error .rangeTooLarge
      else .ok (⟨first, last, hle⟩, c :: rest) := by
  rw [runText]
  split
  next heq =>
    subst heq
    rw [toList_toString, if_neg fun h => Nat.lt_irrefl first h.1]
    exact Segment.readTerm_number (spellsNumber_toDigits first) hmax hc count rest
  next hne =>
    have hlt : first < last := Nat.lt_of_le_of_ne hle hne
    rw [toList_rangeText, List.append_assoc, List.cons_append,
      Segment.readTerm_range (spellsNumber_toDigits first) (spellsNumber_toDigits last) hle hmax
        hc.1]
    simp only [hlt, true_and]
    rfl

theorem toList_intercalate_runs (run next : Nat × Nat) (more : List (Nat × Nat))
    (rest : List Char) :
    (String.intercalate "," ((run :: next :: more).map runText)).toList ++ rest =
      (runText run).toList ++
        ',' :: ((String.intercalate "," ((next :: more).map runText)).toList ++ rest) := by
  simp [String.intercalate_cons_cons, String.toList_append]

/-- The reader takes the runs one after the other until a range does not fit. -/
theorem readTerms_runs {parts : List (Nat × Nat)} (hsome : parts ≠ [])
    (hle : ∀ run ∈ parts, run.1 ≤ run.2) (hmax : ∀ run ∈ parts, run.2 ≤ Segment.maxNumber.toNat)
    (count : Nat) (rest : List Char) :
    (RangesFit count parts ∧
      ∃ terms : List Term, terms.map (fun term => (term.first, term.last)) = parts ∧
        Segment.readTerms count
          ((String.intercalate "," (parts.map runText)).toList ++ ']' :: rest) =
            .ok (terms, rest)) ∨
    (¬RangesFit count parts ∧
      Segment.readTerms count
        ((String.intercalate "," (parts.map runText)).toList ++ ']' :: rest) =
          .error .rangeTooLarge) := by
  induction parts generalizing count with
  | nil => contradiction
  | cons run parts ih =>
    obtain ⟨hrunLe, hle⟩ := List.forall_mem_cons.mp hle
    obtain ⟨hrunMax, hmax⟩ := List.forall_mem_cons.mp hmax
    have hclosing : ']'.isDigit = false ∧ ']' ≠ '-' := by decide
    have hcomma : ','.isDigit = false ∧ ',' ≠ '-' := by decide
    by_cases hbad : run.1 < run.2 ∧ Segment.maxSetSize < count + runSize run
    · refine .inr ⟨fun hfits => Nat.not_le.mpr hbad.2 (hfits.1 hbad.1), Segment.readTerms_error ?_⟩
      -- the reader does not get to what stands behind the range
      cases parts with
      | nil => exact (readTerm_runText hrunLe hrunMax hclosing count rest).trans (if_pos hbad)
      | cons next more =>
        rw [toList_intercalate_runs]
        exact (readTerm_runText hrunLe hrunMax hcomma count _).trans (if_pos hbad)
    · have hfirst : run.1 < run.2 → count + runSize run ≤ Segment.maxSetSize := fun hlt =>
        Nat.not_lt.mp fun h => hbad ⟨hlt, h⟩
      cases parts with
      | nil =>
        have hterm := (readTerm_runText hrunLe hrunMax hclosing count rest).trans (if_neg hbad)
        exact .inl ⟨⟨hfirst, trivial⟩, _, rfl, Segment.readTerms_last hterm⟩
      | cons next more =>
        rw [toList_intercalate_runs]
        have hterm := (readTerm_runText hrunLe hrunMax hcomma count
          ((String.intercalate "," ((next :: more).map runText)).toList ++ ']' :: rest)).trans
            (if_neg hbad)
        rcases ih (List.cons_ne_nil next more) hle hmax (count + runSize run)
          with ⟨hfits, terms, hterms, hmore⟩ | ⟨hfits, hmore⟩
        · refine .inl ⟨⟨hfirst, hfits⟩, _, ?_, Segment.readTerms_more hterm hmore⟩
          rw [List.map_cons, hterms]
        · exact .inr ⟨fun h => hfits h.2, Segment.readTerms_more_error hterm hmore⟩

theorem last_mem_of_mem_runs {numbers : List Nat} : ∀ run ∈ runs numbers, run.2 ∈ numbers := by
  intro run hrun
  have hle := le_of_mem_runs run hrun
  rw [← flatMap_runs numbers]
  exact List.mem_flatMap.mpr ⟨run, hrun, List.mem_range'_1.mpr (by omega)⟩

/-- The reader gives back the printed numbers in their order and leaves what follows the set, unless
one of their ranges does not fit. -/
theorem readTerms_of_runsText {numbers : List Nat} (hsome : numbers ≠ [])
    (hmax : ∀ n ∈ numbers, n ≤ Segment.maxNumber.toNat) (rest : List Char) :
    (RangesFit 0 (runs numbers) ∧ ∃ terms, Term.allMembers terms = numbers ∧
      Segment.readTerms 0 ((runsText numbers).toList ++ ']' :: rest) = .ok (terms, rest)) ∨
    (¬RangesFit 0 (runs numbers) ∧
      Segment.readTerms 0 ((runsText numbers).toList ++ ']' :: rest) =
        .error .rangeTooLarge) := by
  have hlast : ∀ run ∈ runs numbers, run.2 ≤ Segment.maxNumber.toNat := fun run hrun =>
    hmax run.2 (last_mem_of_mem_runs run hrun)
  rcases readTerms_runs (runs_ne_nil hsome) le_of_mem_runs hlast 0 rest
    with ⟨hfits, terms, hterms, hread⟩ | hbad
  · exact .inl ⟨hfits, terms, allMembers_of_runs hterms, hread⟩
  · exact .inr hbad

/-- Printing numbers as a set and reading the set are inverse exactly where every range fits; where
one does not, the reader says so. Up to as many numbers as the limit every range fits. -/
theorem readTerms_runsText_iff {numbers : List Nat} (hsome : numbers ≠ [])
    (hmax : ∀ n ∈ numbers, n ≤ Segment.maxNumber.toNat) (rest : List Char) :
    (RangesFit 0 (runs numbers) ↔ ∃ terms, Term.allMembers terms = numbers ∧
      Segment.readTerms 0 ((runsText numbers).toList ++ ']' :: rest) = .ok (terms, rest)) ∧
    (¬RangesFit 0 (runs numbers) →
      Segment.readTerms 0 ((runsText numbers).toList ++ ']' :: rest) = .error .rangeTooLarge) ∧
    (numbers.length ≤ Segment.maxSetSize → RangesFit 0 (runs numbers)) := by
  refine ⟨?_, ?_, rangesFit_of_length_le⟩
  · rcases readTerms_of_runsText hsome hmax rest with ⟨hfits, hread⟩ | ⟨hbad, hread⟩
    · exact iff_of_true hfits hread
    · refine iff_of_false hbad ?_
      rintro ⟨terms, -, hterms⟩
      rw [hread] at hterms
      cases hterms
  · intro hbad
    rcases readTerms_of_runsText hsome hmax rest with ⟨hfits, -⟩ | ⟨-, hread⟩
    · exact absurd hfits hbad
    · exact hread

/-- Three neighbours and a number on its own, with more of a pattern behind the set. -/
theorem readTerms_runsText_gap :
    ∃ terms, Term.allMembers terms = [1, 2, 3, 5] ∧
      Segment.readTerms 0 "1-3,5],7".toList = .ok (terms, ",7".toList) := by
  have hmax : ∀ n ∈ [1, 2, 3, 5], n ≤ Segment.maxNumber.toNat := by decide
  have hall := readTerms_runsText_iff (List.cons_ne_nil 1 [2, 3, 5]) hmax ",7".toList
  have htext : (runsText [1, 2, 3, 5]).toList = "1-3,5".toList := by decide
  rw [htext] at hall
  exact hall.1.mp (hall.2.2 (by decide))

/-! The characters of a set -/

section Characters
variable {P : Char → Prop} {text : List Char}

theorem SpellsTerm.forall_mem {term : Term} (h : SpellsTerm text term)
    (hdigit : ∀ c, c.isDigit = true → P c) (hdash : P '-') : ∀ c ∈ text, P c := by
  cases h with
  | single h => exact fun c hc => hdigit c (h.isDigit c hc)
  | range hleft hright hle =>
    refine List.forall_mem_append.mpr ⟨fun c hc => hdigit c (hleft.isDigit c hc), ?_⟩
    exact List.forall_mem_cons.mpr ⟨hdash, fun c hc => hdigit c (hright.isDigit c hc)⟩

/-- What holds of digits, dashes and commas holds of the inside of a set. -/
theorem SpellsTerms.forall_mem {terms : List Term} (h : SpellsTerms text terms)
    (hdigit : ∀ c, c.isDigit = true → P c) (hdash : P '-') (hcomma : P ',') :
    ∀ c ∈ text, P c := by
  induction h with
  | last h => exact h.forall_mem hdigit hdash
  | more h _ ih =>
    exact List.forall_mem_append.mpr
      ⟨h.forall_mem hdigit hdash, List.forall_mem_cons.mpr ⟨hcomma, ih⟩⟩

theorem SpellsTerms.ne_bracket {terms : List Term} (h : SpellsTerms text terms) :
    ∀ c ∈ text, c ≠ '[' ∧ c ≠ ']' := by
  refine h.forall_mem (fun c hc => ?_) (by decide) (by decide)
  exact ⟨fun heq => by simp [heq] at hc, fun heq => by simp [heq] at hc⟩

end Characters

end NodeQuery.Host

import NodeQuery.Host.Expansion
import NodeQuery.Proofs.Host.Names
import NodeQuery.Proofs.Host.Sets

/-!
# Expansion of printed patterns

Text without special characters stands for itself, and a stem with a printed set stands for the
stem with each of the numbers.
-/
namespace NodeQuery.Host

/-- No character of the text means anything in a pattern or in a list of patterns. -/
def Plain (text : List Char) : Prop := ∀ c ∈ text, c ≠ '*' ∧ c ≠ '[' ∧ c ≠ ']' ∧ c ≠ ','

theorem plain_append {left right : List Char} :
    Plain (left ++ right) ↔ Plain left ∧ Plain right := List.forall_mem_append

theorem plain_toDigits (n : Nat) : Plain (Nat.toDigits 10 n) := by
  intro c hc
  have hdigit := Text.isDigit_of_mem_toDigits hc
  refine ⟨?_, ?_, ?_, ?_⟩ <;> rintro rfl <;> cases hdigit

theorem expandFrom_nil (pattern : String) (names : List String) :
    expandFrom pattern names [] = .ok names := by
  rw [expandFrom]
  split <;> simp_all [Segment.next]

theorem expandFrom_literal {c : Char} {text rest : List Char}
    (h : Segment.next text = .ok (some (.literal c, rest))) (pattern : String)
    (names : List String) :
    expandFrom pattern names text = expandFrom pattern (names.map (·.push c)) rest := by
  rw [expandFrom]
  split <;> simp_all

theorem expandFrom_set {terms : List Term} {text rest : List Char}
    (h : Segment.next text = .ok (some (.set terms, rest))) (pattern : String)
    {names : List String}
    (hsize : names.length * (Term.allMembers terms).length ≤ maxExpansion) :
    expandFrom pattern names text =
      expandFrom pattern
        (names.flatMap fun name => (Term.allMembers terms).map fun n => name ++ toString n)
        rest := by
  rw [expandFrom]
  have hfits := Nat.not_lt.mpr hsize
  split <;> simp_all

theorem expandFrom_set_tooLarge {terms : List Term} {text rest : List Char}
    (h : Segment.next text = .ok (some (.set terms, rest))) (pattern : String)
    {names : List String}
    (hsize : maxExpansion < names.length * (Term.allMembers terms).length) :
    expandFrom pattern names text = .error (.expansionTooLarge pattern) := by
  rw [expandFrom]
  split <;> simp_all

theorem expandFrom_error {text : List Char} {e : PatternError} (h : Segment.next text = .error e)
    (pattern : String) (names : List String) : expandFrom pattern names text = .error e := by
  rw [expandFrom]
  split <;> simp_all

theorem expandFrom_star {text rest : List Char}
    (h : Segment.next text = .ok (some (.star, rest))) (pattern : String) (names : List String) :
    expandFrom pattern names text = .error (.wildcardNotAllowed pattern) := by
  rw [expandFrom]
  split <;> simp_all

theorem expandFrom_plain {text : List Char} (h : Plain text) (pattern : String)
    (names : List String) (rest : List Char) :
    expandFrom pattern names (text ++ rest) =
      expandFrom pattern (names.map (· ++ String.ofList text)) rest := by
  induction text generalizing names with
  | nil => simp
  | cons c text ih =>
    obtain ⟨hstar, hopening, -, hcomma⟩ := h c List.mem_cons_self
    have hpush : (fun name : String => name ++ String.ofList (c :: text)) =
        (fun name => name ++ String.ofList text) ∘ (·.push c) := by
      funext name
      apply String.toList_injective
      simp
    rw [List.cons_append, expandFrom_literal (Segment.next_literal hstar hopening hcomma _),
      ih (fun d hd => h d (List.mem_cons_of_mem c hd)), List.map_map, hpush]

theorem expandFrom_plain_end {text : List Char} (h : Plain text) (pattern : String)
    (names : List String) :
    expandFrom pattern names text = .ok (names.map (· ++ String.ofList text)) := by
  have hwhole := expandFrom_plain h pattern names []
  rwa [List.append_nil, expandFrom_nil] at hwhole

theorem expand_plain {text : String} (h : Plain text.toList) : expand text = .ok [text] := by
  rw [expand, expandFrom_plain_end h]
  simp

theorem toList_stemSet (stem : String) (numbers : List Nat) :
    (s!"{stem}[{runsText numbers}]").toList =
      stem.toList ++ '[' :: ((runsText numbers).toList ++ [']']) := by
  change (stem ++ "[" ++ runsText numbers ++ "]").toList = _
  simp [String.toList_append]

/-- What a printed set expands to: its numbers, if it has no more than a pattern may expand to, and
otherwise it is too large, for the reader or for the product of the sets. -/
theorem expand_set {stem suffix : String} (hstem : Plain stem.toList)
    (hsuffix : Plain suffix.toList) {numbers : List Nat} (hsome : numbers ≠ [])
    (hmax : ∀ n ∈ numbers, n ≤ maxMergedNumber) {pattern : String}
    (hpattern : pattern = s!"{stem}[{runsText numbers}]" ++ suffix) :
    numbers.length ≤ maxExpansion ∧
        expand pattern = .ok (numbers.map fun n => stem ++ toString n ++ suffix) ∨
      maxExpansion < numbers.length ∧
        (expand pattern = .error .rangeTooLarge ∨
          expand pattern = .error (.expansionTooLarge pattern)) := by
  have htext : pattern.toList =
      stem.toList ++ '[' :: ((runsText numbers).toList ++ ']' :: suffix.toList) := by
    rw [hpattern, String.toList_append, toList_stemSet]
    simp
  have hexpand : expand pattern = expandFrom pattern [stem]
      ('[' :: ((runsText numbers).toList ++ ']' :: suffix.toList)) := by
    rw [expand, htext, expandFrom_plain hstem]
    simp
  rw [hexpand]
  rcases readTerms_of_runsText hsome hmax suffix.toList
    with ⟨-, terms, hmembers, hread⟩ | ⟨hbad, hread⟩
  · have hnext := Segment.next_set hread
    have hlength : [stem].length * (Term.allMembers terms).length = numbers.length := by
      simp [hmembers]
    rcases Nat.lt_or_ge maxExpansion numbers.length with hsize | hsize
    · exact .inr ⟨hsize, .inr (expandFrom_set_tooLarge hnext pattern (hlength ▸ hsize))⟩
    · refine .inl ⟨hsize, ?_⟩
      rw [expandFrom_set hnext pattern (hlength ▸ hsize), expandFrom_plain_end hsuffix, hmembers]
      simp
  · have hsize : maxExpansion < numbers.length :=
      Nat.not_le.mp fun hlength => hbad (rangesFit_of_length_le hlength)
    exact .inr ⟨hsize, .inl (expandFrom_error (Segment.next_set_error hread) pattern [stem])⟩

/-- The pattern for a stem and its numbers stands for the stem with each number, unless there are
too many of them. -/
theorem expand_stemText {stem suffix : String} (hstem : Plain stem.toList)
    (hsuffix : Plain suffix.toList) {numbers : List Nat} (hsome : numbers ≠ [])
    (hmax : ∀ n ∈ numbers, n ≤ maxMergedNumber) {pattern : String}
    (hpattern : pattern = stemText stem numbers ++ suffix) :
    numbers.length ≤ maxExpansion ∧
        expand pattern = .ok (numbers.map fun n => stem ++ toString n ++ suffix) ∨
      maxExpansion < numbers.length ∧
        (expand pattern = .error .rangeTooLarge ∨
          expand pattern = .error (.expansionTooLarge pattern)) := by
  unfold stemText at hpattern
  split at hpattern
  next n =>
    subst hpattern
    have hplain : Plain (stem ++ toString n ++ suffix).toList := by
      simp only [String.toList_append, Text.toList_toString, plain_append]
      exact ⟨⟨hstem, plain_toDigits n⟩, hsuffix⟩
    have hone : [n].length ≤ maxExpansion := by simp [maxExpansion]
    exact .inl ⟨hone, expand_plain hplain⟩
  next => exact expand_set hstem hsuffix hsome hmax hpattern

end NodeQuery.Host

import NodeQuery.Proofs.Host.Matching
import NodeQuery.Proofs.Host.RoundTrip

/-!
# One reading for each pattern

The grammar of patterns is unambiguous: numbers end where no digit follows, terms at a comma, sets
at their closing bracket. So a text stands for the names of its one reading, and this needs none of
the limits that the readers put on a pattern. Read in this way, text without special characters
stands for itself, and a stem with a printed set for the stem with each of the numbers.
-/
namespace NodeQuery.Host
open Text

/-! The grammar is unambiguous -/

theorem SpellsNumber.unique {text : List Char} {m n : Nat} (h : SpellsNumber text m)
    (h' : SpellsNumber text n) : m = n := h.value.symm.trans h'.value

theorem SpellsNumber.dash_notMem {text : List Char} {n : Nat} (h : SpellsNumber text n) :
    '-' ∉ text := fun hmem => Bool.false_ne_true (h.isDigit '-' hmem)

theorem SpellsTerm.unique {text : List Char} {a b : Term} (h : SpellsTerm text a)
    (h' : SpellsTerm text b) : a = b := by
  cases h with
  | single hnumber =>
    cases h' with
    | single hnumber' => rw [hnumber.unique hnumber']
    | range => exact absurd (by simp) hnumber.dash_notMem
  | @range left right first last hleft hright hle =>
    generalize htext : left ++ '-' :: right = text at h'
    cases h' with
    | single hnumber => exact absurd (by simp [← htext]) hnumber.dash_notMem
    | range hleft' hright' hle' =>
      obtain ⟨rfl, -, rfl⟩ := eq_of_run_append_cons hleft.isDigit hleft'.isDigit rfl rfl htext
      obtain rfl := hleft.unique hleft'
      obtain rfl := hright.unique hright'
      rfl

theorem SpellsTerm.ne_comma {text : List Char} {term : Term} (h : SpellsTerm text term) :
    ∀ c ∈ text, (c != ',') = true :=
  h.forall_mem (fun c hc => bne_iff_ne.mpr fun heq => by simp [heq] at hc) (by decide)

theorem SpellsTerms.unique {text : List Char} {a b : List Term} (h : SpellsTerms text a)
    (h' : SpellsTerms text b) : a = b := by
  induction h generalizing b with
  | last hterm =>
    cases h' with
    | last hterm' => rw [hterm.unique hterm']
    | more => exact absurd (hterm.ne_comma ',' (by simp)) (by decide)
  | @more first rest term terms hterm hrest ih =>
    generalize htext : first ++ ',' :: rest = text at h'
    cases h' with
    | last hterm' => exact absurd (hterm'.ne_comma ',' (by simp [← htext])) (by decide)
    | more hterm' hrest' =>
      obtain ⟨rfl, -, rfl⟩ := eq_of_run_append_cons hterm.ne_comma hterm'.ne_comma rfl rfl htext
      rw [hterm.unique hterm', ih hrest']

theorem SpellsTerms.ne_closing {text : List Char} {terms : List Term} (h : SpellsTerms text terms) :
    ∀ c ∈ text, (c != ']') = true := fun c hc => bne_iff_ne.mpr (h.ne_bracket c hc).2

/-- A text begins with one segment at most. -/
theorem SpellsSegment.unique {text text' rest rest' : List Char} {a b : Segment}
    (h : SpellsSegment text a) (h' : SpellsSegment text' b) (heq : text ++ rest = text' ++ rest') :
    a = b ∧ rest = rest' := by
  cases h with
  | literal hstar hcomma hopening =>
    cases h' with
    | literal =>
      obtain ⟨hfirst, htail⟩ := List.cons.inj heq
      exact ⟨congrArg Segment.literal hfirst, htail⟩
    | star => exact absurd (List.cons.inj heq).1 hstar
    | set => exact absurd (List.cons.inj heq).1 hopening
  | star =>
    cases h' with
    | literal hstar hcomma hopening => exact absurd (List.cons.inj heq).1.symm hstar
    | star => exact ⟨rfl, (List.cons.inj heq).2⟩
    | set => exact absurd (List.cons.inj heq).1 (by decide)
  | set hterms =>
    cases h' with
    | literal hstar hcomma hopening => exact absurd (List.cons.inj heq).1.symm hopening
    | star => exact absurd (List.cons.inj heq).1 (by decide)
    | set hterms' =>
      have htail := (List.cons.inj heq).2
      simp only [List.append_eq, List.append_assoc, List.singleton_append] at htail
      obtain ⟨rfl, -, hrest⟩ :=
        eq_of_run_append_cons hterms.ne_closing hterms'.ne_closing rfl rfl htail
      exact ⟨congrArg Segment.set (hterms.unique hterms'), hrest⟩

theorem SpellsSegment.ne_nil {text : List Char} {segment : Segment}
    (h : SpellsSegment text segment) : text ≠ [] := by
  cases h <;> simp

theorem SpellsPattern.unique {text : List Char} {a b : List Segment} (h : SpellsPattern text a)
    (h' : SpellsPattern text b) : a = b := by
  induction h generalizing b with
  | nil =>
    generalize htext : ([] : List Char) = text at h'
    cases h' with
    | nil => rfl
    | cons hsegment => exact absurd (List.append_eq_nil_iff.mp htext.symm).1 hsegment.ne_nil
  | @cons first rest segment segments hsegment hrest ih =>
    generalize htext : first ++ rest = text at h'
    cases h' with
    | nil => exact absurd (List.append_eq_nil_iff.mp htext).1 hsegment.ne_nil
    | cons hsegment' hrest' =>
      obtain ⟨rfl, rfl⟩ := hsegment.unique hsegment' htext
      rw [ih hrest']

theorem SpellsPattern.append {left right : List Char} {a b : List Segment}
    (h : SpellsPattern left a) (h' : SpellsPattern right b) :
    SpellsPattern (left ++ right) (a ++ b) := by
  induction h with
  | nil => exact h'
  | cons hsegment _ ih =>
    rw [List.append_assoc]
    exact .cons hsegment ih

/-! What a text stands for -/

/-- The host name is one of those that the pattern denotes, however large its sets are. -/
def Stands (pattern host : String) : Prop :=
  ∃ segments, SpellsPattern pattern.toList segments ∧ Denotes segments host.toList

section Stands
variable {pattern host : String}

theorem stands_iff_denotes {segments : List Segment}
    (h : SpellsPattern pattern.toList segments) :
    Stands pattern host ↔ Denotes segments host.toList := by
  constructor
  · intro hstands
    obtain ⟨others, hothers, hdenotes⟩ := hstands
    rwa [h.unique hothers]
  · intro hdenotes
    exact ⟨segments, h, hdenotes⟩

end Stands

/-! Literals -/

theorem spellsPattern_plain {text : List Char} (h : Plain text) :
    SpellsPattern text (text.map .literal) := by
  induction text with
  | nil => exact .nil
  | cons c text ih =>
    obtain ⟨hstar, hopening, -, hcomma⟩ := h c List.mem_cons_self
    exact .cons (.literal hstar hcomma hopening) (ih fun d hd => h d (List.mem_cons_of_mem c hd))

theorem denotes_literals_append {text name : List Char} {segments : List Segment} :
    Denotes (text.map .literal ++ segments) name ↔
      ∃ rest, name = text ++ rest ∧ Denotes segments rest := by
  induction text generalizing name with
  | nil => simp
  | cons c text ih =>
    rw [List.map_cons, List.cons_append, denotes_cons_iff]
    constructor
    · intro h
      obtain ⟨piece, behind, rfl, hbehind, rfl⟩ := h
      obtain ⟨rest, rfl, hrest⟩ := ih.mp hbehind
      exact ⟨rest, rfl, hrest⟩
    · intro h
      obtain ⟨rest, rfl, hrest⟩ := h
      exact ⟨[c], text ++ rest, rfl, ih.mpr ⟨rest, rfl, hrest⟩, rfl⟩

theorem denotes_literals {text name : List Char} :
    Denotes (text.map .literal) name ↔ name = text := by
  have h : Denotes (text.map .literal ++ []) name ↔ _ := denotes_literals_append
  rw [List.append_nil] at h
  rw [h]
  simp [denotes_nil_iff]

/-! Printed sets -/

/-- The segments of a stem with a set and of what follows it. -/
def stemSegments (stem : String) (terms : List Term) (suffix : String) : List Segment :=
  stem.toList.map .literal ++ .set terms :: suffix.toList.map .literal

theorem denotes_stemSegments {stem suffix host : String} {terms : List Term} :
    Denotes (stemSegments stem terms suffix) host.toList ↔
      ∃ n ∈ Term.allMembers terms, host = stem ++ toString n ++ suffix := by
  rw [stemSegments, denotes_literals_append]
  constructor
  · intro h
    obtain ⟨rest, hhost, hrest⟩ := h
    obtain ⟨piece, behind, ⟨n, hn, rfl⟩, hbehind, rfl⟩ := denotes_cons_iff.mp hrest
    refine ⟨n, hn, String.toList_injective ?_⟩
    rw [hhost, denotes_literals.mp hbehind]
    simp [String.toList_append]
  · intro h
    obtain ⟨n, hn, rfl⟩ := h
    refine ⟨Nat.toDigits 10 n ++ suffix.toList, by simp [String.toList_append], ?_⟩
    exact denotes_cons_iff.mpr ⟨_, _, ⟨n, hn, rfl⟩, denotes_literals.mpr rfl, rfl⟩

theorem spellsPattern_stemSet {stem suffix : String} (hstem : Plain stem.toList)
    (hsuffix : Plain suffix.toList) {numbers : List Nat} {terms : List Term}
    (h : SpellsTerms (runsText numbers).toList terms) :
    SpellsPattern (s!"{stem}[{runsText numbers}]" ++ suffix).toList
      (stemSegments stem terms suffix) := by
  have htext : (s!"{stem}[{runsText numbers}]" ++ suffix).toList =
      stem.toList ++ (('[' :: ((runsText numbers).toList ++ [']'])) ++ suffix.toList) := by
    rw [String.toList_append, toList_stemSet, List.append_assoc]
  rw [htext, stemSegments]
  exact (spellsPattern_plain hstem).append (.cons (.set h) (spellsPattern_plain hsuffix))

/-- The pattern of a stem and its numbers has a reading that stands for the stem with each number,
and the terms of its set, if it has one, are the runs of the numbers. -/
theorem exists_reading_stemText {stem suffix : String} (hstem : Plain stem.toList)
    (hsuffix : Plain suffix.toList) {numbers : List Nat} (hsome : numbers ≠ []) :
    ∃ segments, SpellsPattern (stemText stem numbers ++ suffix).toList segments ∧
      (∀ host : String, Denotes segments host.toList ↔
        ∃ n ∈ numbers, host = stem ++ toString n ++ suffix) ∧
      ∀ terms, .set terms ∈ segments →
        terms.map (fun term => (term.first, term.last)) = runs numbers := by
  unfold stemText
  split
  next n =>
    have hplain : Plain (stem ++ toString n ++ suffix).toList := by
      simp only [String.toList_append, Text.toList_toString, plain_append]
      exact ⟨⟨hstem, plain_toDigits n⟩, hsuffix⟩
    refine ⟨_, spellsPattern_plain hplain, fun host => ?_, fun terms hterms => ?_⟩
    · rw [denotes_literals, String.toList_inj]
      simp
    · simp at hterms
  next =>
    obtain ⟨terms, hruns, hspells⟩ := exists_terms_runsText hsome
    refine ⟨_, spellsPattern_stemSet hstem hsuffix hspells, fun host => ?_, ?_⟩
    · rw [denotes_stemSegments, allMembers_of_runs hruns]
    · intro others hothers
      have hsame : others = terms := by simpa [stemSegments] using hothers
      rwa [hsame]

end NodeQuery.Host

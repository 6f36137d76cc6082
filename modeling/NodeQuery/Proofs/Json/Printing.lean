import NodeQuery.Proofs.Json.Containers
import NodeQuery.Proofs.Json.Invariants
import NodeQuery.Proofs.Json.Numbers

/-!
# Printed values

The text that is printed of a value is read as this value when numbers are taken at their word, and
so it is the text of no other value. That needs what every value has that was read: doubles that are
finite, and objects whose names are in order.
-/
namespace NodeQuery.Json
open Text (EndsRun endsRun_nil)

/-! Strings -/

theorem hexDigit_digitChar {n : Nat} (h : n < 16) : hexDigit n.digitChar = some n := by
  have hall : ∀ k : Fin 16, hexDigit k.val.digitChar = some k.val := by decide
  exact hall ⟨n, h⟩

/-- A control character is read from its code unit. -/
theorem readString_control {c : Char} (h : c.toNat < 0x20) (done rest : List Char) :
    readString done ('\\' :: 'u' :: '0' :: '0' :: (c.toNat / 16).digitChar ::
      (c.toNat % 16).digitChar :: rest) = readString (c :: done) rest := by
  have hzero : hexDigit '0' = some 0 := rfl
  have hunit : codeUnit '0' '0' (c.toNat / 16).digitChar (c.toNat % 16).digitChar =
      some c.toNat := by
    have hfirst : c.toNat / 16 < 16 := by omega
    have hsecond : c.toNat % 16 < 16 := by omega
    have hsplit : c.toNat / 16 * 16 + c.toNat % 16 = c.toNat := by omega
    simp [codeUnit, hzero, hexDigit_digitChar hfirst, hexDigit_digitChar hsecond, hsplit]
  have hlow : isLowSurrogate c.toNat = false := by
    simp only [isLowSurrogate, Bool.and_eq_false_iff, decide_eq_false_iff_not]
    omega
  have hhigh : isHighSurrogate c.toNat = false := by
    simp only [isHighSurrogate, Bool.and_eq_false_iff, decide_eq_false_iff_not]
    omega
  rw [readString]
  simp [hunit, hlow, hhigh]

/-- An escaped character is read as the character. -/
theorem readString_escape (c : Char) (done rest : List Char) :
    readString done (escape c ++ rest) = readString (c :: done) rest := by
  obtain rfl | hquote := eq_or_ne c '"'
  · exact readString_letter rfl done rest
  obtain rfl | hescape := eq_or_ne c '\\'
  · exact readString_letter rfl done rest
  obtain rfl | hbackspace := eq_or_ne c '\x08'
  · exact readString_letter rfl done rest
  obtain rfl | hfeed := eq_or_ne c '\x0c'
  · exact readString_letter rfl done rest
  obtain rfl | hline := eq_or_ne c '\n'
  · exact readString_letter rfl done rest
  obtain rfl | hreturn := eq_or_ne c '\r'
  · exact readString_letter rfl done rest
  obtain rfl | htab := eq_or_ne c '\t'
  · exact readString_letter rfl done rest
  rw [escape, if_neg hquote, if_neg hescape, if_neg hbackspace, if_neg hfeed, if_neg hline,
    if_neg hreturn, if_neg htab]
  split
  next hcontrol => exact readString_control hcontrol done rest
  next hcontrol => exact readString_plain hquote hescape hcontrol done rest

/-- An escaped text is read as the text, up to the closing quote. -/
theorem readString_flatMap_escape (text done rest : List Char) :
    readString done (text.flatMap escape ++ '"' :: rest) = some (done.reverse ++ text, rest) := by
  induction text generalizing done with
  | nil => simp [readString]
  | cons c text ih =>
    rw [List.flatMap_cons, List.append_assoc, readString_escape, ih, List.reverse_cons,
      List.append_assoc, List.singleton_append]

/-! Blocks -/

theorem toList_newLine (depth : Nat) :
    (newLine depth).toList = '\n' :: List.replicate (2 * depth) ' ' :=
  String.toList_ofList

theorem isBlank_of_mem_newLine (depth : Nat) : ∀ c ∈ (newLine depth).toList, isBlank c = true := by
  rw [toList_newLine]
  refine List.forall_mem_cons.mpr ⟨rfl, fun c hc => ?_⟩
  rw [List.eq_of_mem_replicate hc]
  rfl

/-- Lines stand between brackets with commas and white space between them. -/
theorem exists_blanks_of_block (opening closing : String) (depth : Nat) (lines : List String) :
    ∃ blanks ending : List Char, (∀ c ∈ blanks, isBlank c = true) ∧
      (∀ c ∈ ending, isBlank c = true) ∧
      (block opening closing depth lines).toList =
        opening.toList ++ (blanks ++ ((',' :: blanks).intercalate (lines.map String.toList) ++
          (ending ++ closing.toList))) := by
  cases lines with
  | nil =>
    refine ⟨[], [], List.forall_mem_nil _, List.forall_mem_nil _, ?_⟩
    rw [block, String.toList_append]
    rfl
  | cons line lines =>
    refine ⟨(newLine (depth + 1)).toList, (newLine depth).toList, isBlank_of_mem_newLine _,
      isBlank_of_mem_newLine _, ?_⟩
    have hblock : block opening closing depth (line :: lines) =
        opening ++ newLine (depth + 1) ++
          String.intercalate ("," ++ newLine (depth + 1)) (line :: lines) ++
          newLine depth ++ closing := rfl
    simp only [hblock, String.toList_append, String.toList_intercalate, List.append_assoc]
    rfl

theorem renderItems_eq (depth : Nat) (items : List Json) :
    renderItems depth items = items.map (render depth) := by
  induction items with
  | nil => rfl
  | cons item items ih => rw [renderItems, ih, List.map_cons]

theorem renderEntries_eq (depth : Nat) (entries : List (String × Json)) :
    renderEntries depth entries =
      entries.map fun entry => quote entry.1 ++ ": " ++ render depth entry.2 := by
  induction entries with
  | nil => rfl
  | cons entry entries ih => rw [renderEntries, ih, List.map_cons]

/-! Values -/

/-- The text is read as the value if numbers are taken at their word and values may nest as deep as
they do. -/
def Spells (text : List Char) (value : Json) : Prop :=
  ∃ limit, readWith Number.spelled? limit text = some value

section Values
variable {text : List Char} {value other : Json}

/-- A text is read as one value. -/
theorem Spells.unique (h : Spells text value) (hother : Spells text other) : value = other := by
  obtain ⟨limit, hread⟩ := h
  obtain ⟨larger, hreadOther⟩ := hother
  have hvalue := readFrom_mono hread (Nat.le_max_left limit larger)
  have hvalueOther := readFrom_mono hreadOther (Nat.le_max_right limit larger)
  exact Option.some.inj (hvalue.symm.trans hvalueOther)

/-- Texts that can all be read can be read with one limit. -/
theorem exists_limit {α β : Type} {R : Nat → α → β → Prop}
    (hmono : ∀ {limit a b}, R limit a b → ∀ {larger}, limit ≤ larger → R larger a b)
    {texts : List α} {values : List β}
    (h : List.Forall₂ (fun a b => ∃ limit, R limit a b) texts values) :
    ∃ limit, List.Forall₂ (R limit) texts values := by
  induction h with
  | nil => exact ⟨0, .nil⟩
  | cons hfirst hrest ih =>
    obtain ⟨limit, hfirst⟩ := hfirst
    obtain ⟨larger, hrest⟩ := ih
    exact ⟨max limit larger, .cons (hmono hfirst (Nat.le_max_left _ _))
      (hrest.imp fun _ _ h => hmono h (Nat.le_max_right _ _))⟩

theorem spells_of_readFrom (h : readFrom Number.spelled? 0 (.value []) text =
    readFrom Number.spelled? 0 (.after value []) []) : Spells text value :=
  ⟨0, h.trans (readFrom_end 0 value)⟩

/-- A number is read up to what does not go on with it, and so it is read up to the end. -/
theorem spells_number (h : ∀ rest, EndsRun continuesNumber rest →
    readFrom Number.spelled? 0 (.value []) (text ++ rest) =
      readFrom Number.spelled? 0 (.after value []) rest) : Spells text value := by
  have hread := h [] endsRun_nil
  rw [List.append_nil] at hread
  exact spells_of_readFrom hread

/-- Printed items are read as an array. -/
theorem spells_block_items {items : List Json} {depth : Nat}
    (h : ∀ item ∈ items, Spells (render (depth + 1) item).toList item) :
    Spells (render depth (.array items)).toList (.array items) := by
  obtain ⟨blanks, ending, hblanks, hending, htext⟩ :=
    exists_blanks_of_block "[" "]" depth (renderItems (depth + 1) items)
  have hitems : List.Forall₂ Spells (items.map fun item => (render (depth + 1) item).toList)
      items := by
    rw [List.forall₂_map_left_iff]
    exact List.forall₂_same.mpr h
  obtain ⟨limit, hreads⟩ := exists_limit
    (R := fun limit text value => readWith Number.spelled? limit text = some value) readFrom_mono
    hitems
  refine ⟨limit + 1, ?_⟩
  rw [render, htext, renderItems_eq, List.map_map]
  exact readWith_array (Nat.lt_succ_self limit) hblanks hending hreads

theorem toList_quote (name : String) (rest : List Char) :
    (quote name).toList ++ rest = '"' :: (name.toList.flatMap escape ++ '"' :: rest) := by
  simp [quote]

/-- Printed entries are read as an object, if the names are in order. -/
theorem spells_block_entries {entries : List (String × Json)} {depth : Nat}
    (hsorted : entries.Pairwise (·.1 < ·.1))
    (h : ∀ entry ∈ entries, Spells (render (depth + 1) entry.2).toList entry.2) :
    Spells (render depth (.object entries)).toList (.object entries) := by
  obtain ⟨blanks, ending, hblanks, hending, htext⟩ :=
    exists_blanks_of_block "\x7b" "\x7d" depth (renderEntries (depth + 1) entries)
  have hentries : List.Forall₂ (fun text entry => ∃ limit, IsEntry Number.spelled? limit text entry)
      (entries.map fun entry => (quote entry.1 ++ ": " ++ render (depth + 1) entry.2).toList)
      entries := by
    rw [List.forall₂_map_left_iff]
    refine List.forall₂_same.mpr fun entry hentry => ?_
    obtain ⟨limit, hread⟩ := h entry hentry
    refine ⟨limit, entry.1.toList.flatMap escape, ' ' :: (render (depth + 1) entry.2).toList, ?_,
      fun rest => readString_flatMap_escape _ [] rest, ?_⟩
    · rw [String.toList_append, String.toList_append, List.append_assoc, toList_quote]
      rfl
    · rw [readWith, readFrom_blank rfl]
      exact hread
  obtain ⟨limit, hreads⟩ := exists_limit (R := IsEntry Number.spelled?) IsEntry.mono hentries
  refine ⟨limit + 1, ?_⟩
  rw [render, htext, renderEntries_eq, List.map_map]
  exact readWith_object (Nat.lt_succ_self limit) hblanks hending hreads hsorted

/-- The print of a value that was read spells this value. -/
theorem spells_render (h : value.IsProper) (depth : Nat) :
    Spells (render depth value).toList value := by
  induction h generalizing depth with
  | null =>
    rw [render]
    exact spells_of_readFrom (readFrom_starts .null)
  | boolean value =>
    rw [render]
    cases value with
    | true => exact spells_of_readFrom (readFrom_starts .true)
    | false => exact spells_of_readFrom (readFrom_starts .false)
  | integer value =>
    rw [render]
    exact spells_number fun _ hrest => readFrom_integer value hrest
  | real hfinite =>
    rw [render]
    exact spells_number fun _ hrest => readFrom_double hfinite hrest
  | string value =>
    have hread : readString [] (value.toList.flatMap escape ++ ['"']) = some (value.toList, []) :=
      readString_flatMap_escape value.toList [] []
    have hstring := spells_of_readFrom (readFrom_starts (.string hread))
    rw [String.ofList_toList] at hstring
    rw [render, quote, String.toList_ofList]
    exact hstring
  | array hitems ih => exact spells_block_items fun item hitem => ih item hitem (depth + 1)
  | object hsorted hentries ih =>
    exact spells_block_entries hsorted fun entry hentry => ih entry hentry (depth + 1)

/-- The print of a value that was read spells this value and no other one, also with white space
behind it. -/
theorem spells_render_append_iff (h : value.IsProper) (depth : Nat) {blanks : List Char}
    (hblanks : ∀ c ∈ blanks, isBlank c = true) :
    Spells ((render depth value).toList ++ blanks) other ↔ other = value := by
  have hspells : Spells ((render depth value).toList ++ blanks) value := by
    obtain ⟨limit, hread⟩ := spells_render h depth
    have habove :
        readFrom Number.spelled? limit (.value []) ((render depth value).toList ++ blanks) =
          readFrom Number.spelled? limit (.after value []) (blanks ++ []) := by
      rw [List.append_nil]
      exact readFrom_above hread [] (Nat.le_refl limit) (endsRun_blanks hblanks)
    rw [readFrom_blanks hblanks, readFrom_end] at habove
    exact ⟨limit, habove⟩
  constructor
  · intro hother
    exact hother.unique hspells
  · rintro rfl
    exact hspells

end Values

end NodeQuery.Json

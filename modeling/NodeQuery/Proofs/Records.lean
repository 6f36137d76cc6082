import Mathlib.Data.List.TakeWhile
import NodeQuery.Lines
import NodeQuery.Proofs.Host.Names
import NodeQuery.Proofs.Json.Containers

/-!
# Records on lines and in an array

The texts of records give the same values on lines of their own, however these are indented and
spaced out, and as the items of one array. The array is a level of its own, so there a record may
nest one level less. The limit is on the text and not on its value: an entry that another one of the
same name replaces counts as well.
-/
namespace NodeQuery

/-! Texts and lines -/

/-- The text of a record: it begins with a brace, has no line feed, and is read as the value while
no more objects and arrays than the limit are open at a time. -/
structure IsRecord (limit : Nat) (text : String) (value : Json) : Prop where
  brace : text.toList.head? = some '{'
  newline : '\n' ∉ text.toList
  reads : Json.read limit text.toList = some value

/-- White space that does not end a line. -/
def Margin (text : String) : Prop := ∀ c ∈ text.toList, Text.isBlank c = true ∧ c ≠ '\n'

theorem margin_empty : Margin "" := by simp [Margin]

/-- The lines hold the texts in their order, one each, with white space on either side. Between them
there can be lines of nothing but white space. -/
inductive LineLayout : List String → List String → Prop where
  | nil : LineLayout [] []
  | blank {line lines texts} (hline : Margin line) (h : LineLayout lines texts) :
      LineLayout (line :: lines) texts
  | text {left right text lines texts} (hleft : Margin left) (hright : Margin right)
      (h : LineLayout lines texts) : LineLayout ((left ++ text ++ right) :: lines) (text :: texts)

section Trimming
variable {left right text : List Char}

theorem trim_blank (h : ∀ c ∈ text, Text.isBlank c = true) : Text.trim text = [] := by
  have hnone : text.dropWhile Text.isBlank = [] := List.dropWhile_eq_nil_iff.mpr h
  rw [Text.trim, Text.trimStart, hnone]
  rfl

/-- A text that begins with no white space loses nothing but white space at its end, whatever white
space is put around it. -/
theorem exists_trim {c : Char} {more : List Char} (hc : Text.isBlank c = false)
    (htext : text = c :: more) (hleft : ∀ d ∈ left, Text.isBlank d = true)
    (hright : ∀ d ∈ right, Text.isBlank d = true) :
    ∃ body tail, text = body ++ tail ∧ body ≠ [] ∧ (∀ d ∈ tail, Text.isBlank d = true) ∧
      Text.trim (left ++ text ++ right) = body := by
  refine ⟨(text.reverse.dropWhile Text.isBlank).reverse,
    (text.reverse.takeWhile Text.isBlank).reverse, ?_, ?_, ?_, ?_⟩
  · rw [← List.reverse_append, List.takeWhile_append_dropWhile, List.reverse_reverse]
  · intro hnil
    have hall := List.dropWhile_eq_nil_iff.mp (List.reverse_eq_nil_iff.mp hnil)
    have hblank := hall c (by simp [htext])
    rw [hc] at hblank
    cases hblank
  · intro d hd
    exact List.mem_takeWhile_imp (List.mem_reverse.mp hd)
  · have hstart : Text.trimStart (left ++ text ++ right) = text ++ right := by
      rw [Text.trimStart, List.append_assoc]
      refine Text.dropWhile_run hleft ?_
      rw [htext]
      exact Text.endsRun_cons hc _
    rw [Text.trim, hstart, List.reverse_append, List.dropWhile_append_of_pos]
    exact fun d hd => hright d (List.mem_reverse.mp hd)

end Trimming

section Lines
variable {lines texts : List String} {limit : Nat} {values : List Json}

theorem LineLayout.newline_notMem (h : LineLayout lines texts)
    (hrecords : List.Forall₂ (IsRecord limit) texts values) :
    ∀ line ∈ lines, '\n' ∉ line.toList := by
  induction h generalizing values with
  | nil => simp
  | blank hline _ ih =>
    exact List.forall_mem_cons.mpr ⟨fun hmem => (hline '\n' hmem).2 rfl, ih hrecords⟩
  | text hleft hright _ ih =>
    cases hrecords with
    | cons hrecord hmore =>
      refine List.forall_mem_cons.mpr ⟨?_, ih hmore⟩
      simp only [String.toList_append, List.mem_append, not_or]
      exact ⟨⟨fun hmem => (hleft '\n' hmem).2 rfl, hrecord.newline⟩,
        fun hmem => (hright '\n' hmem).2 rfl⟩

theorem filledLines_intercalate (h : ∀ line ∈ lines, '\n' ∉ line.toList) :
    filledLines (String.intercalate "\n" lines).toList =
      (lines.map fun line => Text.trim line.toList).filter (!·.isEmpty) := by
  have htext : (String.intercalate "\n" lines).toList =
      ['\n'].intercalate (lines.map String.toList) := String.toList_intercalate
  rw [filledLines, Text.cutAt_eq_splitOn, htext]
  cases lines with
  | nil => rfl
  | cons line lines =>
    rw [List.splitOn_intercalate '\n' (List.forall_mem_map.mpr h) (by simp), List.map_map]
    rfl

/-- The filled lines have the values of the texts. -/
theorem LineLayout.mapM_read (h : LineLayout lines texts)
    (hrecords : List.Forall₂ (IsRecord limit) texts values) {larger : Nat}
    (hlimit : limit ≤ larger) :
    ((lines.map fun line => Text.trim line.toList).filter (!·.isEmpty)).mapM (Json.read larger) =
      some values := by
  induction h generalizing values with
  | nil =>
    cases hrecords
    rfl
  | blank hline _ ih =>
    rw [List.map_cons, trim_blank fun c hc => (hline c hc).1]
    exact ih hrecords
  | text hleft hright _ ih =>
    cases hrecords with
    | @cons _ value _ values hrecord hmore =>
      obtain ⟨rest, htext⟩ := List.head?_eq_some_iff.mp hrecord.brace
      obtain ⟨body, tail, hparts, hsome, htail, htrim⟩ := exists_trim (by decide) htext
        (fun c hc => (hleft c hc).1) fun c hc => (hright c hc).1
      have hbody : Json.read larger body = some value := by
        have hread := hrecord.reads
        rw [hparts] at hread
        exact Json.readFrom_mono (Json.readFrom_of_append_blank htail hread) hlimit
      rw [List.map_cons, String.toList_append, String.toList_append, htrim,
        List.filter_cons_of_pos (by simpa using hsome), List.mapM_cons, hbody, ih hmore]
      rfl

/-- Behind leading white space and blank lines there is the first of the texts. -/
theorem LineLayout.head_trimStart (h : LineLayout lines texts)
    (hrecords : List.Forall₂ (IsRecord limit) texts values) :
    ∀ c ∈ (Text.trimStart (['\n'].intercalate (lines.map String.toList))).head?, c = '{' := by
  induction h generalizing values with
  | nil => simp [Text.trimStart]
  | @blank line lines texts hline _ ih =>
    have hblank : ∀ c ∈ line.toList, Text.isBlank c = true := fun c hc => (hline c hc).1
    cases lines with
    | nil =>
      have hnone : Text.trimStart line.toList = [] := List.dropWhile_eq_nil_iff.mpr hblank
      rw [List.map_singleton, List.intercalate_singleton, hnone]
      simp
    | cons next lines =>
      have hskip : ∀ c ∈ line.toList ++ ['\n'], Text.isBlank c = true :=
        List.forall_mem_append.mpr ⟨hblank, by simp [Text.isBlank, Text.blankRanges]⟩
      rw [List.map_cons, List.map_cons, List.intercalate_cons_cons, Text.trimStart,
        List.dropWhile_append_of_pos hskip]
      exact ih hrecords
  | @text left right text lines texts hleft hright _ ih =>
    cases hrecords with
    | cons hrecord _ =>
      obtain ⟨more, htext⟩ := List.head?_eq_some_iff.mp hrecord.brace
      obtain ⟨rest, hrest⟩ := exists_intercalate_cons ['\n'] (left ++ text ++ right).toList
        (lines.map String.toList)
      have hstart : Text.trimStart (left.toList ++ ('{' :: (more ++ right.toList ++ rest))) =
          '{' :: (more ++ right.toList ++ rest) :=
        Text.dropWhile_run (fun c hc => (hleft c hc).1) (Text.endsRun_cons (by decide) _)
      rw [List.map_cons, hrest, String.toList_append, String.toList_append, htext,
        List.append_assoc, List.append_assoc, List.cons_append, ← List.append_assoc, hstart]
      simp

theorem readRecords_lines (h : LineLayout lines texts)
    (hrecords : List.Forall₂ (IsRecord limit) texts values) (hlimit : limit ≤ maxRecordDepth) :
    readRecords (String.intercalate "\n" lines) = some values := by
  have hfirst := h.head_trimStart hrecords
  have htext : (String.intercalate "\n" lines).toList =
      ['\n'].intercalate (lines.map String.toList) := String.toList_intercalate
  rw [readRecords]
  split
  next rest hopening =>
    rw [← htext, hopening] at hfirst
    cases hfirst '[' rfl
  next =>
    rw [filledLines_intercalate (h.newline_notMem hrecords)]
    exact h.mapM_read hrecords hlimit

theorem readRecords_line {text : String} {value : Json} (h : IsRecord limit text value)
    (hlimit : limit ≤ maxRecordDepth) : readRecords text = some [value] := by
  have hlines : LineLayout ["" ++ text ++ ""] [text] := .text margin_empty margin_empty .nil
  have hread := readRecords_lines hlines (.cons h .nil) hlimit
  rwa [String.empty_append, String.append_empty, String.intercalate_singleton] at hread

theorem readRecords_array {lead : String} (hlead : ∀ c ∈ lead.toList, Text.isBlank c = true)
    (hrecords : List.Forall₂ (IsRecord limit) texts values) (hlimit : limit < maxRecordDepth) :
    readRecords (lead ++ "[" ++ String.intercalate "," texts ++ "]") = some values := by
  have htext : Text.trimStart (lead ++ "[" ++ String.intercalate "," texts ++ "]").toList =
      '[' :: ([','].intercalate (texts.map String.toList) ++ [']']) := by
    simp only [String.toList_append, String.toList_intercalate, List.append_assoc]
    exact Text.dropWhile_run hlead (Text.endsRun_cons (by decide) _)
  have hitems := hrecords.imp fun _ _ hrecord => hrecord.reads
  have harray : Json.read maxRecordDepth
      ('[' :: ([','].intercalate (texts.map String.toList) ++ [']'])) = some (.array values) :=
    Json.readWith_array hlimit (List.forall_mem_nil _) (List.forall_mem_nil _)
      (List.forall₂_map_left_iff.mpr hitems)
  rw [readRecords, htext]
  simp only [harray]

/-- Texts of objects have the same values on lines and as the items of an array, with any white
space around the lines and blank lines between them, and any in front of the array. None of the
texts may need the last level of nesting, which the array takes up. -/
theorem readRecords_alike (hrecords : List.Forall₂ (IsRecord (maxRecordDepth - 1)) texts values)
    (hlines : LineLayout lines texts) {lead : String}
    (hlead : ∀ c ∈ lead.toList, Text.isBlank c = true) :
    readRecords (String.intercalate "\n" lines) = some values ∧
      readRecords (lead ++ "[" ++ String.intercalate "," texts ++ "]") = some values := by
  have hlimit : maxRecordDepth - 1 < maxRecordDepth := by decide
  exact ⟨readRecords_lines hlines hrecords (Nat.le_of_lt hlimit),
    readRecords_array hlead hrecords hlimit⟩

end Lines

/-- Two records on lines with blank ones around them, and in an array behind a line of its own. -/
theorem readRecords_alike_indented :
    readRecords (String.intercalate "\n"
        ["", "  \x7b\x7d\r", " \t", "\x7b\"a\": []\x7d ", ""]) =
        some [.object [], .object [("a", .array [])]] ∧
      readRecords (" \n" ++ "[" ++ String.intercalate "," ["\x7b\x7d", "\x7b\"a\": []\x7d"] ++
        "]") = some [.object [], .object [("a", .array [])]] := by
  have hfirst : IsRecord (maxRecordDepth - 1) "\x7b\x7d" (.object []) := by
    refine ⟨by decide, by decide, ?_⟩
    simp [Json.read, Json.readWith, Json.readFrom_solid, Json.readFrom_end, Json.isBlank, Json.step,
      Json.startValue, maxRecordDepth]
  have hsecond : IsRecord (maxRecordDepth - 1) "\x7b\"a\": []\x7d"
      (.object [("a", .array [])]) := by
    refine ⟨by decide, by decide, ?_⟩
    simp [Json.read, Json.readWith, Json.readFrom_solid, Json.readFrom_blank, Json.readFrom_end,
      Json.isBlank, Json.step, Json.startValue, Json.startName, Json.readString, Json.afterValue,
      insertEntry, maxRecordDepth]
  have hblank : Margin "  " ∧ Margin "\r" ∧ Margin " \t" ∧ Margin " " := by
    simp [Margin, Text.isBlank, Text.blankRanges]
  obtain ⟨hleft, hreturn, hline, hright⟩ := hblank
  have hlines : LineLayout
      ["", "  " ++ "\x7b\x7d" ++ "\r", " \t", "" ++ "\x7b\"a\": []\x7d" ++ " ", ""]
      ["\x7b\x7d", "\x7b\"a\": []\x7d"] :=
    .blank margin_empty (.text hleft hreturn
      (.blank hline (.text margin_empty hright (.blank margin_empty .nil))))
  have hlead : ∀ c ∈ " \n".toList, Text.isBlank c = true := by
    simp [Text.isBlank, Text.blankRanges]
  exact readRecords_alike (.cons hfirst (.cons hsecond .nil)) hlines hlead

/-! Replaced entries -/

namespace Json

section Replacing
variable {value? : Number → Option Json} {limit : Nat} {stack : List Frame}

theorem readString_a (rest : List Char) :
    readString [] ('a' :: '"' :: rest) = some (['a'], rest) := by
  simp [readString]

/-- The first entry of an object can hold as much as its value is. -/
theorem readFrom_firstEntry (hdepth : stack.length < limit) (rest : List Char) :
    readFrom value? limit (.value stack) ("\x7b\"a\":".toList ++ rest) =
      readFrom value? limit (.value (.entry [] "a" :: stack)) rest := by
  change readFrom value? limit (.value stack) ('{' :: '"' :: 'a' :: '"' :: ':' :: rest) = _
  rw [readFrom_brace hdepth, readFrom_firstName, readFrom_name (readString_a _)]
  exact readFrom_colon "a" rest

/-- An entry of the same name puts its value in the place of the first one. -/
theorem readFrom_secondEntry (value : Json) (rest : List Char) :
    readFrom value? limit (.after value (.entry [] "a" :: stack))
        (",\"a\":null\x7d".toList ++ rest) =
      readFrom value? limit (.after (.object [("a", .null)]) stack) rest := by
  have hnull : step value? limit 'n' ('u' :: 'l' :: 'l' :: '}' :: rest)
      (.value (.entry [("a", value)] "a" :: stack)) =
        some (.after .null (.entry [("a", value)] "a" :: stack), '}' :: rest) := by
    simp [step, startValue]
  calc
    readFrom value? limit (.after value (.entry [] "a" :: stack))
        (",\"a\":null\x7d".toList ++ rest)
        = readFrom value? limit (.name [("a", value)] stack) ("\"a\":null\x7d".toList ++ rest) :=
      readFrom_nextEntry "a" value _
    _ = readFrom value? limit (.colon [("a", value)] "a" stack) (":null\x7d".toList ++ rest) :=
      readFrom_name (readString_a _)
    _ = readFrom value? limit (.value (.entry [("a", value)] "a" :: stack))
        ("null\x7d".toList ++ rest) := readFrom_colon "a" _
    _ = readFrom value? limit (.after .null (.entry [("a", value)] "a" :: stack)) ('}' :: rest) :=
      readFrom_step rfl hnull
    _ = readFrom value? limit (.after (.object [("a", .null)]) stack) rest := by
      rw [readFrom_closingBrace]
      simp [insertEntry]

end Replacing

end Json

/-- The text of an object with one entry that is given twice: first as arrays in one another, one
more than `n`, and then as nothing. -/
def replacedText (n : Nat) : String :=
  "\x7b\"a\":" ++ String.ofList (List.replicate (n + 1) '[') ++
    String.ofList (List.replicate (n + 1) ']') ++ ",\"a\":null\x7d"

section Replaced
variable {value? : Json.Number → Option Json} {n limit : Nat} {stack : List Json.Frame}

theorem toList_replacedText (n : Nat) :
    (replacedText n).toList = "\x7b\"a\":".toList ++ (List.replicate (n + 1) '[' ++
      (List.replicate (n + 1) ']' ++ ",\"a\":null\x7d".toList)) := by
  simp only [replacedText, String.toList_append, String.toList_ofList, List.append_assoc]

theorem exists_toList_replacedText (n : Nat) : ∃ more, (replacedText n).toList = '{' :: more :=
  ⟨_, toList_replacedText n⟩

theorem newline_notMem_replacedText (n : Nat) : '\n' ∉ (replacedText n).toList := by
  rw [toList_replacedText]
  simp [List.mem_replicate]

/-- The value nests one level deep, but the text is read only where the arrays have room. -/
theorem readFrom_replacedText (hdepth : stack.length + n + 1 < limit) (rest : List Char) :
    Json.readFrom value? limit (.value stack) ((replacedText n).toList ++ rest) =
      Json.readFrom value? limit (.after (.object [("a", .null)]) stack) rest := by
  rw [toList_replacedText, List.append_assoc, List.append_assoc, List.append_assoc,
    Json.readFrom_firstEntry (by omega), Json.readFrom_nested (by rw [List.length_cons]; omega),
    Json.readFrom_secondEntry]

theorem readFrom_replacedText_refused (hopening : stack.length < limit)
    (hdepth : limit ≤ stack.length + n + 1) (rest : List Char) :
    Json.readFrom value? limit (.value stack) ((replacedText n).toList ++ rest) = none := by
  rw [toList_replacedText, List.append_assoc, List.append_assoc,
    Json.readFrom_firstEntry hopening, Json.readFrom_too_deep (by rw [List.length_cons]; omega)]

/-- By itself the text is read as long as the object and the arrays are within the limit. -/
theorem isRecord_replacedText (hdepth : n + 1 < limit) :
    IsRecord limit (replacedText n) (.object [("a", .null)]) := by
  obtain ⟨more, hmore⟩ := exists_toList_replacedText n
  have hread : Json.readFrom Json.Number.value? limit (.value [])
      ((replacedText n).toList ++ []) = _ := readFrom_replacedText (by simpa using hdepth) []
  rw [List.append_nil, Json.readFrom_end] at hread
  exact ⟨by rw [hmore]; rfl, newline_notMem_replacedText n, hread⟩

theorem readRecords_array_replacedText (hdepth : maxRecordDepth ≤ n + 2) :
    readRecords ("[" ++ replacedText n ++ "]") = none := by
  obtain ⟨more, hmore⟩ := exists_toList_replacedText n
  have hrefused : Json.readFrom Json.Number.value? maxRecordDepth (.value [.array []])
      ((replacedText n).toList ++ [']']) = none :=
    readFrom_replacedText_refused (by decide) (by rw [List.length_singleton]; omega) _
  have hstart : Text.trimStart ("[" ++ replacedText n ++ "]").toList =
      '[' :: ((replacedText n).toList ++ [']']) := by
    rw [String.toList_append, String.toList_append]
    rfl
  have harray : Json.read maxRecordDepth ('[' :: ((replacedText n).toList ++ [']'])) = none := by
    rw [Json.read, Json.readWith, Json.readFrom_opening (by decide)]
    rw [hmore, List.cons_append] at hrefused ⊢
    rw [Json.readFrom_itemOrEnd rfl (by decide), hrefused]
  rw [readRecords, hstart]
  simp only [harray]

end Replaced

/-- The text is a record, and its value nests one level deep. On a line it is read, and as the only
item of an array it is refused, since the levels of the entry that is replaced count too. -/
theorem readRecords_replacedText_differs :
    IsRecord maxRecordDepth (replacedText 125) (.object [("a", .null)]) ∧
      readRecords (replacedText 125) = some [.object [("a", .null)]] ∧
      readRecords ("[" ++ replacedText 125 ++ "]") = none := by
  have hrecord : IsRecord maxRecordDepth (replacedText 125) (.object [("a", .null)]) :=
    isRecord_replacedText (by decide)
  exact ⟨hrecord, readRecords_line hrecord (Nat.le_refl _),
    readRecords_array_replacedText (by decide)⟩

end NodeQuery

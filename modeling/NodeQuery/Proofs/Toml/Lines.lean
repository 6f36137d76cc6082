import NodeQuery.Proofs.Toml.Strings
import NodeQuery.Toml.Reader

/-!
# Reading written lines

What a line that is written the plain way does to the document: a header of one name, or one name
with a value that ends the line.
-/
namespace NodeQuery.Toml

open Text (EndsRun)

/-! ### Single characters -/

theorem readFrom_break (d : Document) (rest : List Char) :
    readFrom (.line d) ('\n' :: rest) = readFrom (.line d) rest := by
  rw [readFrom]
  rfl

theorem readFrom_lineEnd (d : Document) (rest : List Char) :
    readFrom (.lineEnd d) ('\n' :: rest) = readFrom (.line d) rest := by
  rw [readFrom]
  rfl

theorem readFrom_space (state : State) (rest : List Char) :
    readFrom state (' ' :: rest) = readFrom state rest := by
  rw [readFrom]
  · rfl
  · decide
  · simp

/-- No blank, and the beginning of neither a line break nor a comment. -/
def isSolid (c : Char) : Bool := !isBlank c && c != '\n' && c != '\r' && c != '#'

theorem readFrom_solid {c : Char} (hc : isSolid c = true) (state : State) (text : List Char) :
    readFrom state (c :: text) =
      (step c text state).bind fun next => readFrom next.1 next.2 := by
  simp only [isSolid, Bool.and_eq_true, Bool.not_eq_true', bne_iff_ne] at hc
  obtain ⟨⟨⟨hblank, hbreak⟩, hreturn⟩, hcomment⟩ := hc
  rw [readFrom]
  · rw [hblank, if_neg Bool.false_ne_true, if_neg hcomment]
    split
    next hnone => rw [hnone]; rfl
    next hsome => rw [hsome]; rfl
  · exact hbreak
  · exact fun _ hc => absurd hc hreturn

/-! ### Keys -/

theorem isSolid_of_isBareChar {c : Char} (h : isBareChar c = true) : isSolid c = true := by
  simp only [isSolid, isBlank, Bool.and_eq_true, Bool.not_eq_true', Bool.or_eq_false_iff,
    decide_eq_false_iff_not, bne_iff_ne]
  refine ⟨⟨⟨⟨?_, ?_⟩, ?_⟩, ?_⟩, ?_⟩ <;> rintro rfl <;> exact absurd h (by decide)

theorem exists_quoteKey_eq_cons (name : List Char) :
    ∃ c tail, quoteKey name = c :: tail ∧ isSolid c = true ∧ c ≠ '[' := by
  have hbasic : ∃ c tail, shortBasic name = c :: tail ∧ isSolid c = true ∧ c ≠ '[' :=
    ⟨'"', _, rfl, by decide, by decide⟩
  unfold quoteKey
  dsimp only
  split
  next h =>
    simp only [Bool.and_eq_true, List.all_eq_true] at h
    obtain ⟨c, name, rfl⟩ := List.exists_cons_of_ne_nil (l := name) (by simpa using h.1)
    have hc := h.2 c List.mem_cons_self
    refine ⟨c, name, rfl, isSolid_of_isBareChar hc, ?_⟩
    rintro rfl
    exact absurd hc (by decide)
  split
  · exact hbasic
  split
  · exact ⟨'\'', _, rfl, by decide, by decide⟩
  · exact hbasic

theorem dropWhile_quoteKey (name rest : List Char) :
    (quoteKey name ++ rest).dropWhile isBlank = quoteKey name ++ rest := by
  obtain ⟨c, tail, hname, hsolid, -⟩ := exists_quoteKey_eq_cons name
  have hblank : isBlank c = false := by simp_all [isSolid]
  simp [hname, hblank]

theorem readPath_quoteKey (limit : Nat) (name : List Char) {rest more : List Char} {c : Char}
    (hrest : EndsRun isBareChar rest) (hmore : rest.dropWhile isBlank = c :: more) (hc : c ≠ '.') :
    readPath (limit + 1) (quoteKey name ++ rest) =
      some (⟨[], String.ofList name⟩, c :: more) := by
  simp only [readPath, dropWhile_quoteKey, readKeyPart_quoteKey name hrest, hmore]
  split
  next h => exact absurd (List.cons.inj h).1 hc
  · rfl

theorem readAssignment_quoteKey (name rest : List Char) :
    readAssignment (quoteKey name ++ ' ' :: '=' :: rest) =
      some (⟨[], String.ofList name⟩, rest) := by
  have hends : EndsRun isBareChar (' ' :: '=' :: rest) := Text.endsRun_cons (by decide) _
  have hpath := readPath_quoteKey 78 name hends rfl (by decide)
  simp only [readAssignment, maxKeyParts, hpath]

theorem readFrom_key (d : Document) (name rest : List Char) :
    readFrom (.line d) (quoteKey name ++ ' ' :: '=' :: ' ' :: rest) =
      readFrom (.value d ⟨[], String.ofList name⟩ []) rest := by
  have hassign := readAssignment_quoteKey name (' ' :: rest)
  obtain ⟨c, tail, hname, hsolid, hbracket⟩ := exists_quoteKey_eq_cons name
  rw [hname, List.cons_append] at hassign ⊢
  rw [readFrom_solid hsolid, step, if_neg hbracket, hassign]
  exact readFrom_space _ rest

/-! ### Values -/

/-- Behind a key and up to the end of the line, the text is read as the value. -/
def Spells (written : List Char) (value : Toml) : Prop :=
  ∀ d key rest, readFrom (.value d key []) (written ++ '\n' :: rest) =
    (d.assign key value).bind fun d => readFrom (.line d) rest

theorem readFrom_endValue (d : Document) (key : Path) (value : Toml) (rest : List Char) :
    (((endValue d key value []).map (·, '\n' :: rest)).bind fun next => readFrom next.1 next.2) =
      (d.assign key value).bind fun d => readFrom (.line d) rest := by
  unfold endValue
  cases d.assign key value with
  | none => rfl
  | some d => exact readFrom_lineEnd d rest

theorem spells_of_startValue {c : Char} {tail : List Char} {value : Toml} (hc : isSolid c = true)
    (h : ∀ d key rest, startValue d key [] (c :: tail ++ '\n' :: rest) =
      (endValue d key value []).map (·, '\n' :: rest)) : Spells (c :: tail) value := by
  intro d key rest
  rw [List.cons_append, readFrom_solid hc, step, ← List.cons_append, h]
  exact readFrom_endValue d key value rest

theorem spells_true : Spells "true".toList (.boolean true) :=
  spells_of_startValue (by decide) fun _ _ _ => rfl

theorem spells_false : Spells "false".toList (.boolean false) :=
  spells_of_startValue (by decide) fun _ _ _ => rfl

theorem spells_empty_array : Spells "[]".toList (.array []) := by
  intro d key rest
  have hopen : readFrom (.value d key []) ('[' :: ']' :: '\n' :: rest) =
      readFrom (.itemOrEnd d key [] []) (']' :: '\n' :: rest) := readFrom_solid (by decide) _ _
  refine hopen.trans ?_
  rw [readFrom_solid (by decide)]
  exact readFrom_endValue d key (.array []) rest

theorem exists_quoteString_eq_cons (text : List Char) :
    ∃ c tail, quoteString text = c :: tail ∧ (c = '"' ∨ c = '\'') := by
  unfold quoteString
  dsimp only
  repeat' split
  all_goals exact ⟨_, _, rfl, by decide⟩

theorem spells_quoteString (text : List Char) :
    Spells (quoteString text) (.string (String.ofList text)) := by
  have hread := readString_quoteString text
  obtain ⟨c, tail, hwritten, hquote⟩ := exists_quoteString_eq_cons text
  rw [hwritten] at hread ⊢
  rcases hquote with rfl | rfl
  · refine spells_of_startValue (by decide) fun d key rest => ?_
    simp only [startValue, List.cons_append]
    rw [← List.cons_append, hread]
  · refine spells_of_startValue (by decide) fun d key rest => ?_
    simp only [startValue, List.cons_append]
    rw [← List.cons_append, hread]

/-- A line with a name and a value. -/
theorem readFrom_assignment {written : List Char} {value : Toml} (h : Spells written value)
    (d : Document) (name rest : List Char) :
    readFrom (.line d) (quoteKey name ++ ' ' :: '=' :: ' ' :: (written ++ '\n' :: rest)) =
      (d.assign ⟨[], String.ofList name⟩ value).bind fun d => readFrom (.line d) rest := by
  rw [readFrom_key, h]

/-! ### Headers -/

theorem readFrom_header {d : Document} {text rest : List Char} {opened : Option Document}
    (h : readHeader d text = opened.map (·, '\n' :: rest)) :
    readFrom (.line d) ('[' :: text) = opened.bind fun d => readFrom (.line d) rest := by
  rw [readFrom_solid (by decide), step, if_pos rfl, h]
  cases opened with
  | none => rfl
  | some d => exact readFrom_lineEnd d rest

theorem readFrom_tableHeader (d : Document) (name rest : List Char) :
    readFrom (.line d) ('[' :: (quoteKey name ++ ']' :: '\n' :: rest)) =
      (d.beginTable ⟨[], String.ofList name⟩).bind fun d => readFrom (.line d) rest := by
  have hends : EndsRun isBareChar (']' :: '\n' :: rest) := Text.endsRun_cons (by decide) _
  have hpath := readPath_quoteKey 78 name hends rfl (by decide)
  obtain ⟨c, tail, hname, -, hbracket⟩ := exists_quoteKey_eq_cons name
  refine readFrom_header ?_
  rw [hname, List.cons_append] at hpath ⊢
  rw [readHeader]
  · simp only [maxKeyParts, hpath]
  · exact fun more hmore => hbracket (List.cons.inj hmore).1

theorem readFrom_elementHeader (d : Document) (name rest : List Char) :
    readFrom (.line d) ('[' :: '[' :: (quoteKey name ++ ']' :: ']' :: '\n' :: rest)) =
      (d.beginElement ⟨[], String.ofList name⟩).bind fun d => readFrom (.line d) rest := by
  have hends : EndsRun isBareChar (']' :: ']' :: '\n' :: rest) := Text.endsRun_cons (by decide) _
  have hpath := readPath_quoteKey 78 name hends rfl (by decide)
  refine readFrom_header ?_
  simp only [readHeader, maxKeyParts, hpath]

/-! ### What lines do to the document -/

/-- A new name outside of tables. -/
theorem Document.assign_top {entries : List (String × Node)} {name : String}
    (hnew : lookupEntry name entries = none) (value : Toml) :
    (⟨entries, []⟩ : Document).assign ⟨[], name⟩ value =
      some ⟨insertEntry name (.value value) entries, []⟩ := by
  simp [Document.assign, change, Toml.assign, hnew]

/-- A new name in the table that has a header. -/
theorem Document.assign_table {entries inner : List (String × Node)} {table name : String}
    (hopen : lookupEntry table entries = some (.table .header inner))
    (hnew : lookupEntry name inner = none) (value : Toml) :
    (⟨entries, [table]⟩ : Document).assign ⟨[], name⟩ value =
      some ⟨insertEntry table (.table .header (insertEntry name (.value value) inner)) entries,
        [table]⟩ := by
  simp [Document.assign, change, Toml.assign, hopen, hnew]

/-- A new name in the last element of an array of tables. -/
theorem Document.assign_element {entries last : List (String × Node)}
    {before : List (List (String × Node))} {table name : String}
    (hopen : lookupEntry table entries = some (.tables (last :: before)))
    (hnew : lookupEntry name last = none) (value : Toml) :
    (⟨entries, [table]⟩ : Document).assign ⟨[], name⟩ value =
      some ⟨insertEntry table (.tables (insertEntry name (.value value) last :: before)) entries,
        [table]⟩ := by
  simp [Document.assign, change, Toml.assign, hopen, hnew]

theorem Document.beginTable_new {d : Document} {name : String}
    (hnew : lookupEntry name d.entries = none) :
    d.beginTable ⟨[], name⟩ = some ⟨insertEntry name (.table .header []) d.entries, [name]⟩ := by
  simp [Document.beginTable, change, hnew]

/-- An array of tables gets its next element, which may be the first. -/
theorem Document.beginElement_next {d : Document} {name : String}
    {elements : List (List (String × Node))}
    (h : lookupEntry name d.entries = if elements = [] then none else some (.tables elements)) :
    d.beginElement ⟨[], name⟩ =
      some ⟨insertEntry name (.tables ([] :: elements)) d.entries, [name]⟩ := by
  rcases elements with _ | ⟨last, before⟩
  · simp_all [Document.beginElement, change]
  · simp_all [Document.beginElement, change]

end NodeQuery.Toml

import NodeQuery.Proofs.Toml.Lines
import NodeQuery.Settings.Loading

/-!
# Saved settings are loaded again

The text of settings is read back as the same settings, whatever names, targets and queries they
hold. The document that the lines make up keeps the three parts of the settings under their names.
-/
namespace NodeQuery

open Toml

/-! ### Fields -/

namespace FieldSetting

def toToml : FieldSetting → Toml
  | .known present => .boolean present
  | .alias target => .string target

theorem ofToml?_toToml (setting : FieldSetting) : ofToml? setting.toToml = some setting := by
  cases setting <;> rfl

theorem spells_render (setting : FieldSetting) : Spells setting.render setting.toToml := by
  cases setting with
  | known present =>
    cases present with
    | true => exact spells_true
    | false => exact spells_false
  | «alias» target => simpa [render, toToml] using spells_quoteString target.toList

end FieldSetting

namespace Settings

/-- The entries of a table of fields. -/
def fieldNodes (fields : List (String × FieldSetting)) : List (String × Node) :=
  fields.map fun (name, setting) => (name, .value setting.toToml)

/-- A document that goes on in its table of fields. -/
def withFields (entries : List (String × Node)) (fields : List (String × FieldSetting)) :
    Document :=
  ⟨insertEntry "fields" (.table .header (fieldNodes fields)) entries, ["fields"]⟩

theorem readFrom_renderField (d : Document) (field : String × FieldSetting) (rest : List Char) :
    readFrom (.line d) (renderField field ++ rest) =
      (d.assign ⟨[], field.1⟩ field.2.toToml).bind fun d => readFrom (.line d) rest := by
  have hline := readFrom_assignment field.2.spells_render d field.1.toList rest
  simpa [renderField] using hline

/-- A field behind those that the table has already. -/
theorem assign_withFields (entries : List (String × Node)) {done : List (String × FieldSetting)}
    {field : String × FieldSetting} (h : ∀ before ∈ done, before.1 < field.1) :
    (withFields entries done).assign ⟨[], field.1⟩ field.2.toToml =
      some (withFields entries (done ++ [field])) := by
  have hlast : ∀ node ∈ fieldNodes done, node.1 < field.1 := by
    intro node hnode
    obtain ⟨before, hbefore, rfl⟩ := List.mem_map.mp hnode
    exact h before hbefore
  have hnext : insertEntry field.1 (.value field.2.toToml) (fieldNodes done) =
      fieldNodes (done ++ [field]) := by
    rw [insertEntry_of_lt hlast]
    simp [fieldNodes]
  have hopen : lookupEntry "fields" (withFields entries done).entries =
      some (.table .header (fieldNodes done)) := by
    simp [withFields, lookupEntry_insertEntry]
  have hnew : lookupEntry field.1 (fieldNodes done) = none :=
    lookupEntry_eq_none fun node hnode => (Std.ne_of_lt (hlast node hnode)).symm
  refine (Document.assign_table hopen hnew _).trans ?_
  simp [withFields, insertEntry_insertEntry, hnext]

/-- Fields are written in order, so that each of them comes behind the ones before it. -/
theorem readFrom_fields (entries : List (String × Node))
    {done fields : List (String × FieldSetting)} (h : (done ++ fields).Pairwise (·.1 < ·.1))
    (rest : List Char) :
    readFrom (.line (withFields entries done)) (fields.flatMap renderField ++ rest) =
      readFrom (.line (withFields entries (done ++ fields))) rest := by
  induction fields generalizing done with
  | nil => simp
  | cons field fields ih =>
    have hassign := assign_withFields entries fun before hbefore =>
      (List.pairwise_append.mp h).2.2 before hbefore field List.mem_cons_self
    have hrest := @ih (done ++ [field]) (by simpa using h)
    rw [List.flatMap_cons, List.append_assoc, readFrom_renderField, hassign]
    simpa using hrest

theorem entriesToToml_fieldNodes (fields : List (String × FieldSetting)) :
    entriesToToml (fieldNodes fields) = fields.map fun field => (field.1, field.2.toToml) := by
  induction fields with
  | nil => simp [fieldNodes, entriesToToml]
  | cons field fields ih =>
    simp only [fieldNodes] at ih
    simp [fieldNodes, entriesToToml, Node.toToml, ih]

theorem foldlM_fields (done : Table FieldSetting) {fields : List (String × FieldSetting)}
    (h : (done.entries ++ fields).Pairwise (·.1 < ·.1)) :
    (fields.map fun field => (field.1, field.2.toToml)).foldlM (fun fields (name, value) =>
      (FieldSetting.ofToml? value).map fun setting => fields.insert name setting) done =
      some ⟨done.entries ++ fields, h⟩ := by
  induction fields generalizing done with
  | nil => simp
  | cons field fields ih =>
    have hlast : ∀ entry ∈ done.entries, entry.1 < field.1 := fun entry hentry =>
      (List.pairwise_append.mp h).2.2 entry hentry field List.mem_cons_self
    have hnext : (done.insert field.1 field.2).entries = done.entries ++ [field] :=
      insertEntry_of_lt hlast field.2
    have hrest := ih (done.insert field.1 field.2) (by simpa [hnext] using h)
    simp only [List.map_cons, List.foldlM_cons, FieldSetting.ofToml?_toToml]
    refine hrest.trans (congrArg some (Table.ext ?_))
    simp [hnext]

theorem fieldsOfToml?_fieldNodes (fields : Table FieldSetting) :
    fieldsOfToml? (some (.table (entriesToToml (fieldNodes fields.entries)))) = some fields := by
  rw [entriesToToml_fieldNodes]
  exact foldlM_fields ∅ fields.sorted

end Settings

/-! ### Operations -/

namespace Operation

/-- The entries of an operation's table. -/
def nodes (operation : Operation) : List (String × Node) :=
  [("name", .value (.string operation.name)), ("query", .value (.string operation.query))]

def toToml (operation : Operation) : Toml :=
  .table [("name", .string operation.name), ("query", .string operation.query)]

theorem insertEntry_query (operation : Operation) :
    insertEntry "query" (.value (.string operation.query))
      [("name", .value (.string operation.name))] = operation.nodes := by
  have hname : "name" < "query" := by decide
  exact insertEntry_of_lt (fun entry hentry => List.mem_singleton.mp hentry ▸ hname) _

theorem render_append (operation : Operation) (rest : List Char) :
    operation.render ++ rest =
      '\n' :: '[' :: '[' :: (quoteKey "operations".toList ++ ']' :: ']' :: '\n' ::
        (quoteKey "name".toList ++ ' ' :: '=' :: ' ' :: (quoteString operation.name.toList ++
          '\n' :: (quoteKey "query".toList ++ ' ' :: '=' :: ' ' ::
            (quoteString operation.query.toList ++ '\n' :: rest))))) := by
  have hheader : "\n[[operations]]\nname = ".toList =
      '\n' :: '[' :: '[' :: (quoteKey "operations".toList ++ ']' :: ']' :: '\n' ::
        (quoteKey "name".toList ++ [' ', '=', ' '])) := by decide
  have hquery : "\nquery = ".toList = '\n' :: (quoteKey "query".toList ++ [' ', '=', ' ']) := by
    decide
  unfold render
  rw [hheader, hquery]
  simp only [List.append_assoc, List.cons_append, List.nil_append]

theorem ofToml?_toToml (operation : Operation) : ofToml? operation.toToml = some operation := rfl

end Operation

namespace Settings

/-- A document that goes on in the last of its operations, which stand in reverse order. -/
def withOperations (entries : List (String × Node)) (operations : List Operation) : Document :=
  ⟨insertEntry "operations" (.tables (operations.map Operation.nodes)) entries, ["operations"]⟩

/-- The header begins an element, and the two lines below it fill it. -/
theorem readFrom_renderOperation {d : Document} {elements : List (List (String × Node))}
    (h : lookupEntry "operations" d.entries =
      if elements = [] then none else some (.tables elements))
    (operation : Operation) (rest : List Char) :
    readFrom (.line d) (operation.render ++ rest) =
      readFrom (.line ⟨insertEntry "operations" (.tables (operation.nodes :: elements)) d.entries,
        ["operations"]⟩) rest := by
  have hname (d : Document) := readFrom_assignment (spells_quoteString operation.name.toList) d
    "name".toList
  have hquery (d : Document) := readFrom_assignment (spells_quoteString operation.query.toList) d
    "query".toList
  simp only [String.ofList_toList] at hname hquery
  have hopen (element : List (String × Node)) : lookupEntry "operations"
      (insertEntry "operations" (.tables (element :: elements)) d.entries) =
        some (.tables (element :: elements)) := by
    simp [lookupEntry_insertEntry]
  rw [Operation.render_append, readFrom_break, readFrom_elementHeader, String.ofList_toList,
    Document.beginElement_next h, Option.bind_some, hname,
    Document.assign_element (hopen []) rfl, Option.bind_some, insertEntry_insertEntry, hquery,
    Document.assign_element (hopen _) rfl, Option.bind_some, insertEntry_insertEntry, insertEntry,
    operation.insertEntry_query]

theorem readFrom_operations {entries : List (String × Node)}
    (done operations : List Operation) (hdone : done ≠ []) (rest : List Char) :
    readFrom (.line (withOperations entries done)) (operations.flatMap Operation.render ++ rest) =
      readFrom (.line (withOperations entries (operations.reverse ++ done))) rest := by
  induction operations generalizing done with
  | nil => rfl
  | cons operation operations ih =>
    have hopen : lookupEntry "operations" (withOperations entries done).entries =
        if done.map Operation.nodes = [] then none
        else some (.tables (done.map Operation.nodes)) := by
      simp [withOperations, lookupEntry_insertEntry, hdone]
    rw [List.flatMap_cons, List.append_assoc, readFrom_renderOperation hopen]
    have hrest := ih (operation :: done) (List.cons_ne_nil _ _)
    simpa [withOperations, insertEntry_insertEntry] using hrest

theorem elementsToToml_nodes (operations : List Operation) (behind : List Toml) :
    elementsToToml (operations.map Operation.nodes) behind =
      operations.reverse.map Operation.toToml ++ behind := by
  induction operations generalizing behind with
  | nil => rfl
  | cons operation operations ih =>
    have helement : Toml.table (entriesToToml operation.nodes) = operation.toToml := by
      simp [entriesToToml, Operation.nodes, Operation.toToml, Node.toToml]
    simp [elementsToToml, helement, ih]

theorem mapM_ofToml? (operations : List Operation) :
    (operations.map Operation.toToml).mapM Operation.ofToml? = some operations := by
  induction operations with
  | nil => rfl
  | cons operation operations ih => simp [Operation.ofToml?_toToml, ih]

/-! ### The whole text -/

/-- The entries in front of the tables. An empty list of operations is written there. -/
def opening (s : Settings) : List (String × Node) :=
  let entries := [("catalog", .value (.boolean s.catalog))]
  if s.operations.isEmpty then insertEntry "operations" (.value (.array [])) entries else entries

theorem readFrom_catalog (catalog : Bool) (rest : List Char) :
    readFrom (.line .empty)
        ("catalog = ".toList ++ (if catalog then "true\n" else "false\n").toList ++ rest) =
      readFrom (.line ⟨[("catalog", .value (.boolean catalog))], []⟩) rest := by
  have hkey : "catalog = ".toList = quoteKey "catalog".toList ++ [' ', '=', ' '] := by decide
  have hassign (value : Toml) :
      Document.empty.assign ⟨[], String.ofList "catalog".toList⟩ value =
        some ⟨[("catalog", .value value)], []⟩ := by
    rw [String.ofList_toList]
    exact Document.assign_top rfl value
  rw [hkey]
  cases catalog with
  | true =>
    have hline := readFrom_assignment spells_true .empty "catalog".toList rest
    rw [hassign] at hline
    exact hline
  | false =>
    have hline := readFrom_assignment spells_false .empty "catalog".toList rest
    rw [hassign] at hline
    exact hline

theorem readFrom_noOperations {entries : List (String × Node)}
    (h : lookupEntry "operations" entries = none) (rest : List Char) :
    readFrom (.line ⟨entries, []⟩) ("operations = []\n".toList ++ rest) =
      readFrom (.line ⟨insertEntry "operations" (.value (.array [])) entries, []⟩) rest := by
  have hkey : "operations = []\n".toList =
      quoteKey "operations".toList ++ [' ', '=', ' ', '[', ']', '\n'] := by decide
  have hline := readFrom_assignment spells_empty_array ⟨entries, []⟩ "operations".toList rest
  rw [String.ofList_toList, Document.assign_top h] at hline
  rw [hkey, List.append_assoc]
  exact hline

theorem readFrom_fieldsHeader {d : Document} (h : lookupEntry "fields" d.entries = none)
    (rest : List Char) :
    readFrom (.line d) ("\n[fields]\n".toList ++ rest) =
      readFrom (.line (withFields d.entries [])) rest := by
  have hkey : "\n[fields]\n".toList =
      '\n' :: '[' :: (quoteKey "fields".toList ++ [']', '\n']) := by decide
  have hline := readFrom_tableHeader d "fields".toList rest
  rw [String.ofList_toList, Document.beginTable_new h] at hline
  rw [hkey, List.cons_append, readFrom_break, List.cons_append, List.append_assoc]
  exact hline

/-- The document that the lines of settings make up. -/
def document (s : Settings) : Document :=
  match s.operations with
  | [] => withFields s.opening s.fields.entries
  | _ => withOperations (withFields s.opening s.fields.entries).entries s.operations.reverse

theorem lookupEntry_opening (s : Settings) :
    lookupEntry "catalog" s.opening = some (.value (.boolean s.catalog)) ∧
    lookupEntry "fields" s.opening = none ∧
    lookupEntry "operations" s.opening =
      if s.operations.isEmpty then some (.value (.array [])) else none := by
  unfold opening
  split
  · simp [lookupEntry_insertEntry, lookupEntry]
  · simp [lookupEntry]

theorem readFrom_opening (s : Settings) (rest : List Char) :
    readFrom (.line .empty)
        ("catalog = ".toList ++ (if s.catalog then "true\n" else "false\n").toList ++
          (if s.operations.isEmpty then "operations = []\n" else "").toList ++ rest) =
      readFrom (.line ⟨s.opening, []⟩) rest := by
  have hnew : lookupEntry "operations" [("catalog", Node.value (.boolean s.catalog))] = none := rfl
  rw [List.append_assoc, readFrom_catalog]
  unfold opening
  split
  · exact readFrom_noOperations hnew rest
  · rfl

theorem readFrom_render (s : Settings) :
    readFrom (.line .empty) s.render.toList = some s.document := by
  have ⟨_, hfields, hoperations⟩ := s.lookupEntry_opening
  have hsorted := @readFrom_fields s.opening [] s.fields.entries s.fields.sorted
  unfold render
  rw [String.toList_ofList, List.append_assoc, List.append_assoc, readFrom_opening,
    readFrom_fieldsHeader hfields, hsorted, List.nil_append, document]
  cases hempty : s.operations with
  | nil => simp [readFrom]
  | cons operation operations =>
    have hnone :
        lookupEntry "operations" (withFields s.opening s.fields.entries).entries = none := by
      simp [withFields, lookupEntry_insertEntry, hoperations, hempty]
    have hfirst := @readFrom_renderOperation _ [] hnone operation
    rw [List.flatMap_cons, hfirst]
    have hrest := @readFrom_operations (withFields s.opening s.fields.entries).entries [operation]
      operations (List.cons_ne_nil _ _) []
    rw [List.append_nil] at hrest
    refine hrest.trans ?_
    simp [readFrom]

theorem lookupEntry_entriesToToml (name : String) (entries : List (String × Node)) :
    lookupEntry name (entriesToToml entries) = (lookupEntry name entries).map Node.toToml := by
  induction entries with
  | nil => rfl
  | cons entry entries ih =>
    simp only [entriesToToml, lookupEntry]
    split
    · rfl
    · exact ih

/-- The three parts of the settings stand in the document under their names. -/
theorem lookupEntry_document (s : Settings) :
    lookupEntry "catalog" s.document.entries = some (.value (.boolean s.catalog)) ∧
    lookupEntry "fields" s.document.entries =
      some (.table .header (fieldNodes s.fields.entries)) ∧
    (lookupEntry "operations" s.document.entries).map Node.toToml =
      some (.array (s.operations.map Operation.toToml)) := by
  have ⟨hcatalog, _, hoperations⟩ := s.lookupEntry_opening
  unfold document
  cases hempty : s.operations with
  | nil => simp [withFields, lookupEntry_insertEntry, hcatalog, hoperations, hempty, Node.toToml]
  | cons operation operations =>
    have helements := elementsToToml_nodes (operation :: operations).reverse []
    rw [List.reverse_reverse, List.append_nil] at helements
    simpa [withFields, withOperations, lookupEntry_insertEntry, hcatalog, Node.toToml]
      using helements

theorem ofToml?_document (s : Settings) : ofToml? s.document.toToml = some s := by
  have ⟨hcatalog, hfields, hoperations⟩ := s.lookupEntry_document
  have hlist : operationsOfToml? (some (.array (s.operations.map Operation.toToml))) =
      some s.operations := mapM_ofToml? s.operations
  simp [Document.toToml, ofToml?, lookupEntry_entriesToToml, hcatalog, hfields, hoperations,
    Node.toToml, fieldsOfToml?_fieldNodes, hlist]

theorem read?_render (s : Settings) : read? s.render = some s := by
  have hmark : skipMark s.render.toList = s.render.toList := by
    unfold render
    rw [String.toList_ofList]
    rfl
  unfold read? Toml.read
  rw [hmark, readFrom_render]
  exact ofToml?_document s

end Settings

/-! ### Files -/

namespace Folder

/-- A file may be put under the path: its folder is there, and it is no folder itself. -/
def Writable (d : Folder) (path : String) : Prop :=
  ∃ place, d.place? path = some place ∧ d.isFolder place = false ∧ place.all isName = true

/-- The folder with another file in a place. -/
def withFile (d : Folder) (place : Place) (text : String) : Folder :=
  { d with files := (place, text) :: d.files.filter fun file => file.1 != place }

/-- The new file lies below the same folders as the file that was in its place. -/
theorem isFolder_withFile {d : Folder} {other : Place} (place : Place) (text : String)
    (h : d.isFolder other = true) : (d.withFile place text).isFolder other = true := by
  simp only [isFolder, Bool.or_eq_true, List.any_eq_true, Bool.and_eq_true] at h ⊢
  rcases h with h | ⟨file, hfile, hbelow⟩
  · exact .inl h
  · by_cases hplace : file.1 = place
    · exact .inr ⟨(place, text), List.mem_cons_self, hplace ▸ hbelow⟩
    · exact .inr ⟨file, List.mem_cons_of_mem _ (by simp [hfile, hplace]), hbelow⟩

theorem walk_withFile {d : Folder} {start reached : Place} {names : List String} (place : Place)
    (text : String) (h : d.walk start names = some reached) :
    (d.withFile place text).walk start names = some reached := by
  induction names generalizing start with
  | nil => exact h
  | cons name names ih =>
    simp only [walk] at h ⊢
    split at h
    next hfolder =>
      rw [if_pos (isFolder_withFile place text hfolder)]
      exact ih h
    · cases h

theorem not_isFolder_withFile {d : Folder} {place : Place} (text : String)
    (h : d.isFolder place = false) : (d.withFile place text).isFolder place = false := by
  simp only [isFolder, Bool.or_eq_false_iff, List.any_eq_false] at h ⊢
  refine ⟨h.1, List.forall_mem_cons.mpr ⟨by simp, fun file hfile => ?_⟩⟩
  exact h.2 file (List.mem_filter.mp hfile).1

theorem write?_of_writable {d : Folder} {path : String} (h : d.Writable path) (text : String) :
    ∃ d', d.write? path text = some d' ∧ d'.lookup path = some (.file text) := by
  obtain ⟨place, hplace, hfile, hnames⟩ := h
  have hreached : (d.withFile place text).place? path = some place :=
    walk_withFile place text hplace
  have hfound : (d.withFile place text).file? place = some text := by simp [file?, withFile]
  refine ⟨d.withFile place text, ?_, ?_⟩
  · simp [write?, withFile, hplace, hfile, hnames]
  · simp [lookup, hreached, not_isFolder_withFile text hfile, hfound]

theorem write?_eq_none_iff {d : Folder} {path : String} (text : String) :
    d.write? path text = none ↔ ¬ d.Writable path := by
  constructor
  · intro hnone hwritable
    obtain ⟨d', hwrite, -⟩ := write?_of_writable hwritable text
    rw [hnone] at hwrite
    cases hwrite
  · intro hnot
    unfold write?
    split
    · rfl
    next place hplace =>
      split
      · rfl
      next hfits =>
        have ⟨hfile, hnames⟩ := Bool.or_eq_false_iff.mp (Bool.eq_false_iff.mpr hfits)
        exact absurd ⟨place, hplace, hfile, by simpa using hnames⟩ hnot

end Folder

namespace Settings

/-- Saving fails only where no file may be, whatever the settings are. -/
theorem save_eq_error_iff {s : Settings} {d : Folder} {path : String} {e : SettingsError} :
    s.save d path = .error e ↔ ¬ d.Writable path ∧ e = .unwritable path := by
  rw [← Folder.write?_eq_none_iff s.render]
  unfold save
  split
  next hnone => simp [hnone, eq_comm]
  next hsome => simp [hsome]

/-- Settings that are saved where a file may be are loaded from there as they are. -/
theorem save_load (s : Settings) {d : Folder} {path : String} (h : d.Writable path) :
    ∃ d', s.save d path = .ok d' ∧ d'.lookup path = some (.file s.render) ∧
      loadFrom d'.lookup path = .ok s := by
  obtain ⟨d', hwrite, hlookup⟩ := Folder.write?_of_writable h s.render
  refine ⟨d', ?_, hlookup, ?_⟩
  · simp [save, hwrite]
  · simp [loadFrom, hlookup, read?_render]

/-- A quoted name, an alias that looks like a boolean, and a query of two lines. -/
theorem save_load_quoted :
    (Folder.ofList [("hosts", "")]).Writable "saved.toml" ∧
      ∃ d', save ⟨false, (∅ : Table FieldSetting).insert "it's" (.alias "true"),
          [⟨"", "cores >\n8"⟩]⟩ (Folder.ofList [("hosts", "")]) "saved.toml" = .ok d' ∧
        loadFrom d'.lookup "saved.toml" =
          .ok ⟨false, (∅ : Table FieldSetting).insert "it's" (.alias "true"),
            [⟨"", "cores >\n8"⟩]⟩ := by
  have hwritable : (Folder.ofList [("hosts", "")]).Writable "saved.toml" :=
    ⟨["", "saved.toml"], by decide, by decide, by decide⟩
  obtain ⟨d', hsave, -, hload⟩ := save_load ⟨false, (∅ : Table FieldSetting).insert "it's"
    (.alias "true"), [⟨"", "cores >\n8"⟩]⟩ hwritable
  exact ⟨hwritable, d', hsave, hload⟩

end Settings

end NodeQuery

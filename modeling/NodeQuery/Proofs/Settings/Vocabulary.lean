import NodeQuery.Proofs.Query.Histories
import NodeQuery.Settings.Basic

/-!
# The vocabulary of settings

Settings are a history: from the catalog or from nothing, the fields in the order of their names,
then the operations in their own order. So an operation is bound to what its query meant when it was
defined. The history breaks off at the first operation whose query does not compile, and nothing
else can go wrong, since the catalog itself compiles. Fields of the settings may take names that the
operations of the catalog use: these were compiled before.
-/
namespace NodeQuery
open Query Vocabulary

/-- The queries of the catalog compile, each under the operations before it. -/
theorem Catalog.exists_vocabulary : ∃ v, Catalog.vocabulary = .ok v := by
  have hok : Catalog.vocabulary.isOk = true := by decide +kernel
  cases h : Catalog.vocabulary with
  | error error =>
    rw [h] at hok
    cases hok
  | ok v => exact ⟨v, rfl⟩

/-- The definition of an operation as a step. -/
def Operation.change (operation : Operation) : Change := .define operation.name operation.query

namespace Settings

/-- The setting of a name as a step, if it is one. -/
def fieldChange? : String × FieldSetting → Option Change
  | (name, .known true) => some (.addField name)
  | (_, .known false) => none
  | (name, .alias target) => some (.addAlias name target)

/-- What all fields and no operations of the settings make of the catalog, or of nothing if it is
switched off. -/
def named (s : Settings) (catalog : Vocabulary) : Vocabulary :=
  (if s.catalog then catalog else ∅).after (s.fields.entries.filterMap fieldChange?)

/-- The entry for a name in a field table that had `entry` for it before it was set. -/
def entryFor (entry : Option FieldEntry) : Option FieldSetting → Option FieldEntry
  | some (.known true) => some .canonical
  | some (.alias target) => some (.alias target)
  | some (.known false) | none => entry

/-- Every query compiles under the vocabulary that the operations before it have made. -/
def AllCompile (v : Vocabulary) (operations : List Operation) : Prop :=
  ∀ before operation later, operations = before ++ operation :: later →
    ∃ e, compile (v.after (before.map Operation.change)) operation.query = .ok e

/-- The query of the operation does not compile, and those of all operations before it do. -/
def FirstFails (v : Vocabulary) (operations : List Operation) (operation : Operation)
    (error : QueryError) : Prop :=
  ∃ before later, operations = before ++ operation :: later ∧ AllCompile v before ∧
    compile (v.after (before.map Operation.change)) operation.query = .error error

section Fields
variable {v : Vocabulary}

theorem foldl_addField (fields : List (String × FieldSetting)) (v : Vocabulary) :
    fields.foldl (fun v (name, setting) => addField v name setting) v =
      v.after (fields.filterMap fieldChange?) := by
  induction fields generalizing v with
  | nil => rfl
  | cons field fields ih =>
    rw [List.foldl_cons, ih]
    obtain ⟨name, present | target⟩ := field
    · cases present <;> rfl
    · rfl

theorem field?_addField (v : Vocabulary) (name : String) (setting : FieldSetting) (other : String) :
    (addField v name setting).field? other =
      if other = name then entryFor (v.field? other) (some setting) else v.field? other := by
  match setting with
  | .known true => exact v.field?_addField name other
  | .known false => exact (ite_self _).symm
  | .alias target => exact v.field?_addAlias name target other

/-- Names are set once, so it does not matter that the table is filled in the order of the names. -/
theorem field?_foldl_addField {fields : List (String × FieldSetting)}
    (hsorted : fields.Pairwise (·.1 < ·.1)) (v : Vocabulary) (other : String) :
    (fields.foldl (fun v (name, setting) => addField v name setting) v).field? other =
      entryFor (v.field? other) (lookupEntry other fields) := by
  induction fields generalizing v with
  | nil => rfl
  | cons field fields ih =>
    obtain ⟨hfirst, hrest⟩ := List.pairwise_cons.mp hsorted
    rw [List.foldl_cons, ih hrest, field?_addField, lookupEntry]
    split
    next heq =>
      have hnone : lookupEntry other fields = none :=
        lookupEntry_eq_none fun entry hentry => heq ▸ Std.ne_of_lt (hfirst entry hentry)
      rw [hnone]
      rfl
    next => rfl

theorem field?_named (s : Settings) (catalog : Vocabulary) (name : String) :
    (s.named catalog).field? name =
      entryFor ((if s.catalog then catalog else ∅).field? name) (s.fields.get? name) := by
  rw [named, ← foldl_addField]
  exact field?_foldl_addField s.fields.sorted _ name

theorem untouched_fields (v : Vocabulary) (fields : List (String × FieldSetting)) (name : String) :
    v.Untouched (fields.filterMap fieldChange?) name := by
  intro before change later hchanges e hstores
  have hmem : change ∈ fields.filterMap fieldChange? := by simp [hchanges]
  obtain ⟨⟨other, present | target⟩, -, hchange⟩ := List.mem_filterMap.mp hmem
  · cases present <;> cases hchange
    cases hstores
  · cases hchange
    cases hstores

theorem operation?_named (s : Settings) (catalog : Vocabulary) (name : String) :
    (s.named catalog).operation? name = (if s.catalog then catalog else ∅).operation? name :=
  Vocabulary.operation?_after_of_untouched (untouched_fields _ _ name)

end Fields

section Operations
variable {v : Vocabulary} {operation : Operation} {operations : List Operation}

theorem allCompile_nil (v : Vocabulary) : AllCompile v [] := by
  intro before operation later h
  simp at h

theorem allCompile_cons_iff : AllCompile v (operation :: operations) ↔
    (∃ e, compile v operation.query = .ok e) ∧
      AllCompile (operation.change.apply v) operations :=
  forall_cut_cons_iff (P := fun before (next : Operation) =>
    ∃ e, compile (v.after (before.map Operation.change)) next.query = .ok e)

theorem defineOperation_of_ok {e : Expr} (h : compile v operation.query = .ok e) :
    defineOperation v operation = .ok (operation.change.apply v) := by
  rw [Operation.change, Change.apply_define_of_ok h]
  simp [defineOperation, Vocabulary.define, h, bind, Except.bind, pure, Except.pure]

theorem defineOperation_of_error {error : QueryError}
    (h : compile v operation.query = .error error) :
    defineOperation v operation = .error (.operation operation.name error) := by
  simp [defineOperation, Vocabulary.define, h, bind, Except.bind]

theorem foldlM_of_allCompile (h : AllCompile v operations) :
    operations.foldlM defineOperation v = .ok (v.after (operations.map Operation.change)) := by
  induction operations generalizing v with
  | nil => rfl
  | cons operation operations ih =>
    obtain ⟨⟨e, he⟩, hrest⟩ := allCompile_cons_iff.mp h
    rw [List.foldlM_cons, defineOperation_of_ok he]
    exact ih hrest

theorem foldlM_of_firstFails {error : QueryError} (h : FirstFails v operations operation error) :
    operations.foldlM defineOperation v = .error (.operation operation.name error) := by
  obtain ⟨before, later, rfl, hbefore, herror⟩ := h
  rw [List.foldlM_append, foldlM_of_allCompile hbefore]
  simp [List.foldlM_cons, defineOperation_of_error herror, bind, Except.bind]

theorem allCompile_or_firstFails (v : Vocabulary) (operations : List Operation) :
    AllCompile v operations ∨ ∃ operation error, FirstFails v operations operation error := by
  induction operations generalizing v with
  | nil => exact .inl (allCompile_nil v)
  | cons operation operations ih =>
    cases hquery : compile v operation.query with
    | error error =>
      right
      exact ⟨operation, error, [], operations, rfl, allCompile_nil v, hquery⟩
    | ok e =>
      rcases ih (operation.change.apply v) with hrest | ⟨failing, error, before, later, hfails⟩
      · exact .inl (allCompile_cons_iff.mpr ⟨⟨e, hquery⟩, hrest⟩)
      · right
        obtain ⟨rfl, hbefore, herror⟩ := hfails
        exact ⟨failing, error, operation :: before, later, rfl,
          allCompile_cons_iff.mpr ⟨⟨e, hquery⟩, hbefore⟩, herror⟩

theorem foldlM_eq_ok_iff {w : Vocabulary} : operations.foldlM defineOperation v = .ok w ↔
    AllCompile v operations ∧ w = v.after (operations.map Operation.change) := by
  constructor
  · intro h
    rcases allCompile_or_firstFails v operations with hall | ⟨failing, error, hfails⟩
    · rw [foldlM_of_allCompile hall] at h
      cases h
      exact ⟨hall, rfl⟩
    · rw [foldlM_of_firstFails hfails] at h
      cases h
  · rintro ⟨hall, rfl⟩
    exact foldlM_of_allCompile hall

theorem foldlM_eq_error_iff {error : SettingsError} :
    operations.foldlM defineOperation v = .error error ↔
      ∃ operation e, FirstFails v operations operation e ∧ error = .operation operation.name e := by
  constructor
  · intro h
    rcases allCompile_or_firstFails v operations with hall | ⟨failing, e, hfails⟩
    · rw [foldlM_of_allCompile hall] at h
      cases h
    · rw [foldlM_of_firstFails hfails] at h
      cases h
      exact ⟨failing, e, hfails, rfl⟩
  · rintro ⟨failing, e, hfails, rfl⟩
    exact foldlM_of_firstFails hfails

theorem untouched_definitions {name : String} (h : ∀ operation ∈ operations, operation.name ≠ name)
    (v : Vocabulary) : v.Untouched (operations.map Operation.change) name := by
  intro before change later hchanges e hstores
  have hmem : change ∈ operations.map Operation.change := by simp [hchanges]
  obtain ⟨operation, hoperation, rfl⟩ := List.mem_map.mp hmem
  cases hstores
  exact h operation hoperation rfl

end Operations

/-- The settings are the history of their fields and operations. -/
theorem vocabulary_eq {catalog : Vocabulary} (h : Catalog.vocabulary = .ok catalog)
    (s : Settings) : s.vocabulary = s.operations.foldlM defineOperation (s.named catalog) := by
  have hstart : (if s.catalog then Catalog.vocabulary else .ok ∅) =
      .ok (if s.catalog then catalog else ∅) := by
    split
    · exact h
    · rfl
  rw [vocabulary, hstart]
  simp only [foldl_addField]
  rfl

/-- An operation is what the last step that stored it has stored, compiled under the vocabulary of
that step, and a definition that fails changes nothing. Settings are such a history, from the
catalog or from nothing: they have a vocabulary iff every query compiles under the fields and the
operations before it, the error names the first operation whose query does not, and the operations
of the catalog that are not defined again are those of the catalog itself. -/
theorem operations_bind_early :
    (∀ (v : Vocabulary) (changes : List Change) (name : String),
      (∀ e, (v.after changes).operation? name = some e ↔ v.LastStored changes name e) ∧
      ∀ query, (∀ e, compile (v.after changes) query ≠ .ok e) →
        v.after (changes ++ [.define name query]) = v.after changes) ∧
    ∃ catalog, Catalog.vocabulary = .ok catalog ∧ ∀ s : Settings,
      (∀ name, (s.named catalog).field? name =
          entryFor ((if s.catalog then catalog else ∅).field? name) (s.fields.get? name) ∧
        (s.named catalog).operation? name =
          (if s.catalog then catalog else ∅).operation? name) ∧
      (∀ v, s.vocabulary = .ok v ↔ AllCompile (s.named catalog) s.operations ∧
        v = (s.named catalog).after (s.operations.map Operation.change)) ∧
      (∀ error, s.vocabulary = .error error ↔ ∃ operation e,
        FirstFails (s.named catalog) s.operations operation e ∧
          error = .operation operation.name e) ∧
      ∀ v, s.catalog = true → s.vocabulary = .ok v →
        ∀ name, (∀ operation ∈ s.operations, operation.name ≠ name) →
          v.operation? name = catalog.operation? name := by
  obtain ⟨catalog, hcatalog⟩ := Catalog.exists_vocabulary
  refine ⟨fun v changes name => ⟨fun e => operation?_after_iff, fun query hquery => ?_⟩,
    catalog, hcatalog, fun s => ⟨fun name => ?_, fun v => ?_, fun error => ?_, ?_⟩⟩
  · rw [after_append]
    cases h : compile (v.after changes) query with
    | error error => exact Change.apply_define_of_error h
    | ok e => exact absurd h (hquery e)
  · exact ⟨field?_named s catalog name, operation?_named s catalog name⟩
  · rw [vocabulary_eq hcatalog]
    exact foldlM_eq_ok_iff
  · rw [vocabulary_eq hcatalog]
    exact foldlM_eq_error_iff
  · intro v hon hv name hname
    rw [vocabulary_eq hcatalog] at hv
    obtain ⟨-, rfl⟩ := foldlM_eq_ok_iff.mp hv
    rw [operation?_after_of_untouched (untouched_definitions hname _), operation?_named, if_pos hon]

/-- A field that becomes an alias after an operation has used it, a second definition of that
operation that fails, a field of the settings that hides one of the catalog, and settings whose
second operation fails. -/
theorem operations_bind_early_hidden_fields :
    ((∅ : Vocabulary).after [.addField "load", .define "busy" "load > 80",
        .addAlias "load" "cpu", .define "busy" "("]).operation? "busy" =
      some (.compare .gt "load" 80) ∧
    (∃ catalog v, Catalog.vocabulary = .ok catalog ∧
      vocabulary ⟨true, (∅ : Table FieldSetting).insert "cpu%" (.alias "load"), []⟩ = .ok v ∧
      v.field? "cpu%" = some (.alias "load") ∧
      v.operation? "cpu-busy" = catalog.operation? "cpu-busy") ∧
    vocabulary ⟨false, (∅ : Table FieldSetting).insert "load" (.known true),
        [⟨"busy", "load > 80"⟩, ⟨"broken", "("⟩]⟩ =
      .error (.operation "broken" ⟨2, .unexpectedEnd⟩) := by
  obtain ⟨hhistory, catalog, hcatalog, hsettings⟩ := operations_bind_early
  have hscan : Scan.ofText 1 "load > 80".toList =
      ⟨[⟨.word "load", 1⟩, ⟨.comparison .gt, 6⟩, ⟨.word "80", 8⟩], .ok 10⟩ := by cbv
  have hopening : Scan.ofText 1 "(".toList = ⟨[⟨.opening, 1⟩], .ok 2⟩ := by cbv
  have hbusy : compile ((∅ : Vocabulary).addField "load") "load > 80" =
      .ok (.compare .gt "load" 80) := by
    unfold compile
    rw [hscan]
    rfl
  have hbroken : ∀ v, compile v "(" = .error ⟨2, .unexpectedEnd⟩ := by
    intro v
    unfold compile
    rw [hopening]
    rfl
  refine ⟨?_, ?_, ?_⟩
  · have hstores : (Change.define "busy" "load > 80").Stores
        ((∅ : Vocabulary).after [.addField "load"]) "busy" (.compare .gt "load" 80) :=
      .define hbusy
    have hlater : ((∅ : Vocabulary).after [.addField "load", .define "busy" "load > 80"]).Untouched
        [.addAlias "load" "cpu", .define "busy" "("] "busy" := by
      refine untouched_cons_iff.mpr ⟨fun e h => ?_, untouched_cons_iff.mpr ⟨fun e h => ?_, ?_⟩⟩
      · cases h
      · cases h with
        | define h =>
          rw [hbroken] at h
          cases h
      · exact untouched_nil _ _
    exact ((hhistory _ _ _).1 _).mpr (.stored rfl hstores hlater)
  · obtain ⟨hnamed, hok, -, hkept⟩ :=
      hsettings ⟨true, (∅ : Table FieldSetting).insert "cpu%" (.alias "load"), []⟩
    have hv := (hok _).mpr ⟨allCompile_nil _, rfl⟩
    exact ⟨catalog, _, hcatalog, hv, (hnamed "cpu%").1, hkept _ rfl hv _ (by simp)⟩
  · obtain ⟨-, -, herror, -⟩ := hsettings ⟨false, (∅ : Table FieldSetting).insert "load"
      (.known true), [⟨"busy", "load > 80"⟩, ⟨"broken", "("⟩]⟩
    have hfirst : AllCompile ((∅ : Vocabulary).addField "load") [⟨"busy", "load > 80"⟩] :=
      allCompile_cons_iff.mpr ⟨⟨_, hbusy⟩, allCompile_nil _⟩
    exact (herror _).mpr ⟨⟨"broken", "("⟩, _, ⟨_, [], rfl, hfirst, hbroken _⟩, rfl⟩

end Settings

end NodeQuery

import NodeQuery.Command.Run
import NodeQuery.Proofs.Query.Rendering
import NodeQuery.Proofs.Query.Typing

/-!
# What is printed of queries

The commands `check` and `fields` print expressions that were compiled. Their constants are finite
and their patterns match leading elements, so the print says which expressions they are, and with
them which rows they select, as long as the names in them have no spaces and no parentheses.
-/
namespace NodeQuery.Query

/-- The names and patterns of the expression have no spaces and no parentheses. -/
def Expr.IsUnbroken : Expr → Prop
  | .compare _ field _ => Unbroken field
  | .complement child => child.IsUnbroken
  | .combine _ left right => left.IsUnbroken ∧ right.IsUnbroken
  | .node pattern => Unbroken pattern.text

theorem Expr.WellTyped.legible {e : Expr} (h : e.WellTyped) (hunbroken : e.IsUnbroken) :
    e.Legible := by
  induction e with
  | compare op field value => exact ⟨hunbroken, h⟩
  | complement child ih => exact ih h hunbroken
  | combine op left right ihLeft ihRight =>
    exact ⟨ihLeft h.1 hunbroken.1, ihRight h.2 hunbroken.2⟩
  | node pattern => exact ⟨hunbroken, (Host.Pattern.compile_eq_ok h).2⟩

end NodeQuery.Query

namespace NodeQuery.Command
open Text (eq_of_run_append_cons)

section Check
variable {around : Surroundings} {invocation : Invocation} {p q : String} {a b : Query.Expr}
  {v : Query.Vocabulary}

theorem ok_of_mapError {ε δ α : Type} {f : ε → δ} {r : Except ε α} {value : α}
    (h : r.mapError f = .ok value) : r = .ok value := by
  cases r with
  | error e => cases h
  | ok other =>
    cases h
    rfl

/-- The vocabulary of a command comes from settings, so its operations have been compiled. -/
theorem wellTyped_of_vocabulary (h : vocabulary around invocation = .ok v) : v.WellTyped := by
  obtain ⟨settings, -, hsettings⟩ := Query.bind_eq_ok (ok_of_mapError h)
  exact (Query.Vocabulary.built_of_settings hsettings).wellTyped

theorem wellTyped_of_compileQuery (h : compileQuery around invocation p = .ok a) :
    a.WellTyped := by
  obtain ⟨v, hv, hcompile⟩ := Query.bind_eq_ok h
  exact (Query.composes_of_compile (ok_of_mapError hcompile)).wellTyped (wellTyped_of_vocabulary hv)

theorem output_check (h : compileQuery around invocation p = .ok a) :
    (perform around { invocation with action := .check p }).output = a.render ++ "\n" := by
  have hcompile : compileQuery around { invocation with action := .check p } p = .ok a := h
  simp only [perform, hcompile]
  rfl

theorem perform_select_eq (hp : compileQuery around invocation p = .ok a)
    (hq : compileQuery around invocation q = .ok a) (file : Option String) (format : Format) :
    perform around { invocation with action := .select p file format } =
      perform around { invocation with action := .select q file format } := by
  have hpQuery : ∀ action, compileQuery around { invocation with action := action } p = .ok a :=
    fun _ => hp
  have hqQuery : ∀ action, compileQuery around { invocation with action := action } q = .ok a :=
    fun _ => hq
  simp only [perform, select, hpQuery, hqQuery]

/-- Queries for which the same is printed are the same expression. -/
theorem eq_of_output_check (hp : compileQuery around invocation p = .ok a)
    (hq : compileQuery around invocation q = .ok b) (ha : a.IsUnbroken) (hb : b.IsUnbroken)
    (h : (perform around { invocation with action := .check p }).output =
      (perform around { invocation with action := .check q }).output) : a = b := by
  rw [output_check hp, output_check hq] at h
  have htexts := congrArg String.toList h
  rw [String.toList_append, String.toList_append] at htexts
  exact (Query.Expr.eq_of_render_append ((wellTyped_of_compileQuery hp).legible ha)
    ((wellTyped_of_compileQuery hq).legible hb) htexts).1

end Check

section Lines
variable {texts others : List String} {rest more : List Char}

theorem toList_lines_nil : (lines []).toList = [] := rfl

theorem toList_lines_cons (text : String) (texts : List String) :
    (lines (text :: texts)).toList = text.toList ++ '\n' :: (lines texts).toList := by
  simp [lines, String.join_cons]

/-- The text can stand on a line of its own and is seen there. -/
def IsLine (text : String) : Prop := text ≠ "" ∧ ∀ c ∈ text.toList, (c != '\n') = true

theorem IsLine.ne_empty_line {text : String} (h : IsLine text) (rest more : List Char) :
    text.toList ++ more ≠ '\n' :: rest := by
  obtain ⟨hne, hline⟩ := h
  obtain ⟨c, tail, htext⟩ := List.exists_cons_of_ne_nil fun hnil =>
    hne (String.toList_eq_nil_iff.mp hnil)
  rw [htext] at hline ⊢
  intro heq
  cases heq
  exact absurd (hline '\n' List.mem_cons_self) (by decide)

/-- Lines in front of an empty line are cut off there. -/
theorem eq_of_lines_append (htexts : ∀ text ∈ texts, IsLine text)
    (hothers : ∀ text ∈ others, IsLine text)
    (h : (lines texts).toList ++ '\n' :: rest = (lines others).toList ++ '\n' :: more) :
    texts = others ∧ rest = more := by
  induction texts generalizing others with
  | nil =>
    cases others with
    | nil => exact ⟨rfl, (List.cons.inj h).2⟩
    | cons other others =>
      rw [toList_lines_nil, toList_lines_cons, List.append_assoc] at h
      exact absurd h.symm ((hothers other List.mem_cons_self).ne_empty_line _ _)
  | cons text texts ih =>
    obtain ⟨htext, htexts⟩ := List.forall_mem_cons.mp htexts
    cases others with
    | nil =>
      rw [toList_lines_nil, toList_lines_cons, List.append_assoc] at h
      exact absurd h (htext.ne_empty_line _ _)
    | cons other others =>
      obtain ⟨hother, hothers⟩ := List.forall_mem_cons.mp hothers
      rw [toList_lines_cons, toList_lines_cons, List.append_assoc, List.append_assoc] at h
      obtain ⟨heq, -, hbehind⟩ := eq_of_run_append_cons htext.2 hother.2 rfl rfl h
      obtain ⟨rfl, hmore⟩ := ih htexts hothers hbehind
      exact ⟨by rw [String.toList_injective heq], hmore⟩

end Lines

section Operations
variable {entries others : List (String × Query.Expr)}

/-- An operation can be told from what follows its name. -/
def LegibleEntry (entry : String × Query.Expr) : Prop :=
  (∀ c ∈ entry.1.toList, (c != ' ') = true) ∧ entry.2.Legible

/-- The blanks behind the name are as many as its length tells. -/
theorem toList_operationLine (name : String) (e : Query.Expr) (rest : List Char) :
    (operationLine (name, e)).toList ++ rest =
      ' ' :: ' ' :: (name.toList ++ ' ' ::
        (List.replicate (14 - name.length) ' ' ++ (e.render.toList ++ rest))) := by
  have hblanks : ∀ (k : Nat) (more : List Char),
      List.replicate k ' ' ++ ' ' :: more = ' ' :: (List.replicate k ' ' ++ more) := by
    intro k more
    rw [← List.cons_append, ← List.replicate_succ, List.replicate_succ', List.append_assoc]
    rfl
  simp [operationLine, hblanks]

/-- Operations that are printed alike are the same, with the same names. -/
theorem eq_of_operationLines (hentries : ∀ entry ∈ entries, LegibleEntry entry)
    (hothers : ∀ entry ∈ others, LegibleEntry entry)
    (h : (lines (entries.map operationLine)).toList = (lines (others.map operationLine)).toList) :
    entries = others := by
  induction entries generalizing others with
  | nil =>
    cases others with
    | nil => rfl
    | cons other others =>
      rw [List.map_cons, toList_lines_cons, toList_operationLine] at h
      cases h
  | cons entry entries ih =>
    obtain ⟨hentry, hrest⟩ := List.forall_mem_cons.mp hentries
    cases others with
    | nil =>
      rw [List.map_cons, toList_lines_cons, toList_operationLine] at h
      cases h
    | cons other others =>
      obtain ⟨hother, hmore⟩ := List.forall_mem_cons.mp hothers
      obtain ⟨name, e⟩ := entry
      obtain ⟨otherName, f⟩ := other
      rw [List.map_cons, List.map_cons, toList_lines_cons, toList_lines_cons,
        toList_operationLine, toList_operationLine] at h
      obtain ⟨hname, -, hbehind⟩ := eq_of_run_append_cons hentry.1 hother.1 rfl rfl
        (List.cons.inj (List.cons.inj h).2).2
      obtain rfl := String.toList_injective hname
      obtain ⟨rfl, hlines⟩ := Query.Expr.eq_of_render_append hentry.2 hother.2
        (List.append_cancel_left hbehind)
      rw [ih hrest hmore (List.cons.inj hlines).2]

end Operations

section Fields
variable {around other : Surroundings} {invocation otherInvocation : Invocation}
  {v w : Query.Vocabulary}

/-- The print of a vocabulary can be taken apart: fields stand on a line each, the names of the
operations have no spaces, and the names in the operations have no spaces and no parentheses. -/
structure Separable (v : Query.Vocabulary) : Prop where
  fields : ∀ entry ∈ v.fields.entries, ∀ c ∈ (fieldLine v entry).toList, (c != '\n') = true
  names : ∀ entry ∈ v.operations.entries, ∀ c ∈ entry.1.toList, (c != ' ') = true
  operations : ∀ entry ∈ v.operations.entries, entry.2.IsUnbroken

theorem fieldLine_ne_empty (v : Query.Vocabulary) (entry : String × Query.FieldEntry) :
    fieldLine v entry ≠ "" := by
  intro hempty
  have htext := congrArg String.toList hempty
  obtain ⟨name, _ | target⟩ := entry
  · simp [fieldLine, toString] at htext
  · rw [fieldLine] at htext
    split at htext
    · split at htext <;> simp [toString] at htext
    · simp [toString] at htext

theorem Separable.isLine (h : Separable v) :
    ∀ text ∈ "Fields:" :: v.fields.entries.map (fieldLine v), IsLine text := by
  refine List.forall_mem_cons.mpr ⟨⟨by decide, by simp⟩, ?_⟩
  intro text htext
  obtain ⟨entry, hentry, rfl⟩ := List.mem_map.mp htext
  exact ⟨fieldLine_ne_empty v entry, h.fields entry hentry⟩

theorem Separable.legibleEntry (h : Separable v) (hv : v.WellTyped) :
    ∀ entry ∈ v.operations.entries, LegibleEntry entry := by
  intro entry hentry
  have hstored : v.operation? entry.1 = some entry.2 :=
    lookupEntry_of_mem v.operations.sorted hentry
  exact ⟨h.names entry hentry, (hv _ _ hstored).legible (h.operations entry hentry)⟩

theorem toList_renderVocabulary (h : v.isEmpty = false) :
    (renderVocabulary v).toList =
      (lines ("Fields:" :: v.fields.entries.map (fieldLine v))).toList ++ '\n' ::
        (lines ("Operations:" :: v.operations.entries.map operationLine)).toList := by
  simp [renderVocabulary, h]

theorem head_renderVocabulary (v : Query.Vocabulary) :
    (renderVocabulary v).toList.head? = some (if v.isEmpty then 'N' else 'F') := by
  cases h : v.isEmpty with
  | true => simp [renderVocabulary, h]
  | false =>
    rw [toList_renderVocabulary h, toList_lines_cons]
    simp

theorem operations_of_isEmpty (h : v.isEmpty = true) : v.operations.entries = [] :=
  List.isEmpty_iff.mp (Bool.and_eq_true_iff.mp h).2

theorem output_fields (h : vocabulary around invocation = .ok v) :
    (perform around { invocation with action := .fields }).output = renderVocabulary v := by
  have hvocabulary : vocabulary around { invocation with action := .fields } = .ok v := h
  simp only [perform, hvocabulary]
  rfl

/-- Where two vocabularies are printed alike, their operations are the same. -/
theorem operations_eq_of_render (hv : v.WellTyped) (hw : w.WellTyped) (hvParts : Separable v)
    (hwParts : Separable w) (h : renderVocabulary v = renderVocabulary w) :
    v.operations = w.operations := by
  have hempty : v.isEmpty = w.isEmpty := by
    have hhead := head_renderVocabulary v
    rw [h, head_renderVocabulary w] at hhead
    cases hvEmpty : v.isEmpty <;> cases hwEmpty : w.isEmpty <;>
      first | rfl | (rw [hvEmpty, hwEmpty] at hhead; cases hhead)
  apply Table.ext
  cases hvEmpty : v.isEmpty with
  | true =>
    rw [operations_of_isEmpty hvEmpty, operations_of_isEmpty (hempty.symm.trans hvEmpty)]
  | false =>
    have htexts := congrArg String.toList h
    rw [toList_renderVocabulary hvEmpty, toList_renderVocabulary (hempty.symm.trans hvEmpty)]
      at htexts
    have hsections := (eq_of_lines_append hvParts.isLine hwParts.isLine htexts).2
    rw [toList_lines_cons, toList_lines_cons] at hsections
    exact eq_of_operationLines (hvParts.legibleEntry hv) (hwParts.legibleEntry hw)
      (List.cons.inj (List.append_cancel_left hsections)).2

end Fields

/-- The print of an expression is that of no other one. So queries for which `check` prints the same
select the same, and where `fields` prints the same, the operations are the same; what is compiled
has finite constants and patterns for leading elements anyway. -/
theorem print_determines_selection :
    (∀ a b : Query.Expr, a.Legible → b.Legible → a.render = b.render → a = b) ∧
    (∀ (around : Surroundings) (invocation : Invocation) (p q : String) (a b : Query.Expr),
      compileQuery around invocation p = .ok a → compileQuery around invocation q = .ok b →
      a.IsUnbroken → b.IsUnbroken →
      (perform around { invocation with action := .check p }).output =
        (perform around { invocation with action := .check q }).output →
      a = b ∧ ∀ file format,
        perform around { invocation with action := .select p file format } =
          perform around { invocation with action := .select q file format }) ∧
    ∀ (around other : Surroundings) (invocation otherInvocation : Invocation)
      (v w : Query.Vocabulary), vocabulary around invocation = .ok v →
      vocabulary other otherInvocation = .ok w → Separable v → Separable w →
      (perform around { invocation with action := .fields }).output =
        (perform other { otherInvocation with action := .fields }).output →
      v.operations = w.operations := by
  refine ⟨?_, ?_, ?_⟩
  · intro a b ha hb h
    exact (Query.Expr.eq_of_render_append ha hb (congrArg (·.toList ++ []) h)).1
  · intro around invocation p q a b hp hq ha hb h
    obtain rfl := eq_of_output_check hp hq ha hb h
    exact ⟨rfl, perform_select_eq hp hq⟩
  · intro around other invocation otherInvocation v w hv hw hvParts hwParts h
    rw [output_fields hv, output_fields hw] at h
    exact operations_eq_of_render (wellTyped_of_vocabulary hv) (wellTyped_of_vocabulary hw) hvParts
      hwParts h

/-- Patterns without a character, and a command without settings. -/
theorem print_determines_selection_empty :
    (∃ e : Query.Expr, e.Legible ∧ e.render = "(and (node ) (~ (node )))" ∧
      ∀ other : Query.Expr, other.Legible → other.render = "(and (node ) (~ (node )))" →
        other = e) ∧
    ∀ (around : Surroundings) (invocation : Invocation) (w : Query.Vocabulary),
      vocabulary around invocation = .ok w → Separable w →
      (perform around { invocation with action := .fields }).output =
        "No fields or operations defined\n" → w.operations = ∅ := by
  obtain ⟨hrender, -, hfields⟩ := print_determines_selection
  refine ⟨?_, ?_⟩
  · let anyNode : Query.Expr :=
      .node ⟨"", .leading, [], Host.Segment.readAll_nil (by decide)⟩
    have hlegible : anyNode.Legible := ⟨by simp [Query.Unbroken], rfl⟩
    have htext : (Query.Expr.combine .and anyNode (.complement anyNode)).render =
        "(and (node ) (~ (node )))" := rfl
    refine ⟨.combine .and anyNode (.complement anyNode), ⟨hlegible, hlegible⟩, htext, ?_⟩
    intro other hother hsame
    exact hrender other _ hother ⟨hlegible, hlegible⟩ (hsame.trans htext.symm)
  · intro around invocation w hw hwParts hprint
    let bare : Surroundings := ⟨fun _ => none, none, none, ""⟩
    have hbare : vocabulary bare ⟨.fields, none, true⟩ = .ok ∅ := rfl
    have hparts : Separable ∅ :=
      ⟨fun _ h => (List.not_mem_nil h).elim, fun _ h => (List.not_mem_nil h).elim,
        fun _ h => (List.not_mem_nil h).elim⟩
    have hnothing : (perform bare ⟨.fields, none, true⟩).output =
        "No fields or operations defined\n" := rfl
    exact (hfields bare around ⟨.fields, none, true⟩ invocation ∅ w hbare hw hparts hwParts
      (hnothing.trans hprint.symm)).symm

end NodeQuery.Command

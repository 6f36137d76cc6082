import NodeQuery.Proofs.Host.Matching
import NodeQuery.Proofs.Query.Acceptance
import NodeQuery.Proofs.Query.Aliases
import NodeQuery.Settings.Basic

/-!
# Compiled trees are well typed

A compiled tree is put together of operations that the vocabulary holds, comparisons of fields with
finite constants, host patterns for leading elements, complements and connectives. So it is well
typed if the operations are, and these are well typed in every vocabulary that has grown from the
empty one or from the catalog: they were compiled when they were defined, and what is done to the
vocabulary later does not touch them. A field that has become an alias since is still compared by
the operations that were compiled before.
-/
namespace NodeQuery.Query

namespace Expr

/-- Constants are finite, and patterns for leading elements compile from their own texts. -/
def WellTyped : Expr → Prop
  | .compare _ _ value => value.isFinite = true
  | .complement child => child.WellTyped
  | .combine _ left right => left.WellTyped ∧ right.WellTyped
  | .node pattern => Host.Pattern.compile pattern.text .leading = .ok pattern

/-- Some comparison of the expression names the field. -/
def Compares (field : String) : Expr → Prop
  | .compare _ name _ => name = field
  | .complement child => child.Compares field
  | .combine _ left right => left.Compares field ∨ right.Compares field
  | .node _ => False

end Expr

namespace Vocabulary

/-- The expressions that are put together of the operations and canonical fields of a vocabulary. -/
inductive Composes (v : Vocabulary) : Expr → Prop
  | operation {name : String} {e : Expr} (h : v.operation? name = some e) : Composes v e
  | compare {op : Comparison} {field : String} {value : Float}
      (hfield : v.field? field = some .canonical) (hvalue : value.isFinite = true) :
      Composes v (.compare op field value)
  | node {text : String} {pattern : Host.Pattern}
      (h : Host.Pattern.compile text .leading = .ok pattern) : Composes v (.node pattern)
  | complement {child : Expr} (h : Composes v child) : Composes v (.complement child)
  | combine {op : Connective} {left right : Expr} (hleft : Composes v left)
      (hright : Composes v right) : Composes v (.combine op left right)

/-- Every operation that is stored is well typed. -/
def WellTyped (v : Vocabulary) : Prop :=
  ∀ name stored, v.operation? name = some stored → stored.WellTyped

variable {v : Vocabulary} {e : Expr}

theorem Composes.wellTyped (hv : v.WellTyped) (h : v.Composes e) : e.WellTyped := by
  induction h with
  | operation he => exact hv _ _ he
  | compare _ hvalue => exact hvalue
  | @node text pattern h =>
    have htext : pattern.text = text := (Host.Pattern.compile_eq_ok h).1
    rw [Expr.WellTyped, htext]
    exact h
  | complement _ ih => exact ih
  | combine _ _ ihl ihr => exact ⟨ihl, ihr⟩

/-- What is compared is a field now or was one when an operation was compiled. -/
theorem Composes.canonical_or_stored (h : v.Composes e) {field : String}
    (hfield : e.Compares field) : v.field? field = some .canonical ∨
      ∃ name stored, v.operation? name = some stored ∧ stored.Compares field := by
  induction h with
  | operation he => exact .inr ⟨_, _, he, hfield⟩
  | compare hcanonical _ =>
    cases hfield
    exact .inl hcanonical
  | node => cases hfield
  | complement _ ih => exact ih hfield
  | combine _ _ ihl ihr =>
    rcases hfield with hleft | hright
    · exact ihl hleft
    · exact ihr hright

end Vocabulary

/-! What compiles is composed -/

/-- The value is composed as far as it is a set of rows, and else finite or a canonical field. -/
def Value.ComposedIn (v : Vocabulary) : Value → Prop
  | .rows e => v.Composes e
  | .number value _ => value.isFinite = true
  | .field name _ => v.field? name = some .canonical

section Composed
variable {v : Vocabulary} {a : Value} {e : Expr}

theorem composes_of_selects (ha : a.ComposedIn v) (h : a.Selects e) : v.Composes e := by
  cases h with
  | rows => exact ha
  | number h => exact .node h
  | field h => exact .node h

theorem composed_of_reads {word : String} (h : Reads v word a) : a.ComposedIn v := by
  cases h with
  | number h => exact h.2
  | field _ hname =>
    have hleads := v.leadsTo_resolve word
    rw [hname] at hleads
    exact hleads.2
  | operation _ _ he => exact .operation he
  | pattern _ _ _ h => exact .node h

theorem composed_of_derives {level : Level} {symbols : List Symbol}
    (h : Derives v level symbols a) : a.ComposedIn v := by
  induction h with
  | conjunction _ ih => exact ih
  | or _ _ hx hy ihs iht =>
    exact .combine (composes_of_selects ihs hx) (composes_of_selects iht hy)
  | relation _ ih => exact ih
  | and _ _ hx hy ihs iht =>
    exact .combine (composes_of_selects ihs hx) (composes_of_selects iht hy)
  | primary _ ih => exact ih
  | comparison _ _ ihs iht => exact .compare ihs iht
  | group _ ih => exact ih
  | complement _ hx ih => exact .complement (composes_of_selects ih hx)
  | word h => exact composed_of_reads h

theorem composes_of_compile {query : String} (h : compile v query = .ok e) : v.Composes e := by
  obtain ⟨_, a, _, ha, he⟩ := derives_of_compile h
  exact composes_of_selects (composed_of_derives ha) he

end Composed

/-! Histories of vocabularies -/

namespace Vocabulary

/-- The second vocabulary comes from the first by adding fields and aliases and defining operations,
in any order. A definition that does not compile leaves the vocabulary as it is. -/
inductive Grows (v : Vocabulary) : Vocabulary → Prop
  | refl : Grows v v
  | addField {w : Vocabulary} (h : Grows v w) (name : String) : Grows v (w.addField name)
  | addAlias {w : Vocabulary} (h : Grows v w) (name target : String) :
      Grows v (w.addAlias name target)
  | define {w x : Vocabulary} {name query : String} (h : Grows v w)
      (hdefine : w.define name query = .ok x) : Grows v x

/-- The vocabulary has grown from the empty one or from that of the catalog. -/
def Built (v : Vocabulary) : Prop :=
  ∃ start, (start = ∅ ∨ Catalog.vocabulary = .ok start) ∧ Grows start v

variable {v w x : Vocabulary}

theorem Grows.trans (h : v.Grows w) (hrest : w.Grows x) : v.Grows x := by
  induction hrest with
  | refl => exact h
  | addField _ name ih => exact ih.addField name
  | addAlias _ name target ih => exact ih.addAlias name target
  | define _ hdefine ih => exact ih.define hdefine

theorem grows_foldl {α : Type} {change : Vocabulary → α → Vocabulary}
    (hchange : ∀ w a, Grows w (change w a)) (changes : List α) (v : Vocabulary) :
    v.Grows (changes.foldl change v) := by
  induction changes generalizing v with
  | nil => exact .refl
  | cons a changes ih => exact (hchange v a).trans (ih (change v a))

theorem grows_foldlM {ε α : Type} {change : Vocabulary → α → Except ε Vocabulary}
    (hchange : ∀ w a x, change w a = .ok x → w.Grows x) {changes : List α}
    (h : changes.foldlM change v = .ok w) : v.Grows w := by
  induction changes generalizing v with
  | nil =>
    cases h
    exact .refl
  | cons a changes ih =>
    obtain ⟨next, hnext, hrest⟩ := bind_eq_ok h
    exact (hchange v a next hnext).trans (ih hrest)

theorem define_eq_ok {name query : String} (h : v.define name query = .ok w) :
    ∃ e, compile v query = .ok e ∧ w = v.insertOperation name e := by
  obtain ⟨e, he, hw⟩ := bind_eq_ok h
  cases hw
  exact ⟨e, he, rfl⟩

/-- Definitions store well typed operations, and nothing else touches those that are stored. -/
theorem WellTyped.grows (hv : v.WellTyped) (h : v.Grows w) : w.WellTyped := by
  induction h with
  | refl => exact hv
  | addField _ _ ih => exact ih
  | addAlias _ _ _ ih => exact ih
  | define _ hdefine ih =>
    obtain ⟨e, he, rfl⟩ := define_eq_ok hdefine
    intro other stored hstored
    rw [operation?_insertOperation] at hstored
    split at hstored
    next =>
      cases hstored
      exact (composes_of_compile he).wellTyped ih
    next => exact ih other stored hstored

/-- The vocabulary of the catalog has itself grown from the empty one. -/
theorem grows_catalog (h : Catalog.vocabulary = .ok v) : Grows ∅ v := by
  have hfields := grows_foldl (fun w name => Grows.refl.addField name) Catalog.fields ∅
  have haliases := grows_foldl (fun w (entry : String × String) =>
    Grows.refl.addAlias entry.1 entry.2) Catalog.aliases (Catalog.fields.foldl addField ∅)
  exact (hfields.trans haliases).trans (grows_foldlM (fun _ _ _ => Grows.refl.define) h)

theorem Built.wellTyped (h : v.Built) : v.WellTyped := by
  have hempty : (∅ : Vocabulary).WellTyped := fun name stored hstored => by
    rw [operation?_empty] at hstored
    cases hstored
  obtain ⟨start, rfl | hcatalog, hgrows⟩ := h
  · exact hempty.grows hgrows
  · exact hempty.grows ((grows_catalog hcatalog).trans hgrows)

theorem grows_addField (v : Vocabulary) (name : String) :
    ∀ setting, v.Grows (Settings.addField v name setting)
  | .known true => Grows.refl.addField name
  | .known false => .refl
  | .alias target => Grows.refl.addAlias name target

theorem grows_defineOperation {operation : Operation}
    (h : Settings.defineOperation v operation = .ok w) : v.Grows w := by
  unfold Settings.defineOperation at h
  split at h
  next hdefine =>
    cases h
    exact Grows.refl.define hdefine
  next => cases h

theorem built_of_settings {s : Settings} (h : s.vocabulary = .ok v) : v.Built := by
  unfold Settings.vocabulary at h
  split at h
  next => cases h
  next start hstart =>
    have hnamed := grows_foldl (fun w (entry : String × FieldSetting) =>
      grows_addField w entry.1 entry.2) s.fields.entries start
    refine ⟨start, ?_, hnamed.trans (grows_foldlM (fun _ _ _ => grows_defineOperation) h)⟩
    split at hstart
    next => exact .inr hstart
    next =>
      cases hstart
      exact .inl rfl

end Vocabulary

/-- Under a vocabulary that has grown from the empty one or from the catalog, as those of all
settings have, the operations that are stored and every query that compiles are well typed, and the
query compares fields that are canonical then or that a stored operation compares. -/
theorem compile_well_typed {v : Vocabulary}
    (h : v.Built ∨ ∃ s : Settings, s.vocabulary = .ok v) :
    (∀ name stored, v.operation? name = some stored → stored.WellTyped) ∧
      ∀ query e, compile v query = .ok e → e.WellTyped ∧
        ∀ field, e.Compares field → v.field? field = some .canonical ∨
          ∃ name stored, v.operation? name = some stored ∧ stored.Compares field := by
  have hbuilt : v.Built := by
    rcases h with hbuilt | ⟨s, hs⟩
    · exact hbuilt
    · exact Vocabulary.built_of_settings hs
  refine ⟨hbuilt.wellTyped, fun query e he => ?_⟩
  have hcomposes := composes_of_compile he
  exact ⟨hcomposes.wellTyped hbuilt.wellTyped, fun field => hcomposes.canonical_or_stored⟩

/-- A field that becomes an alias after an operation has compared it is compared by the next query
that uses the operation. -/
theorem compile_well_typed_field_to_alias :
    ∃ v w e, ((∅ : Vocabulary).addField "load").define "busy" "load > 80" = .ok v ∧
      w = v.addAlias "load" "cpu" ∧ compile w "~busy" = .ok e ∧ e.Compares "load" ∧
      w.field? "load" ≠ some .canonical ∧ w.Built ∧
      (∀ name stored, w.operation? name = some stored → stored.WellTyped) ∧
      ∀ query e, compile w query = .ok e → e.WellTyped ∧
        ∀ field, e.Compares field → w.field? field = some .canonical ∨
          ∃ name stored, w.operation? name = some stored ∧ stored.Compares field := by
  let start := (∅ : Vocabulary).addField "load"
  let busy : Expr := .compare .gt "load" 80
  let v := start.insertOperation "busy" busy
  have hscan : Scan.ofText 1 "load > 80".toList =
      ⟨[⟨.word "load", 1⟩, ⟨.comparison .gt, 6⟩, ⟨.word "80", 8⟩], .ok 10⟩ := by cbv
  have hbusy : start.define "busy" "load > 80" = .ok v := by
    unfold Vocabulary.define compile
    rw [hscan]
    rfl
  have hquery : Scan.ofText 1 "~busy".toList =
      ⟨[⟨.complement, 1⟩, ⟨.word "busy", 2⟩], .ok 6⟩ := by cbv
  have he : compile (v.addAlias "load" "cpu") "~busy" = .ok (.complement busy) := by
    unfold compile
    rw [hquery]
    rfl
  have hbuilt : (v.addAlias "load" "cpu").Built :=
    ⟨∅, .inl rfl, ((Vocabulary.Grows.refl.addField "load").define hbusy).addAlias "load" "cpu"⟩
  have hnot : (v.addAlias "load" "cpu").field? "load" ≠ some .canonical := by
    rw [Vocabulary.field?_addAlias]
    simp
  exact ⟨v, _, _, hbusy, rfl, he, rfl, hnot, hbuilt, compile_well_typed (.inl hbuilt)⟩

end NodeQuery.Query

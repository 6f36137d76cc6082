import NodeQuery.Query.Compile

/-!
# Histories of vocabularies

A vocabulary grows by fields, aliases and operations, in any order, and every name can be given
again. What is stored as an operation is a compiled tree, so no later step reaches into it: an
operation is what the last step that stored something under its name has stored. A definition whose
query does not compile stores nothing.
-/
namespace NodeQuery.Query

/-- What holds of every member of a list and those before it, one member at a time. -/
theorem forall_cut_cons_iff {α : Type u} {P : List α → α → Prop} {first : α} {rest : List α} :
    (∀ before next later, first :: rest = before ++ next :: later → P before next) ↔
      P [] first ∧ ∀ before next later, rest = before ++ next :: later →
        P (first :: before) next := by
  constructor
  · intro h
    refine ⟨h [] first rest rfl, fun before next later hrest => ?_⟩
    exact h (first :: before) next later (by rw [hrest, List.cons_append])
  · rintro ⟨hfirst, hrest⟩ before next later hcut
    cases before with
    | nil =>
      cases hcut
      exact hfirst
    | cons head before =>
      obtain ⟨rfl, rfl⟩ := List.cons.inj hcut
      exact hrest before next later rfl

/-- A step in the history of a vocabulary. -/
inductive Change where
  | addField (name : String)
  | addAlias (name target : String)
  | insertOperation (name : String) (e : Expr)
  | define (name query : String)
  deriving DecidableEq, Repr

namespace Change

/-- The vocabulary behind the step. A definition that fails gives no new one. -/
def apply (v : Vocabulary) : Change → Vocabulary
  | .addField name => v.addField name
  | .addAlias name target => v.addAlias name target
  | .insertOperation name e => v.insertOperation name e
  | .define name query =>
    match v.define name query with
    | .ok w => w
    | .error _ => v

/-- Taken from the vocabulary, the step stores the expression under the name. -/
inductive Stores (v : Vocabulary) : Change → String → Expr → Prop
  | insertOperation (name : String) (e : Expr) : Stores v (.insertOperation name e) name e
  | define {name query : String} {e : Expr} (h : compile v query = .ok e) :
      Stores v (.define name query) name e

variable {v : Vocabulary} {change : Change} {name query : String} {e : Expr}

theorem apply_define_of_ok (h : compile v query = .ok e) :
    (define name query).apply v = v.insertOperation name e := by
  simp [apply, Vocabulary.define, h, bind, Except.bind, pure, Except.pure]

theorem apply_define_of_error {error : QueryError} (h : compile v query = .error error) :
    (define name query).apply v = v := by
  simp [apply, Vocabulary.define, h, bind, Except.bind]

theorem Stores.operation?_apply (h : change.Stores v name e) :
    (change.apply v).operation? name = some e := by
  cases h with
  | insertOperation => rw [apply, Vocabulary.operation?_insertOperation, if_pos rfl]
  | define h => rw [apply_define_of_ok h, Vocabulary.operation?_insertOperation, if_pos rfl]

/-- A step leaves the operation under a name alone if it stores nothing there. -/
theorem operation?_apply_of_not_stores (h : ∀ stored, ¬ change.Stores v name stored) :
    (change.apply v).operation? name = v.operation? name := by
  cases change with
  | addField other => rfl
  | addAlias other target => rfl
  | insertOperation other stored =>
    have hname : name ≠ other := by
      rintro rfl
      exact h stored (.insertOperation name stored)
    rw [apply, Vocabulary.operation?_insertOperation, if_neg hname]
  | define other query =>
    cases hquery : compile v query with
    | error error => rw [apply_define_of_error hquery]
    | ok stored =>
      have hname : name ≠ other := by
        rintro rfl
        exact h stored (.define hquery)
      rw [apply_define_of_ok hquery, Vocabulary.operation?_insertOperation, if_neg hname]

theorem operation?_apply_iff : (change.apply v).operation? name = some e ↔
    change.Stores v name e ∨
      (∀ stored, ¬ change.Stores v name stored) ∧ v.operation? name = some e := by
  constructor
  · intro h
    by_cases hstores : ∃ stored, change.Stores v name stored
    · obtain ⟨stored, hstored⟩ := hstores
      rw [hstored.operation?_apply] at h
      cases h
      exact .inl hstored
    · have hnot := not_exists.mp hstores
      rw [operation?_apply_of_not_stores hnot] at h
      exact .inr ⟨hnot, h⟩
  · rintro (h | ⟨hnot, h⟩)
    · exact h.operation?_apply
    · rw [operation?_apply_of_not_stores hnot]
      exact h

end Change

/-- The vocabulary behind all steps of a history. -/
def Vocabulary.after (v : Vocabulary) (changes : List Change) : Vocabulary :=
  changes.foldl Change.apply v

namespace Vocabulary

theorem after_append (v : Vocabulary) (changes more : List Change) :
    v.after (changes ++ more) = (v.after changes).after more :=
  List.foldl_append

/-- No step of the history stores anything under the name. -/
def Untouched (v : Vocabulary) (changes : List Change) (name : String) : Prop :=
  ∀ before change later, changes = before ++ change :: later →
    ∀ e, ¬ change.Stores (v.after before) name e

/-- The expression is what the last step to store something under the name has stored, or what has
been there from the start. -/
inductive LastStored (v : Vocabulary) (changes : List Change) (name : String) (e : Expr) : Prop
  | stored {before later : List Change} {change : Change}
      (hchanges : changes = before ++ change :: later) (h : change.Stores (v.after before) name e)
      (hlater : (v.after (before ++ [change])).Untouched later name)
  | kept (h : v.Untouched changes name) (he : v.operation? name = some e)

variable {v : Vocabulary} {change : Change} {changes : List Change} {name : String} {e : Expr}

theorem untouched_nil (v : Vocabulary) (name : String) : v.Untouched [] name := by
  intro before change later h
  simp at h

theorem untouched_cons_iff : v.Untouched (change :: changes) name ↔
    (∀ e, ¬ change.Stores v name e) ∧ (change.apply v).Untouched changes name :=
  forall_cut_cons_iff (P := fun before (next : Change) => ∀ e, ¬ next.Stores (v.after before) name e)

/-- What the rest of a history keeps is what the first step has stored or has kept itself. -/
theorem lastStored_cons_iff : v.LastStored (change :: changes) name e ↔
    (change.apply v).LastStored changes name e := by
  constructor
  · intro h
    cases h with
    | @stored before later next hchanges h hlater =>
      cases before with
      | nil =>
        cases hchanges
        exact .kept hlater h.operation?_apply
      | cons first before =>
        obtain ⟨rfl, rfl⟩ := List.cons.inj hchanges
        exact .stored rfl h hlater
    | kept h he =>
      obtain ⟨hnot, hrest⟩ := untouched_cons_iff.mp h
      exact .kept hrest (Change.operation?_apply_iff.mpr (.inr ⟨hnot, he⟩))
  · intro h
    cases h with
    | @stored before later next hchanges h hlater =>
      rw [hchanges, ← List.cons_append]
      exact .stored rfl h hlater
    | kept h he =>
      rcases Change.operation?_apply_iff.mp he with hstores | ⟨hnot, he⟩
      · have hbefore : change :: changes = [] ++ change :: changes := rfl
        exact .stored hbefore hstores h
      · exact .kept (untouched_cons_iff.mpr ⟨hnot, h⟩) he

/-- After a history, an operation is what was last stored under its name. -/
theorem operation?_after_iff : (v.after changes).operation? name = some e ↔
    v.LastStored changes name e := by
  induction changes generalizing v with
  | nil =>
    refine ⟨fun h => .kept (untouched_nil v name) h, fun h => ?_⟩
    cases h with
    | stored hchanges => simp at hchanges
    | kept _ he => exact he
  | cons change changes ih =>
    rw [lastStored_cons_iff, ← ih]
    rfl

theorem operation?_after_of_untouched (h : v.Untouched changes name) :
    (v.after changes).operation? name = v.operation? name := by
  induction changes generalizing v with
  | nil => rfl
  | cons change changes ih =>
    obtain ⟨hnot, hrest⟩ := untouched_cons_iff.mp h
    exact (ih hrest).trans (Change.operation?_apply_of_not_stores hnot)

end Vocabulary

end NodeQuery.Query

import NodeQuery.Proofs.Query.Aliases
import NodeQuery.Query.Compile

/-!
# What compilation depends on

A query uses its vocabulary only to look up its words: it follows their chains of aliases and asks
for an operation where a chain ends. So two vocabularies that agree along these chains compile the
query alike, to the same expression or to the same error, whatever else they hold and however large
their tables are.
-/
namespace NodeQuery.Query

/-- The word is a symbol of the query. Behind a run that is no operator there are no symbols. -/
def Mentions (query word : String) : Prop :=
  ∃ token ∈ (Scan.ofText 1 query.toList).tokens, token.symbol = .word word

namespace Vocabulary

/-- The same field entry and the same operation under the name, or none in both. -/
structure AgreeAt (v w : Vocabulary) (name : String) : Prop where
  field_eq : v.field? name = w.field? name
  operation_eq : v.operation? name = w.operation? name

/-- Agreement at every name of the chain that starts at the word. -/
def AgreeAlong (v w : Vocabulary) (word : String) : Prop :=
  ∀ name, v.Reaches word name → v.AgreeAt w name

variable {v w : Vocabulary} {word name : String}

theorem AgreeAlong.reaches (h : v.AgreeAlong w word) (hreach : v.Reaches word name) :
    w.Reaches word name := by
  induction hreach with
  | refl => exact .refl
  | @tail name target hname halias ih =>
    have hfield : v.field? name = w.field? name := (h name hname).field_eq
    exact ih.tail (hfield.symm.trans halias)

/-- The chain of the second vocabulary adds no name to that of the first. -/
theorem AgreeAlong.reaches_of_reaches (h : v.AgreeAlong w word) (hreach : w.Reaches word name) :
    v.Reaches word name := by
  induction hreach with
  | refl => exact .refl
  | @tail name target _ halias ih =>
    have hfield : v.field? name = w.field? name := (h name ih).field_eq
    exact ih.tail (hfield.trans halias)

theorem AgreeAlong.leadsTo (h : v.AgreeAlong w word) {r : Resolution} (hr : v.LeadsTo word r) :
    w.LeadsTo word r := by
  cases r with
  | field name => exact ⟨h.reaches hr.1, (h name hr.1).field_eq ▸ hr.2⟩
  | name name => exact ⟨h.reaches hr.1, (h name hr.1).field_eq ▸ hr.2⟩
  | cyclic =>
    intro name hreach
    have hboth := h.reaches_of_reaches hreach
    obtain ⟨target, htarget⟩ := hr name hboth
    exact ⟨target, (h name hboth).field_eq.symm.trans htarget⟩

/-- The sizes of the tables bound the lookups, but where a chain leads does not depend on them. -/
theorem AgreeAlong.resolve_eq (h : v.AgreeAlong w word) : v.resolve word = w.resolve word :=
  (resolve_eq_iff.mpr (h.leadsTo (v.leadsTo_resolve word))).symm

end Vocabulary

variable {v w : Vocabulary}

theorem readWord_congr {word : String} (h : v.AgreeAlong w word) (location : Nat) :
    readWord v word location = readWord w word location := by
  unfold readWord
  rw [← h.resolve_eq]
  cases hresolve : v.resolve word with
  | field name => rfl
  | name name =>
    have hreach : v.Reaches word name := (Vocabulary.resolve_eq_iff.mp hresolve).1
    simp only [(h name hreach).operation_eq]
  | cyclic => rfl

theorem step_congr {token : Token} (h : ∀ word, token.symbol = .word word → v.AgreeAlong w word)
    (state : State) : step v state token = step w state token := by
  cases state with
  | holding operand stack => rfl
  | expecting stack =>
    change stepExpecting v stack token = stepExpecting w stack token
    unfold stepExpecting
    split
    · rfl
    · rfl
    next word hword => rw [readWord_congr (h word hword)]
    · rfl

theorem foldlM_step_congr {tokens : List Token}
    (h : ∀ token ∈ tokens, ∀ word, token.symbol = .word word → v.AgreeAlong w word)
    (state : State) : tokens.foldlM (step v) state = tokens.foldlM (step w) state := by
  induction tokens generalizing state with
  | nil => rfl
  | cons token tokens ih =>
    have hfirst := step_congr (h token List.mem_cons_self) state
    have hrest := ih fun other hother => h other (List.mem_cons_of_mem token hother)
    simp only [List.foldlM_cons, hfirst, hrest]

/-- Compilation gives the same result under two vocabularies that agree, at every name of every
chain of aliases that starts at a word of the query, on the field entry and the operation. -/
theorem compile_eq_of_agree {query : String}
    (h : ∀ word, Mentions query word → ∀ name, v.Reaches word name → v.AgreeAt w name) :
    compile v query = compile w query := by
  have htokens : ∀ token ∈ (Scan.ofText 1 query.toList).tokens, ∀ word,
      token.symbol = .word word → v.AgreeAlong w word := by
    intro token htoken word hword
    exact h word ⟨token, htoken, hword⟩
  unfold compile
  simp only [foldlM_step_congr htokens]

/-- Two aliases of each other among three entries and among five: the same circle is found. -/
theorem compile_eq_of_agree_cyclic :
    ∃ v w : Vocabulary, v.fields.size = 3 ∧ w.fields.size = 5 ∧
      (∀ word, Mentions "x > 1 and a" word → ∀ name, v.Reaches word name → v.AgreeAt w name) ∧
      compile v "x > 1 and a" = .error ⟨11, .cyclicAlias "a"⟩ ∧
      compile v "x > 1 and a" = compile w "x > 1 and a" := by
  let v : Vocabulary := (((∅ : Vocabulary).addField "x").addAlias "a" "b").addAlias "b" "a"
  let w : Vocabulary := (v.addAlias "c" "a").addAlias "d" "d"
  have hscan : Scan.ofText 1 "x > 1 and a".toList =
      ⟨[⟨.word "x", 1⟩, ⟨.comparison .gt, 3⟩, ⟨.word "1", 5⟩, ⟨.connective .and, 7⟩,
        ⟨.word "a", 11⟩], .ok 12⟩ := by cbv
  have hchain : ∀ word name, v.Reaches word name → word ∉ ["c", "d"] → name ∉ ["c", "d"] := by
    intro word name hreach hword
    induction hreach with
    | refl => exact hword
    | tail _ halias _ =>
      simp only [Vocabulary.AliasOf, v, Vocabulary.field?_addAlias, Vocabulary.field?_addField,
        Vocabulary.field?_empty] at halias
      grind
  have hagree : ∀ word, Mentions "x > 1 and a" word → ∀ name, v.Reaches word name →
      v.AgreeAt w name := by
    intro word hword name hreach
    have hnew : name ∉ ["c", "d"] := by
      apply hchain word name hreach
      obtain ⟨token, htoken, hsymbol⟩ := hword
      rw [hscan] at htoken
      grind
    constructor
    · simp only [w, Vocabulary.field?_addAlias]
      grind
    · simp only [w, Vocabulary.operation?_addAlias]
  have herror : compile v "x > 1 and a" = .error ⟨11, .cyclicAlias "a"⟩ := by
    unfold compile
    rw [hscan]
    rfl
  exact ⟨v, w, rfl, rfl, hagree, herror, compile_eq_of_agree hagree⟩

end NodeQuery.Query

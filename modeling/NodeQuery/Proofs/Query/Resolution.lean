import Mathlib.Logic.Function.Iterate
import NodeQuery.Proofs.Query.Aliases

/-!
# Resolution of names

Following aliases from a name reaches a field, reaches a name that is not in the table, or never
ends, and resolution tells which of the three it is. The number of lookups depends on the size of
the table: a chain that ends has no more aliases than the table has entries, so it is never taken
for a circle, also if it leads through every entry. The loop that looks for fields only comes to the
same field, or to none.
-/
namespace NodeQuery.Query.Vocabulary
variable {v : Vocabulary} {word name : String}

/-- Following aliases from the word never ends: there is a next name after every name. -/
def NeverEnds (v : Vocabulary) (word : String) : Prop :=
  ∃ chain : Nat → String, chain 0 = word ∧ ∀ n, v.AliasOf (chain n) (chain (n + 1))

/-! Chains without an end -/

/-- There is but one chain, so it passes every name that the word reaches. -/
theorem exists_eq_of_reaches {chain : Nat → String}
    (hchain : ∀ n, v.AliasOf (chain n) (chain (n + 1))) (h : v.Reaches (chain 0) name) :
    ∃ n, name = chain n := by
  induction h with
  | refl => exact ⟨0, rfl⟩
  | tail _ halias ih =>
    obtain ⟨n, rfl⟩ := ih
    exact ⟨n + 1, v.aliasOf_rightUnique halias (hchain n)⟩

theorem neverEnds_iff : v.NeverEnds word ↔ v.LeadsTo word .cyclic := by
  constructor
  · intro h name hreach
    obtain ⟨chain, rfl, hchain⟩ := h
    obtain ⟨n, rfl⟩ := exists_eq_of_reaches hchain hreach
    exact ⟨chain (n + 1), hchain n⟩
  · intro h
    choose next hnext using h
    -- Every name of the chain is kept together with the way that leads to it from the word.
    let step : { name // v.Reaches word name } → { name // v.Reaches word name } := fun name =>
      ⟨next name.1 name.2, name.2.tail (hnext name.1 name.2)⟩
    let chain (n : Nat) : { name // v.Reaches word name } := step^[n] ⟨word, .refl⟩
    refine ⟨fun n => (chain n).1, rfl, fun n => ?_⟩
    change v.AliasOf (chain n).1 (step^[n + 1] ⟨word, .refl⟩).1
    rw [Function.iterate_succ_apply']
    exact hnext (chain n).1 (chain n).2

/-- A chain ends after no more aliases than the table has entries, or not at all. -/
theorem exists_endsAfter_iff : (∃ n ≤ v.fields.size, v.EndsAfter n word) ↔ ¬ v.NeverEnds word := by
  rw [neverEnds_iff]
  constructor
  · intro h hcyclic
    obtain ⟨n, -, hends⟩ := h
    have hfound := follow_ne_cyclic hends (Nat.lt_succ_of_le hends.le_size)
    exact hfound (resolve_eq_iff.mpr hcyclic)
  · intro h
    have hstop : ∃ name, v.Reaches word name ∧ v.Stops name := by
      by_contra hnone
      refine h fun name hreach => ?_
      by_contra hlast
      exact hnone ⟨name, hreach, not_exists.mp hlast⟩
    obtain ⟨name, hreach, hlast⟩ := hstop
    obtain ⟨n, hends⟩ := endsAfter_of_reaches hreach hlast
    exact ⟨n, hends.le_size, hends⟩

/-! Two loops over one table -/

/-- Both loops come to the same field in the same number of lookups. -/
theorem followToField?_eq_some_iff {fields : Table FieldEntry} {lookups : Nat} {field : String} :
    followToField? fields lookups name = some field ↔
      follow fields lookups name = .field field := by
  induction lookups generalizing name with
  | zero => simp [followToField?, follow]
  | succ lookups ih =>
    unfold followToField? follow
    split
    · simp
    · simp
    · exact ih

/-- Resolution is exact: the result is a field, a name that is not in the table or a circle iff
following the aliases reaches that field, reaches that name or never ends. A field is found alone iff
it is the result. A chain ends after no more aliases than the table has entries, or never. -/
theorem resolve_exact (v : Vocabulary) (word : String) :
    (∀ field, v.resolve word = .field field ↔
      v.Reaches word field ∧ v.field? field = some .canonical) ∧
    (∀ name, v.resolve word = .name name ↔ v.Reaches word name ∧ v.field? name = none) ∧
    (v.resolve word = .cyclic ↔ v.NeverEnds word) ∧
    (∀ field, v.resolveField? word = some field ↔ v.resolve word = .field field) ∧
    ((∃ n ≤ v.fields.size, v.EndsAfter n word) ↔ v.resolve word ≠ .cyclic) := by
  have hcyclic : v.resolve word = .cyclic ↔ v.NeverEnds word :=
    resolve_eq_iff.trans neverEnds_iff.symm
  refine ⟨fun field => resolve_eq_iff, fun name => resolve_eq_iff, hcyclic, ?_, ?_⟩
  · exact fun field => followToField?_eq_some_iff
  · rw [exists_endsAfter_iff, Ne, hcyclic]

/-- A chain through every entry of the table. -/
example : (((∅ : Vocabulary).addAlias "a" "b").addAlias "b" "c").resolve "a" = .name "c" := by
  decide

end NodeQuery.Query.Vocabulary

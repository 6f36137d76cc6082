import Mathlib.Data.List.Perm.Subperm
import Mathlib.Logic.Relation
import NodeQuery.Query.Vocabulary

/-!
# Chains of aliases

An alias leads from a name to its target, so a word starts a chain of names. Resolution follows the
chain with as many lookups as the table has entries and one more. That never cuts a chain short: the
aliases on a chain that ends are different entries of the table. So resolution says exactly where
the chain leads: to a field, to a name that is not in the table, or nowhere.
-/
namespace NodeQuery

theorem mem_of_lookupEntry {α : Type u} {name : String} {value : α} {entries : List (String × α)}
    (h : lookupEntry name entries = some value) : name ∈ entries.map (·.1) := by
  induction entries with
  | nil => cases h
  | cons entry entries ih =>
    unfold lookupEntry at h
    split at h
    next heq =>
      rw [heq]
      exact List.mem_cons_self
    next => exact List.mem_cons_of_mem _ (ih h)

/-- Names in order are different, so each leads to its own entry. -/
theorem lookupEntry_of_mem {α : Type u} {entries : List (String × α)}
    (hsorted : entries.Pairwise (·.1 < ·.1)) {entry : String × α} (h : entry ∈ entries) :
    lookupEntry entry.1 entries = some entry.2 := by
  induction entries with
  | nil => cases h
  | cons first entries ih =>
    obtain ⟨hfirst, hsorted⟩ := List.pairwise_cons.mp hsorted
    rw [lookupEntry]
    rcases List.mem_cons.mp h with rfl | hmem
    · exact if_pos rfl
    · have hne : entry.1 ≠ first.1 := fun heq =>
        String.lt_irrefl _ (heq ▸ hfirst entry hmem)
      rw [if_neg hne]
      exact ih hsorted hmem

namespace Query.Vocabulary
variable {v : Vocabulary} {word name target : String} {r s : Resolution} {n : Nat}

/-- The name is an alias, and the target is what it stands for. -/
def AliasOf (v : Vocabulary) (name target : String) : Prop :=
  v.field? name = some (.alias target)

/-- The second name lies on the chain that starts at the first. -/
def Reaches (v : Vocabulary) : String → String → Prop := Relation.ReflTransGen v.AliasOf

/-- The chain ends at the name. -/
def Stops (v : Vocabulary) (name : String) : Prop := ∀ target, ¬ v.AliasOf name target

/-- What following aliases from the word comes to. -/
def LeadsTo (v : Vocabulary) (word : String) : Resolution → Prop
  | .field name => v.Reaches word name ∧ v.field? name = some .canonical
  | .name name => v.Reaches word name ∧ v.field? name = none
  | .cyclic => ∀ name, v.Reaches word name → ∃ target, v.AliasOf name target

/-- The chain that starts at the name passes so many aliases and ends. -/
inductive EndsAfter (v : Vocabulary) : Nat → String → Prop
  | stop {name : String} (h : v.Stops name) : EndsAfter v 0 name
  | more {n : Nat} {name target : String} (h : v.AliasOf name target)
      (hrest : EndsAfter v n target) : EndsAfter v (n + 1) name

/-! The end of a chain -/

theorem aliasOf_rightUnique (v : Vocabulary) : Relator.RightUnique v.AliasOf := by
  intro name target other htarget hother
  cases htarget.symm.trans hother
  rfl

theorem stops_of_canonical (h : v.field? name = some .canonical) : v.Stops name := by
  intro target halias
  cases h.symm.trans halias

theorem stops_of_none (h : v.field? name = none) : v.Stops name := by
  intro target halias
  cases h.symm.trans halias

theorem Stops.eq_of_reaches (h : v.Stops name) (hreach : v.Reaches name target) :
    target = name := by
  rcases Relation.ReflTransGen.cases_head hreach with heq | ⟨next, hnext, -⟩
  · exact heq.symm
  · exact absurd hnext (h next)

theorem Stops.unique {a b : String} (ha : v.Stops a) (hb : v.Stops b) (hreachA : v.Reaches word a)
    (hreachB : v.Reaches word b) : a = b := by
  rcases Relation.ReflTransGen.total_of_right_unique v.aliasOf_rightUnique hreachA hreachB with
    hab | hba
  · exact (ha.eq_of_reaches hab).symm
  · exact hb.eq_of_reaches hba

theorem LeadsTo.eq_field (hr : v.LeadsTo word r) (hreach : v.Reaches word name)
    (h : v.field? name = some .canonical) : r = .field name := by
  have hstop := stops_of_canonical h
  cases r with
  | field other => rw [(stops_of_canonical hr.2).unique hstop hr.1 hreach]
  | name other =>
    obtain ⟨hother, hnone⟩ := hr
    rw [(stops_of_none hnone).unique hstop hother hreach, h] at hnone
    cases hnone
  | cyclic =>
    obtain ⟨target, htarget⟩ := hr name hreach
    exact absurd htarget (hstop target)

theorem LeadsTo.eq_name (hr : v.LeadsTo word r) (hreach : v.Reaches word name)
    (h : v.field? name = none) : r = .name name := by
  have hstop := stops_of_none h
  cases r with
  | field other =>
    obtain ⟨hother, hcanonical⟩ := hr
    rw [(stops_of_canonical hcanonical).unique hstop hother hreach, h] at hcanonical
    cases hcanonical
  | name other => rw [(stops_of_none hr.2).unique hstop hr.1 hreach]
  | cyclic =>
    obtain ⟨target, htarget⟩ := hr name hreach
    exact absurd htarget (hstop target)

theorem LeadsTo.unique (hr : v.LeadsTo word r) (hs : v.LeadsTo word s) : r = s := by
  cases s with
  | field name => exact hr.eq_field hs.1 hs.2
  | name name => exact hr.eq_name hs.1 hs.2
  | cyclic =>
    cases r with
    | field name =>
      obtain ⟨target, htarget⟩ := hs name hr.1
      exact absurd htarget (stops_of_canonical hr.2 target)
    | name name =>
      obtain ⟨target, htarget⟩ := hs name hr.1
      exact absurd htarget (stops_of_none hr.2 target)
    | cyclic => rfl

/-- A name leads to what it is an alias of leads to. -/
theorem LeadsTo.of_alias (h : v.AliasOf name target) (hr : v.LeadsTo target r) :
    v.LeadsTo name r := by
  cases r with
  | field last => exact ⟨.head h hr.1, hr.2⟩
  | name last => exact ⟨.head h hr.1, hr.2⟩
  | cyclic =>
    intro other hother
    rcases Relation.ReflTransGen.cases_head hother with heq | ⟨next, hnext, hrest⟩
    · exact ⟨target, heq ▸ h⟩
    · rw [v.aliasOf_rightUnique hnext h] at hrest
      exact hr other hrest

/-! Chains that end are short -/

theorem EndsAfter.unique {m : Nat} (hm : v.EndsAfter m name) (hn : v.EndsAfter n name) : m = n := by
  induction hm generalizing n with
  | stop hstop =>
    cases hn with
    | stop => rfl
    | more h => exact absurd h (hstop _)
  | more h _ ih =>
    cases hn with
    | stop hstop => exact absurd h (hstop _)
    | more hother hrest =>
      rw [v.aliasOf_rightUnique hother h] at hrest
      rw [ih hrest]

/-- The aliases on a chain that ends are different entries: each has its own distance to the end. -/
theorem EndsAfter.exists_names (h : v.EndsAfter n name) :
    ∃ names : List String, names.length = n ∧ names.Nodup ∧
      ∀ other ∈ names, other ∈ v.fields.entries.map (·.1) ∧ ∃ m ≤ n, v.EndsAfter m other := by
  induction h with
  | stop => exact ⟨[], rfl, .nil, by simp⟩
  | @more n name target halias hrest ih =>
    obtain ⟨names, hlength, hnodup, hnames⟩ := ih
    have hends : v.EndsAfter (n + 1) name := .more halias hrest
    have hnew : name ∉ names := by
      intro hmem
      obtain ⟨-, m, hm, hshort⟩ := hnames name hmem
      have := hshort.unique hends
      omega
    refine ⟨name :: names, by simp [hlength], List.nodup_cons.mpr ⟨hnew, hnodup⟩, ?_⟩
    intro other hother
    rcases List.mem_cons.mp hother with rfl | hother
    · exact ⟨mem_of_lookupEntry halias, n + 1, Nat.le_refl _, hends⟩
    · obtain ⟨hentry, m, hm, hshort⟩ := hnames other hother
      exact ⟨hentry, m, by omega, hshort⟩

theorem EndsAfter.le_size (h : v.EndsAfter n name) : n ≤ v.fields.size := by
  obtain ⟨names, hlength, hnodup, hnames⟩ := h.exists_names
  have hsub : names ⊆ v.fields.entries.map (·.1) := fun other hother => (hnames other hother).1
  have hle := (hnodup.subperm hsub).length_le
  rwa [hlength, List.length_map] at hle

theorem endsAfter_of_reaches (h : v.Reaches word name) (hstop : v.Stops name) :
    ∃ n, v.EndsAfter n word := by
  induction h using Relation.ReflTransGen.head_induction_on with
  | refl => exact ⟨0, .stop hstop⟩
  | head halias _ ih =>
    obtain ⟨n, hn⟩ := ih
    exact ⟨n + 1, .more halias hn⟩

/-! Following a chain -/

theorem follow_of_aliasOf (h : v.AliasOf name target) (lookups : Nat) :
    follow v.fields (lookups + 1) name = follow v.fields lookups target := by
  have hget : v.fields.get? name = some (.alias target) := h
  rw [follow, hget]

theorem leadsTo_follow {lookups : Nat} (h : follow v.fields lookups name ≠ .cyclic) :
    v.LeadsTo name (follow v.fields lookups name) := by
  induction lookups generalizing name with
  | zero => exact absurd rfl h
  | succ lookups ih =>
    unfold follow at h ⊢
    split at h
    next hnone =>
      exact ⟨.refl, hnone⟩
    next hcanonical =>
      exact ⟨.refl, hcanonical⟩
    next target htarget => exact .of_alias htarget (ih h)

/-- With one lookup more than there are aliases on the chain, its end is found. -/
theorem follow_ne_cyclic {lookups : Nat} (h : v.EndsAfter n name) (hn : n < lookups) :
    follow v.fields lookups name ≠ .cyclic := by
  obtain ⟨more, rfl⟩ := Nat.exists_eq_add_of_lt hn
  induction h generalizing more with
  | @stop name hstop =>
    unfold follow
    split
    · simp
    · simp
    next target htarget => exact absurd htarget (hstop target)
  | @more n name target halias _ ih =>
    rw [follow_of_aliasOf halias, Nat.add_right_comm]
    exact ih more (by omega)

/-- If the lookups run out there is no end, since the table has enough of them for any end. -/
theorem leadsTo_cyclic (h : v.resolve word = .cyclic) : v.LeadsTo word .cyclic := by
  intro name hreach
  by_contra hstop
  obtain ⟨n, hends⟩ := endsAfter_of_reaches hreach (not_exists.mp hstop)
  exact follow_ne_cyclic hends (Nat.lt_succ_of_le hends.le_size) h

theorem leadsTo_resolve (v : Vocabulary) (word : String) : v.LeadsTo word (v.resolve word) := by
  by_cases h : v.resolve word = .cyclic
  · rw [h]
    exact leadsTo_cyclic h
  · exact leadsTo_follow h

/-- Resolution is exact, for chains of any length and aliases that form any graph. -/
theorem resolve_eq_iff : v.resolve word = r ↔ v.LeadsTo word r := by
  constructor
  · intro h
    rw [← h]
    exact v.leadsTo_resolve word
  · intro h
    exact (v.leadsTo_resolve word).unique h

end Query.Vocabulary

end NodeQuery

import Mathlib.Data.List.Dedup
import Mathlib.Data.List.SplitBy
import NodeQuery.Host.Compression
import NodeQuery.Proofs.Host.Names

/-!
# Sorting and grouping of names

Sorting puts equal names next to each other, so that erasing repetitions leaves every name once. The
groups that a sorted list is split into have one key each.
-/
namespace NodeQuery.Host

section Repetitions
variable {α : Type} [BEq α]

theorem eraseRepsLoop_eq (a : α) (rest before : List α) :
    List.eraseRepsBy.loop (· == ·) a rest before =
      before.reverse ++ List.eraseRepsBy.loop (· == ·) a rest [] := by
  induction rest generalizing a before with
  | nil => simp [List.eraseRepsBy.loop]
  | cons b rest ih =>
    rw [List.eraseRepsBy.loop, List.eraseRepsBy.loop]
    cases a == b with
    | true => exact ih a before
    | false =>
      change List.eraseRepsBy.loop _ b rest (a :: before) =
        before.reverse ++ List.eraseRepsBy.loop _ b rest [a]
      rw [ih b (a :: before), ih b [a]]
      simp

variable [LawfulBEq α]

theorem eraseReps_cons_self (a : α) (rest : List α) :
    (a :: a :: rest).eraseReps = (a :: rest).eraseReps := by
  change List.eraseRepsBy.loop (· == ·) a (a :: rest) [] = List.eraseRepsBy.loop (· == ·) a rest []
  rw [List.eraseRepsBy.loop, beq_self_eq_true]

theorem eraseReps_cons_of_ne {a b : α} (h : a ≠ b) (rest : List α) :
    (a :: b :: rest).eraseReps = a :: (b :: rest).eraseReps := by
  change List.eraseRepsBy.loop (· == ·) a (b :: rest) [] =
    a :: List.eraseRepsBy.loop (· == ·) b rest []
  rw [List.eraseRepsBy.loop, beq_eq_false_iff_ne.mpr h]
  exact eraseRepsLoop_eq b rest [a]

theorem mem_eraseReps {a : α} {l : List α} : a ∈ l.eraseReps ↔ a ∈ l := by
  induction l with
  | nil => simp [List.eraseReps, List.eraseRepsBy]
  | cons b rest ih =>
    cases rest with
    | nil => simp [List.eraseReps, List.eraseRepsBy, List.eraseRepsBy.loop]
    | cons c rest =>
      by_cases h : b = c
      · subst h
        rw [eraseReps_cons_self, ih]
        simp
      · rw [eraseReps_cons_of_ne h, List.mem_cons, ih, List.mem_cons (a := a) (b := b)]

theorem eraseReps_sublist (l : List α) : l.eraseReps.Sublist l := by
  induction l with
  | nil => exact List.Sublist.refl []
  | cons a rest ih =>
    cases rest with
    | nil => exact List.Sublist.refl [a]
    | cons b rest =>
      by_cases h : a = b
      · subst h
        rw [eraseReps_cons_self]
        exact ih.cons a
      · rw [eraseReps_cons_of_ne h]
        exact ih.cons_cons a

/-- In an ordered list equal elements are neighbours. -/
theorem nodup_eraseReps {r : α → α → Prop} (hanti : ∀ a b, r a b → r b a → a = b) {l : List α}
    (h : l.Pairwise r) : l.eraseReps.Nodup := by
  induction l with
  | nil => exact List.nodup_nil
  | cons a rest ih =>
    obtain ⟨hfirst, hrest⟩ := List.pairwise_cons.mp h
    cases rest with
    | nil => exact List.nodup_singleton a
    | cons b rest =>
      by_cases hab : a = b
      · subst hab
        rw [eraseReps_cons_self]
        exact ih hrest
      · rw [eraseReps_cons_of_ne hab]
        refine List.nodup_cons.mpr ⟨fun hmem => ?_, ih hrest⟩
        -- were `a` found again behind `b`, each of the two would be below the other
        rcases List.mem_cons.mp (mem_eraseReps.mp hmem) with heq | hlater
        · exact hab heq
        · exact hab (hanti a b (hfirst b List.mem_cons_self)
            ((List.pairwise_cons.mp hrest).1 a hlater))

end Repetitions

/-- Sorting by a comparison of keys puts the keys in order. -/
theorem pairwise_mergeSort_of_iff {α κ : Type} [LinearOrder κ] {le : α → α → Bool} {key : α → κ}
    (hle : ∀ a b, le a b = true ↔ key a ≤ key b) (l : List α) :
    (l.mergeSort le).Pairwise fun a b => key a ≤ key b := by
  have htrans : ∀ a b c, le a b = true → le b c = true → le a c = true := by
    intro a b c hab hbc
    exact (hle a c).mpr (((hle a b).mp hab).trans ((hle b c).mp hbc))
  have htotal : ∀ a b, (le a b || le b a) = true := by
    intro a b
    rw [Bool.or_eq_true, hle, hle]
    exact le_total (key a) (key b)
  exact (List.pairwise_mergeSort htrans htotal l).imp (hle _ _).mp

theorem pairwise_mergeSort_key (names : List Name) :
    (names.mergeSort Name.le).Pairwise fun a b => a.key ≤ b.key :=
  pairwise_mergeSort_of_iff (fun a b => @Name.le_iff a b) names

/-- The distinct names in their order. -/
def sortedNames (hosts : List String) : List Name :=
  ((hosts.map Name.ofString).mergeSort Name.le).eraseReps

theorem pairwise_sortedNames (hosts : List String) :
    (sortedNames hosts).Pairwise fun a b => a.key ≤ b.key :=
  (pairwise_mergeSort_key _).sublist (eraseReps_sublist _)

theorem pairwise_sortedNames_tail (hosts : List String) :
    (sortedNames hosts).Pairwise fun a b => a.tail ≤ b.tail :=
  (pairwise_sortedNames hosts).imp fun h => Prod.Lex.monotone_fst _ _ h

theorem nodup_sortedNames (hosts : List String) : (sortedNames hosts).Nodup :=
  nodup_eraseReps (fun _ _ hab hba => Name.key_injective (le_antisymm hab hba))
    (pairwise_mergeSort_key _)

/-- The names that are compressed: those of the given texts, each of them once. -/
theorem sortedNames_perm (hosts : List String) :
    (sortedNames hosts).Perm (hosts.dedup.map Name.ofString) := by
  have hdistinct : (hosts.dedup.map Name.ofString).Nodup :=
    (List.nodup_dedup hosts).map Name.ofString_injective
  refine (List.perm_ext_iff_of_nodup (nodup_sortedNames hosts) hdistinct).mpr fun name => ?_
  rw [sortedNames, mem_eraseReps, List.mem_mergeSort, List.mem_map, List.mem_map]
  simp only [List.mem_dedup]

theorem numberedLE_iff {a b : String × Nat} : numberedLE a b = true ↔ toLex a ≤ toLex b := by
  rw [Prod.Lex.toLex_le_toLex]
  simp [numberedLE]

theorem pairwise_mergeSort_stem (numbered : List (String × Nat)) :
    (numbered.mergeSort numberedLE).Pairwise fun a b => a.1 ≤ b.1 :=
  (pairwise_mergeSort_of_iff (fun a b => @numberedLE_iff a b) numbered).imp fun h =>
    Prod.Lex.monotone_fst _ _ h

section Groups
variable {α κ : Type} [BEq κ] [LawfulBEq κ] {key : α → κ} {l : List α}

/-- The members of a group agree in the key that the list is split by. -/
theorem eq_of_mem_splitBy {first : α} {more : List α}
    (h : first :: more ∈ l.splitBy fun a b => key a == key b) :
    ∀ a ∈ first :: more, key a = key first := by
  have hchain : ((first :: more).map key).IsChain (· = ·) :=
    (List.isChain_map key).mpr ((List.isChain_of_mem_splitBy h).imp fun _ _ => beq_iff_eq.mp)
  have hconst : more.map key = List.replicate (more.map key).length (key first) :=
    List.isChain_cons_eq_iff_eq_replicate.mp hchain
  intro a ha
  rcases List.mem_cons.mp ha with rfl | ha
  · rfl
  · have hkey : key a ∈ more.map key := List.mem_map_of_mem ha
    rw [hconst] at hkey
    exact List.eq_of_mem_replicate hkey

theorem eq_of_mem_of_mem_splitBy {group : List α}
    (h : group ∈ l.splitBy fun a b => key a == key b) {a b : α} (ha : a ∈ group)
    (hb : b ∈ group) : key a = key b := by
  cases group with
  | nil => cases ha
  | cons first more =>
    have hsame := eq_of_mem_splitBy h
    exact (hsame a ha).trans (hsame b hb).symm

variable [LinearOrder κ]

/-- The groups of an ordered list have ascending keys, so no key has two groups. -/
theorem pairwise_splitBy_lt (h : l.Pairwise fun a b => key a ≤ key b) :
    (l.splitBy fun a b => key a == key b).Pairwise
      fun group later => ∀ a ∈ group, ∀ b ∈ later, key a < key b := by
  have hflat := List.flatten_splitBy (fun a b => key a == key b) l
  have hapart := List.isChain_getLast_head_splitBy (fun a b => key a == key b) l
  have hsame : ∀ group ∈ l.splitBy fun a b => key a == key b, ∀ a ∈ group, ∀ b ∈ group,
      key a = key b := fun _ hgroup _ ha _ hb => eq_of_mem_of_mem_splitBy hgroup ha hb
  rw [← hflat, List.pairwise_flatten] at h
  -- neighbours are compared at their border, and a middle group has a member to pass through
  let Below (group later : List α) : Prop :=
    later ≠ [] ∧ ∀ a ∈ group, ∀ b ∈ later, key a < key b
  have hchain : (l.splitBy fun a b => key a == key b).IsChain Below := by
    refine List.isChain_iff_getElem.mpr fun i hi => ?_
    obtain ⟨hgroup, hlater, hborder⟩ := List.isChain_iff_getElem.mp hapart i hi
    have hle := List.isChain_iff_getElem.mp h.2.isChain i hi
    refine ⟨hlater, fun a ha b hb => ?_⟩
    rw [hsame _ (List.getElem_mem _) a ha _ (List.getLast_mem hgroup),
      hsame _ (List.getElem_mem _) b hb _ (List.head_mem hlater)]
    exact lt_of_le_of_ne (hle _ (List.getLast_mem hgroup) _ (List.head_mem hlater))
      (beq_eq_false_iff_ne.mp hborder)
  have : Trans Below Below Below := ⟨fun {group middle later} hgroup hmiddle => by
    refine ⟨hmiddle.1, fun a ha b hb => ?_⟩
    obtain ⟨c, hc⟩ := List.exists_mem_of_ne_nil middle hgroup.1
    exact (hgroup.2 a ha c hc).trans (hmiddle.2 c hc b hb)⟩
  exact hchain.pairwise.imp fun hbelow => hbelow.2

/-- The group of a key is all of the ordered list that has the key. -/
theorem filter_eq_of_mem_splitBy (h : l.Pairwise fun a b => key a ≤ key b) {first : α}
    {more : List α} (hgroup : first :: more ∈ l.splitBy fun a b => key a == key b) :
    l.filter (key · == key first) = first :: more := by
  obtain ⟨before, after, hgroups⟩ := List.append_of_mem hgroup
  have hlt := pairwise_splitBy_lt h
  rw [hgroups, List.pairwise_append, List.pairwise_cons] at hlt
  obtain ⟨-, ⟨hafter, -⟩, hbefore⟩ := hlt
  have hbeforeNone : before.flatten.filter (key · == key first) = [] := by
    refine List.filter_eq_nil_iff.mpr fun a ha heq => ?_
    obtain ⟨group, hmem, ha⟩ := List.mem_flatten.mp ha
    have hbelow := hbefore group hmem _ List.mem_cons_self a ha first List.mem_cons_self
    exact hbelow.ne (beq_iff_eq.mp heq)
  have hafterNone : after.flatten.filter (key · == key first) = [] := by
    refine List.filter_eq_nil_iff.mpr fun a ha heq => ?_
    obtain ⟨group, hmem, ha⟩ := List.mem_flatten.mp ha
    exact (hafter group hmem first List.mem_cons_self a ha).ne' (beq_iff_eq.mp heq)
  have hall : (first :: more).filter (key · == key first) = first :: more :=
    List.filter_eq_self.mpr fun a ha => beq_iff_eq.mpr (eq_of_mem_splitBy hgroup a ha)
  calc
    l.filter (key · == key first)
        = (before ++ (first :: more) :: after).flatten.filter (key · == key first) := by
      rw [← hgroups, List.flatten_splitBy]
    _ = first :: more := by
      rw [List.flatten_append, List.flatten_cons, List.filter_append, List.filter_append,
        hbeforeNone, hafterNone, hall, List.append_nil, List.nil_append]

/-- Every member of an ordered list has a group, in which all members with its key are. -/
theorem exists_group_of_mem (h : l.Pairwise fun a b => key a ≤ key b) {a : α} (ha : a ∈ l) :
    ∃ first more, first :: more ∈ l.splitBy (fun a b => key a == key b) ∧ key first = key a ∧
      ∀ b ∈ l, key b = key a → b ∈ first :: more := by
  rw [← List.flatten_splitBy (fun a b => key a == key b) l, List.mem_flatten] at ha
  obtain ⟨group, hgroup, ha⟩ := ha
  cases group with
  | nil => cases ha
  | cons first more =>
    have hkey := eq_of_mem_splitBy hgroup a ha
    refine ⟨first, more, hgroup, hkey.symm, fun b hb hsame => ?_⟩
    rw [← filter_eq_of_mem_splitBy h hgroup]
    exact List.mem_filter.mpr ⟨hb, beq_iff_eq.mpr (hsame.trans hkey)⟩

end Groups

end NodeQuery.Host

import NodeQuery.Proofs.Host.RoundTrip

/-!
# Compression is canonical

Names are sorted and repetitions are erased before anything else is done with them, and the order is
total, so lists of the same names are compressed to the same patterns. The patterns come out in
order themselves: the groups of the tails ascend, and so do the merged first elements in each group,
where no two are equal since each stem is merged once.
-/
namespace NodeQuery.Host

/-! Lists of the same names -/

section Names

/-- There is one way to put a set of names in order. -/
theorem sortedNames_congr {hosts others : List String}
    (h : ∀ host, host ∈ others ↔ host ∈ hosts) : sortedNames others = sortedNames hosts := by
  have hdistinct : others.dedup.Perm hosts.dedup :=
    (List.perm_ext_iff_of_nodup (List.nodup_dedup _) (List.nodup_dedup _)).mpr fun host => by
      rw [List.mem_dedup, List.mem_dedup, h]
  have hperm : (sortedNames others).Perm (sortedNames hosts) :=
    (sortedNames_perm others).trans
      ((hdistinct.map Name.ofString).trans (sortedNames_perm hosts).symm)
  exact List.Perm.eq_of_pairwise
    (fun a b _ _ hab hba => Name.key_injective (le_antisymm hab hba))
    (pairwise_sortedNames others) (pairwise_sortedNames hosts) hperm

theorem tailGroups_congr {hosts others : List String}
    (h : ∀ host, host ∈ others ↔ host ∈ hosts) : tailGroups others = tailGroups hosts :=
  congrArg (List.splitBy fun a b : Name => a.tail == b.tail) (sortedNames_congr h)

/-- Lists of the same names, in any order and with any repetitions, have the same patterns. -/
theorem compress_congr {hosts others : List String}
    (h : ∀ host, host ∈ others ↔ host ∈ hosts) : compress others = compress hosts := by
  rw [compress_eq, compress_eq, tailGroups_congr h]

end Names

/-! The first elements of one tail -/

section Heads
variable {heads : List String}

theorem dot_notMem_stemText {stem : String} (hstem : '.' ∉ stem.toList) {numbers : List Nat}
    (hsome : numbers ≠ []) : '.' ∉ (stemText stem numbers).toList := by
  have hdigit : ∀ c, c.isDigit = true → c ≠ '.' := fun c hc heq => by simp [heq] at hc
  unfold stemText
  split
  next n =>
    rw [String.toList_append, Text.toList_toString, List.mem_append, not_or]
    exact ⟨hstem, fun hmem => hdigit _ (Text.isDigit_of_mem_toDigits hmem) rfl⟩
  next =>
    obtain ⟨terms, -, hspells⟩ := spellsTerms_runsText hsome
    have hinside := hspells.forall_mem hdigit (by decide) (by decide)
    rw [toList_stemSet]
    simp only [List.mem_append, List.mem_cons, List.not_mem_nil, not_or, or_false]
    exact ⟨hstem, by decide, fun hmem => hinside _ hmem rfl, by decide⟩

/-- The characters of a stem are characters of the elements. -/
theorem notMem_stem {c : Char} (h : ∀ head ∈ heads, c ∉ head.toList) {first : String × Nat}
    {more : List (String × Nat)} (hgroup : first :: more ∈ stemGroups heads) :
    c ∉ first.1.toList := by
  obtain ⟨head, hhead, hfirst⟩ := exists_of_mem_stemGroups hgroup List.mem_cons_self
  have hparts := h head hhead
  rw [← spell_eq hfirst, spell, String.toList_append, List.mem_append, not_or] at hparts
  exact hparts.1

theorem dot_notMem_mergeHeads (h : ∀ head ∈ heads, '.' ∉ head.toList) :
    ∀ text ∈ mergeHeads heads, '.' ∉ text.toList := by
  intro text htext
  rcases mem_mergeHeads.mp htext with ⟨hplain, -⟩ | ⟨first, more, hgroup, rfl⟩
  · exact h text hplain
  · exact dot_notMem_stemText (notMem_stem h hgroup) (List.cons_ne_nil _ _)

/-- The stem that a merged element is the pattern of, in front of a set or of a number. -/
def patternStem (text : String) : Option String :=
  if '[' ∈ text.toList then some (String.ofList (text.toList.takeWhile (· != '[')))
  else (stemNumber text).map (·.1)

theorem patternStem_of_notMem {text : String} (h : '[' ∉ text.toList) :
    patternStem text = (stemNumber text).map (·.1) := if_neg h

theorem patternStem_stemSet {stem : String} (h : '[' ∉ stem.toList) (numbers : List Nat) :
    patternStem s!"{stem}[{runsText numbers}]" = some stem := by
  have hrun : ∀ c ∈ stem.toList, (c != '[') = true := fun c hc =>
    bne_iff_ne.mpr fun heq => h (heq ▸ hc)
  rw [patternStem, toList_stemSet, if_pos (by simp),
    Text.takeWhile_run hrun (Text.endsRun_cons rfl _), String.ofList_toList]

/-- The pattern of a group tells its stem. -/
theorem patternStem_groupText (hplain : ∀ head ∈ heads, '[' ∉ head.toList)
    {group : List (String × Nat)} (hgroup : group ∈ stemGroups heads) {text : String}
    (h : groupText group = some text) : ∃ first ∈ group, patternStem text = some first.1 := by
  obtain ⟨first, more, rfl, rfl⟩ := groupText_eq_some h
  refine ⟨first, List.mem_cons_self, ?_⟩
  cases more with
  | nil =>
    -- a group of one is written as its element again
    obtain ⟨head, hhead, hfirst⟩ := exists_of_mem_stemGroups hgroup List.mem_cons_self
    have htext : stemText first.1 [first.2] = head := spell_eq hfirst
    rw [List.map_singleton, htext, patternStem_of_notMem (hplain head hhead), hfirst,
      Option.map_some]
  | cons second more => exact patternStem_stemSet (notMem_stem hplain hgroup) _

theorem nodup_unsortedHeads (hnodup : heads.Nodup) (hplain : ∀ head ∈ heads, '[' ∉ head.toList) :
    (unsortedHeads heads).Nodup := by
  have hstems := pairwise_splitBy_lt (pairwise_mergeSort_stem (heads.filterMap stemNumber))
  refine List.nodup_append.mpr ⟨hnodup.filter _, ?_, ?_⟩
  · -- each stem has one group
    refine List.pairwise_filterMap.mpr (hstems.imp_of_mem ?_)
    intro group later hgroup hlater hlt text htext other hother heq
    obtain ⟨first, hfirst, hstem⟩ := patternStem_groupText hplain hgroup htext
    obtain ⟨second, hsecond, hstem'⟩ := patternStem_groupText hplain hlater hother
    rw [heq, hstem'] at hstem
    exact (hlt first hfirst second hsecond).ne (Option.some.inj hstem).symm
  · -- what is merged has a stem, and what is not has none
    intro text htext other hother heq
    obtain ⟨hhead, hnone⟩ := List.mem_filter.mp htext
    obtain ⟨group, hgroup, hgroupText⟩ := List.mem_filterMap.mp hother
    obtain ⟨first, -, hstem⟩ := patternStem_groupText hplain hgroup hgroupText
    rw [← heq, patternStem_of_notMem (hplain text hhead), Option.isNone_iff_eq_none.mp hnone]
      at hstem
    cases hstem

theorem pairwise_mergeHeads (hnodup : heads.Nodup) (hplain : ∀ head ∈ heads, '[' ∉ head.toList) :
    (mergeHeads heads).Pairwise (· < ·) := by
  have hle : ∀ a b : String, decide (a ≤ b) = true ↔ id a ≤ id b := fun a b => decide_eq_true_iff
  have hsorted : (mergeHeads heads).Pairwise (· ≤ ·) := pairwise_mergeSort_of_iff hle _
  have hdistinct : (mergeHeads heads).Nodup :=
    (mergeHeads_perm heads).nodup_iff.mpr (nodup_unsortedHeads hnodup hplain)
  exact (hsorted.and hdistinct).imp fun h => lt_of_le_of_ne h.1 h.2

end Heads

/-! The patterns of all tails -/

section Tails
variable {hosts : List String}

theorem nodup_tailGroup {group : List Name} (hgroup : group ∈ tailGroups hosts) :
    (group.map (·.head)).Nodup := by
  have hflat : (tailGroups hosts).flatten = sortedNames hosts := List.flatten_splitBy _ _
  have hnames := nodup_sortedNames hosts
  rw [← hflat] at hnames
  refine List.Nodup.map_on ?_ ((List.nodup_flatten.mp hnames).1 group hgroup)
  intro a ha b hb hhead
  have htail : a.tail = b.tail := eq_of_mem_of_mem_splitBy hgroup ha hb
  exact Name.key_injective (by rw [Name.key, Name.key, htail, hhead])

theorem dot_notMem_tailGroup {group : List Name} (hgroup : group ∈ tailGroups hosts) {name : Name}
    (h : name ∈ group) : ∀ element ∈ name.elements, '.' ∉ element.toList := by
  obtain ⟨host, -, rfl⟩ := exists_of_mem_tailGroups hgroup h
  exact Name.dot_notMem_elements host

/-- The pattern of a merged first element has it in front of the tail of the group. -/
theorem ofString_groupPattern {first : Name} {more : List Name}
    (hgroup : first :: more ∈ tailGroups hosts) {head : String}
    (h : head ∈ mergeHeads ((first :: more).map (·.head))) :
    Name.ofString (Name.mk head first.tail).render = ⟨head, first.tail⟩ := by
  have hheads : ∀ head ∈ (first :: more).map (·.head), '.' ∉ head.toList := by
    intro head hhead
    obtain ⟨name, hname, rfl⟩ := List.mem_map.mp hhead
    exact dot_notMem_tailGroup hgroup hname name.head List.mem_cons_self
  refine Name.ofString_render (List.forall_mem_cons.mpr ⟨dot_notMem_mergeHeads hheads head h, ?_⟩)
  intro element helement
  exact dot_notMem_tailGroup hgroup List.mem_cons_self element (List.mem_cons_of_mem _ helement)

theorem exists_tail_of_groupPatterns {group : List Name} (hgroup : group ∈ tailGroups hosts)
    {pattern : String} (h : pattern ∈ groupPatterns group) :
    ∃ name ∈ group, (Name.ofString pattern).tail = name.tail := by
  cases group with
  | nil => cases h
  | cons first more =>
    obtain ⟨head, hhead, rfl⟩ := List.mem_map.mp h
    refine ⟨first, List.mem_cons_self, ?_⟩
    rw [ofString_groupPattern hgroup hhead]

theorem opening_notMem_tailGroup (hplain : ∀ host ∈ hosts, Plain host.toList) {group : List Name}
    (hgroup : group ∈ tailGroups hosts) : ∀ head ∈ group.map (·.head), '[' ∉ head.toList := by
  intro head hhead hopening
  cases group with
  | nil => cases hhead
  | cons first more =>
    have hplain := hplain _ (mem_of_head_mem_tailGroup hgroup hhead)
    rw [String.toList_append, plain_append] at hplain
    exact (hplain.1 '[' hopening).2.1 rfl

theorem pairwise_groupPatterns (hplain : ∀ host ∈ hosts, Plain host.toList) {group : List Name}
    (hgroup : group ∈ tailGroups hosts) :
    (groupPatterns group).Pairwise fun a b => (Name.ofString a).key < (Name.ofString b).key := by
  cases group with
  | nil => exact .nil
  | cons first more =>
    have hheads := pairwise_mergeHeads (nodup_tailGroup hgroup)
      (opening_notMem_tailGroup hplain hgroup)
    refine List.pairwise_map.mpr (hheads.imp_of_mem fun ha hb hlt => ?_)
    rw [ofString_groupPattern hgroup ha, ofString_groupPattern hgroup hb]
    exact Prod.Lex.toLex_lt_toLex.mpr (.inr ⟨rfl, hlt⟩)

theorem pairwise_compress (hplain : ∀ host ∈ hosts, Plain host.toList) :
    (compress hosts).Pairwise fun a b => (Name.ofString a).key < (Name.ofString b).key := by
  rw [compress_eq]
  refine List.pairwise_flatMap.mpr ⟨fun group => pairwise_groupPatterns hplain, ?_⟩
  refine (pairwise_splitBy_lt (pairwise_sortedNames_tail hosts)).imp_of_mem ?_
  intro group later hgroup hlater hlt pattern hpattern other hother
  obtain ⟨name, hname, htail⟩ := exists_tail_of_groupPatterns hgroup hpattern
  obtain ⟨name', hname', htail'⟩ := exists_tail_of_groupPatterns hlater hother
  refine Prod.Lex.toLex_lt_toLex.mpr (.inl ?_)
  rw [htail, htail']
  exact hlt name hname name' hname'

/-- Compression sees nothing but the set of the names. If no name has a character that means
something in a pattern, the patterns ascend strictly, by their tails and then by their first
elements. -/
theorem compress_canonical (hosts : List String) :
    (∀ others : List String, (∀ host, host ∈ others ↔ host ∈ hosts) →
      compress others = compress hosts) ∧
    ((∀ host ∈ hosts, Plain host.toList) →
      (compress hosts).Pairwise fun a b =>
        (Name.ofString a).tail < (Name.ofString b).tail ∨
          (Name.ofString a).tail = (Name.ofString b).tail ∧
            (Name.ofString a).head < (Name.ofString b).head) := by
  refine ⟨fun others => compress_congr, fun hplain => ?_⟩
  exact (pairwise_compress hplain).imp Prod.Lex.toLex_lt_toLex.mp

/-- Three nodes in one order, and in another one with a repetition. -/
theorem compress_canonical_repeated :
    (∀ host ∈ ["n1.lab", "n2.lab", "mgmt"], Plain host.toList) ∧
      compress ["n2.lab", "mgmt", "n1.lab", "n2.lab"] = compress ["n1.lab", "n2.lab", "mgmt"] ∧
      (compress ["n1.lab", "n2.lab", "mgmt"]).Pairwise fun a b =>
        (Name.ofString a).tail < (Name.ofString b).tail ∨
          (Name.ofString a).tail = (Name.ofString b).tail ∧
            (Name.ofString a).head < (Name.ofString b).head := by
  have hplain : ∀ host ∈ ["n1.lab", "n2.lab", "mgmt"], Plain host.toList := by
    simp [Plain]
  have hsame : ∀ host, host ∈ ["n2.lab", "mgmt", "n1.lab", "n2.lab"] ↔
      host ∈ ["n1.lab", "n2.lab", "mgmt"] := by
    intro host
    simp only [List.mem_cons, List.not_mem_nil, or_false]
    tauto
  obtain ⟨hcongr, hascending⟩ := compress_canonical ["n1.lab", "n2.lab", "mgmt"]
  exact ⟨hplain, hcongr _ hsame, hascending hplain⟩

end Tails

end NodeQuery.Host

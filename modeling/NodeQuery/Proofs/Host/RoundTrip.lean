import NodeQuery.Proofs.Host.Expansion
import NodeQuery.Proofs.Host.Grouping
import NodeQuery.Proofs.Host.Lists

/-!
# Compressing and expanding

Compressed host names are written as patterns that a list can hold and that expand to the names
again, each of them once. The argument follows the names through their groups: one group for each
tail, in it one for each stem, and a pattern for each of these.
-/
namespace NodeQuery.Host

/-- The names that a pattern expands to; none if it does not expand. -/
def expansion (pattern : String) : List String := (expand pattern).toOption.getD []

theorem mapM_expand {patterns : List String}
    (h : ∀ pattern ∈ patterns, expand pattern = .ok (expansion pattern)) :
    patterns.mapM expand = .ok (patterns.map expansion) := by
  induction patterns with
  | nil => rfl
  | cons pattern patterns ih =>
    have hrest := ih fun p hp => h p (List.mem_cons_of_mem pattern hp)
    rw [List.mapM_cons, h pattern List.mem_cons_self, hrest]
    rfl

/-- Patterns that a list can hold, that expand, and that together expand to the names. -/
structure Covers (patterns names : List String) : Prop where
  listable : ∀ pattern ∈ patterns, pattern ≠ "" ∧ Balanced pattern.toList
  expands : ∀ pattern ∈ patterns, expand pattern = .ok (expansion pattern)
  perm : (patterns.flatMap expansion).Perm names

namespace Covers

theorem nil : Covers [] [] := ⟨by simp, by simp, .nil⟩

theorem single {pattern : String} {names : List String} (hne : pattern ≠ "")
    (hbalanced : Balanced pattern.toList) (h : expand pattern = .ok names) :
    Covers [pattern] names := by
  have hnames : expansion pattern = names := by simp [expansion, h, Except.toOption]
  refine ⟨?_, ?_, ?_⟩
  · simpa using ⟨hne, hbalanced⟩
  · simpa [hnames] using h
  · simp [hnames]

theorem append {left right leftNames rightNames : List String} (hleft : Covers left leftNames)
    (hright : Covers right rightNames) : Covers (left ++ right) (leftNames ++ rightNames) := by
  refine ⟨?_, ?_, ?_⟩
  · exact List.forall_mem_append.mpr ⟨hleft.listable, hright.listable⟩
  · exact List.forall_mem_append.mpr ⟨hleft.expands, hright.expands⟩
  · rw [List.flatMap_append]
    exact hleft.perm.append hright.perm

theorem of_perm {patterns patterns' names names' : List String} (h : Covers patterns names)
    (hpatterns : patterns.Perm patterns') (hnames : names.Perm names') :
    Covers patterns' names' := by
  refine ⟨?_, ?_, ?_⟩
  · exact fun pattern hmem => h.listable pattern (hpatterns.mem_iff.mpr hmem)
  · exact fun pattern hmem => h.expands pattern (hpatterns.mem_iff.mpr hmem)
  · exact ((hpatterns.symm.flatMap_right expansion).trans h.perm).trans hnames

theorem flatMap {α : Type} {groups : List α} {patterns names : α → List String}
    (h : ∀ group ∈ groups, Covers (patterns group) (names group)) :
    Covers (groups.flatMap patterns) (groups.flatMap names) := by
  induction groups with
  | nil => exact nil
  | cons group groups ih =>
    rw [List.flatMap_cons, List.flatMap_cons]
    exact (h group List.mem_cons_self).append
      (ih fun g hg => h g (List.mem_cons_of_mem group hg))

end Covers

/-! Single patterns -/

theorem balanced_of_plain {text : List Char} (h : Plain text) : Balanced text := by
  induction text with
  | nil => exact .nil
  | cons c text ih =>
    obtain ⟨-, hopening, hclosing, hcomma⟩ := h c List.mem_cons_self
    exact .other hopening hclosing hcomma (ih fun d hd => h d (List.mem_cons_of_mem c hd))

theorem covers_plain {text : String} (hplain : Plain text.toList) (hne : text ≠ "") :
    Covers [text] [text] :=
  .single hne (balanced_of_plain hplain) (expand_plain hplain)

theorem balanced_stemText {stem : String} (hstem : Plain stem.toList) {numbers : List Nat}
    (hsome : numbers ≠ []) : Balanced (stemText stem numbers).toList := by
  unfold stemText
  split
  next n =>
    rw [String.toList_append, Text.toList_toString]
    exact balanced_of_plain (plain_append.mpr ⟨hstem, plain_toDigits n⟩)
  next =>
    obtain ⟨terms, -, hspells⟩ := spellsTerms_runsText hsome
    rw [toList_stemSet]
    exact (balanced_of_plain hstem).append (.set hspells.ne_bracket .nil)

theorem stemText_ne_empty {stem : String} (hne : stem ≠ "") (numbers : List Nat) :
    stemText stem numbers ≠ "" := by
  unfold stemText
  split <;> simp [toString, String.append_eq_empty_iff, hne]

/-- The element with a stem and a number. -/
def spell (numbered : String × Nat) : String := numbered.1 ++ toString numbered.2

theorem spell_eq {element : String} {numbered : String × Nat}
    (h : stemNumber element = some numbered) : spell numbered = element :=
  (stemNumber_spells h).2.2.symm

/-! Patterns of one tail -/

/-- Whether the element has a number behind the given stem. -/
def hasStem (stem element : String) : Bool := (stemNumber element).map (·.1) == some stem

theorem map_spell_numbered (heads : List String) :
    (heads.filterMap stemNumber).map spell =
      heads.filter fun head => !(stemNumber head).isNone := by
  induction heads with
  | nil => rfl
  | cons head heads ih =>
    cases h : stemNumber head with
    | none => simp [h, ih]
    | some numbered => simp [h, ih, spell_eq h]

theorem countP_stem_numbered (heads : List String) (stem : String) :
    (heads.filterMap stemNumber).countP (·.1 == stem) = heads.countP (hasStem stem) := by
  induction heads with
  | nil => rfl
  | cons head heads ih =>
    cases h : stemNumber head with
    | none => simp [h, ih, hasStem]
    | some numbered => simp [h, ih, hasStem, List.countP_cons]

section Heads
variable {heads : List String} {suffix : String}

theorem covers_plainHeads (hplain : ∀ head ∈ heads, Plain (head ++ suffix).toList)
    (hne : ∀ head ∈ heads, head ++ suffix ≠ "") :
    Covers (heads.map (· ++ suffix)) (heads.map (· ++ suffix)) := by
  rw [List.map_eq_flatMap]
  apply Covers.flatMap
  intro head hhead
  exact covers_plain (hplain head hhead) (hne head hhead)

/-- The elements with a number, ordered and grouped by their stems. -/
def stemGroups (heads : List String) : List (List (String × Nat)) :=
  ((heads.filterMap stemNumber).mergeSort numberedLE).splitBy fun a b => a.1 == b.1

/-- The first element of the pattern for a group with one stem. -/
def groupText (group : List (String × Nat)) : Option String :=
  group.head?.map fun first => stemText first.1 (group.map (·.2))

theorem groupText_eq_some {group : List (String × Nat)} {text : String}
    (h : groupText group = some text) :
    ∃ first more, group = first :: more ∧ text = stemText first.1 ((first :: more).map (·.2)) := by
  cases group with
  | nil => cases h
  | cons first more => exact ⟨first, more, rfl, (Option.some.inj h).symm⟩

/-- The elements without a number, and those that the others are merged to. -/
def unsortedHeads (heads : List String) : List String :=
  heads.filter (fun head => (stemNumber head).isNone) ++ (stemGroups heads).filterMap groupText

theorem mergeHeads_perm (heads : List String) : (mergeHeads heads).Perm (unsortedHeads heads) :=
  List.mergeSort_perm _ _

theorem mem_mergeHeads {head : String} :
    head ∈ mergeHeads heads ↔
      head ∈ heads ∧ stemNumber head = none ∨
        ∃ first more, first :: more ∈ stemGroups heads ∧
          head = stemText first.1 ((first :: more).map (·.2)) := by
  rw [(mergeHeads_perm heads).mem_iff, unsortedHeads, List.mem_append, List.mem_filter,
    Option.isNone_iff_eq_none, List.mem_filterMap]
  refine or_congr_right ⟨fun h => ?_, fun h => ?_⟩
  · obtain ⟨group, hgroup, hhead⟩ := h
    obtain ⟨first, more, rfl, rfl⟩ := groupText_eq_some hhead
    exact ⟨first, more, hgroup, rfl⟩
  · obtain ⟨first, more, hgroup, rfl⟩ := h
    exact ⟨first :: more, hgroup, rfl⟩

theorem flatten_stemGroups_perm (heads : List String) :
    (stemGroups heads).flatten.Perm (heads.filterMap stemNumber) := by
  rw [stemGroups, List.flatten_splitBy]
  exact List.mergeSort_perm _ _

theorem exists_of_mem_stemGroups {group : List (String × Nat)} (hgroup : group ∈ stemGroups heads)
    {numbered : String × Nat} (h : numbered ∈ group) :
    ∃ head ∈ heads, stemNumber head = some numbered := by
  have hflat : numbered ∈ (stemGroups heads).flatten := List.mem_flatten.mpr ⟨group, hgroup, h⟩
  exact List.mem_filterMap.mp ((flatten_stemGroups_perm heads).mem_iff.mp hflat)

/-- A group has all elements with its stem. -/
theorem length_stemGroup {first : String × Nat} {more : List (String × Nat)}
    (hgroup : first :: more ∈ stemGroups heads) :
    (first :: more).length = heads.countP (hasStem first.1) := by
  have hsorted := pairwise_mergeSort_stem (heads.filterMap stemNumber)
  calc
    (first :: more).length
        = ((heads.filterMap stemNumber).mergeSort numberedLE).countP (·.1 == first.1) := by
      rw [List.countP_eq_length_filter, filter_eq_of_mem_splitBy hsorted hgroup]
    _ = (heads.filterMap stemNumber).countP (·.1 == first.1) :=
      (List.mergeSort_perm _ _).countP_eq _
    _ = heads.countP (hasStem first.1) := countP_stem_numbered heads first.1

theorem stem_of_stemGroup (hplain : ∀ head ∈ heads, Plain (head ++ suffix).toList)
    {first : String × Nat} {more : List (String × Nat)}
    (hgroup : first :: more ∈ stemGroups heads) :
    first.1 ≠ "" ∧ Plain first.1.toList ∧ Plain suffix.toList := by
  obtain ⟨head, hhead, hfirst⟩ := exists_of_mem_stemGroups hgroup List.mem_cons_self
  obtain ⟨hne, -, hspells⟩ := stemNumber_spells hfirst
  have hparts := hplain head hhead
  rw [hspells, String.toList_append, plain_append, String.toList_append, plain_append] at hparts
  exact ⟨hne, hparts.1.1, hparts.2⟩

theorem le_of_mem_stemGroup {group : List (String × Nat)} (hgroup : group ∈ stemGroups heads) :
    ∀ n ∈ group.map (·.2), n ≤ maxMergedNumber := by
  intro n hn
  obtain ⟨numbered, hnumbered, rfl⟩ := List.mem_map.mp hn
  obtain ⟨head, -, hhead⟩ := exists_of_mem_stemGroups hgroup hnumbered
  exact (stemNumber_spells hhead).2.1

/-- The group of a stem is written as one pattern. -/
theorem covers_stemGroup (hplain : ∀ head ∈ heads, Plain (head ++ suffix).toList)
    (hfit : ∀ stem, heads.countP (hasStem stem) ≤ maxExpansion) {first : String × Nat}
    {more : List (String × Nat)} (hgroup : first :: more ∈ stemGroups heads) :
    Covers [stemText first.1 ((first :: more).map (·.2)) ++ suffix]
      ((first :: more).map fun numbered => spell numbered ++ suffix) := by
  obtain ⟨hne, hstem, hsuffix⟩ := stem_of_stemGroup hplain hgroup
  have hsome : (first :: more).map (·.2) ≠ [] := List.cons_ne_nil _ _
  have hsize : ((first :: more).map (·.2)).length ≤ maxExpansion := by
    rw [List.length_map]
    exact (length_stemGroup hgroup).le.trans (hfit first.1)
  have hnames : (first :: more).map (fun numbered => spell numbered ++ suffix) =
      ((first :: more).map (·.2)).map fun n => first.1 ++ toString n ++ suffix := by
    rw [List.map_map]
    refine List.map_congr_left fun numbered hnumbered => ?_
    have hsame : numbered.1 = first.1 := eq_of_mem_splitBy hgroup numbered hnumbered
    simp only [spell, hsame, Function.comp_apply]
  rw [hnames]
  have hmax := le_of_mem_stemGroup hgroup
  have hexpand := (expand_stemText hstem hsuffix hsome hmax rfl).resolve_right fun h =>
    Nat.not_lt.mpr hsize h.1
  refine .single ?_ ?_ hexpand.2
  · intro hempty
    exact stemText_ne_empty hne _ (String.append_eq_empty_iff.mp hempty).1
  · rw [String.toList_append]
    exact (balanced_stemText hstem hsome).append (balanced_of_plain hsuffix)

theorem covers_stemGroups (hplain : ∀ head ∈ heads, Plain (head ++ suffix).toList)
    (hfit : ∀ stem, heads.countP (hasStem stem) ≤ maxExpansion) :
    Covers
      ((stemGroups heads).flatMap fun group =>
        (group.head?.map fun first => stemText first.1 (group.map (·.2)) ++ suffix).toList)
      ((stemGroups heads).flatMap fun group =>
        group.map fun numbered => spell numbered ++ suffix) := by
  apply Covers.flatMap
  intro group hgroup
  cases group with
  | nil => exact .nil
  | cons first more => exact covers_stemGroup hplain hfit hgroup

/-- The elements without a number and those of the groups are all elements. -/
theorem split_heads_perm (heads : List String) :
    (heads.filter (fun head => (stemNumber head).isNone) ++
      (stemGroups heads).flatten.map spell).Perm heads := by
  have hnumbered : ((stemGroups heads).flatten.map spell).Perm
      (heads.filter fun head => !(stemNumber head).isNone) := by
    rw [← map_spell_numbered]
    exact (flatten_stemGroups_perm heads).map spell
  exact (hnumbered.append_left _).trans (List.filter_append_perm _ heads)

/-- The merged first elements stand for the given ones. -/
theorem covers_mergeHeads (hplain : ∀ head ∈ heads, Plain (head ++ suffix).toList)
    (hne : ∀ head ∈ heads, head ++ suffix ≠ "")
    (hfit : ∀ stem, heads.countP (hasStem stem) ≤ maxExpansion) :
    Covers ((mergeHeads heads).map (· ++ suffix)) (heads.map (· ++ suffix)) := by
  have hunmerged : Covers ((heads.filter fun head => (stemNumber head).isNone).map (· ++ suffix))
      ((heads.filter fun head => (stemNumber head).isNone).map (· ++ suffix)) :=
    covers_plainHeads (fun head h => hplain head (List.mem_of_mem_filter h))
      (fun head h => hne head (List.mem_of_mem_filter h))
  have hboth := hunmerged.append (covers_stemGroups hplain hfit)
  refine hboth.of_perm ?_ ?_
  · have htexts := ((mergeHeads_perm heads).map (· ++ suffix)).symm
    rw [unsortedHeads, List.map_append, List.map_filterMap, List.filterMap_eq_flatMap_toList]
      at htexts
    simpa only [groupText, Option.map_map, Function.comp_def] using htexts
  · have hnames := (split_heads_perm heads).map (· ++ suffix)
    rw [List.map_append, List.map_map, List.map_flatten] at hnames
    simpa only [List.flatMap_def, Function.comp_def] using hnames

end Heads

/-! Patterns of all tails -/

/-- No more names than fit one set have one tail and one stem. -/
def SetsFit (hosts : List String) : Prop :=
  ∀ stem tail, hosts.dedup.countP (fun host =>
    (Name.ofString host).tail == tail && hasStem stem (Name.ofString host).head) ≤ maxExpansion

/-- The distinct names, ordered and grouped by their tails. -/
def tailGroups (hosts : List String) : List (List Name) :=
  ((hosts.map Name.ofString).mergeSort Name.le).eraseReps.splitBy fun a b => a.tail == b.tail

/-- The patterns of the names with one tail. -/
def groupPatterns : List Name → List String
  | [] => []
  | first :: more =>
    (mergeHeads ((first :: more).map (·.head))).map fun head => (Name.mk head first.tail).render

theorem compress_eq (hosts : List String) :
    compress hosts = (tailGroups hosts).flatMap groupPatterns := by
  rw [compress, tailGroups]
  congr 1
  funext group
  cases group <;> rfl

theorem flatten_tailGroups_perm (hosts : List String) :
    (tailGroups hosts).flatten.Perm (hosts.dedup.map Name.ofString) := by
  rw [tailGroups, List.flatten_splitBy]
  exact sortedNames_perm hosts

theorem exists_of_mem_tailGroups {hosts : List String} {group : List Name}
    (hgroup : group ∈ tailGroups hosts) {name : Name} (h : name ∈ group) :
    ∃ host ∈ hosts, Name.ofString host = name := by
  have hflat : name ∈ (tailGroups hosts).flatten := List.mem_flatten.mpr ⟨group, hgroup, h⟩
  have hdistinct := (flatten_tailGroups_perm hosts).mem_iff.mp hflat
  obtain ⟨host, hhost, hname⟩ := List.mem_map.mp hdistinct
  exact ⟨host, List.mem_dedup.mp hhost, hname⟩

theorem render_of_mem_tailGroup {hosts : List String} {first : Name} {more : List Name}
    (hgroup : first :: more ∈ tailGroups hosts) {name : Name} (h : name ∈ first :: more) :
    name.head ++ Name.suffix first.tail = name.render := by
  have htail : name.tail = first.tail := eq_of_mem_splitBy hgroup name h
  rw [← htail]
  exact (Name.render_mk name.head name.tail).symm

/-- The first elements of a group, with its tail behind each of them, are names of the list. -/
theorem mem_of_head_mem_tailGroup {hosts : List String} {first : Name} {more : List Name}
    (hgroup : first :: more ∈ tailGroups hosts) {head : String}
    (h : head ∈ (first :: more).map (·.head)) : head ++ Name.suffix first.tail ∈ hosts := by
  obtain ⟨name, hname, rfl⟩ := List.mem_map.mp h
  obtain ⟨host, hhost, rfl⟩ := exists_of_mem_tailGroups hgroup hname
  rw [render_of_mem_tailGroup hgroup hname, Name.render_ofString]
  exact hhost

/-- A group has all names with its tail. -/
theorem countP_tailGroup {hosts : List String} {first : Name} {more : List Name}
    (hgroup : first :: more ∈ tailGroups hosts) (stem : String) :
    ((first :: more).map (·.head)).countP (hasStem stem) =
      hosts.dedup.countP fun host =>
        (Name.ofString host).tail == first.tail && hasStem stem (Name.ofString host).head := by
  have hsorted := pairwise_sortedNames_tail hosts
  calc
    ((first :: more).map (·.head)).countP (hasStem stem)
        = (first :: more).countP fun name => hasStem stem name.head := List.countP_map
    _ = (sortedNames hosts).countP
        fun name => hasStem stem name.head && name.tail == first.tail := by
      rw [← filter_eq_of_mem_splitBy hsorted hgroup, List.countP_filter]
    _ = (hosts.dedup.map Name.ofString).countP
        fun name => hasStem stem name.head && name.tail == first.tail :=
      (sortedNames_perm hosts).countP_eq _
    _ = hosts.dedup.countP fun host =>
        (Name.ofString host).tail == first.tail && hasStem stem (Name.ofString host).head := by
      rw [List.countP_map]
      exact List.countP_congr fun host _ => by simp [and_comm]

section Hosts
variable {hosts : List String}

/-- The group of a tail is written as the patterns that its first elements are merged to. -/
theorem covers_tailGroup (hne : ∀ host ∈ hosts, host ≠ "")
    (hplain : ∀ host ∈ hosts, Plain host.toList) (hfit : SetsFit hosts) {first : Name}
    {more : List Name} (hgroup : first :: more ∈ tailGroups hosts) :
    Covers
      ((mergeHeads ((first :: more).map (·.head))).map fun head => (Name.mk head first.tail).render)
      ((first :: more).map Name.render) := by
  have hcovers := covers_mergeHeads
    (fun head h => hplain _ (mem_of_head_mem_tailGroup hgroup h))
    (fun head h => hne _ (mem_of_head_mem_tailGroup hgroup h))
    (fun stem => (countP_tailGroup hgroup stem).le.trans (hfit stem first.tail))
  have hnames : ((first :: more).map (·.head)).map (· ++ Name.suffix first.tail) =
      (first :: more).map Name.render := by
    rw [List.map_map]
    exact List.map_congr_left fun name h => render_of_mem_tailGroup hgroup h
  rw [hnames] at hcovers
  simpa only [Name.render_mk] using hcovers

theorem covers_compress (hne : ∀ host ∈ hosts, host ≠ "")
    (hplain : ∀ host ∈ hosts, Plain host.toList) (hfit : SetsFit hosts) :
    Covers (compress hosts) hosts.dedup := by
  have hgroups : Covers (compress hosts) ((tailGroups hosts).flatMap (·.map Name.render)) := by
    rw [compress_eq]
    apply Covers.flatMap
    intro group hgroup
    cases group with
    | nil => exact .nil
    | cons first more => exact covers_tailGroup hne hplain hfit hgroup
  have hnames := (flatten_tailGroups_perm hosts).map Name.render
  have hid : Name.render ∘ Name.ofString = id := funext Name.render_ofString
  rw [List.map_flatten, List.map_map, hid, List.map_id] at hnames
  exact hgroups.of_perm (.refl _) hnames

/-- Compressing loses and invents nothing: the patterns, joined to a list, are read back from it,
each of them expands, and the expansions are the distinct names, each of them once. -/
theorem compress_expand (hne : ∀ host ∈ hosts, host ≠ "")
    (hplain : ∀ host ∈ hosts, Plain host.toList) (hfit : SetsFit hosts) :
    splitPatterns (String.intercalate "," (compress hosts)) = .ok (compress hosts) ∧
      ∃ expansions, (compress hosts).mapM expand = .ok expansions ∧
        expansions.flatten.Perm hosts.dedup := by
  have hcovers := covers_compress hne hplain hfit
  refine ⟨splitPatterns_intercalate hcovers.listable, _, mapM_expand hcovers.expands, ?_⟩
  exact hcovers.perm

end Hosts

/-- Two nodes of one stem, one of them listed twice, and a node without a number. -/
theorem compress_expand_three_nodes :
    ∃ expansions, (compress ["n2.lab", "n1.lab", "mgmt", "n1.lab"]).mapM expand = .ok expansions ∧
      expansions.flatten.Perm ["n2.lab", "mgmt", "n1.lab"] := by
  have hne : ∀ host ∈ ["n2.lab", "n1.lab", "mgmt", "n1.lab"], host ≠ "" := by decide
  have hplain : ∀ host ∈ ["n2.lab", "n1.lab", "mgmt", "n1.lab"], Plain host.toList := by
    simp [Plain]
  have hfit : SetsFit ["n2.lab", "n1.lab", "mgmt", "n1.lab"] := fun stem tail =>
    List.countP_le_length.trans (by decide)
  obtain ⟨-, hexpand⟩ := compress_expand hne hplain hfit
  exact hexpand

end NodeQuery.Host

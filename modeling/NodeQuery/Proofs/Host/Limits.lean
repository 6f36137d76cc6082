import NodeQuery.Proofs.Host.RoundTrip

/-!
# Limits of compressed patterns

Compression puts all names of one tail and one stem into one set, however many they are, and the
expander refuses a set of more than its limit. So the patterns all expand iff every group is within
the limit; a pattern that does not expand is too large, and nothing else is wrong with it.
-/
namespace NodeQuery.Host

section Heads
variable {heads : List String} {suffix : String}

/-- Every element with a number has a group, and all elements with its stem are in it. -/
theorem exists_stemGroup_of_mem {head : String} (h : head ∈ heads) {stem : String} {n : Nat}
    (hnumber : stemNumber head = some (stem, n)) :
    ∃ first more, first :: more ∈ stemGroups heads ∧ first.1 = stem ∧
      ∀ other ∈ heads, ∀ m, stemNumber other = some (stem, m) → (stem, m) ∈ first :: more := by
  have hmem : ∀ other ∈ heads, ∀ m, stemNumber other = some (stem, m) →
      (stem, m) ∈ (heads.filterMap stemNumber).mergeSort numberedLE := by
    intro other hother m hm
    exact List.mem_mergeSort.mpr (List.mem_filterMap.mpr ⟨other, hother, hm⟩)
  obtain ⟨first, more, hgroup, hstem, hall⟩ :=
    exists_group_of_mem (pairwise_mergeSort_stem _) (hmem head h n hnumber)
  exact ⟨first, more, hgroup, hstem, fun other hother m hm => hall _ (hmem other hother m hm) rfl⟩

theorem exists_stemGroup {stem : String} (h : 0 < heads.countP (hasStem stem)) :
    ∃ first more, first :: more ∈ stemGroups heads ∧ first.1 = stem := by
  obtain ⟨head, hhead, hstem⟩ := List.countP_pos_iff.mp h
  obtain ⟨numbered, hnumbered, rfl⟩ := Option.map_eq_some_iff.mp (beq_iff_eq.mp hstem)
  obtain ⟨first, more, hgroup, hfirst, -⟩ := exists_stemGroup_of_mem hhead hnumbered
  exact ⟨first, more, hgroup, hfirst⟩

/-- A group of a stem expands iff it is within the limit. -/
theorem expand_stemGroup (hplain : ∀ head ∈ heads, Plain (head ++ suffix).toList)
    {first : String × Nat} {more : List (String × Nat)}
    (hgroup : first :: more ∈ stemGroups heads) {pattern : String}
    (hpattern : pattern = stemText first.1 ((first :: more).map (·.2)) ++ suffix) :
    heads.countP (hasStem first.1) ≤ maxExpansion ∧ (∃ names, expand pattern = .ok names) ∨
      maxExpansion < heads.countP (hasStem first.1) ∧
        (expand pattern = .error .rangeTooLarge ∨
          expand pattern = .error (.expansionTooLarge pattern)) := by
  obtain ⟨-, hstem, hsuffix⟩ := stem_of_stemGroup hplain hgroup
  have hsome : (first :: more).map (·.2) ≠ [] := List.cons_ne_nil _ _
  have hexpand := expand_stemText hstem hsuffix hsome (le_of_mem_stemGroup hgroup) hpattern
  rw [List.length_map, length_stemGroup hgroup] at hexpand
  exact hexpand.imp_left fun h => ⟨h.1, _, h.2⟩

end Heads

/-- How many of the distinct names have the tail, and the stem in front of a number. -/
def groupSize (hosts : List String) (stem : String) (tail : List String) : Nat :=
  hosts.dedup.countP fun host =>
    (Name.ofString host).tail == tail && hasStem stem (Name.ofString host).head

section Hosts
variable {hosts : List String}

theorem setsFit_iff : SetsFit hosts ↔ ∀ stem tail, groupSize hosts stem tail ≤ maxExpansion :=
  Iff.rfl

theorem mem_compress {pattern : String} :
    pattern ∈ compress hosts ↔
      ∃ first more, first :: more ∈ tailGroups hosts ∧
        ∃ head ∈ mergeHeads ((first :: more).map (·.head)),
          pattern = head ++ Name.suffix first.tail := by
  constructor
  · intro h
    obtain ⟨group, hgroup, hpattern⟩ := List.mem_flatMap.mp h
    cases group with
    | nil => cases hpattern
    | cons first more =>
      obtain ⟨head, hhead, rfl⟩ := List.mem_map.mp hpattern
      exact ⟨first, more, hgroup, head, hhead, Name.render_mk head first.tail⟩
  · intro h
    obtain ⟨first, more, hgroup, head, hhead, rfl⟩ := h
    refine List.mem_flatMap.mpr ⟨first :: more, hgroup, List.mem_map.mpr ⟨head, hhead, ?_⟩⟩
    exact Name.render_mk head first.tail

/-- Every name has a group, and the first elements of all names with its tail are in it. -/
theorem exists_tailGroup_of_mem {host : String} (h : host ∈ hosts) :
    ∃ first more, first :: more ∈ tailGroups hosts ∧ first.tail = (Name.ofString host).tail ∧
      ∀ other ∈ hosts, (Name.ofString other).tail = (Name.ofString host).tail →
        (Name.ofString other).head ∈ (first :: more).map (·.head) := by
  have hmem : ∀ other ∈ hosts, Name.ofString other ∈ sortedNames hosts := fun other hother =>
    (sortedNames_perm hosts).mem_iff.mpr (List.mem_map_of_mem (List.mem_dedup.mpr hother))
  obtain ⟨first, more, hgroup, htail, hall⟩ :=
    exists_group_of_mem (pairwise_sortedNames_tail hosts) (hmem host h)
  exact ⟨first, more, hgroup, htail, fun other hother hsame =>
    List.mem_map_of_mem (hall _ (hmem other hother) hsame)⟩

theorem exists_tailGroup {stem : String} {tail : List String} (h : 0 < groupSize hosts stem tail) :
    ∃ first more, first :: more ∈ tailGroups hosts ∧ first.tail = tail := by
  obtain ⟨host, hhost, hmatch⟩ := List.countP_pos_iff.mp h
  have htail : (Name.ofString host).tail = tail :=
    beq_iff_eq.mp ((Bool.and_eq_true _ _).mp hmatch).1
  obtain ⟨first, more, hgroup, hfirst, -⟩ := exists_tailGroup_of_mem (List.mem_dedup.mp hhost)
  exact ⟨first, more, hgroup, hfirst.trans htail⟩

/-- A compressed pattern is a name by itself or has a group of its own. -/
theorem expand_of_mem_compress (hplain : ∀ host ∈ hosts, Plain host.toList) {pattern : String}
    (h : pattern ∈ compress hosts) :
    expand pattern = .ok [pattern] ∨ ∃ stem tail,
      groupSize hosts stem tail ≤ maxExpansion ∧ (∃ names, expand pattern = .ok names) ∨
        maxExpansion < groupSize hosts stem tail ∧
          (expand pattern = .error .rangeTooLarge ∨
            expand pattern = .error (.expansionTooLarge pattern)) := by
  obtain ⟨first, more, hgroup, head, hhead, rfl⟩ := mem_compress.mp h
  have hheads : ∀ head ∈ (first :: more).map (·.head),
      Plain (head ++ Name.suffix first.tail).toList := fun head h =>
    hplain _ (mem_of_head_mem_tailGroup hgroup h)
  rcases mem_mergeHeads.mp hhead with ⟨hmem, -⟩ | ⟨numbered, others, hstems, rfl⟩
  · exact .inl (expand_plain (hheads head hmem))
  · refine .inr ⟨numbered.1, first.tail, ?_⟩
    rw [groupSize, ← countP_tailGroup hgroup]
    exact expand_stemGroup hheads hstems rfl

/-- A group above the limit has a pattern, and the pattern does not expand. -/
theorem exists_mem_compress_of_lt (hplain : ∀ host ∈ hosts, Plain host.toList) {stem : String}
    {tail : List String} (hsize : maxExpansion < groupSize hosts stem tail) :
    ∃ pattern ∈ compress hosts, ∀ names, expand pattern ≠ .ok names := by
  obtain ⟨first, more, hgroup, rfl⟩ := exists_tailGroup (Nat.zero_lt_of_lt hsize)
  rw [groupSize, ← countP_tailGroup hgroup] at hsize
  obtain ⟨numbered, others, hstems, rfl⟩ := exists_stemGroup (Nat.zero_lt_of_lt hsize)
  have hhead := mem_mergeHeads.mpr (.inr ⟨numbered, others, hstems, rfl⟩)
  refine ⟨_, mem_compress.mpr ⟨first, more, hgroup, _, hhead, rfl⟩, fun names hok => ?_⟩
  rcases expand_stemGroup (fun head h => hplain _ (mem_of_head_mem_tailGroup hgroup h)) hstems rfl
    with ⟨hfits, -⟩ | ⟨-, herror | herror⟩
  · exact Nat.not_lt.mpr hfits hsize
  · rw [herror] at hok
    cases hok
  · rw [herror] at hok
    cases hok

/-- The compressed patterns all expand iff no group is above the limit, and the only errors of those
that do not expand are about their size. -/
theorem compress_expands_iff (hplain : ∀ host ∈ hosts, Plain host.toList) :
    ((∀ pattern ∈ compress hosts, ∃ names, expand pattern = .ok names) ↔ SetsFit hosts) ∧
      ∀ pattern ∈ compress hosts, ∀ e, expand pattern = .error e →
        e = .rangeTooLarge ∨ e = .expansionTooLarge pattern := by
  refine ⟨⟨fun hexpands => ?_, fun hfit => ?_⟩, ?_⟩
  · refine setsFit_iff.mpr fun stem tail => Nat.not_lt.mp fun hsize => ?_
    obtain ⟨pattern, hpattern, hfails⟩ := exists_mem_compress_of_lt hplain hsize
    obtain ⟨names, hok⟩ := hexpands pattern hpattern
    exact hfails names hok
  · intro pattern hpattern
    rcases expand_of_mem_compress hplain hpattern with
      hself | ⟨stem, tail, ⟨-, hok⟩ | ⟨hsize, -⟩⟩
    · exact ⟨_, hself⟩
    · exact hok
    · exact absurd hsize (Nat.not_lt.mpr (setsFit_iff.mp hfit stem tail))
  · intro pattern hpattern e he
    rcases expand_of_mem_compress hplain hpattern with
      hself | ⟨stem, tail, ⟨-, names, hok⟩ | ⟨-, herror | herror⟩⟩
    · rw [hself] at he
      cases he
    · rw [hok] at he
      cases he
    · rw [herror] at he
      exact .inl (Except.error.inj he).symm
    · rw [herror] at he
      exact .inr (Except.error.inj he).symm

end Hosts

/-- A node by itself, and two nodes whose set is within the limit. -/
theorem compress_expands_iff_two_nodes :
    (∀ host ∈ ["n2", "mgmt", "n1"], Plain host.toList) ∧
      ∀ pattern ∈ compress ["n2", "mgmt", "n1"], ∃ names, expand pattern = .ok names := by
  have hplain : ∀ host ∈ ["n2", "mgmt", "n1"], Plain host.toList := by simp [Plain]
  have hfit : SetsFit ["n2", "mgmt", "n1"] := fun stem tail =>
    List.countP_le_length.trans (by decide)
  exact ⟨hplain, (compress_expands_iff hplain).1.mpr hfit⟩

/-! Groups above the limit -/

/-- The nodes of a stem with the numbers below the count. -/
def numberedNodes (stem : String) (count : Nat) : List String :=
  (List.range count).map fun n => stem ++ toString n

theorem nodup_numberedNodes (stem : String) (count : Nat) : (numberedNodes stem count).Nodup := by
  refine List.nodup_range.map fun m n h => ?_
  have htexts : Nat.toDigits 10 m = Nat.toDigits 10 n := by
    simpa using congrArg String.toList h
  rw [← Nat.ofDigitChars_ten_toDigits (n := m), htexts, Nat.ofDigitChars_ten_toDigits]

/-- Nodes of one stem are one group, whatever their number. -/
theorem groupSize_numberedNodes {stem : String} (hne : stem ≠ "")
    (hstem : Text.EndsRun Char.isDigit stem.toList.reverse) (hdot : '.' ∉ stem.toList) {count : Nat}
    (hcount : count ≤ maxMergedNumber + 1) : groupSize (numberedNodes stem count) stem [] = count := by
  have hgroup : ∀ host ∈ numberedNodes stem count,
      ((Name.ofString host).tail == [] && hasStem stem (Name.ofString host).head) = true := by
    intro host hhost
    obtain ⟨n, hn, rfl⟩ := List.mem_map.mp hhost
    have hmax : n ≤ maxMergedNumber := by
      have := List.mem_range.mp hn
      omega
    have hwhole : '.' ∉ (stem ++ toString n).toList := by
      rw [String.toList_append, Text.toList_toString, List.mem_append, not_or]
      refine ⟨hdot, fun hdigit => ?_⟩
      cases Text.isDigit_of_mem_toDigits hdigit
    rw [Name.ofString_of_notMem hwhole, hasStem, stemNumber_append hne hstem hmax]
    simp
  rw [groupSize, (nodup_numberedNodes stem count).dedup, List.countP_eq_length.mpr hgroup,
    numberedNodes, List.length_map, List.length_range]

/-- One node more than a set may have: the names are all right, and a pattern for them is not. -/
theorem not_expand_compress_numberedNodes :
    (∀ host ∈ numberedNodes "n" 10001, host ≠ "" ∧ Plain host.toList) ∧
      ∃ pattern ∈ compress (numberedNodes "n" 10001), ∀ names, expand pattern ≠ .ok names := by
  have hhosts : ∀ host ∈ numberedNodes "n" 10001, host ≠ "" ∧ Plain host.toList := by
    intro host hhost
    obtain ⟨n, -, rfl⟩ := List.mem_map.mp hhost
    refine ⟨by simp [String.append_eq_empty_iff], ?_⟩
    rw [String.toList_append, Text.toList_toString]
    exact plain_append.mpr ⟨by simp [Plain], plain_toDigits n⟩
  have hstem : Text.EndsRun Char.isDigit "n".toList.reverse := Text.endsRun_cons rfl []
  have hsize : maxExpansion < groupSize (numberedNodes "n" 10001) "n" [] := by
    rw [groupSize_numberedNodes (by decide) hstem (by decide) (by decide)]
    decide
  exact ⟨hhosts, exists_mem_compress_of_lt (fun host h => (hhosts host h).2) hsize⟩

end NodeQuery.Host

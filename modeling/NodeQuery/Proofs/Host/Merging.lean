import NodeQuery.Proofs.Host.Canonical
import NodeQuery.Proofs.Host.Limits
import NodeQuery.Proofs.Host.Readings

/-!
# What compression merges

Two names share a pattern iff they have one tail and first elements of one stem: both groupings are
complete, since what is grouped is in order. In a set the numbers ascend strictly, and the runs that
they are cut into cannot be joined, so no set could have fewer terms.
-/
namespace NodeQuery.Host

/-! Runs -/

theorem first_mem_of_mem_runs {numbers : List Nat} {run : Nat × Nat} (h : run ∈ runs numbers) :
    run.1 ∈ numbers := by
  rw [← flatMap_runs numbers]
  exact List.mem_flatMap.mpr ⟨run, h, List.mem_range'.mpr ⟨0, Nat.succ_pos _, by simp⟩⟩

/-- Between two runs there is a number that is missing. -/
theorem pairwise_runs {numbers : List Nat} (h : numbers.Pairwise (· < ·)) :
    (runs numbers).Pairwise fun run later => run.2 + 2 ≤ later.1 := by
  fun_induction runs numbers with
  | case1 => exact .nil
  | case2 n rest hrest ih => exact List.pairwise_singleton _ _
  | case3 n rest last more hrest ih =>
    -- the number is put in front of the first run, whose end stays
    have hruns := ih (List.pairwise_cons.mp h).2
    rw [hrest] at hruns
    obtain ⟨hfirst, hmore⟩ := List.pairwise_cons.mp hruns
    exact List.pairwise_cons.mpr ⟨hfirst, hmore⟩
  | case4 n rest first last more hrest hne ih =>
    -- the number is a run of its own, since the one behind it begins above its successor
    obtain ⟨hbelow, hordered⟩ := List.pairwise_cons.mp h
    have hruns := ih hordered
    have hmem : (first, last) ∈ runs rest := hrest ▸ List.mem_cons_self
    have hle : first ≤ last := le_of_mem_runs _ hmem
    have hlt : n < first := hbelow first (first_mem_of_mem_runs hmem)
    rw [hrest] at hruns
    obtain ⟨hfirst, hmore⟩ := List.pairwise_cons.mp hruns
    refine List.pairwise_cons.mpr ⟨List.forall_mem_cons.mpr ⟨?_, fun later hlater => ?_⟩, hruns⟩
    · dsimp only
      omega
    · have := hfirst later hlater
      dsimp only at this ⊢
      omega

/-! Groups of one stem -/

section Heads
variable {heads : List String} {suffix : String}

theorem nodup_numbered (h : heads.Nodup) : (heads.filterMap stemNumber).Nodup := by
  refine h.filterMap fun head head' numbered hhead hhead' => ?_
  rw [← spell_eq (Option.mem_def.mp hhead), ← spell_eq (Option.mem_def.mp hhead')]

/-- The numbers of a stem ascend, each of them once. -/
theorem pairwise_stemGroup (h : heads.Nodup) {group : List (String × Nat)}
    (hgroup : group ∈ stemGroups heads) : (group.map (·.2)).Pairwise (· < ·) := by
  have hsorted := pairwise_mergeSort_of_iff (fun a b => @numberedLE_iff a b)
    (heads.filterMap stemNumber)
  have hdistinct : ((heads.filterMap stemNumber).mergeSort numberedLE).Nodup :=
    (List.mergeSort_perm _ _).nodup_iff.mpr (nodup_numbered h)
  have hboth := hsorted.and hdistinct
  rw [← List.flatten_splitBy (fun a b => a.1 == b.1)
    ((heads.filterMap stemNumber).mergeSort numberedLE), List.pairwise_flatten] at hboth
  refine List.pairwise_map.mpr ((hboth.1 group hgroup).imp_of_mem ?_)
  intro a b ha hb hab
  have hstem : a.1 = b.1 := eq_of_mem_of_mem_splitBy hgroup ha hb
  have hlt : toLex a < toLex b := lt_of_le_of_ne hab.1 hab.2
  rcases Prod.Lex.toLex_lt_toLex.mp hlt with hstems | ⟨-, hnumbers⟩
  · exact absurd hstem hstems.ne
  · exact hnumbers

/-- The pattern of a stem stands for the elements of its group, and no two terms of its set could be
joined. -/
theorem exists_reading_stemGroup (hplain : ∀ head ∈ heads, Plain (head ++ suffix).toList)
    (hnodup : heads.Nodup) {first : String × Nat} {more : List (String × Nat)}
    (hgroup : first :: more ∈ stemGroups heads) :
    ∃ segments,
      SpellsPattern (stemText first.1 ((first :: more).map (·.2)) ++ suffix).toList segments ∧
      (∀ host : String, Denotes segments host.toList ↔
        ∃ numbered ∈ first :: more, host = spell numbered ++ suffix) ∧
      ∀ terms, .set terms ∈ segments →
        terms.Pairwise fun term later => term.last + 2 ≤ later.first := by
  obtain ⟨-, hstem, hsuffix⟩ := stem_of_stemGroup hplain hgroup
  have hsome : (first :: more).map (·.2) ≠ [] := List.cons_ne_nil _ _
  obtain ⟨segments, hspells, hdenotes, hterms⟩ := exists_reading_stemText hstem hsuffix hsome
  refine ⟨segments, hspells, fun host => ?_, fun terms hmem => ?_⟩
  · have hspell : ∀ numbered ∈ first :: more,
        spell numbered = first.1 ++ toString numbered.2 := by
      intro numbered hnumbered
      rw [spell, eq_of_mem_splitBy hgroup numbered hnumbered]
    rw [hdenotes host]
    constructor
    · intro h
      obtain ⟨n, hn, rfl⟩ := h
      obtain ⟨numbered, hnumbered, rfl⟩ := List.mem_map.mp hn
      exact ⟨numbered, hnumbered, by rw [hspell numbered hnumbered]⟩
    · intro h
      obtain ⟨numbered, hnumbered, rfl⟩ := h
      exact ⟨numbered.2, List.mem_map_of_mem hnumbered, by rw [hspell numbered hnumbered]⟩
  · have hruns := pairwise_runs (pairwise_stemGroup hnodup hgroup)
    rw [← hterms terms hmem] at hruns
    exact List.pairwise_map.mp hruns

end Heads

/-! Names that share a pattern -/

/-- The elements are numbers behind one stem. The stem takes up all but the digits at the end, and
the numbers are written without leading zeros. -/
def NumberedAlike (left right : String) : Prop :=
  ∃ stem : String, stem ≠ "" ∧ (∀ c ∈ stem.toList.getLast?, c.isDigit = false) ∧
    ∃ m n : Nat, m ≤ maxMergedNumber ∧ n ≤ maxMergedNumber ∧
      left = stem ++ toString m ∧ right = stem ++ toString n

/-- Elements are numbered alike iff each has a number, and their stems are the same. -/
theorem numberedAlike_iff {left right : String} :
    NumberedAlike left right ↔
      ∃ stem m n, stemNumber left = some (stem, m) ∧ stemNumber right = some (stem, n) := by
  constructor
  · rintro ⟨stem, hne, hlast, m, n, hm, hn, hleft, hright⟩
    exact ⟨stem, m, n, stemNumber_eq_some_iff.mpr ⟨hne, hlast, hm, hleft⟩,
      stemNumber_eq_some_iff.mpr ⟨hne, hlast, hn, hright⟩⟩
  · rintro ⟨stem, m, n, hleft, hright⟩
    obtain ⟨hne, hlast, hm, hleftText⟩ := stemNumber_eq_some_iff.mp hleft
    obtain ⟨-, -, hn, hrightText⟩ := stemNumber_eq_some_iff.mp hright
    exact ⟨stem, hne, hlast, m, n, hm, hn, hleftText, hrightText⟩

section Hosts
variable {hosts : List String}

/-- A first element of a group, with the tail behind it, is cut into the two again. -/
theorem ofString_of_mem_tailGroup {first : Name} {more : List Name}
    (hgroup : first :: more ∈ tailGroups hosts) {head : String}
    (h : head ∈ (first :: more).map (·.head)) :
    Name.ofString (head ++ Name.suffix first.tail) = ⟨head, first.tail⟩ := by
  obtain ⟨name, hname, rfl⟩ := List.mem_map.mp h
  have htail : name.tail = first.tail := eq_of_mem_splitBy hgroup name hname
  obtain ⟨host, -, hhost⟩ := exists_of_mem_tailGroups hgroup hname
  rw [render_of_mem_tailGroup hgroup hname, ← hhost, Name.render_ofString, hhost, ← htail]

/-- A compressed pattern has a reading. It stands for a single name, or for names of one tail whose
first elements are in one group. -/
theorem exists_reading_of_mem_compress (hplain : ∀ host ∈ hosts, Plain host.toList)
    {pattern : String} (h : pattern ∈ compress hosts) :
    ∃ segments, SpellsPattern pattern.toList segments ∧
      (∀ left right : String, left ≠ right → Denotes segments left.toList →
        Denotes segments right.toList →
          (Name.ofString left).tail = (Name.ofString right).tail ∧
            NumberedAlike (Name.ofString left).head (Name.ofString right).head) ∧
      ∀ terms, .set terms ∈ segments →
        terms.Pairwise fun term later => term.last + 2 ≤ later.first := by
  obtain ⟨first, more, hgroup, head, hhead, rfl⟩ := mem_compress.mp h
  have hheads : ∀ head ∈ (first :: more).map (·.head),
      Plain (head ++ Name.suffix first.tail).toList := fun head h =>
    hplain _ (mem_of_head_mem_tailGroup hgroup h)
  rcases mem_mergeHeads.mp hhead with ⟨hmem, -⟩ | ⟨numbered, others, hstems, rfl⟩
  · refine ⟨_, spellsPattern_plain (hheads head hmem), fun left right hne hleft hright => ?_, ?_⟩
    · rw [denotes_literals, String.toList_inj] at hleft hright
      exact absurd (hleft.trans hright.symm) hne
    · intro terms hterms
      simp at hterms
  · obtain ⟨segments, hspells, hdenotes, hterms⟩ :=
      exists_reading_stemGroup hheads (nodup_tailGroup hgroup) hstems
    refine ⟨segments, hspells, fun left right _ hleft hright => ?_, hterms⟩
    obtain ⟨a, ha, rfl⟩ := (hdenotes left).mp hleft
    obtain ⟨b, hb, rfl⟩ := (hdenotes right).mp hright
    obtain ⟨leftHead, hleftMem, hleftNumber⟩ := exists_of_mem_stemGroups hstems ha
    obtain ⟨rightHead, hrightMem, hrightNumber⟩ := exists_of_mem_stemGroups hstems hb
    have hstem : a.1 = b.1 := eq_of_mem_of_mem_splitBy hstems ha hb
    rw [spell_eq hleftNumber, spell_eq hrightNumber, ofString_of_mem_tailGroup hgroup hleftMem,
      ofString_of_mem_tailGroup hgroup hrightMem]
    refine ⟨rfl, numberedAlike_iff.mpr ⟨a.1, a.2, b.2, hleftNumber, ?_⟩⟩
    rw [hrightNumber, hstem]

/-- Names of one tail with first elements of one stem share a pattern. -/
theorem exists_pattern_of_numberedAlike (hplain : ∀ host ∈ hosts, Plain host.toList)
    {left right : String} (hleft : left ∈ hosts) (hright : right ∈ hosts)
    (htail : (Name.ofString left).tail = (Name.ofString right).tail)
    (halike : NumberedAlike (Name.ofString left).head (Name.ofString right).head) :
    ∃ pattern ∈ compress hosts, Stands pattern left ∧ Stands pattern right := by
  obtain ⟨stem, m, n, hm, hn⟩ := numberedAlike_iff.mp halike
  obtain ⟨first, more, hgroup, hfirst, hall⟩ := exists_tailGroup_of_mem hleft
  have hleftHead := hall left hleft rfl
  have hrightHead := hall right hright htail.symm
  obtain ⟨numbered, others, hstems, -, hnumbers⟩ := exists_stemGroup_of_mem hleftHead hm
  have hhead := mem_mergeHeads.mpr (.inr ⟨numbered, others, hstems, rfl⟩)
  obtain ⟨segments, hspells, hdenotes, -⟩ := exists_reading_stemGroup
    (fun head h => hplain _ (mem_of_head_mem_tailGroup hgroup h)) (nodup_tailGroup hgroup) hstems
  have hparts : ∀ host : String, (Name.ofString host).tail = first.tail →
      host = (Name.ofString host).head ++ Name.suffix first.tail := by
    intro host hhost
    rw [← hhost, ← Name.render_mk]
    exact (Name.render_ofString host).symm
  refine ⟨_, mem_compress.mpr ⟨first, more, hgroup, _, hhead, rfl⟩, ?_, ?_⟩
  · refine (stands_iff_denotes hspells).mpr ((hdenotes left).mpr ?_)
    refine ⟨(stem, m), hnumbers _ hleftHead m hm, ?_⟩
    rw [spell_eq hm]
    exact hparts left hfirst.symm
  · refine (stands_iff_denotes hspells).mpr ((hdenotes right).mpr ?_)
    refine ⟨(stem, n), hnumbers _ hrightHead n hn, ?_⟩
    rw [spell_eq hn]
    exact hparts right (htail.symm.trans hfirst.symm)

/-- Compression merges all that it may and nothing else: of the given names, two share a pattern iff
they differ in nothing but the number at the end of their first elements. Every pattern can be read,
and in each of its sets a number is missing between any two terms. -/
theorem compress_merges (hplain : ∀ host ∈ hosts, Plain host.toList) :
    (∀ left ∈ hosts, ∀ right ∈ hosts, left ≠ right →
      ((∃ pattern ∈ compress hosts, Stands pattern left ∧ Stands pattern right) ↔
        (Name.ofString left).tail = (Name.ofString right).tail ∧
          NumberedAlike (Name.ofString left).head (Name.ofString right).head)) ∧
    ∀ pattern ∈ compress hosts, (∃ segments, SpellsPattern pattern.toList segments) ∧
      ∀ segments, SpellsPattern pattern.toList segments → ∀ terms, .set terms ∈ segments →
        terms.Pairwise fun term later => term.last + 2 ≤ later.first := by
  constructor
  · intro left hleft right hright hne
    constructor
    · intro h
      obtain ⟨pattern, hpattern, hstandsLeft, hstandsRight⟩ := h
      obtain ⟨segments, hspells, halike, -⟩ := exists_reading_of_mem_compress hplain hpattern
      rw [stands_iff_denotes hspells] at hstandsLeft hstandsRight
      exact halike left right hne hstandsLeft hstandsRight
    · intro h
      exact exists_pattern_of_numberedAlike hplain hleft hright h.1 h.2
  · intro pattern hpattern
    obtain ⟨segments, hspells, -, hterms⟩ := exists_reading_of_mem_compress hplain hpattern
    refine ⟨⟨segments, hspells⟩, fun others hothers => ?_⟩
    rwa [hothers.unique hspells]

/-- Two nodes with a gap between their numbers share a pattern, and a third one, whose number has a
leading zero, is on its own. -/
theorem compress_merges_gap :
    (∀ host ∈ ["n9.lab", "n7.lab", "n08.lab"], Plain host.toList) ∧
      (∃ pattern ∈ compress ["n9.lab", "n7.lab", "n08.lab"],
        Stands pattern "n7.lab" ∧ Stands pattern "n9.lab") ∧
      ¬∃ pattern ∈ compress ["n9.lab", "n7.lab", "n08.lab"],
        Stands pattern "n7.lab" ∧ Stands pattern "n08.lab" := by
  have hplain : ∀ host ∈ ["n9.lab", "n7.lab", "n08.lab"], Plain host.toList := by simp [Plain]
  have hmerges := (compress_merges hplain).1
  refine ⟨hplain, (hmerges "n7.lab" (by simp) "n9.lab" (by simp) (by decide)).mpr ?_, ?_⟩
  · exact ⟨by decide, numberedAlike_iff.mpr ⟨"n", 7, 9, by decide, by decide⟩⟩
  · rw [hmerges "n7.lab" (by simp) "n08.lab" (by simp) (by decide), numberedAlike_iff]
    have hnone : stemNumber (Name.ofString "n08.lab").head = none := by decide
    simp [hnone]

end Hosts

end NodeQuery.Host

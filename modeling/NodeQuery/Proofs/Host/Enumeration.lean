import NodeQuery.Proofs.Host.Expansion
import NodeQuery.Proofs.Host.Matching

/-!
# Expansion lists the language

Expanding a pattern and matching with it read the same segments in two ways: one writes out every
choice of members, the other looks for a cut of a given name. Where both are possible they agree on
every name, however many cuts it has, and leading elements are such a name with a rest behind a dot.
-/
namespace NodeQuery.Host
open Text

/-- The host is one of the names with a text behind it that the segments denote. -/
def Continues (names : List String) (segments : List Segment) (host : String) : Prop :=
  ∃ name ∈ names, ∃ part, Denotes segments part ∧ host.toList = name.toList ++ part

section Steps
variable {names extended : List String} {segments : List Segment} {host : String}

theorem continues_nil : Continues names [] host ↔ host ∈ names := by
  simp only [Continues, denotes_nil_iff, exists_eq_left, List.append_nil, String.toList_inj]
  exact exists_eq_right'

/-- One step of expansion: if the names are extended by exactly the pieces of a segment, what is
left to continue is the rest of the segments. -/
theorem continues_cons {segment : Segment}
    (h : ∀ text, (∃ name ∈ extended, name.toList = text) ↔
      ∃ name ∈ names, ∃ piece, segment.Matches piece ∧ text = name.toList ++ piece) :
    Continues extended segments host ↔ Continues names (segment :: segments) host := by
  unfold Continues
  constructor
  · intro hcontinues
    obtain ⟨longer, hlonger, part, hpart, hhost⟩ := hcontinues
    obtain ⟨name, hname, piece, hpiece, htext⟩ := (h longer.toList).mp ⟨longer, hlonger, rfl⟩
    refine ⟨name, hname, piece ++ part, .cons hpiece hpart, ?_⟩
    rw [hhost, htext, List.append_assoc]
  · intro hcontinues
    obtain ⟨name, hname, text, htext, hhost⟩ := hcontinues
    obtain ⟨piece, part, hpiece, hpart, rfl⟩ := denotes_cons_iff.mp htext
    obtain ⟨longer, hlonger, hsame⟩ :=
      (h (name.toList ++ piece)).mpr ⟨name, hname, piece, hpiece, rfl⟩
    refine ⟨longer, hlonger, part, hpart, ?_⟩
    rw [hhost, hsame, List.append_assoc]

theorem continues_literal {c : Char} :
    Continues (names.map (·.push c)) segments host ↔
      Continues names (.literal c :: segments) host := by
  apply continues_cons
  intro text
  simp only [Segment.Matches, exists_eq_left, List.mem_map]
  constructor
  · intro hextended
    obtain ⟨_, ⟨name, hname, rfl⟩, rfl⟩ := hextended
    exact ⟨name, hname, String.toList_push c⟩
  · intro hpiece
    obtain ⟨name, hname, rfl⟩ := hpiece
    exact ⟨name.push c, ⟨name, hname, rfl⟩, String.toList_push c⟩

theorem continues_set {terms : List Term} :
    Continues
        (names.flatMap fun name => (Term.allMembers terms).map fun n => name ++ toString n)
        segments host ↔
      Continues names (.set terms :: segments) host := by
  apply continues_cons
  intro text
  unfold Segment.Matches
  constructor
  · intro hextended
    obtain ⟨longer, hlonger, rfl⟩ := hextended
    obtain ⟨name, hname, hmember⟩ := List.mem_flatMap.mp hlonger
    obtain ⟨n, hn, rfl⟩ := List.mem_map.mp hmember
    refine ⟨name, hname, Nat.toDigits 10 n, ⟨n, hn, rfl⟩, ?_⟩
    rw [String.toList_append, toList_toString]
  · intro hpiece
    obtain ⟨name, hname, piece, ⟨n, hn, rfl⟩, rfl⟩ := hpiece
    refine ⟨name ++ toString n, ?_, ?_⟩
    · exact List.mem_flatMap.mpr ⟨name, hname, List.mem_map_of_mem hn⟩
    · rw [String.toList_append, toList_toString]

end Steps

/-- The names that come out continue those so far by what the rest of the pattern denotes. -/
theorem mem_expandFrom {size : Nat} {text : List Char} {segments : List Segment}
    (hread : Segment.readAll size text = .ok segments) {pattern : String}
    {names found : List String} (h : expandFrom pattern names text = .ok found) {host : String} :
    host ∈ found ↔ Continues names segments host := by
  fun_induction Segment.readAll size text generalizing names segments with
  | case1 => cases hread
  | case2 => cases hread
  | case3 size text _ hnext =>
    cases hread
    rw [Segment.eq_nil_of_next hnext, expandFrom_nil] at h
    cases h
    exact continues_nil.symm
  | case4 => cases hread
  | case5 size text _ segment rest hnext more hmore ih =>
    cases hread
    cases segment with
    | literal c =>
      rw [expandFrom_literal hnext] at h
      rw [ih hmore h]
      exact continues_literal
    | star =>
      rw [expandFrom_star hnext] at h
      cases h
    | set terms =>
      by_cases hsize : names.length * (Term.allMembers terms).length ≤ maxExpansion
      · rw [expandFrom_set hnext pattern hsize] at h
        rw [ih hmore h]
        exact continues_set
      · rw [expandFrom_set_tooLarge hnext pattern (Nat.not_le.mp hsize)] at h
        cases h

theorem mem_expand {text : String} {segments : List Segment}
    (hread : Segment.readAll 1 text.toList = .ok segments) {names : List String}
    (h : expand text = .ok names) {host : String} :
    host ∈ names ↔ Denotes segments host.toList := by
  rw [mem_expandFrom hread h]
  simp [Continues]

/-- Texts of the language with nothing or a rest behind a dot, said of the listed names. -/
theorem exists_leading_iff {segments : List Segment} {names : List String}
    (hmem : ∀ host : String, host ∈ names ↔ Denotes segments host.toList) {host : String} :
    (∃ part, Denotes segments part ∧
      (host.toList = part ∨ ∃ rest, host.toList = part ++ '.' :: rest ∧ '\n' ∉ rest)) ↔
      ∃ name ∈ names, host = name ∨
        ∃ rest : String, host = name ++ "." ++ rest ∧ '\n' ∉ rest.toList := by
  constructor
  · intro hcut
    obtain ⟨part, hpart, hend⟩ := hcut
    have hname : String.ofList part ∈ names := (hmem _).mpr (by rwa [String.toList_ofList])
    refine ⟨String.ofList part, hname, ?_⟩
    rcases hend with hwhole | ⟨rest, hrest, hline⟩
    · left
      rw [← hwhole, String.ofList_toList]
    · right
      refine ⟨String.ofList rest, ?_, by rwa [String.toList_ofList]⟩
      apply String.toList_injective
      simp [hrest]
  · intro hlisted
    obtain ⟨name, hname, hend⟩ := hlisted
    refine ⟨name.toList, (hmem name).mp hname, ?_⟩
    rcases hend with rfl | ⟨rest, rfl, hline⟩
    · exact .inl rfl
    · exact .inr ⟨rest.toList, by simp, hline⟩

namespace Pattern

/-- What a pattern expands to is what it accepts: as a whole name, or as leading elements with
nothing or a dot and no line feed behind them. -/
theorem accepts_iff_mem_expand {text : String} {names : List String} {p : Pattern}
    (hexpand : expand text = .ok names) (hwhole : compile text .whole = .ok p) :
    (∀ host, p.accepts host = true ↔ host ∈ names) ∧
      ∃ q, compile text .leading = .ok q ∧ ∀ host, q.accepts host = true ↔
        ∃ name ∈ names, host = name ∨
          ∃ rest : String, host = name ++ "." ++ rest ∧ '\n' ∉ rest.toList := by
  obtain ⟨htext, hanchor⟩ := compile_eq_ok hwhole
  have hread : Segment.readAll 1 text.toList = .ok p.segments := htext ▸ p.segments_eq
  have hmem : ∀ host, host ∈ names ↔ Denotes p.segments host.toList := fun host =>
    mem_expand hread hexpand
  refine ⟨?_, ⟨text, .leading, p.segments, hread⟩, compile_of_readAll .leading hread, ?_⟩
  · intro host
    rw [accepts_whole hanchor, hmem]
  · intro host
    rw [accepts_leading rfl]
    exact exists_leading_iff hmem

/-- Two sets side by side whose members are prefixes of each other: one name is listed twice. -/
theorem accepts_iff_mem_expand_two_sets :
    ∃ p, compile "[1,11][1,11]" .whole = .ok p ∧
      expand "[1,11][1,11]" = .ok ["11", "111", "111", "1111"] ∧
      (p.accepts "111" = true ↔ "111" ∈ ["11", "111", "111", "1111"]) := by
  have hset : ∀ rest, Segment.next ('[' :: ("1,11]".toList ++ rest)) =
      .ok (some (.set [.single 1, .single 11], rest)) := fun rest =>
    Segment.next_set (Segment.readTerms_more rfl (Segment.readTerms_last rfl))
  have hread : Segment.readAll 1 "[1,11][1,11]".toList =
      .ok [.set [.single 1, .single 11], .set [.single 1, .single 11]] :=
    Segment.readAll_cons (hset "[1,11]".toList) (by decide) <|
      Segment.readAll_cons (hset []) (by decide) (Segment.readAll_nil (by decide))
  have hexpand : expand "[1,11][1,11]" = .ok ["11", "111", "111", "1111"] := by
    unfold expand
    refine (expandFrom_set (hset "[1,11]".toList) _ (by decide)).trans ?_
    refine (expandFrom_set (hset []) _ (by decide)).trans ?_
    exact expandFrom_nil _ _
  have hwhole := compile_of_readAll .whole hread
  obtain ⟨haccepts, -⟩ := accepts_iff_mem_expand hexpand hwhole
  exact ⟨_, hwhole, hexpand, haccepts "111"⟩

end Pattern

end NodeQuery.Host

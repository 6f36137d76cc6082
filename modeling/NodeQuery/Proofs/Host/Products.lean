import Mathlib.Algebra.BigOperators.Group.List.Basic
import Mathlib.Data.List.Forall2
import Mathlib.Data.List.Sort
import Mathlib.Logic.Relation
import NodeQuery.Proofs.Host.Expansion

/-!
# Expansion lists a product

A pattern of literals and sets has one name for every choice of positions, one in each set. Expansion
reads the segments one by one and multiplies its names by every set that it meets; what it lists in
the end are the names of all choices in lexicographic order. It comes to that end iff the product of
the sizes is within the limit: no set is empty, so a product that goes above the limit on the way
never comes back, and one that is within it has been so all the way.
-/
namespace NodeQuery.Host

/-- The segments of a text up to its end, read without any limit but those of the reader. -/
def Segment.scan (text : List Char) : Except PatternError (List Segment) :=
  match _h : next text with
  | .error e => .error e
  | .ok none => .ok []
  | .ok (some (segment, rest)) =>
    match scan rest with
    | .error e => .error e
    | .ok segments => .ok (segment :: segments)
termination_by text.length
decreasing_by exact length_of_next _h

/-- The numbers of members of the sets; a member counts as often as it is listed. -/
def setSizes : List Segment → List Nat
  | [] => []
  | .literal _ :: more | .star :: more => setSizes more
  | .set terms :: more => (Term.allMembers terms).length :: setSizes more

/-- The name with the member at a position of each set. -/
def nameAt : List Segment → List Nat → String
  | .literal c :: more, positions => String.singleton c ++ nameAt more positions
  | .set terms :: more, position :: positions =>
    toString ((Term.allMembers terms).getD position 0) ++ nameAt more positions
  | _, _ => ""

/-- The names are those at all choices of a position in each set, in lexicographic order. -/
def Enumerates (segments : List Segment) (names : List String) : Prop :=
  ∃ listed : List (List Nat), listed.Pairwise (· < ·) ∧
    (∀ positions, positions ∈ listed ↔ List.Forall₂ (· < ·) positions (setSizes segments)) ∧
    names = listed.map (nameAt segments)

/-! All choices -/

/-- The choices of a position below each size, the last one varying fastest. -/
def choices : List Nat → List (List Nat)
  | [] => [[]]
  | size :: sizes => (List.range size).flatMap fun position => (choices sizes).map (position :: ·)

theorem mem_choices {sizes positions : List Nat} :
    positions ∈ choices sizes ↔ List.Forall₂ (· < ·) positions sizes := by
  induction sizes generalizing positions with
  | nil => simp [choices]
  | cons size sizes ih =>
    simp only [choices, List.mem_flatMap, List.mem_range, List.mem_map, ih,
      List.forall₂_cons_right_iff]
    constructor
    · rintro ⟨position, hposition, more, hmore, rfl⟩
      exact ⟨position, more, hposition, hmore, rfl⟩
    · rintro ⟨position, more, hposition, hmore, rfl⟩
      exact ⟨position, hposition, more, hmore, rfl⟩

theorem pairwise_choices (sizes : List Nat) : (choices sizes).Pairwise (· < ·) := by
  induction sizes with
  | nil => simp [choices]
  | cons size sizes ih =>
    refine List.pairwise_flatMap.mpr ⟨fun position _ => ?_, ?_⟩
    · refine List.pairwise_map.mpr (ih.imp fun h => ?_)
      exact List.cons_lt_cons_iff.mpr (.inr ⟨rfl, h⟩)
    · refine List.pairwise_lt_range.imp fun {i j} hlt left hleft right hright => ?_
      obtain ⟨-, -, rfl⟩ := List.mem_map.mp hleft
      obtain ⟨-, -, rfl⟩ := List.mem_map.mp hright
      exact List.cons_lt_cons_iff.mpr (.inl hlt)

theorem length_choices (sizes : List Nat) : (choices sizes).length = sizes.prod := by
  induction sizes with
  | nil => rfl
  | cons size sizes ih =>
    simp [choices, ih, List.length_flatMap]

/-- Order and members leave but one list of choices. -/
theorem enumerates_iff {segments : List Segment} {names : List String} :
    Enumerates segments names ↔ names = (choices (setSizes segments)).map (nameAt segments) := by
  constructor
  · rintro ⟨listed, hsorted, hmem, rfl⟩
    have hlisted : listed = choices (setSizes segments) :=
      hsorted.eq_of_mem_iff (pairwise_choices _) fun positions => by rw [hmem, mem_choices]
    rw [hlisted]
  · intro h
    exact ⟨_, pairwise_choices _, fun positions => mem_choices, h⟩

/-! The product of the segments -/

/-- What a segment can stand for, a star aside. -/
def Segment.pieces : Segment → List String
  | .literal c => [String.singleton c]
  | .star => []
  | .set terms => (Term.allMembers terms).map toString

/-- The names of a row of segments, as a nested product. -/
def product : List Segment → List String
  | [] => [""]
  | segment :: more => segment.pieces.flatMap fun piece => (product more).map (piece ++ ·)

theorem prod_setSizes_cons {segment : Segment} (h : segment ≠ .star) (more : List Segment) :
    (setSizes (segment :: more)).prod = segment.pieces.length * (setSizes more).prod := by
  cases segment with
  | literal c => simp [setSizes, Segment.pieces]
  | star => exact absurd rfl h
  | set terms => simp [setSizes, Segment.pieces]

theorem product_eq {segments : List Segment} (h : .star ∉ segments) :
    product segments = (choices (setSizes segments)).map (nameAt segments) := by
  induction segments with
  | nil => rfl
  | cons segment more ih =>
    rw [List.mem_cons, not_or] at h
    have hmore := ih h.2
    cases segment with
    | literal c => simp [product, Segment.pieces, setSizes, nameAt, hmore, Function.comp_def]
    | star => exact absurd rfl h.1
    | set terms =>
      have hmembers : Term.allMembers terms = (List.range (Term.allMembers terms).length).map
          fun position => (Term.allMembers terms).getD position 0 := by
        refine List.ext_getElem (by simp) fun i hi hi' => ?_
        simp [List.getD, hi]
      conv_lhs => rw [product, Segment.pieces, hmembers]
      simp [setSizes, choices, hmore, nameAt, List.flatMap_map, List.map_flatMap,
        Function.comp_def]

theorem length_product {segments : List Segment} (h : .star ∉ segments) :
    (product segments).length = (setSizes segments).prod := by
  rw [product_eq h, List.length_map, length_choices]

/-! Reading segments -/

namespace Segment
variable {text rest : List Char} {segment : Segment} {segments : List Segment}

theorem scan_nil : scan [] = .ok [] := by
  rw [scan]
  split <;> simp_all [next]

theorem scan_cons (h : next text = .ok (some (segment, rest))) (hrest : scan rest = .ok segments) :
    scan text = .ok (segment :: segments) := by
  rw [scan]
  split <;> simp_all

theorem ne_nil_of_readTerms {count : Nat} {terms : List Term}
    (h : readTerms count text = .ok (terms, rest)) : terms ≠ [] := by
  unfold readTerms at h
  split at h
  · cases h
  · cases h
    simp
  · split at h
    · cases h
    · cases h
      simp
  · cases h

/-- No set is empty. -/
theorem length_allMembers_pos_of_next {terms : List Term}
    (h : next text = .ok (some (.set terms, rest))) : 0 < (Term.allMembers terms).length := by
  obtain ⟨tail, -, hterms⟩ := readTerms_of_next h
  obtain ⟨term, more, rfl⟩ := List.exists_cons_of_ne_nil (ne_nil_of_readTerms hterms)
  rw [length_allMembers_cons, Term.size]
  omega

theorem prod_setSizes_pos (h : scan text = .ok segments) : 0 < (setSizes segments).prod := by
  fun_induction scan text generalizing segments with
  | case1 => cases h
  | case2 =>
    cases h
    simp [setSizes]
  | case3 => cases h
  | case4 text segment rest hnext more hmore ih =>
    cases h
    have hrest := ih hmore
    cases segment with
    | literal c => exact hrest
    | star => exact hrest
    | set terms => exact Nat.mul_pos (length_allMembers_pos_of_next hnext) hrest

end Segment

/-! The loop -/

/-- Every name with every piece of the segment behind it. -/
def extend (names : List String) (segment : Segment) : List String :=
  names.flatMap fun name => segment.pieces.map (name ++ ·)

theorem length_extend (names : List String) (segment : Segment) :
    (extend names segment).length = names.length * segment.pieces.length := by
  simp [extend, List.length_flatMap]

theorem extend_literal (names : List String) (c : Char) :
    extend names (.literal c) = names.map (·.push c) := by
  simp [extend, Segment.pieces, List.map_eq_flatMap, ← String.append_singleton]

theorem extend_set (names : List String) (terms : List Term) : extend names (.set terms) =
    names.flatMap fun name => (Term.allMembers terms).map fun n => name ++ toString n := by
  simp [extend, Segment.pieces, Function.comp_def]

/-- Names by a product are extended by its first segment and then by the others. -/
theorem flatMap_product_cons (names : List String) (segment : Segment) (more : List Segment) :
    (names.flatMap fun name => (product (segment :: more)).map (name ++ ·)) =
      (extend names segment).flatMap fun name => (product more).map (name ++ ·) := by
  simp [product, extend, List.flatMap_assoc, List.map_flatMap, List.flatMap_map,
    Function.comp_def, String.append_assoc]

section Loop
variable {pattern : String} {names found : List String} {text rest : List Char}
  {segment : Segment}

/-- One round of the loop: a star ends it, and so do names above the limit. -/
theorem expandFrom_eq_ok_iff_step (hnext : Segment.next text = .ok (some (segment, rest)))
    (hlength : names.length ≤ maxExpansion) :
    expandFrom pattern names text = .ok found ↔
      segment ≠ .star ∧ names.length * segment.pieces.length ≤ maxExpansion ∧
        expandFrom pattern (extend names segment) rest = .ok found := by
  cases segment with
  | literal c =>
    rw [expandFrom_literal hnext, extend_literal]
    simp [Segment.pieces, hlength]
  | star => simp [expandFrom_star hnext]
  | set terms =>
    rw [extend_set, Segment.pieces, List.length_map]
    by_cases hsize : names.length * (Term.allMembers terms).length ≤ maxExpansion
    · simp [expandFrom_set hnext pattern hsize, hsize]
    · simp [expandFrom_set_tooLarge hnext pattern (Nat.not_le.mp hsize), hsize]

/-- Expansion extends every name by the product of the rest, if that keeps them within the limit. -/
theorem expandFrom_eq_ok_iff (hlength : names.length ≤ maxExpansion) :
    expandFrom pattern names text = .ok found ↔
      ∃ segments, Segment.scan text = .ok segments ∧ .star ∉ segments ∧
        names.length * (setSizes segments).prod ≤ maxExpansion ∧
        found = names.flatMap fun name => (product segments).map (name ++ ·) := by
  fun_induction Segment.scan text generalizing names with
  | case1 text e hnext => simp [expandFrom_error hnext]
  | case2 text hnext =>
    rw [Segment.eq_nil_of_next hnext, expandFrom_nil]
    simp [setSizes, product, hlength, eq_comm]
  | case3 text segment rest hnext e hrest ih =>
    rw [expandFrom_eq_ok_iff_step hnext hlength]
    constructor
    · rintro ⟨-, hsize, hfound⟩
      rw [← length_extend] at hsize
      obtain ⟨segments, hsegments, -⟩ := (ih hsize).mp hfound
      exact absurd (hrest.symm.trans hsegments) (by simp)
    · rintro ⟨segments, hsegments, -⟩
      cases hsegments
  | case4 text segment rest hnext more hmore ih =>
    rw [expandFrom_eq_ok_iff_step hnext hlength]
    constructor
    · rintro ⟨hstar, hsize, hfound⟩
      rw [← length_extend] at hsize
      obtain ⟨segments, hsegments, hno, hprod, rfl⟩ := (ih hsize).mp hfound
      cases hmore.symm.trans hsegments
      refine ⟨_, rfl, by simp [hno, hstar.symm], ?_, (flatMap_product_cons _ _ _).symm⟩
      rwa [prod_setSizes_cons hstar, ← Nat.mul_assoc, ← length_extend]
    · rintro ⟨segments, hsegments, hno, hprod, rfl⟩
      cases hsegments
      rw [List.mem_cons, not_or] at hno
      have hstar : segment ≠ .star := fun h => hno.1 h.symm
      rw [prod_setSizes_cons hstar, ← Nat.mul_assoc, ← length_extend] at hprod
      -- The sizes behind are positive, so the product so far is not above the limit either.
      have hsize : (extend names segment).length ≤ maxExpansion :=
        Nat.le_trans (Nat.le_mul_of_pos_right _ (Segment.prod_setSizes_pos hmore)) hprod
      refine ⟨hstar, length_extend names segment ▸ hsize, (ih hsize).mpr ?_⟩
      exact ⟨more, hmore, hno.2, hprod, flatMap_product_cons _ _ _⟩

end Loop

/-! The states of the loop -/

/-- One round of the loop, on the names so far and the text behind them: an error, the end, or the
state behind the next segment. -/
def expansionStep (pattern : String) (state : List String × List Char) :
    Except PatternError (Option (List String × List Char)) :=
  match Segment.next state.2 with
  | .error e => .error e
  | .ok none => .ok none
  | .ok (some (.star, _)) => .error (.wildcardNotAllowed pattern)
  | .ok (some (.literal c, rest)) => .ok (some (state.1.map (·.push c), rest))
  | .ok (some (.set terms, rest)) =>
    if maxExpansion < state.1.length * (Term.allMembers terms).length then
      .error (.expansionTooLarge pattern)
    else .ok (some (extend state.1 (.set terms), rest))

/-- The states that the loop comes to from a state. -/
def ExpansionReaches (pattern : String) :
    List String × List Char → List String × List Char → Prop :=
  Relation.ReflTransGen fun state later => expansionStep pattern state = .ok (some later)

section States
variable {pattern : String} {state later : List String × List Char}

/-- Expansion takes one step after the other. -/
theorem expandFrom_eq_step (pattern : String) (state : List String × List Char) :
    expandFrom pattern state.1 state.2 =
      match expansionStep pattern state with
      | .error e => .error e
      | .ok none => .ok state.1
      | .ok (some later) => expandFrom pattern later.1 later.2 := by
  unfold expansionStep
  cases hnext : Segment.next state.2 with
  | error e => exact expandFrom_error hnext _ _
  | ok found =>
    obtain _ | ⟨segment, rest⟩ := found
    · rw [Segment.eq_nil_of_next hnext, expandFrom_nil]
    · cases segment with
      | star => exact expandFrom_star hnext _ _
      | literal c => exact expandFrom_literal hnext _ _
      | set terms =>
        by_cases hsize : maxExpansion < state.1.length * (Term.allMembers terms).length
        · rw [expandFrom_set_tooLarge hnext pattern hsize]
          simp [hsize]
        · rw [expandFrom_set hnext pattern (Nat.not_lt.mp hsize), ← extend_set]
          simp [hsize]

/-- A literal keeps the number of names, and a set multiplies it only up to the limit. -/
theorem length_le_of_step (h : expansionStep pattern state = .ok (some later))
    (hlength : state.1.length ≤ maxExpansion) : later.1.length ≤ maxExpansion := by
  unfold expansionStep at h
  split at h
  · cases h
  · cases h
  · cases h
  next =>
    cases h
    rwa [List.length_map]
  next terms rest _ =>
    split at h
    · cases h
    next hsize =>
      cases h
      rw [length_extend, Segment.pieces, List.length_map]
      exact Nat.not_lt.mp hsize

/-- The whole run stays within the limit, and every state of it leads to the same outcome. -/
theorem ExpansionReaches.invariant (h : ExpansionReaches pattern state later)
    (hlength : state.1.length ≤ maxExpansion) :
    later.1.length ≤ maxExpansion ∧
      expandFrom pattern later.1 later.2 = expandFrom pattern state.1 state.2 := by
  induction h with
  | refl => exact ⟨hlength, rfl⟩
  | @tail before later _ hstep ih =>
    obtain ⟨hbefore, houtcome⟩ := ih
    refine ⟨length_le_of_step hstep hbefore, ?_⟩
    rw [← houtcome, expandFrom_eq_step pattern before, hstep]

end States

/-- A pattern expands iff it can be read to its end, has no star and asks for no more names than the
limit. It expands to one name for every choice of positions, in lexicographic order, and at no time
on the way are there more names than the limit. -/
theorem expand_enumerates (pattern : String) :
    ((∃ names, expand pattern = .ok names) ↔
      ∃ segments, Segment.scan pattern.toList = .ok segments ∧ .star ∉ segments ∧
        (setSizes segments).prod ≤ maxExpansion) ∧
    (∀ names segments, expand pattern = .ok names → Segment.scan pattern.toList = .ok segments →
      Enumerates segments names ∧ names.length = (setSizes segments).prod) ∧
    ∀ later, ExpansionReaches pattern ([""], pattern.toList) later →
      later.1.length ≤ maxExpansion ∧ expandFrom pattern later.1 later.2 = expand pattern := by
  have hone : [""].length ≤ maxExpansion := by decide
  have hexpand : ∀ names, expand pattern = .ok names ↔
      ∃ segments, Segment.scan pattern.toList = .ok segments ∧ .star ∉ segments ∧
        (setSizes segments).prod ≤ maxExpansion ∧ names = product segments := by
    intro names
    rw [expand, expandFrom_eq_ok_iff hone]
    simp
  refine ⟨?_, ?_, fun later hreach => hreach.invariant hone⟩
  · constructor
    · rintro ⟨names, hnames⟩
      obtain ⟨segments, hscan, hno, hprod, -⟩ := (hexpand names).mp hnames
      exact ⟨segments, hscan, hno, hprod⟩
    · rintro ⟨segments, hscan, hno, hprod⟩
      exact ⟨product segments, (hexpand _).mpr ⟨segments, hscan, hno, hprod, rfl⟩⟩
  · intro names segments hnames hscan
    obtain ⟨found, hfound, hno, -, rfl⟩ := (hexpand names).mp hnames
    cases hscan.symm.trans hfound
    exact ⟨enumerates_iff.mpr (product_eq hno), length_product hno⟩

/-- A set that lists a number twice, in front of another one. -/
theorem expand_enumerates_repeated :
    expand "n[2,2][0-1]" = .ok ["n20", "n21", "n20", "n21"] ∧
      Enumerates [.literal 'n', .set [.single 2, .single 2], .set [⟨0, 1, by decide⟩]]
        ["n20", "n21", "n20", "n21"] ∧
      ExpansionReaches "n[2,2][0-1]" ([""], "n[2,2][0-1]".toList) (["n2", "n2"], "[0-1]".toList) ∧
      expandFrom "n[2,2][0-1]" ["n2", "n2"] "[0-1]".toList =
        .ok ["n20", "n21", "n20", "n21"] := by
  have hliteral : Segment.next "n[2,2][0-1]".toList =
      .ok (some (.literal 'n', "[2,2][0-1]".toList)) := rfl
  have hpair : Segment.next "[2,2][0-1]".toList =
      .ok (some (.set [.single 2, .single 2], "[0-1]".toList)) :=
    Segment.next_set (Segment.readTerms_more rfl (Segment.readTerms_last rfl))
  have hrange : Segment.next "[0-1]".toList = .ok (some (.set [⟨0, 1, by decide⟩], [])) :=
    Segment.next_set (Segment.readTerms_last rfl)
  have hscan := Segment.scan_cons hliteral <| Segment.scan_cons hpair <|
    Segment.scan_cons hrange Segment.scan_nil
  have hreach : ExpansionReaches "n[2,2][0-1]" ([""], "n[2,2][0-1]".toList)
      (["n2", "n2"], "[0-1]".toList) := by
    refine .tail (.single (b := (["n"], "[2,2][0-1]".toList)) ?_) ?_
    · simp only [expansionStep, hliteral]
      rfl
    · simp only [expansionStep, hpair]
      rfl
  have hexpand : expand "n[2,2][0-1]" = .ok ["n20", "n21", "n20", "n21"] := by
    refine (expandFrom_literal hliteral _ _).trans ?_
    refine (expandFrom_set hpair _ (by decide)).trans ?_
    exact (expandFrom_set hrange _ (by decide)).trans (expandFrom_nil _ _)
  obtain ⟨-, hnames, hstates⟩ := expand_enumerates "n[2,2][0-1]"
  obtain ⟨-, houtcome⟩ := hstates _ hreach
  exact ⟨hexpand, (hnames _ _ hexpand hscan).1, hreach, houtcome.trans hexpand⟩

end NodeQuery.Host

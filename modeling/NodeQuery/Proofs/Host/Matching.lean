import NodeQuery.Proofs.Host.Grammar

/-!
# The language of a host pattern

A pattern denotes the names that can be cut into pieces, one for each of its segments. Matching
keeps the positions behind all ways to cut a prefix of the name; it accepts a whole name iff one of
the cuts uses it up. Stars and sets may be cut in many ways, and none is preferred.
-/
namespace NodeQuery.Host
open Text

/-- The pieces that a segment stands for: the character itself, any run without a dot, and the
decimal text of a member. -/
def Segment.Matches : Segment → List Char → Prop
  | .literal c, piece => piece = [c]
  | .star, piece => '.' ∉ piece
  | .set terms, piece => ∃ n ∈ Term.allMembers terms, piece = Nat.toDigits 10 n

/-- The text is cut into one piece for each segment, in their order. -/
inductive Denotes : List Segment → List Char → Prop
  | nil : Denotes [] []
  | cons {segment : Segment} {segments : List Segment} {piece rest : List Char}
      (h : segment.Matches piece) (hrest : Denotes segments rest) :
      Denotes (segment :: segments) (piece ++ rest)

theorem denotes_nil_iff {text : List Char} : Denotes [] text ↔ text = [] := by
  constructor
  · intro h
    cases h
    rfl
  · rintro rfl
    exact .nil

theorem denotes_cons_iff {segment : Segment} {segments : List Segment} {text : List Char} :
    Denotes (segment :: segments) text ↔
      ∃ piece rest, segment.Matches piece ∧ Denotes segments rest ∧ text = piece ++ rest := by
  constructor
  · intro h
    cases h with
    | cons hpiece hrest => exact ⟨_, _, hpiece, hrest, rfl⟩
  · rintro ⟨piece, rest, hpiece, hrest, rfl⟩
    exact .cons hpiece hrest

namespace Segment

/-- From `position`, where `text` is left, a piece of the segment leads to `stop`. -/
def LeadsTo (segment : Segment) (text : List Char) (position stop : Nat) : Prop :=
  ∃ piece, segment.Matches piece ∧ piece <+: text ∧ stop = position + piece.length

theorem leadsTo_literal_iff {c : Char} {text : List Char} {position stop : Nat} :
    LeadsTo (.literal c) (text.drop position) position stop ↔
      text[position]? = some c ∧ stop = position + 1 := by
  rw [← List.head?_drop]
  constructor
  · rintro ⟨piece, rfl, ⟨rest, hrest⟩, rfl⟩
    rw [← hrest]
    exact ⟨rfl, rfl⟩
  · rintro ⟨hhead, rfl⟩
    obtain ⟨rest, hrest⟩ := List.head?_eq_some_iff.mp hhead
    exact ⟨[c], rfl, ⟨rest, hrest.symm⟩, rfl⟩

/-! Stars -/

theorem leadsTo_star_nil {position stop : Nat} :
    LeadsTo .star [] position stop ↔ stop = position := by
  constructor
  · rintro ⟨piece, -, hpiece, rfl⟩
    rw [List.prefix_nil.mp hpiece]
    rfl
  · rintro rfl
    exact ⟨[], by simp [Matches], List.nil_prefix, rfl⟩

theorem leadsTo_star_cons {c : Char} {rest : List Char} {position stop : Nat} :
    LeadsTo .star (c :: rest) position stop ↔
      stop = position ∨ (c ≠ '.' ∧ LeadsTo .star rest (position + 1) stop) := by
  constructor
  · rintro ⟨piece, hpiece, hprefix, rfl⟩
    cases piece with
    | nil => exact .inl rfl
    | cons d piece =>
      obtain ⟨rfl, hrest⟩ := List.cons_prefix_cons.mp hprefix
      simp only [Matches, List.mem_cons, not_or] at hpiece
      refine .inr ⟨Ne.symm hpiece.1, piece, hpiece.2, hrest, ?_⟩
      rw [List.length_cons]
      omega
  · rintro (rfl | ⟨hc, piece, hpiece, hprefix, rfl⟩)
    · exact ⟨[], by simp [Matches], List.nil_prefix, rfl⟩
    · refine ⟨c :: piece, ?_, List.cons_prefix_cons.mpr ⟨rfl, hprefix⟩, ?_⟩
      · simp only [Matches, List.mem_cons, not_or] at hpiece ⊢
        exact ⟨Ne.symm hc, hpiece⟩
      · rw [List.length_cons]
        omega

/-- A flag on the text is one on its first character or one behind it. -/
theorem exists_flag_cons {starts : Array Bool} {c : Char} {rest : List Char} {position stop : Nat} :
    (∃ k ≤ (c :: rest).length, starts[position + k]? = some true ∧
      LeadsTo .star ((c :: rest).drop k) (position + k) stop) ↔
      (starts[position]? = some true ∧ LeadsTo .star (c :: rest) position stop) ∨
      ∃ k ≤ rest.length, starts[position + 1 + k]? = some true ∧
        LeadsTo .star (rest.drop k) (position + 1 + k) stop := by
  constructor
  · rintro ⟨k, hk, hflag, hlead⟩
    cases k with
    | zero => exact .inl ⟨hflag, hlead⟩
    | succ k =>
      have hshift : position + (k + 1) = position + 1 + k := by omega
      rw [hshift] at hflag hlead
      exact .inr ⟨k, Nat.le_of_succ_le_succ hk, hflag, hlead⟩
  · rintro (⟨hflag, hlead⟩ | ⟨k, hk, hflag, hlead⟩)
    · exact ⟨0, Nat.zero_le _, hflag, hlead⟩
    · have hshift : position + 1 + k = position + (k + 1) := by omega
      rw [hshift] at hflag hlead
      exact ⟨k + 1, Nat.succ_le_succ hk, hflag, hlead⟩

/-- A spread goes on from the run that comes in from the left and from every flagged position. -/
theorem mem_spread {starts : Array Bool} {position stop : Nat} {reached : Bool}
    {text : List Char} : stop ∈ spread starts position reached text ↔
      (reached = true ∧ LeadsTo .star text position stop) ∨
      ∃ k ≤ text.length, starts[position + k]? = some true ∧
        LeadsTo .star (text.drop k) (position + k) stop := by
  induction text generalizing position reached with
  | nil =>
    simp only [spread, List.length_nil, Nat.le_zero, exists_eq_left, Nat.add_zero, List.drop_nil,
      leadsTo_star_nil]
    rw [← or_and_right]
    by_cases h : reached = true ∨ starts[position]? = some true <;> simp [h]
  | cons c rest ih =>
    rw [exists_flag_cons, ← or_assoc, ← or_and_right, leadsTo_star_cons]
    by_cases h : reached = true ∨ starts[position]? = some true
    · have hhere : (reached || starts[position]? == some true) = true := by simpa using h
      simp only [spread, hhere, if_true, List.mem_cons, ih, Bool.true_and, bne_iff_ne, h,
        true_and, or_assoc]
    · have hhere : (reached || starts[position]? == some true) = false := by simpa using h
      simp [spread, hhere, ih, h]

theorem mem_advance_star {host : Array Char} {starts : List Nat} {stop : Nat}
    (hstarts : ∀ p ∈ starts, p ≤ host.size) : stop ∈ advance host starts .star ↔
      ∃ p ∈ starts, LeadsTo .star (host.toList.drop p) p stop := by
  rw [advance, mem_spread]
  simp only [getElem?_marks, Nat.zero_add, Array.length_toList]
  constructor
  · rintro (⟨hfalse, -⟩ | ⟨p, hp, hflag, hlead⟩)
    · cases hfalse
    · rw [if_pos (by omega), Option.some.injEq, List.contains_iff_mem] at hflag
      exact ⟨p, hflag, hlead⟩
  · rintro ⟨p, hp, hlead⟩
    have hle := hstarts p hp
    refine .inr ⟨p, hle, ?_, hlead⟩
    rw [if_pos (by omega), Option.some.injEq, List.contains_iff_mem]
    exact hp

theorem mem_advance_literal {host : Array Char} {starts : List Nat} {c : Char} {stop : Nat} :
    stop ∈ advance host starts (.literal c) ↔
      ∃ p ∈ starts, LeadsTo (.literal c) (host.toList.drop p) p stop := by
  simp only [advance, List.mem_map, List.mem_filter, leadsTo_literal_iff, Array.getElem?_toList,
    beq_iff_eq, and_assoc]
  exact exists_congr fun p => and_congr_right fun _ => and_congr_right fun _ => eq_comm

/-! Sets -/

theorem contains_allMembers {terms : List Term} {n : Nat} :
    terms.any (·.contains n) = true ↔ n ∈ Term.allMembers terms := by
  simp only [Term.allMembers, List.any_eq_true, List.mem_flatMap, Term.mem_members]

/-- A nonempty run of digits in front of `text`, no longer than `left`, that goes on from `value` to
a member. -/
def DigitsLeadTo (terms : List Term) (text : List Char) (position value left stop : Nat) : Prop :=
  ∃ digits, digits ≠ [] ∧ digits.length ≤ left ∧ (∀ c ∈ digits, c.isDigit = true) ∧
    digits <+: text ∧ stop = position + digits.length ∧
    Nat.ofDigitChars 10 digits value ∈ Term.allMembers terms

theorem digitsLeadTo_cons {terms : List Term} {c : Char} {rest : List Char}
    {position value left stop : Nat} :
    DigitsLeadTo terms (c :: rest) position value (left + 1) stop ↔
      c.isDigit = true ∧
        ((value * 10 + (c.toNat - 48) ∈ Term.allMembers terms ∧ stop = position + 1) ∨
          DigitsLeadTo terms rest (position + 1) (value * 10 + (c.toNat - 48)) left stop) := by
  have hzero : '0'.toNat = 48 := rfl
  constructor
  · rintro ⟨digits, hne, hlength, hdigits, hprefix, rfl, hmem⟩
    obtain ⟨d, more, rfl⟩ := List.exists_cons_of_ne_nil hne
    obtain ⟨rfl, hrest⟩ := List.cons_prefix_cons.mp hprefix
    refine ⟨hdigits d List.mem_cons_self, ?_⟩
    rw [Nat.ofDigitChars_cons, hzero, Nat.mul_comm] at hmem
    cases more with
    | nil =>
      rw [Nat.ofDigitChars_nil] at hmem
      exact .inl ⟨hmem, rfl⟩
    | cons e more =>
      refine .inr ⟨e :: more, List.cons_ne_nil _ _, Nat.le_of_succ_le_succ hlength, ?_, hrest, ?_,
        hmem⟩
      · exact fun x hx => hdigits x (List.mem_cons_of_mem d hx)
      · simp only [List.length_cons]
        omega
  · rintro ⟨hc, ⟨hmem, rfl⟩ | ⟨digits, hne, hlength, hdigits, hprefix, rfl, hmem⟩⟩
    · refine ⟨[c], List.cons_ne_nil _ _, by simp, by simpa using hc, by simp, rfl, ?_⟩
      rwa [Nat.ofDigitChars_cons, Nat.ofDigitChars_nil, hzero, Nat.mul_comm]
    · refine ⟨c :: digits, List.cons_ne_nil _ _, Nat.succ_le_succ hlength, ?_,
        List.cons_prefix_cons.mpr ⟨rfl, hprefix⟩, ?_, ?_⟩
      · intro x hx
        rcases List.mem_cons.mp hx with rfl | hx
        · exact hc
        · exact hdigits x hx
      · simp only [List.length_cons]
        omega
      · rwa [Nat.ofDigitChars_cons, hzero, Nat.mul_comm]

theorem drop_of_getElem?_eq_some {host : Array Char} {position : Nat} {c : Char}
    (h : host[position]? = some c) :
    host.toList.drop position = c :: host.toList.drop (position + 1) := by
  obtain ⟨hlt, hget⟩ := Array.getElem?_eq_some_iff.mp h
  rw [List.drop_eq_getElem_cons (by simpa using hlt), Array.getElem_toList, hget]

theorem drop_of_getElem?_eq_none {host : Array Char} {position : Nat}
    (h : host[position]? = none) : host.toList.drop position = [] :=
  List.drop_eq_nil_of_le (by simpa using h)

theorem not_digitsLeadTo_nil {terms : List Term} {position value left stop : Nat} :
    ¬ DigitsLeadTo terms [] position value left stop := by
  rintro ⟨digits, hne, -, -, hprefix, -⟩
  exact hne (List.prefix_nil.mp hprefix)

/-- Behind digits that spell a positive value, every further run of digits is tried. -/
theorem mem_numberEnds_of_pos {terms : List Term} {host : Array Char} {left : Nat}
    {position value stop : Nat} (hvalue : 0 < value) :
    stop ∈ numberEnds terms host position value left ↔
      DigitsLeadTo terms (host.toList.drop position) position value left stop := by
  induction left generalizing position value with
  | zero =>
    simp only [numberEnds, List.not_mem_nil, false_iff]
    rintro ⟨digits, hne, hlength, -⟩
    exact hne (List.eq_nil_of_length_eq_zero (Nat.le_zero.mp hlength))
  | succ left ih =>
    rw [numberEnds]
    cases hget : host[position]? with
    | none =>
      rw [drop_of_getElem?_eq_none hget]
      simp [not_digitsLeadTo_nil]
    | some c =>
      rw [drop_of_getElem?_eq_some hget, digitsLeadTo_cons]
      by_cases hc : c.isDigit = true
      · have hnext : value * 10 + (c.toNat - 48) ≠ 0 := by omega
        have hbehind : stop ∈ numberEnds terms host (position + 1) _ left ↔ _ :=
          ih (Nat.pos_of_ne_zero hnext)
        simp only [hc, if_true, true_and, hnext, if_false, contains_allMembers]
        split
        next hmem => simp [hmem, hbehind]
        next hmem => simp [hmem, hbehind]
      · simp [hc]

theorem digits_of_leadsTo_set {terms : List Term} {c : Char} {rest : List Char}
    {position left stop : Nat} (hbound : ∀ n ∈ Term.allMembers terms, n < 10 ^ (left + 1))
    (h : LeadsTo (.set terms) (c :: rest) position stop) :
    c.isDigit = true ∧
      ((c.toNat - 48 ∈ Term.allMembers terms ∧ stop = position + 1) ∨
        (c.toNat - 48 ≠ 0 ∧ DigitsLeadTo terms rest (position + 1) (c.toNat - 48) left stop)) := by
  have hzero : '0'.toNat = 48 := rfl
  obtain ⟨piece, ⟨n, hn, hpiece⟩, hprefix, rfl⟩ := h
  have hsome : piece ≠ [] := hpiece ▸ Nat.toDigits_ne_nil
  obtain ⟨d, more, rfl⟩ := List.exists_cons_of_ne_nil hsome
  obtain ⟨rfl, hrest⟩ := List.cons_prefix_cons.mp hprefix
  have hdigits : ∀ x ∈ d :: more, x.isDigit = true := fun x hx =>
    isDigit_of_mem_toDigits (hpiece ▸ hx)
  have hd := hdigits d List.mem_cons_self
  have hvalue : Nat.ofDigitChars 10 more (d.toNat - 48) = n := by
    have htext := Nat.ofDigitChars_ten_toDigits (n := n)
    rwa [← hpiece, Nat.ofDigitChars_cons, hzero, Nat.mul_zero, Nat.zero_add] at htext
  refine ⟨hd, ?_⟩
  by_cases hmore : more = []
  · subst hmore
    rw [Nat.ofDigitChars_nil] at hvalue
    exact .inl ⟨hvalue ▸ hn, rfl⟩
  · have hne : d.toNat - 48 ≠ 0 := by
      intro hsub
      have hlow := (toNat_digit hd).1
      have hchar : d = '0' := Char.toNat_inj.mp (by omega)
      exact hmore (eq_nil_of_toDigits_eq (hchar ▸ hpiece.symm))
    have hlength : (d :: more).length ≤ left + 1 :=
      hpiece ▸ (Nat.length_toDigits_le_iff (by decide) (by omega)).mpr (hbound n hn)
    refine .inr ⟨hne, more, hmore, Nat.le_of_succ_le_succ hlength, ?_, hrest, ?_, hvalue ▸ hn⟩
    · exact fun x hx => hdigits x (List.mem_cons_of_mem d hx)
    · rw [List.length_cons]
      omega

/-- The decimal texts of members in front of a text, by their first digit. Nothing follows a leading
zero, and no member has more than `left` digits behind the first. -/
theorem leadsTo_set_cons {terms : List Term} {c : Char} {rest : List Char}
    {position left stop : Nat} (hbound : ∀ n ∈ Term.allMembers terms, n < 10 ^ (left + 1)) :
    LeadsTo (.set terms) (c :: rest) position stop ↔
      c.isDigit = true ∧
        ((c.toNat - 48 ∈ Term.allMembers terms ∧ stop = position + 1) ∨
          (c.toNat - 48 ≠ 0 ∧
            DigitsLeadTo terms rest (position + 1) (c.toNat - 48) left stop)) := by
  constructor
  · exact digits_of_leadsTo_set hbound
  · rintro ⟨hc, ⟨hmem, rfl⟩ | ⟨hne, digits, -, -, hdigits, hprefix, rfl, hmem⟩⟩
    · have htext : Nat.toDigits 10 (c.toNat - 48) = [c] := toDigits_digit hc
      exact ⟨[c], ⟨_, hmem, htext.symm⟩, by simp, rfl⟩
    · have htext := toDigits_append_digits (Nat.pos_of_ne_zero hne) hdigits
      rw [toDigits_digit hc] at htext
      refine ⟨c :: digits, ⟨_, hmem, htext⟩, List.cons_prefix_cons.mpr ⟨rfl, hprefix⟩, ?_⟩
      rw [List.length_cons]
      omega

theorem mem_numberEnds {terms : List Term} {host : Array Char} {position left stop : Nat}
    (hbound : ∀ n ∈ Term.allMembers terms, n < 10 ^ (left + 1)) :
    stop ∈ numberEnds terms host position 0 (left + 1) ↔
      LeadsTo (.set terms) (host.toList.drop position) position stop := by
  rw [numberEnds]
  cases hget : host[position]? with
  | none =>
    rw [drop_of_getElem?_eq_none hget]
    simp only [List.not_mem_nil, false_iff]
    rintro ⟨piece, ⟨n, -, rfl⟩, hprefix, -⟩
    exact Nat.toDigits_ne_nil (List.prefix_nil.mp hprefix)
  | some c =>
    rw [drop_of_getElem?_eq_some hget, leadsTo_set_cons hbound]
    by_cases hc : c.isDigit = true
    · simp only [hc, if_true, true_and, Nat.zero_mul, Nat.zero_add, contains_allMembers]
      by_cases hvalue : c.toNat - 48 = 0
      · simp [hvalue]
      · have hbehind : stop ∈ numberEnds terms host (position + 1) _ left ↔ _ :=
          mem_numberEnds_of_pos (Nat.pos_of_ne_zero hvalue)
        by_cases hmem : c.toNat - 48 ∈ Term.allMembers terms
        · simp [hvalue, hmem, hbehind]
        · simp [hvalue, hmem, hbehind]
    · simp [hc]

theorem mem_foldr_mergePositions {starts : List Nat} {ends : Nat → List Nat} {stop : Nat} :
    stop ∈ starts.foldr (fun p found => mergePositions (ends p) found) [] ↔
      ∃ p ∈ starts, stop ∈ ends p := by
  induction starts with
  | nil => simp
  | cons p starts ih => simp [mem_mergePositions, ih]

theorem lt_of_mem_allMembers {terms : List Term} (h : (Segment.set terms).InRange) {n : Nat}
    (hn : n ∈ Term.allMembers terms) : n < 10 ^ (9 + 1) := by
  obtain ⟨term, hterm, hmem⟩ := List.mem_flatMap.mp hn
  have hlast := h term hterm
  have hle := Term.mem_members.mp hmem
  simp only [Term.contains, Bool.and_eq_true, decide_eq_true_eq] at hle
  have hmax : maxNumber.toNat = 4294967295 := rfl
  omega

theorem mem_advance_set {host : Array Char} {starts : List Nat} {terms : List Term} {stop : Nat}
    (h : (Segment.set terms).InRange) : stop ∈ advance host starts (.set terms) ↔
      ∃ p ∈ starts, LeadsTo (.set terms) (host.toList.drop p) p stop := by
  rw [advance, mem_foldr_mergePositions]
  exact exists_congr fun p => and_congr_right fun _ =>
    mem_numberEnds fun n hn => lt_of_mem_allMembers h hn

/-- A segment leads from the positions that it may begin at to the ends of its pieces. -/
theorem mem_advance {host : Array Char} {starts : List Nat} {segment : Segment} {stop : Nat}
    (hsegment : segment.InRange) (hstarts : ∀ p ∈ starts, p ≤ host.size) :
    stop ∈ advance host starts segment ↔
      ∃ p ∈ starts, segment.LeadsTo (host.toList.drop p) p stop := by
  cases segment with
  | literal c => exact mem_advance_literal
  | star => exact mem_advance_star hstarts
  | set terms => exact mem_advance_set hsegment

theorem le_size_of_leadsTo {host : Array Char} {segment : Segment} {position stop : Nat}
    (hposition : position ≤ host.size)
    (h : segment.LeadsTo (host.toList.drop position) position stop) : stop ≤ host.size := by
  obtain ⟨piece, -, hprefix, rfl⟩ := h
  have hlength := hprefix.length_le
  have hsize : host.toList.length = host.size := Array.length_toList
  rw [List.length_drop] at hlength
  omega

end Segment

theorem append_prefix_drop_iff {piece part text : List Char} {p : Nat} :
    piece ++ part <+: text.drop p ↔
      piece <+: text.drop p ∧ part <+: text.drop (p + piece.length) := by
  constructor
  · rintro ⟨rest, hrest⟩
    rw [List.append_assoc] at hrest
    refine ⟨⟨part ++ rest, hrest⟩, rest, ?_⟩
    rw [← List.drop_drop, ← hrest, List.drop_left]
  · rintro ⟨⟨more, hmore⟩, hpart⟩
    rw [← List.drop_drop, ← hmore, List.drop_left] at hpart
    rw [← hmore]
    exact (List.prefix_append_right_inj piece).mpr hpart

/-- All segments together lead from the starts to the ends of the texts that they denote. -/
theorem mem_foldl_advance {host : Array Char} {segments : List Segment} {starts : List Nat}
    {stop : Nat} (hsegments : ∀ segment ∈ segments, segment.InRange)
    (hstarts : ∀ p ∈ starts, p ≤ host.size) :
    stop ∈ segments.foldl (Segment.advance host) starts ↔
      ∃ p ∈ starts, ∃ part, Denotes segments part ∧ part <+: host.toList.drop p ∧
        stop = p + part.length := by
  induction segments generalizing starts with
  | nil =>
    constructor
    · intro hstop
      exact ⟨stop, hstop, [], .nil, List.nil_prefix, rfl⟩
    · rintro ⟨p, hp, part, hpart, -, rfl⟩
      cases hpart
      exact hp
  | cons segment segments ih =>
    have hsegment := hsegments segment List.mem_cons_self
    have hadvance : ∀ p ∈ segment.advance host starts, p ≤ host.size := by
      intro p hp
      obtain ⟨q, hq, hlead⟩ := (Segment.mem_advance hsegment hstarts).mp hp
      exact Segment.le_size_of_leadsTo (hstarts q hq) hlead
    rw [List.foldl_cons, ih (fun s hs => hsegments s (List.mem_cons_of_mem _ hs)) hadvance]
    constructor
    · rintro ⟨q, hq, part, hpart, hprefix, rfl⟩
      obtain ⟨p, hp, piece, hpiece, hpiecePrefix, rfl⟩ :=
        (Segment.mem_advance hsegment hstarts).mp hq
      refine ⟨p, hp, piece ++ part, .cons hpiece hpart,
        append_prefix_drop_iff.mpr ⟨hpiecePrefix, hprefix⟩, ?_⟩
      rw [List.length_append, Nat.add_assoc]
    · rintro ⟨p, hp, _, hpart, hprefix, rfl⟩
      cases hpart with
      | @cons _ _ piece part hpiece hpart =>
        obtain ⟨hpiecePrefix, hpartPrefix⟩ := append_prefix_drop_iff.mp hprefix
        have hq := (Segment.mem_advance hsegment hstarts).mpr
          ⟨p, hp, piece, hpiece, hpiecePrefix, rfl⟩
        refine ⟨p + piece.length, hq, part, hpart, hpartPrefix, ?_⟩
        rw [List.length_append, Nat.add_assoc]

theorem lastLine_le_iff {host : Array Char} {position : Nat} :
    lastLine host ≤ position ↔ '\n' ∉ host.toList.drop position := by
  have hrun : host.size - position ≤ (host.toList.reverse.takeWhile (· != '\n')).length ↔
      ∀ c ∈ host.toList.reverse.take (host.size - position), (c != '\n') = true :=
    le_length_takeWhile_iff (by simp)
  have hrest : host.toList.reverse.take (host.size - position) =
      (host.toList.drop position).reverse := by
    rw [List.reverse_drop, Array.length_toList]
  rw [hrest] at hrun
  rw [lastLine, Nat.sub_le_iff_le_add, ← Nat.sub_le_iff_le_add', hrun]
  simp only [List.mem_reverse, bne_iff_ne]
  exact ⟨fun hall hmem => hall _ hmem rfl, fun hnot c hc heq => hnot (heq ▸ hc)⟩

/-- Leading elements may end at the end of the name or at a dot that no line feed follows. -/
theorem allows_leading_iff {host : Array Char} {stop : Nat} (h : stop ≤ host.size) :
    Anchor.allows host (lastLine host) stop .leading = true ↔
      host.toList.drop stop = [] ∨
        ∃ rest, host.toList.drop stop = '.' :: rest ∧ '\n' ∉ rest := by
  have hdot : host[stop]? = some '.' ↔ ∃ rest, host.toList.drop stop = '.' :: rest := by
    rw [← Array.getElem?_toList, ← List.head?_drop, List.head?_eq_some_iff]
  simp only [Anchor.allows, Bool.or_eq_true, Bool.and_eq_true, beq_iff_eq, decide_eq_true_eq,
    lastLine_le_iff, hdot]
  refine or_congr ?_ ?_
  · rw [List.drop_eq_nil_iff, Array.length_toList]
    omega
  · constructor
    · rintro ⟨⟨rest, hrest⟩, hline⟩
      rw [hrest, List.mem_cons, not_or] at hline
      exact ⟨rest, hrest, hline.2⟩
    · rintro ⟨rest, hrest, hline⟩
      refine ⟨⟨rest, hrest⟩, ?_⟩
      rw [hrest, List.mem_cons, not_or]
      exact ⟨by decide, hline⟩

namespace Pattern

theorem mem_ends {p : Pattern} {host : Array Char} {stop : Nat} :
    stop ∈ p.ends host ↔
      ∃ part, Denotes p.segments part ∧ part <+: host.toList ∧ stop = part.length := by
  have hrange := (Segment.spells_of_readAll p.segments_eq).2
  rw [ends, mem_foldl_advance hrange (by simp)]
  simp

theorem accepts_whole {p : Pattern} (h : p.anchor = .whole) (host : String) :
    p.accepts host = true ↔ Denotes p.segments host.toList := by
  simp only [accepts, h, Anchor.allows, List.any_eq_true, mem_ends, beq_iff_eq]
  constructor
  · rintro ⟨stop, ⟨part, hpart, hprefix, rfl⟩, hstop⟩
    have hall : part = host.toList := hprefix.eq_of_length (by simpa using hstop)
    exact hall ▸ hpart
  · intro hdenotes
    exact ⟨host.toList.length, ⟨host.toList, hdenotes, List.prefix_refl _, rfl⟩, by simp⟩

theorem accepts_leading {p : Pattern} (h : p.anchor = .leading) (host : String) :
    p.accepts host = true ↔ ∃ part, Denotes p.segments part ∧
      (host.toList = part ∨ ∃ rest, host.toList = part ++ '.' :: rest ∧ '\n' ∉ rest) := by
  have hallows : ∀ part rest, host.toList = part ++ rest →
      (Anchor.allows host.toList.toArray (lastLine host.toList.toArray) part.length .leading = true ↔
        rest = [] ∨ ∃ more, rest = '.' :: more ∧ '\n' ∉ more) := by
    intro part rest hcut
    have hdrop : host.toList.toArray.toList.drop part.length = rest := by simp [hcut]
    rw [allows_leading_iff (by simp [hcut]), hdrop]
  simp only [accepts, h, List.any_eq_true, mem_ends]
  constructor
  · rintro ⟨stop, ⟨part, hpart, ⟨rest, hcut⟩, rfl⟩, hend⟩
    refine ⟨part, hpart, ?_⟩
    rcases (hallows part rest hcut.symm).mp hend with rfl | ⟨more, rfl, hline⟩
    · exact .inl (by simpa using hcut.symm)
    · exact .inr ⟨more, hcut.symm, hline⟩
  · rintro ⟨part, hpart, hcut | ⟨rest, hcut, hline⟩⟩
    · refine ⟨part.length, ⟨part, hpart, by simp [hcut], rfl⟩, ?_⟩
      exact (hallows part [] (by simpa using hcut)).mpr (.inl rfl)
    · refine ⟨part.length, ⟨part, hpart, ⟨'.' :: rest, hcut.symm⟩, rfl⟩, ?_⟩
      exact (hallows part _ hcut).mpr (.inr ⟨rest, rfl, hline⟩)

theorem compile_eq_ok {text : String} {anchor : Anchor} {p : Pattern}
    (h : compile text anchor = .ok p) : p.text = text ∧ p.anchor = anchor := by
  unfold compile at h
  split at h
  · cases h
  · cases h
    exact ⟨rfl, rfl⟩

theorem compile_of_readAll {text : String} {segments : List Segment} (anchor : Anchor)
    (h : Segment.readAll 1 text.toList = .ok segments) :
    compile text anchor = .ok ⟨text, anchor, segments, h⟩ := by
  unfold compile
  split
  next e herror =>
    rw [h] at herror
    cases herror
  next found hfound =>
    cases h.symm.trans hfound
    rfl

/-- A whole-name pattern accepts exactly the names that can be cut into pieces, one for each element
that its text spells. -/
theorem accepts_iff_denotes {text : String} {p : Pattern} (h : compile text .whole = .ok p) :
    SpellsPattern text.toList p.segments ∧
      ∀ host : String, p.accepts host = true ↔ Denotes p.segments host.toList := by
  obtain ⟨htext, hanchor⟩ := compile_eq_ok h
  exact ⟨htext ▸ (Segment.spells_of_readAll p.segments_eq).1, accepts_whole hanchor⟩

/-- A star in front of a set whose members are prefixes of each other. -/
theorem accepts_iff_denotes_star_set :
    ∃ p, compile "n*[1,11]" .whole = .ok p ∧ SpellsPattern "n*[1,11]".toList p.segments ∧
      (p.accepts "n-111" = true ↔ Denotes p.segments "n-111".toList) := by
  have hset : Segment.readTerms 0 "1,11]".toList = .ok ([.single 1, .single 11], []) :=
    Segment.readTerms_more rfl (Segment.readTerms_last rfl)
  have hread : Segment.readAll 1 "n*[1,11]".toList =
      .ok [.literal 'n', .star, .set [.single 1, .single 11]] :=
    Segment.readAll_cons rfl (by decide) <| Segment.readAll_cons rfl (by decide) <|
      Segment.readAll_cons (Segment.next_set hset) (by decide) (Segment.readAll_nil (by decide))
  have hcompile := compile_of_readAll .whole hread
  obtain ⟨hspells, haccepts⟩ := accepts_iff_denotes hcompile
  exact ⟨_, hcompile, hspells, haccepts "n-111"⟩

end Pattern

end NodeQuery.Host

import NodeQuery.Proofs.Host.Matching
import NodeQuery.Proofs.Host.Products

/-!
# Errors of patterns

Compiling a pattern and expanding it drive the same reader, segment by segment, and each puts
limits of its own between the segments: on the size of the expression, on stars, on the number of
names. So each of them either stops at its own limit or ends as the reader does, and the two report
the same error of the text unless one of them has stopped before it.
-/
namespace NodeQuery.Host

/-- The errors inside of a bracket set. -/
def PatternError.InSet : PatternError → Prop
  | .invalidNumber | .numberOutOfRange | .rangeTooLarge | .expectedComma | .invalidRange _ _ => True
  | .commaNotAllowed | .expressionTooLarge | .illegalList _ | .wildcardNotAllowed _
  | .expansionTooLarge _ => False

/-- The errors of a text that is no pattern, whatever the pattern is used for. -/
def PatternError.InReading (e : PatternError) : Prop := e = .commaNotAllowed ∨ e.InSet

/-- The limits of the two uses are no errors of the text. -/
theorem not_inReading_limit (pattern : String) :
    ¬ PatternError.expressionTooLarge.InReading ∧
      ¬ (PatternError.wildcardNotAllowed pattern).InReading ∧
      ¬ (PatternError.expansionTooLarge pattern).InReading := by
  simp [PatternError.InReading, PatternError.InSet]

namespace Segment
variable {text rest : List Char} {segment : Segment} {e : PatternError}

/-! What the reader reports -/

theorem inSet_of_readNumber (h : readNumber text = .error e) : e.InSet := by
  rw [readNumber_eq] at h
  split at h
  · cases h
    trivial
  · split at h
    · cases h
    · cases h
      trivial

theorem inSet_of_readTerm {count : Nat} (h : readTerm count text = .error e) : e.InSet := by
  unfold readTerm at h
  split at h
  next hfirst =>
    cases h
    exact inSet_of_readNumber hfirst
  next =>
    split at h
    next hlast =>
      cases h
      exact inSet_of_readNumber hlast
    next =>
      split at h
      · cases h
        trivial
      · dsimp only at h
        split at h
        · cases h
          trivial
        · cases h
  next => cases h

theorem inSet_of_readTerms {count : Nat} (h : readTerms count text = .error e) : e.InSet := by
  fun_induction readTerms count text with
  | case1 count text e' hterm =>
    cases h
    exact inSet_of_readTerm hterm
  | case2 => cases h
  | case3 count text term tail _ e' hmore ih =>
    cases h
    exact ih hmore
  | case4 => cases h
  | case5 =>
    cases h
    trivial

/-- The reader stops at a comma outside of the sets or at an error inside of one. -/
theorem error_cases_of_next (h : next text = .error e) :
    (∃ rest, text = ',' :: rest ∧ e = .commaNotAllowed) ∨
      ∃ rest, text = '[' :: rest ∧ readTerms 0 rest = .error e := by
  unfold next at h
  split at h
  · cases h
  · cases h
  next rest =>
    cases h
    exact .inl ⟨rest, rfl, rfl⟩
  next tail =>
    split at h
    next hterms =>
      cases h
      exact .inr ⟨tail, rfl, hterms⟩
    · cases h
  · cases h

theorem inReading_of_next (h : next text = .error e) : e.InReading := by
  rcases error_cases_of_next h with ⟨_, _, rfl⟩ | ⟨_, _, hterms⟩
  · exact .inl rfl
  · exact .inr (inSet_of_readTerms hterms)

/-! One step of the reader, and the whole of it -/

/-- A text is read from the front: it has an error there, it is at its end, or a segment is read and
the rest of the text is left. -/
theorem readingInduction {motive : List Char → Prop}
    (error : ∀ text e, next text = .error e → motive text) (nil : motive [])
    (segment : ∀ text segment rest, next text = .ok (some (segment, rest)) → motive rest →
      motive text) (text : List Char) : motive text := by
  fun_induction scan text with
  | case1 text e hnext => exact error text e hnext
  | case2 text hnext => exact eq_nil_of_next hnext ▸ nil
  | case3 text found rest hnext _ _ ih => exact segment text found rest hnext ih
  | case4 text found rest hnext _ _ ih => exact segment text found rest hnext ih

theorem scan_of_error (h : next text = .error e) : scan text = .error e := by
  rw [scan]
  split <;> simp_all

theorem scan_of_segment (h : next text = .ok (some (segment, rest))) :
    scan text = (scan rest).map (segment :: ·) := by
  cases hrest : scan rest with
  | error e =>
    rw [scan]
    split <;> simp_all [Except.map]
  | ok segments => exact scan_cons h hrest

theorem scan_eq_error_iff (h : next text = .ok (some (segment, rest))) :
    scan text = .error e ↔ scan rest = .error e := by
  rw [scan_of_segment h]
  cases scan rest <;> simp [Except.map]

theorem inReading_of_scan (h : scan text = .error e) : e.InReading := by
  fun_induction scan text with
  | case1 text e' hnext =>
    cases h
    exact inReading_of_next hnext
  | case2 => cases h
  | case3 text segment rest _ e' hrest ih =>
    cases h
    exact ih hrest
  | case4 => cases h

/-- A star segment is a star of the text. -/
theorem star_mem_of_scan {segments : List Segment} (h : scan text = .ok segments)
    (hstar : .star ∈ segments) : '*' ∈ text := by
  fun_induction scan text generalizing segments with
  | case1 => cases h
  | case2 =>
    cases h
    cases hstar
  | case3 => cases h
  | case4 text segment rest hnext more hmore ih =>
    cases h
    obtain ⟨body, rfl, hbody, -⟩ := spells_of_next hnext
    rw [List.mem_append]
    rcases List.mem_cons.mp hstar with rfl | hlater
    · cases hbody
      exact .inl List.mem_cons_self
    · exact .inr (ih hmore hlater)

theorem readAll_of_lt {size : Nat} (h : maxExpressionSize < size) (text : List Char) :
    readAll size text = .error .expressionTooLarge := by
  rw [readAll, if_pos h]

theorem readAll_of_error {size : Nat} (h : next text = .error e)
    (hsize : size ≤ maxExpressionSize) : readAll size text = .error e := by
  rw [readAll, if_neg (Nat.not_lt.mpr hsize)]
  split <;> simp_all

theorem readAll_of_segment {size : Nat} (h : next text = .ok (some (segment, rest)))
    (hsize : size ≤ maxExpressionSize) :
    readAll size text = (readAll (size + segment.expressionSize) rest).map (segment :: ·) := by
  cases hrest : readAll (size + segment.expressionSize) rest with
  | error e =>
    rw [readAll, if_neg (Nat.not_lt.mpr hsize)]
    split <;> simp_all [Except.map]
  | ok segments => exact readAll_cons h hsize hrest

/-- The reader with a limit on the size stops at the limit or ends as the reader without it. -/
theorem readAll_eq_scan (size : Nat) (text : List Char) :
    readAll size text = .error .expressionTooLarge ∨ readAll size text = scan text := by
  rcases Nat.lt_or_ge maxExpressionSize size with hover | hsize
  · exact .inl (readAll_of_lt hover text)
  induction text using readingInduction generalizing size with
  | error text e hnext =>
    exact .inr ((readAll_of_error hnext hsize).trans (scan_of_error hnext).symm)
  | nil => exact .inr ((readAll_nil hsize).trans scan_nil.symm)
  | segment text segment rest hnext ih =>
    rw [readAll_of_segment hnext hsize, scan_of_segment hnext]
    rcases Nat.lt_or_ge maxExpressionSize (size + segment.expressionSize) with hover | hsize
    · rw [readAll_of_lt hover]
      exact .inl rfl
    · rcases ih _ hsize with hlimit | hends
      · rw [hlimit]
        exact .inl rfl
      · rw [hends]
        exact .inr rfl

end Segment

/-- Expansion stops at a star or at its limit on names, or it fails just as the reader does. -/
theorem expandFrom_fails_as_scan (pattern : String) (names : List String) (text : List Char) :
    expandFrom pattern names text = .error (.wildcardNotAllowed pattern) ∨
      expandFrom pattern names text = .error (.expansionTooLarge pattern) ∨
      ∀ e, expandFrom pattern names text = .error e ↔ Segment.scan text = .error e := by
  induction text using Segment.readingInduction generalizing names with
  | error text e hnext =>
    rw [expandFrom_error hnext, Segment.scan_of_error hnext]
    exact .inr (.inr fun e' => by simp only [Except.error.injEq])
  | nil =>
    rw [expandFrom_nil, Segment.scan_nil]
    exact .inr (.inr fun e => ⟨nofun, nofun⟩)
  | segment text segment rest hnext ih =>
    simp only [Segment.scan_eq_error_iff hnext]
    cases segment with
    | literal c =>
      rw [expandFrom_literal hnext]
      exact ih _
    | star => exact .inl (expandFrom_star hnext pattern names)
    | set terms =>
      rcases Nat.lt_or_ge maxExpansion (names.length * (Term.allMembers terms).length) with
        hsize | hsize
      · exact .inr (.inl (expandFrom_set_tooLarge hnext pattern hsize))
      · rw [expandFrom_set hnext pattern hsize]
        exact ih _

/-! Expansion and the reader -/

section Expanding
variable {text : String} {segments : List Segment} {e : PatternError}

theorem scan_of_expand {names : List String} (h : expand text = .ok names) :
    ∃ segments, Segment.scan text.toList = .ok segments := by
  obtain ⟨segments, hscan, -⟩ := (expandFrom_eq_ok_iff (by decide)).mp h
  exact ⟨segments, hscan⟩

theorem scan_of_expand_error (h : expand text = .error e) :
    Segment.scan text.toList = .error e ∨ e = .wildcardNotAllowed text ∨
      e = .expansionTooLarge text := by
  rcases expandFrom_fails_as_scan text [""] text.toList with hstar | hsize | hends
  · exact .inr (.inl (Except.error.inj (h.symm.trans hstar)))
  · exact .inr (.inr (Except.error.inj (h.symm.trans hsize)))
  · exact .inl ((hends e).mp h)

theorem expand_of_scan_error (h : Segment.scan text.toList = .error e) :
    expand text = .error e ∨ expand text = .error (.wildcardNotAllowed text) ∨
      expand text = .error (.expansionTooLarge text) := by
  rcases expandFrom_fails_as_scan text [""] text.toList with hstar | hsize | hends
  · exact .inr (.inl hstar)
  · exact .inr (.inr hsize)
  · exact .inl ((hends e).mpr h)

theorem expand_of_scan (h : Segment.scan text.toList = .ok segments) :
    (∃ names, expand text = .ok names) ∨ expand text = .error (.wildcardNotAllowed text) ∨
      expand text = .error (.expansionTooLarge text) := by
  cases hexpand : expand text with
  | ok names => exact .inl ⟨names, rfl⟩
  | error e =>
    rcases scan_of_expand_error hexpand with hscan | rfl | rfl
    · exact absurd (h.symm.trans hscan) nofun
    · exact .inr (.inl rfl)
    · exact .inr (.inr rfl)

/-- A text that can be read and has no star expands if its sets ask for no more names than the
limit. -/
theorem exists_expand_of_scan (h : Segment.scan text.toList = .ok segments)
    (hstar : '*' ∉ text.toList) (hprod : (setSizes segments).prod ≤ maxExpansion) :
    ∃ names, expand text = .ok names := by
  have hno : .star ∉ segments := fun hmem => hstar (Segment.star_mem_of_scan h hmem)
  have hsize : [""].length * (setSizes segments).prod ≤ maxExpansion := by simpa using hprod
  exact ⟨_, (expandFrom_eq_ok_iff (by decide)).mpr ⟨segments, h, hno, hsize, rfl⟩⟩

end Expanding

namespace Pattern

/-! Compilation and the reader -/

section Compiling
variable {text : String} {anchor : Anchor} {segments : List Segment} {e : PatternError}

theorem compile_eq_error_iff :
    compile text anchor = .error e ↔ Segment.readAll 1 text.toList = .error e := by
  unfold compile
  split <;> simp_all

theorem scan_of_compile {p : Pattern} (h : compile text anchor = .ok p) :
    Segment.scan text.toList = .ok p.segments := by
  have hread := p.segments_eq
  rw [(compile_eq_ok h).1] at hread
  rcases Segment.readAll_eq_scan 1 text.toList with hlimit | hends
  · exact absurd (hread.symm.trans hlimit) nofun
  · exact hends.symm.trans hread

theorem scan_of_compile_error (h : compile text anchor = .error e) :
    Segment.scan text.toList = .error e ∨ e = .expressionTooLarge := by
  have hread := compile_eq_error_iff.mp h
  rcases Segment.readAll_eq_scan 1 text.toList with hlimit | hends
  · exact .inr (Except.error.inj (hread.symm.trans hlimit))
  · exact .inl (hends.symm.trans hread)

theorem compile_of_scan_error (h : Segment.scan text.toList = .error e) (anchor : Anchor) :
    compile text anchor = .error e ∨ compile text anchor = .error .expressionTooLarge := by
  rw [compile_eq_error_iff, compile_eq_error_iff, ← h]
  exact (Segment.readAll_eq_scan 1 text.toList).symm

theorem compile_of_scan (h : Segment.scan text.toList = .ok segments) (anchor : Anchor) :
    (∃ p, compile text anchor = .ok p) ∨ compile text anchor = .error .expressionTooLarge := by
  rcases Segment.readAll_eq_scan 1 text.toList with hlimit | hends
  · exact .inr (compile_eq_error_iff.mpr hlimit)
  · exact .inl ⟨_, compile_of_readAll anchor (hends.trans h)⟩

end Compiling

/-- Compilation and expansion report the same errors of reading, unless one of them has stopped at
its own limit before: compilation at the size of the expression, expansion at a star or at the
number of names. What one of them accepts the other refuses for such a limit only, and expansion
accepts it if there is no star and the sets ask for few enough names. Neither has any other
errors. -/
theorem compile_expand_errors_agree (text : String) (anchor : Anchor) :
    (∀ e, e.InReading → expand text = .error e →
      compile text anchor = .error e ∨ compile text anchor = .error .expressionTooLarge) ∧
    (∀ e, e.InReading → compile text anchor = .error e →
      expand text = .error e ∨ expand text = .error (.wildcardNotAllowed text) ∨
        expand text = .error (.expansionTooLarge text)) ∧
    (∀ names, expand text = .ok names →
      (∃ p, compile text anchor = .ok p) ∨ compile text anchor = .error .expressionTooLarge) ∧
    (∀ p, compile text anchor = .ok p →
      ((∃ names, expand text = .ok names) ∨ expand text = .error (.wildcardNotAllowed text) ∨
        expand text = .error (.expansionTooLarge text)) ∧
      ('*' ∉ text.toList → (setSizes p.segments).prod ≤ maxExpansion →
        ∃ names, expand text = .ok names)) ∧
    (∀ e, compile text anchor = .error e → e.InReading ∨ e = .expressionTooLarge) ∧
    ∀ e, expand text = .error e →
      e.InReading ∨ e = .wildcardNotAllowed text ∨ e = .expansionTooLarge text := by
  refine ⟨?_, ?_, ?_, ?_, ?_, ?_⟩
  · intro e hreading hexpand
    rcases scan_of_expand_error hexpand with hscan | rfl | rfl
    · exact compile_of_scan_error hscan anchor
    · exact absurd hreading (not_inReading_limit text).2.1
    · exact absurd hreading (not_inReading_limit text).2.2
  · intro e hreading hcompile
    rcases scan_of_compile_error hcompile with hscan | rfl
    · exact expand_of_scan_error hscan
    · exact absurd hreading (not_inReading_limit text).1
  · intro names hexpand
    obtain ⟨segments, hscan⟩ := scan_of_expand hexpand
    exact compile_of_scan hscan anchor
  · intro p hcompile
    have hscan := scan_of_compile hcompile
    exact ⟨expand_of_scan hscan, exists_expand_of_scan hscan⟩
  · intro e hcompile
    exact (scan_of_compile_error hcompile).imp_left Segment.inReading_of_scan
  · intro e hexpand
    exact (scan_of_expand_error hexpand).imp_left Segment.inReading_of_scan

/-- Behind a star a range that goes down, and behind that a comma; and two sets without a fault. -/
theorem compile_expand_errors_agree_star :
    (PatternError.invalidRange 3 1).InReading ∧
      compile "n*[3-1]," .whole = .error (.invalidRange 3 1) ∧
      (expand "n*[3-1]," = .error (.invalidRange 3 1) ∨
        expand "n*[3-1]," = .error (.wildcardNotAllowed "n*[3-1],") ∨
        expand "n*[3-1]," = .error (.expansionTooLarge "n*[3-1],")) ∧
      ∃ p, compile "[1,2][3-4]" .leading = .ok p ∧ '*' ∉ "[1,2][3-4]".toList ∧
        (setSizes p.segments).prod ≤ maxExpansion ∧ ∃ names, expand "[1,2][3-4]" = .ok names := by
  have hreading : (PatternError.invalidRange 3 1).InReading := .inr trivial
  have hrange : Segment.next "[3-1],".toList = .error (.invalidRange 3 1) :=
    Segment.next_set_error (Segment.readTerms_error rfl)
  have hletter : Segment.next "n*[3-1],".toList = .ok (some (.literal 'n', "*[3-1],".toList)) := rfl
  have hstar : Segment.next "*[3-1],".toList = .ok (some (.star, "[3-1],".toList)) := rfl
  have hfaulty : Segment.readAll 1 "n*[3-1],".toList = .error (.invalidRange 3 1) := by
    rw [Segment.readAll_of_segment hletter (by decide),
      Segment.readAll_of_segment hstar (by decide), Segment.readAll_of_error hrange (by decide)]
    rfl
  have hsets : Segment.readAll 1 "[1,2][3-4]".toList =
      .ok [.set [.single 1, .single 2], .set [⟨3, 4, by decide⟩]] :=
    Segment.readAll_cons
      (Segment.next_set (Segment.readTerms_more rfl (Segment.readTerms_last rfl))) (by decide) <|
      Segment.readAll_cons (Segment.next_set (Segment.readTerms_last rfl)) (by decide)
        (Segment.readAll_nil (by decide))
  have hcompile : compile "n*[3-1]," .whole = .error (.invalidRange 3 1) :=
    compile_eq_error_iff.mpr hfaulty
  have hpair := compile_of_readAll .leading hsets
  obtain ⟨-, herror, -⟩ := compile_expand_errors_agree "n*[3-1]," .whole
  obtain ⟨-, -, -, hok, -⟩ := compile_expand_errors_agree "[1,2][3-4]" .leading
  have hprod : (setSizes [.set [.single 1, .single 2], .set [⟨3, 4, by decide⟩]]).prod ≤
      maxExpansion := by decide
  exact ⟨hreading, hcompile, herror _ hreading hcompile, _, hpair, by decide, hprod,
    (hok _ hpair).2 (by decide) hprod⟩

end Pattern

end NodeQuery.Host

import NodeQuery.Proofs.Text.Runs
import NodeQuery.Toml.Quoted

/-!
# Quoted strings and keys are read back

Whatever form a string or a key takes, reading it gives the text that was written. Behind it stands
what follows a string or a key in a line: a line break, or a space.
-/
namespace NodeQuery.Toml

open Text (EndsRun)

/-! ### Escapes -/

theorem charOf_hexText {n : Nat} (h : n < 0x80) : charOf (hexText n) = some (Char.ofNat n) := by
  have hall : ∀ n < 0x80, charOf (hexText n) = some (Char.ofNat n) := by decide
  exact hall n h

theorem readEscape_hexText {c : Char} (h : isControl c = true) (rest : List Char) :
    readEscape ('u' :: (hexText c.toNat ++ rest)) = some (c, rest) := by
  have hsmall : c.toNat < 0x80 := by
    simp only [isControl, Bool.or_eq_true, Bool.and_eq_true, decide_eq_true_eq] at h
    omega
  have hchar : charOf (hexText c.toNat) = some c := by
    rw [charOf_hexText hsmall, Char.ofNat_toNat]
  exact congrArg (Option.map (·, rest)) hchar

theorem ne_break_of_not_isControl {c : Char} (h : isControl c = false) : c ≠ '\n' := by
  rintro rfl
  exact absurd h (by decide)

theorem ne_return_of_not_isControl {c : Char} (h : isControl c = false) : c ≠ '\r' := by
  rintro rfl
  exact absurd h (by decide)

/-- A character that stands for itself in basic strings; quotes do if they do not end the string. -/
structure Direct (c : Char) : Prop where
  ne_backslash : c ≠ '\\'
  printable : isControl c = false

/-- What is written for a character is an escape that stands for it, or the character itself. -/
theorem escapeChar_cases (long : Bool) (c : Char) :
    (long = true ∧ c = '\n' ∧ escapeChar long c = ['\n']) ∨
    (Direct c ∧ escapeChar long c = [c]) ∨
    ∃ escape, escapeChar long c = '\\' :: escape ∧
      ∀ rest, readEscape (escape ++ rest) = some (c, rest) := by
  unfold escapeChar
  split
  next h => exact .inr (.inr ⟨['b'], rfl, fun rest => h ▸ rfl⟩)
  split
  next h => exact .inr (.inr ⟨['t'], rfl, fun rest => h ▸ rfl⟩)
  split
  next h =>
    cases long with
    | true => exact .inl ⟨rfl, h, rfl⟩
    | false => exact .inr (.inr ⟨['n'], rfl, fun rest => h ▸ rfl⟩)
  split
  next h => exact .inr (.inr ⟨['f'], rfl, fun rest => h ▸ rfl⟩)
  split
  next h => exact .inr (.inr ⟨['r'], rfl, fun rest => h ▸ rfl⟩)
  split
  next h =>
    subst h
    exact .inr (.inr ⟨['\\'], rfl, fun rest => rfl⟩)
  next hbackslash =>
    split
    next h => exact .inr (.inr ⟨'u' :: hexText c.toNat, rfl, readEscape_hexText h⟩)
    next h => exact .inr (.inl ⟨⟨hbackslash, Bool.eq_false_iff.mpr h⟩, rfl⟩)

/-! ### Basic strings -/

theorem readBasic_escape {c : Char} {text rest : List Char}
    (h : readEscape text = some (c, rest)) (done : List Char) :
    readBasic done ('\\' :: text) = readBasic (c :: done) rest := by
  rw [readBasic]
  split
  next hnone => rw [h] at hnone; cases hnone
  next hsome => rw [h] at hsome; cases hsome; rfl

theorem readBasic_direct {c : Char} (h : Direct c) (hquote : c ≠ '"') (done rest : List Char) :
    readBasic done (c :: rest) = readBasic (c :: done) rest := by
  rw [readBasic]
  · simp [h.printable]
  · exact hquote
  · exact h.ne_backslash

theorem readBasic_escapeChar {c : Char} (hquote : c ≠ '"') (done rest : List Char) :
    readBasic done (escapeChar false c ++ rest) = readBasic (c :: done) rest := by
  rcases escapeChar_cases false c with ⟨h, -⟩ | ⟨h, hself⟩ | ⟨escape, hwritten, hread⟩
  · cases h
  · rw [hself]
    exact readBasic_direct h hquote done rest
  · rw [hwritten]
    exact readBasic_escape (hread rest) done

theorem readBasic_escapeText (text done rest : List Char) :
    readBasic done (escapeText false 0 text ++ '"' :: rest) =
      some (done.reverse ++ text, rest) := by
  induction text generalizing done with
  | nil => simp [escapeText, readBasic]
  | cons c text ih =>
    by_cases hquote : c = '"'
    · subst hquote
      have hwritten :
          escapeText false 0 ('"' :: text) = '\\' :: '"' :: escapeText false 0 text := rfl
      have hread : readEscape ('"' :: (escapeText false 0 text ++ '"' :: rest)) =
          some ('"', escapeText false 0 text ++ '"' :: rest) := rfl
      rw [hwritten, List.cons_append, List.cons_append, readBasic_escape hread, ih]
      simp
    · simp only [escapeText, hquote, if_false, List.append_assoc]
      rw [readBasic_escapeChar hquote, ih]
      simp

/-! ### Long basic strings -/

theorem readLongBasic_escape {c : Char} {text rest : List Char}
    (h : readEscape text = some (c, rest)) (done : List Char) :
    readLongBasic done ('\\' :: text) = readLongBasic (c :: done) rest := by
  rw [readLongBasic]
  split
  next hsome => rw [h] at hsome; cases hsome; rfl
  next hnone => rw [h] at hnone; cases hnone

/-- A quote belongs to the string unless two others follow. -/
theorem readLongBasic_direct {c : Char} (h : Direct c) {rest : List Char}
    (hquote : c = '"' → ∀ more, rest ≠ '"' :: '"' :: more) (done : List Char) :
    readLongBasic done (c :: rest) = readLongBasic (c :: done) rest := by
  rw [readLongBasic]
  · simp [h.printable]
  · exact fun more hc => hquote hc _
  · exact fun more hc => hquote hc _
  · exact fun more hc => hquote hc _
  · exact ne_break_of_not_isControl h.printable
  · exact fun _ hc => absurd hc (ne_return_of_not_isControl h.printable)
  · exact h.ne_backslash

/-- At most two quotes in front of another character belong to the string. -/
theorem readLongBasic_quotes {run : Nat} (hrun : run ≤ 2) {text : List Char}
    (htext : EndsRun (· = '"') text) (done : List Char) :
    readLongBasic done (List.replicate run '"' ++ text) =
      readLongBasic (List.replicate run '"' ++ done) text := by
  have hquote : Direct '"' := ⟨by decide, by decide⟩
  have hone : ∀ done, readLongBasic done ('"' :: text) = readLongBasic ('"' :: done) text := by
    refine readLongBasic_direct hquote fun _ more hmore => ?_
    simp [hmore, EndsRun] at htext
  rcases run with _ | _ | _ | run
  · rfl
  · exact hone done
  · have htwo : ∀ more, '"' :: text ≠ '"' :: '"' :: more := by
      rintro more hmore
      simp [(List.cons.inj hmore).2, EndsRun] at htext
    exact (readLongBasic_direct hquote (fun _ => htwo) done).trans (hone _)
  · omega

theorem readLongBasic_escapeChar {c : Char} (hquote : c ≠ '"') (done rest : List Char) :
    readLongBasic done (escapeChar true c ++ rest) = readLongBasic (c :: done) rest := by
  rcases escapeChar_cases true c with ⟨-, rfl, hself⟩ | ⟨h, hself⟩ | ⟨escape, hwritten, hread⟩
  · rw [hself, List.singleton_append, readLongBasic]
  · rw [hself]
    exact readLongBasic_direct h (fun hc => absurd hc hquote) done
  · rw [hwritten]
    exact readLongBasic_escape (hread rest) done

theorem endsRun_escapeChar {c : Char} (hquote : c ≠ '"') (rest : List Char) :
    EndsRun (· = '"') (escapeChar true c ++ rest) := by
  rcases escapeChar_cases true c with ⟨-, -, hself⟩ | ⟨-, hself⟩ | ⟨escape, hwritten, -⟩
  · simp [hself, EndsRun]
  · simp [hself, EndsRun, hquote]
  · simp [hwritten, EndsRun]

/-- Up to two quotes in front of the ones that end the string belong to it. -/
theorem readLongBasic_closing {run : Nat} (hrun : run ≤ 2) {rest : List Char}
    (hrest : EndsRun (· = '"') rest) (done : List Char) :
    readLongBasic done (List.replicate run '"' ++ '"' :: '"' :: '"' :: rest) =
      some (done.reverse ++ List.replicate run '"', rest) := by
  have hnot : ∀ more, rest ≠ '"' :: more := by
    rintro more rfl
    simp [EndsRun] at hrest
  rcases run with _ | _ | _ | run
  · have hread : readLongBasic done ('"' :: '"' :: '"' :: rest) = some (done.reverse, rest) := by
      rw [readLongBasic]
      · exact fun more hmore => hnot _ hmore
      · exact fun more hmore => hnot _ hmore
    simpa using hread
  · have hread : readLongBasic done ('"' :: '"' :: '"' :: '"' :: rest) =
        some (('"' :: done).reverse, rest) := by
      rw [readLongBasic]
      exact fun more hmore => hnot _ hmore
    simpa using hread
  · simp [readLongBasic]
  · omega

/-- The induction is on what is left of the text, with the quotes in front of it still unread. -/
theorem readLongBasic_escapeText {run : Nat} (hrun : run ≤ 2) {rest : List Char}
    (hrest : EndsRun (· = '"') rest) (text done : List Char) :
    readLongBasic done
        (List.replicate run '"' ++ (escapeText true run text ++ '"' :: '"' :: '"' :: rest)) =
      some (done.reverse ++ List.replicate run '"' ++ text, rest) := by
  induction text generalizing run done with
  | nil => simpa [escapeText] using readLongBasic_closing hrun hrest done
  | cons c text ih =>
    by_cases hquote : c = '"'
    · subst hquote
      by_cases hlast : run < 2
      · have hread := ih hlast done
        simp only [escapeText, if_true, hlast, List.cons_append]
        simpa [List.replicate_succ'] using hread
      · have hwritten :
            escapeText true run ('"' :: text) = '\\' :: '"' :: escapeText true 0 text := by
          simp [escapeText, hlast]
        rw [hwritten, List.cons_append, List.cons_append,
          readLongBasic_quotes hrun (Text.endsRun_cons (by decide) _),
          readLongBasic_escape (c := '"') rfl]
        have hread := ih (Nat.zero_le 2) ('"' :: (List.replicate run '"' ++ done))
        simpa using hread
    · simp only [escapeText, hquote, if_false, List.append_assoc]
      rw [readLongBasic_quotes hrun (endsRun_escapeChar hquote _), readLongBasic_escapeChar hquote]
      have hread := ih (Nat.zero_le 2) (c :: (List.replicate run '"' ++ done))
      simpa using hread

/-! ### Literal strings -/

theorem readLiteral_append {text : List Char} (hprintable : ∀ c ∈ text, isControl c = false)
    (hquote : '\'' ∉ text) (done rest : List Char) :
    readLiteral done (text ++ '\'' :: rest) = some (done.reverse ++ text, rest) := by
  induction text generalizing done with
  | nil => simp [readLiteral]
  | cons c text ih =>
    have ⟨hc, htext⟩ := List.forall_mem_cons.mp hprintable
    have ⟨hne, hnot⟩ := not_or.mp (mt List.mem_cons.mpr hquote)
    rw [List.cons_append, readLiteral]
    · simp [hc, ih htext hnot]
    · exact Ne.symm hne

/-- A quote belongs to the string unless two others follow. -/
theorem readLongLiteral_direct {c : Char} (h : needsEscape c = false) {rest : List Char}
    (hquote : c = '\'' → ∀ more, rest ≠ '\'' :: '\'' :: more) (done : List Char) :
    readLongLiteral done (c :: rest) = readLongLiteral (c :: done) rest := by
  by_cases hbreak : c = '\n'
  · subst hbreak
    rw [readLongLiteral]
  · have hprintable : isControl c = false := by simpa [needsEscape, hbreak] using h
    rw [readLongLiteral]
    · simp [hprintable]
    · exact fun more hc => hquote hc _
    · exact fun more hc => hquote hc _
    · exact fun more hc => hquote hc _
    · exact hbreak
    · exact fun _ hc => absurd hc (ne_return_of_not_isControl hprintable)

/-- Up to two quotes in front of the ones that end the string belong to it. -/
theorem readLongLiteral_closing {run : Nat} (hrun : run ≤ 2) {rest : List Char}
    (hrest : EndsRun (· = '\'') rest) (done : List Char) :
    readLongLiteral done (List.replicate run '\'' ++ '\'' :: '\'' :: '\'' :: rest) =
      some (done.reverse ++ List.replicate run '\'', rest) := by
  have hnot : ∀ more, rest ≠ '\'' :: more := by
    rintro more rfl
    simp [EndsRun] at hrest
  rcases run with _ | _ | _ | run
  · have hread :
        readLongLiteral done ('\'' :: '\'' :: '\'' :: rest) = some (done.reverse, rest) := by
      rw [readLongLiteral]
      · exact fun more hmore => hnot _ hmore
      · exact fun more hmore => hnot _ hmore
    simpa using hread
  · have hread : readLongLiteral done ('\'' :: '\'' :: '\'' :: '\'' :: rest) =
        some (('\'' :: done).reverse, rest) := by
      rw [readLongLiteral]
      exact fun more hmore => hnot _ hmore
    simpa using hread
  · simp [readLongLiteral]
  · omega

theorem hasTriple_of_cons {c x : Char} {text : List Char} (h : hasTriple c (x :: text) = false) :
    hasTriple c text = false := by
  rcases text with _ | ⟨y, _ | ⟨z, text⟩⟩
  · rfl
  · rfl
  · simp only [hasTriple, Bool.or_eq_false_iff] at h ⊢
    exact h.2

/-- The text ends with at most two quotes, which are read together with the closing ones. -/
theorem readLongLiteral_append {text : List Char} (hprintable : ∀ c ∈ text, needsEscape c = false)
    (htriple : hasTriple '\'' text = false) {rest : List Char} (hrest : EndsRun (· = '\'') rest)
    (done : List Char) :
    readLongLiteral done (text ++ '\'' :: '\'' :: '\'' :: rest) =
      some (done.reverse ++ text, rest) := by
  induction text generalizing done with
  | nil => simpa using readLongLiteral_closing (Nat.zero_le 2) hrest done
  | cons c text ih =>
    have ⟨hc, htext⟩ := List.forall_mem_cons.mp hprintable
    by_cases hends : c :: text = ['\''] ∨ c :: text = ['\'', '\'']
    · rcases hends with hends | hends
      · rw [hends]
        exact readLongLiteral_closing (show 1 ≤ 2 by decide) hrest done
      · rw [hends]
        exact readLongLiteral_closing (show 2 ≤ 2 by decide) hrest done
    · have ⟨hone, htwo⟩ := not_or.mp hends
      have hdirect : c = '\'' → ∀ more, text ++ '\'' :: '\'' :: '\'' :: rest ≠
          '\'' :: '\'' :: more := by
        rintro rfl more hmore
        rcases text with _ | ⟨d, _ | ⟨e, text⟩⟩
        · exact hone rfl
        · simp_all
        · simp_all [hasTriple]
      rw [List.cons_append, readLongLiteral_direct hc hdirect,
        ih htext (hasTriple_of_cons htriple)]
      simp

/-! ### Strings of any form, in front of a line break -/

theorem readString_shortBasic (text rest : List Char) :
    readString (shortBasic text ++ '\n' :: rest) = some (text, '\n' :: rest) := by
  have hbasic := readBasic_escapeText text [] ('\n' :: rest)
  have hshort : ∀ more, escapeText false 0 text ++ '"' :: '\n' :: rest ≠ '"' :: '"' :: more := by
    intro more hmore
    rcases text with _ | ⟨c, text⟩
    · simp [escapeText] at hmore
    · by_cases hquote : c = '"'
      · simp [escapeText, hquote] at hmore
      · rcases escapeChar_cases false c with ⟨h, -⟩ | ⟨-, hself⟩ | ⟨escape, hwritten, -⟩
        · cases h
        · simp [escapeText, hquote, hself] at hmore
        · simp [escapeText, hquote, hwritten] at hmore
  simp only [shortBasic, List.cons_append, List.append_assoc, List.nil_append]
  rw [readString]
  · exact hbasic
  · exact hshort

theorem readString_shortLiteral {text : List Char} (hprintable : ∀ c ∈ text, isControl c = false)
    (hquote : '\'' ∉ text) (rest : List Char) :
    readString (shortLiteral text ++ '\n' :: rest) = some (text, '\n' :: rest) := by
  have hliteral := readLiteral_append hprintable hquote [] ('\n' :: rest)
  have hshort : ∀ more, text ++ '\'' :: '\n' :: rest ≠ '\'' :: '\'' :: more := by
    intro more hmore
    rcases text with _ | ⟨c, text⟩
    · simp at hmore
    · simp_all
  simp only [shortLiteral, List.cons_append, List.append_assoc, List.nil_append]
  rw [readString]
  · exact hliteral
  · exact hshort

/-- A break behind the opening quotes is dropped, and one is put there if the text has others. -/
theorem skipFirstBreak_openingBreak {text body : List Char}
    (h : '\n' ∉ text → ∀ c ∈ body.head?, c ≠ '\n' ∧ c ≠ '\r') :
    skipFirstBreak (openingBreak text ++ body) = body := by
  by_cases hbreak : '\n' ∈ text
  · simp [openingBreak, hbreak, skipFirstBreak]
  · rcases body with _ | ⟨c, body⟩
    · simp [openingBreak, hbreak, skipFirstBreak]
    · have ⟨hline, hreturn⟩ := h hbreak c rfl
      simp only [openingBreak, List.contains_eq_mem, hbreak, decide_false]
      unfold skipFirstBreak
      split
      · simp_all
      · simp_all
      · rfl

/-- Escapes leave no line break in front unless the text has one. -/
theorem head?_escapeText {text : List Char} (h : '\n' ∉ text) (rest : List Char) :
    ∀ c ∈ (escapeText true 0 text ++ '"' :: rest).head?, c ≠ '\n' ∧ c ≠ '\r' := by
  rcases text with _ | ⟨d, text⟩
  · simp [escapeText]
  · by_cases hquote : d = '"'
    · simp [escapeText, hquote]
    · simp only [escapeText, hquote, if_false]
      rcases escapeChar_cases true d with ⟨-, rfl, -⟩ | ⟨hdirect, hself⟩ | ⟨escape, hwritten, -⟩
      · exact absurd List.mem_cons_self h
      · simp [hself, ne_break_of_not_isControl hdirect.printable,
          ne_return_of_not_isControl hdirect.printable]
      · simp [hwritten]

theorem readString_longBasic (text rest : List Char) :
    readString (longBasic text ++ '\n' :: rest) = some (text, '\n' :: rest) := by
  have hends : EndsRun (· = '"') ('\n' :: rest) := Text.endsRun_cons (by decide) rest
  have hlong := readLongBasic_escapeText (Nat.zero_le 2) hends text []
  simp only [longBasic, List.cons_append, List.append_assoc, List.nil_append]
  rw [readString, skipFirstBreak_openingBreak fun h => head?_escapeText h _]
  exact hlong

theorem readString_longLiteral {text : List Char} (hprintable : ∀ c ∈ text, needsEscape c = false)
    (htriple : hasTriple '\'' text = false) (rest : List Char) :
    readString (longLiteral text ++ '\n' :: rest) = some (text, '\n' :: rest) := by
  have hends : EndsRun (· = '\'') ('\n' :: rest) := Text.endsRun_cons (by decide) rest
  have hlong := readLongLiteral_append hprintable htriple hends []
  have hhead : '\n' ∉ text → ∀ c ∈ (text ++ '\'' :: '\'' :: '\'' :: '\n' :: rest).head?,
      c ≠ '\n' ∧ c ≠ '\r' := by
    intro hbreak
    rcases text with _ | ⟨c, text⟩
    · simp
    · have hne : c ≠ '\n' := fun hc => hbreak (hc ▸ List.mem_cons_self)
      have hplain : isControl c = false := by
        simpa [needsEscape, hne] using hprintable c List.mem_cons_self
      simp [hne, ne_return_of_not_isControl hplain]
  simp only [longLiteral, List.cons_append, List.append_assoc, List.nil_append]
  rw [readString, skipFirstBreak_openingBreak hhead]
  exact hlong

/-- A string is read back from the form that it takes. -/
theorem readString_quoteString (text rest : List Char) :
    readString (quoteString text ++ '\n' :: rest) = some (text, '\n' :: rest) := by
  have hneeds : (!text.any needsEscape) = true → ∀ c ∈ text, needsEscape c = false := by
    intro h
    simpa using h
  have hcontrol : (!text.any needsEscape) = true → (!text.contains '\n') = true →
      ∀ c ∈ text, isControl c = false := by
    intro h hline c hc
    have hne : c ≠ '\n' := by
      rintro rfl
      simp [hc] at hline
    simpa [needsEscape, hne] using hneeds h c hc
  unfold quoteString
  dsimp only
  split
  · exact readString_shortBasic text rest
  split
  next h =>
    simp only [Bool.and_eq_true] at h
    exact readString_shortLiteral (hcontrol h.1.1 h.1.2) (by simpa using h.2) rest
  split
  · exact readString_longBasic text rest
  split
  next h =>
    simp only [Bool.and_eq_true] at h
    exact readString_longLiteral (hneeds h.1) (by simpa using h.2) rest
  split
  · exact readString_shortBasic text rest
  · exact readString_longBasic text rest

/-! ### Keys, in front of a character that is not bare -/

theorem readKeyPart_bare {name : List Char} (hname : name ≠ []) (hbare : ∀ c ∈ name, isBareChar c)
    {rest : List Char} (hrest : EndsRun isBareChar rest) :
    readKeyPart (name ++ rest) = some (name, rest) := by
  obtain ⟨c, name, rfl⟩ := List.exists_cons_of_ne_nil hname
  have hc := hbare c List.mem_cons_self
  rw [List.cons_append, readKeyPart]
  · rw [← List.cons_append, Text.takeWhile_run hbare hrest, Text.dropWhile_run hbare hrest]
  · intro more hmore
    obtain ⟨rfl, -⟩ := List.cons.inj hmore
    cases hc
  · intro more hmore
    obtain ⟨rfl, -⟩ := List.cons.inj hmore
    cases hc

theorem readKeyPart_quoteKey (name : List Char) {rest : List Char}
    (hrest : EndsRun isBareChar rest) :
    readKeyPart (quoteKey name ++ rest) = some (name, rest) := by
  have hbasic : readKeyPart (shortBasic name ++ rest) = some (name, rest) := by
    have hread := readBasic_escapeText name [] rest
    simpa [shortBasic, readKeyPart] using hread
  unfold quoteKey
  dsimp only
  split
  next h =>
    simp only [Bool.and_eq_true, List.all_eq_true] at h
    exact readKeyPart_bare (by simpa using h.1) h.2 hrest
  split
  · exact hbasic
  split
  next h =>
    simp only [Bool.and_eq_true] at h
    have hread := readLiteral_append (by simpa using h.1) (by simpa using h.2) [] rest
    simpa [shortLiteral, readKeyPart] using hread
  · exact hbasic

end NodeQuery.Toml

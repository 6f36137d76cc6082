import NodeQuery.Json.Reader
import NodeQuery.Proofs.Text.Runs
import NodeQuery.Text.Blank

/-!
# Reading is local

Each step of the reader takes a token off the front of the text. What it does depends neither on
what stands behind the token, as long as no number goes on there, nor on the frames below its own.
So a text that is read as a value is read as the same value inside an array, and white space behind
the text is no part of the value.
-/
namespace NodeQuery.Json

/-! Ends of tokens -/

/-- The last character is not white space. -/
def EndsSolid (text : List Char) : Prop :=
  ∃ front last, text = front ++ [last] ∧ Text.isBlank last = false

theorem EndsSolid.append {text : List Char} (h : EndsSolid text) (before : List Char) :
    EndsSolid (before ++ text) := by
  obtain ⟨front, last, rfl, hlast⟩ := h
  exact ⟨before ++ front, last, (List.append_assoc ..).symm, hlast⟩

theorem EndsSolid.ne_nil {text : List Char} (h : EndsSolid text) : text ≠ [] := by
  obtain ⟨front, last, rfl, -⟩ := h
  simp

theorem endsSolid_singleton {c : Char} (h : Text.isBlank c = false) : EndsSolid [c] :=
  ⟨[], c, rfl, h⟩

theorem isBlank_of_isDigit {c : Char} (h : c.isDigit = true) : Text.isBlank c = false := by
  simp only [Char.isDigit, Bool.and_eq_true, decide_eq_true_eq] at h
  have hlow : 48 ≤ c.toNat := h.1
  have hhigh : c.toNat ≤ 57 := h.2
  simp only [Text.isBlank, Text.blankRanges, List.any_cons, List.any_nil, Bool.or_eq_false_iff,
    Bool.and_eq_false_iff, decide_eq_false_iff_not, Nat.not_le, and_true]
  omega

theorem endsSolid_of_digits {digits : List Char} (hsome : digits ≠ [])
    (h : ∀ c ∈ digits, c.isDigit = true) : EndsSolid digits := by
  refine ⟨digits.dropLast, digits.getLast hsome, (List.dropLast_concat_getLast hsome).symm, ?_⟩
  exact isBlank_of_isDigit (h _ (List.getLast_mem hsome))

/-- White space at the end of a text is no part of a token. -/
theorem exists_of_append_blank {token rest text tail : List Char} (htoken : EndsSolid token)
    (htail : ∀ c ∈ tail, Text.isBlank c = true) (h : text ++ tail = token ++ rest) :
    ∃ more, text = token ++ more ∧ rest = more ++ tail := by
  rcases List.append_eq_append_iff.mp h with ⟨more, htokenText, htailText⟩ | hinside
  · rcases List.eq_nil_or_concat more with rfl | ⟨init, c, rfl⟩
    · exact ⟨[], by simpa using htokenText.symm, by simpa using htailText.symm⟩
    · -- the last character of the token would be one of the white space
      obtain ⟨front, last, rfl, hlast⟩ := htoken
      have hsame : c = last := by
        have hends := congrArg List.getLast? htokenText
        simpa [← List.append_assoc] using hends.symm
      have hblank := htail c (by simp [htailText])
      rw [hsame, hlast] at hblank
      cases hblank
  · exact hinside

/-! Strings -/

/-- What stands behind a letter matters for a code unit only, and `u` is no escape of one letter. -/
theorem readString_letter {letter c : Char} (h : escaped letter = some c)
    (done rest : List Char) :
    readString done ('\\' :: letter :: rest) = readString (c :: done) rest := by
  have hne : letter ≠ 'u' := fun heq => by simp [heq, escaped] at h
  rw [readString]
  · simp only [h]
  · intro _ _ _ _ _ heq
    exact absurd heq hne

/-- Other characters than quotes, backslashes and control characters stand for themselves. -/
theorem readString_plain {c : Char} (hquote : c ≠ '"') (hescape : c ≠ '\\')
    (hcontrol : ¬c.toNat < 0x20) (done rest : List Char) :
    readString done (c :: rest) = readString (c :: done) rest := by
  rw [readString]
  · rw [if_neg (by simp [hcontrol, hescape])]
  · exact hquote
  · intro _ _ _ _ _ heq
    exact absurd heq hescape
  · intro _ _ heq
    exact absurd heq hescape

/-- A string is read up to its closing quote, whatever stands behind it. -/
theorem exists_token_of_readString {done text value rest : List Char}
    (h : readString done text = some (value, rest)) :
    ∃ token, text = token ++ '"' :: rest ∧
      ∀ more, readString done (token ++ '"' :: more) = some (value, more) := by
  fun_induction readString done text with
  | case1 => cases h
  | case2 done rest =>
    cases h
    exact ⟨[], rfl, fun more => by simp [readString]⟩
  | case3 => cases h
  | case4 => cases h
  | case5 => cases h
  | case6 done a b c d unit hunit hlow hhigh e f g k rest' low hlow' hsur point ih =>
    obtain ⟨token, rfl, hread⟩ := ih h
    refine ⟨'\\' :: 'u' :: a :: b :: c :: d :: '\\' :: 'u' :: e :: f :: g :: k :: token, rfl,
      fun more => ?_⟩
    simp only [List.cons_append, readString, hunit, hlow, hhigh, hlow', hsur, if_true]
    exact hread more
  | case7 => cases h
  | case8 => cases h
  | case9 done a b c d rest' unit hunit hlow hhigh ih =>
    obtain ⟨token, rfl, hread⟩ := ih h
    refine ⟨'\\' :: 'u' :: a :: b :: c :: d :: token, rfl, fun more => ?_⟩
    simp only [List.cons_append, readString, hunit, hlow, hhigh]
    exact hread more
  | case10 => cases h
  | case11 done letter rest' hu c hc ih =>
    obtain ⟨token, rfl, hread⟩ := ih h
    refine ⟨'\\' :: letter :: token, rfl, fun more => ?_⟩
    rw [List.cons_append, List.cons_append, readString_letter hc]
    exact hread more
  | case12 => cases h
  | case13 done c rest' hquote hu hescape hc ih =>
    obtain ⟨token, rfl, hread⟩ := ih h
    have hplain : ¬(c.toNat < 0x20) ∧ c ≠ '\\' := by simpa using hc
    refine ⟨c :: token, rfl, fun more => ?_⟩
    rw [List.cons_append, readString_plain hquote hplain.2 hplain.1]
    exact hread more

/-! Numbers -/

/-- The characters that a number could go on with, behind its digits and its point. -/
def continuesFraction (c : Char) : Bool := c.isDigit || c = '.'

/-- The characters that a number could go on with. -/
def continuesNumber (c : Char) : Bool := continuesFraction c || c = 'e' || c = 'E'

theorem continuesFraction_of_isDigit (c : Char) (h : c.isDigit = true) :
    continuesFraction c = true := by
  simp [continuesFraction, h]

theorem continuesNumber_of_fraction (c : Char) (h : continuesFraction c = true) :
    continuesNumber c = true := by
  simp [continuesNumber, h]

theorem exists_token_of_readFraction {text digits rest : List Char}
    (h : readFraction text = some (digits, rest)) :
    ∃ token, text = token ++ rest ∧ (token = [] ∨ EndsSolid token) ∧
      Text.EndsRun Char.isDigit token ∧
        ∀ more, Text.EndsRun continuesFraction more →
          readFraction (token ++ more) = some (digits, more) := by
  unfold readFraction at h
  split at h
  next tail =>
    split at h
    · cases h
    next hsome =>
      cases h
      have hdigits : ∀ c ∈ tail.takeWhile Char.isDigit, c.isDigit = true := fun _ =>
        List.mem_takeWhile_imp
      refine ⟨'.' :: tail.takeWhile Char.isDigit, ?_, ?_, Text.endsRun_cons rfl _, ?_⟩
      · rw [List.cons_append, List.takeWhile_append_dropWhile]
      · exact .inr ((endsSolid_of_digits hsome hdigits).append ['.'])
      · intro more hmore
        have hends := hmore.imp continuesFraction_of_isDigit
        rw [List.cons_append, readFraction, Text.takeWhile_run hdigits hends,
          Text.dropWhile_run hdigits hends]
        split
        · contradiction
        · rfl
  next hpoint =>
    cases h
    refine ⟨[], rfl, .inl rfl, Text.endsRun_nil, fun more hmore => ?_⟩
    rw [List.nil_append, readFraction]
    intro tail hmoreText
    subst hmoreText
    cases hmore '.' rfl

theorem exists_sign_of_splitSign (text : List Char) :
    ∃ sign, text = sign ++ (Decimal.splitSign text).2 ∧ ∀ c more, c.isDigit = true →
      Decimal.splitSign (sign ++ c :: more) = ((Decimal.splitSign text).1, c :: more) := by
  unfold Decimal.splitSign
  split
  next rest => exact ⟨['-'], rfl, fun c more _ => rfl⟩
  next rest => exact ⟨['+'], rfl, fun c more _ => rfl⟩
  next hminus hplus =>
    refine ⟨[], rfl, fun c more hc => ?_⟩
    have hne : ∀ sign : Char, sign.isDigit = false → c ≠ sign := fun sign hsign heq => by
      simp [heq, hsign] at hc
    simp [hne '-' rfl, hne '+' rfl]

theorem readExponent_of_endsRun {text : List Char} (h : Text.EndsRun continuesNumber text) :
    readExponent text = some (none, text) := by
  cases text with
  | nil => rfl
  | cons c text =>
    have hc : continuesNumber c = false := h c rfl
    simp only [continuesNumber, Bool.or_eq_false_iff, decide_eq_false_iff_not] at hc
    rw [readExponent, if_neg (by simp [hc])]

theorem exists_token_of_readExponent {text rest : List Char} {exponent : Option Int}
    (h : readExponent text = some (exponent, rest)) :
    ∃ token, text = token ++ rest ∧ (token = [] ∨ EndsSolid token) ∧
      Text.EndsRun continuesFraction token ∧
        ∀ more, Text.EndsRun continuesNumber more →
          readExponent (token ++ more) = some (exponent, more) := by
  unfold readExponent at h
  split at h
  next c tail =>
    split at h
    next hletter =>
      obtain ⟨sign, htail, hsign⟩ := exists_sign_of_splitSign tail
      dsimp only at h
      split at h
      · cases h
      next digits hsome =>
        cases h
        generalize (Decimal.splitSign tail).2 = body at htail hsome ⊢
        have hdigits : ∀ c ∈ body.takeWhile Char.isDigit, c.isDigit = true := fun _ =>
          List.mem_takeWhile_imp
        obtain ⟨first, others, hfirst⟩ := List.exists_cons_of_ne_nil hsome
        refine ⟨c :: (sign ++ body.takeWhile Char.isDigit), ?_, ?_, ?_, fun more hmore => ?_⟩
        · rw [List.cons_append, List.append_assoc, List.takeWhile_append_dropWhile, ← htail]
        · exact .inr ((endsSolid_of_digits hsome hdigits).append (c :: sign))
        · refine Text.endsRun_cons ?_ _
          simp only [Bool.or_eq_true, decide_eq_true_eq] at hletter
          rcases hletter with rfl | rfl <;> rfl
        · have hends : Text.EndsRun Char.isDigit more := hmore.imp fun c hc =>
            continuesNumber_of_fraction c (continuesFraction_of_isDigit c hc)
          have hcut : Decimal.splitSign (sign ++ (body.takeWhile Char.isDigit ++ more)) =
              ((Decimal.splitSign tail).1, body.takeWhile Char.isDigit ++ more) := by
            rw [hfirst, List.cons_append]
            exact hsign first _ (hdigits first (by simp [hfirst]))
          rw [List.cons_append, List.append_assoc, readExponent, if_pos hletter, hcut]
          simp only [Text.takeWhile_run hdigits hends, Text.dropWhile_run hdigits hends]
    next hletter =>
      cases h
      exact ⟨[], rfl, .inl rfl, Text.endsRun_nil, fun more => readExponent_of_endsRun⟩
  next =>
    cases h
    exact ⟨[], rfl, .inl rfl, Text.endsRun_nil, fun more => readExponent_of_endsRun⟩

/-- A number is read up to its last digit, whatever stands behind it that no number goes on with. -/
theorem exists_token_of_readNumber {negative : Bool} {text rest : List Char} {number : Number}
    (h : readNumber negative text = some (number, rest)) :
    ∃ token, text = token ++ rest ∧ EndsSolid token ∧
      ∀ more, Text.EndsRun continuesNumber more →
        readNumber negative (token ++ more) = some (number, more) := by
  unfold readNumber at h
  dsimp only at h
  split at h
  · cases h
  next hwhole =>
    simp only [Option.bind_eq_bind, Option.bind_eq_some_iff] at h
    obtain ⟨⟨fraction, behind⟩, hfraction, ⟨exponent, behind'⟩, hexponent, hnumber⟩ := h
    cases hnumber
    obtain ⟨point, hpoint, hpointEnds, hpointRun, hreadFraction⟩ :=
      exists_token_of_readFraction hfraction
    obtain ⟨letter, rfl, hletterEnds, hletterRun, hreadExponent⟩ :=
      exists_token_of_readExponent hexponent
    have hdigits : ∀ c ∈ text.takeWhile Char.isDigit, c.isDigit = true := fun _ =>
      List.mem_takeWhile_imp
    have hsome : text.takeWhile Char.isDigit ≠ [] := fun hnil => by simp [hnil] at hwhole
    -- the parts that are there end in a digit, and each is over where the next one begins
    refine ⟨text.takeWhile Char.isDigit ++ (point ++ letter), ?_, ?_, fun more hmore => ?_⟩
    · rw [List.append_assoc, List.append_assoc, ← hpoint, List.takeWhile_append_dropWhile]
    · have hwholeEnds := endsSolid_of_digits hsome hdigits
      rcases hletterEnds with rfl | hletterEnds
      · rcases hpointEnds with rfl | hpointEnds
        · simpa using hwholeEnds
        · simpa using hpointEnds.append (text.takeWhile Char.isDigit)
      · exact (hletterEnds.append point).append _
    · have hletterMore : Text.EndsRun continuesFraction (letter ++ more) :=
        hletterRun.append (hmore.imp continuesNumber_of_fraction)
      have hpointMore : Text.EndsRun Char.isDigit (point ++ (letter ++ more)) :=
        hpointRun.append (hletterMore.imp continuesFraction_of_isDigit)
      rw [List.append_assoc, List.append_assoc, readNumber]
      simp only [Text.takeWhile_run hdigits hpointMore, Text.dropWhile_run hdigits hpointMore,
        hwhole, hreadFraction _ hletterMore, hreadExponent _ hmore, Option.bind_eq_bind,
        Option.bind_some]
      rw [if_neg Bool.false_ne_true]

theorem readMagnitude_eq_some_iff {value? : Number → Option Json} {negative : Bool}
    {text rest : List Char} {value : Json} :
    readMagnitude value? negative text = some (value, rest) ↔
      ∃ number, readNumber negative text = some (number, rest) ∧ value? number = some value := by
  simp only [readMagnitude, Option.bind_eq_bind, Option.bind_eq_some_iff]
  constructor
  · rintro ⟨⟨number, behind⟩, hnumber, other, hvalue, hpair⟩
    cases hpair
    exact ⟨number, hnumber, hvalue⟩
  · rintro ⟨number, hnumber, hvalue⟩
    exact ⟨_, hnumber, _, hvalue, rfl⟩

/-- What a number is worth has nothing to do with what stands behind it. -/
theorem exists_token_of_readMagnitude {value? : Number → Option Json} {negative : Bool}
    {text rest : List Char} {value : Json}
    (h : readMagnitude value? negative text = some (value, rest)) :
    ∃ token, text = token ++ rest ∧ EndsSolid token ∧
      ∀ more, Text.EndsRun continuesNumber more →
        readMagnitude value? negative (token ++ more) = some (value, more) := by
  obtain ⟨number, hnumber, hvalue⟩ := readMagnitude_eq_some_iff.mp h
  obtain ⟨token, htoken, hends, hread⟩ := exists_token_of_readNumber hnumber
  exact ⟨token, htoken, hends, fun more hmore =>
    readMagnitude_eq_some_iff.mpr ⟨number, hread more hmore, hvalue⟩⟩

/-! Beginnings of values -/

/-- What can begin a value: an opening, if that is not too deep, or all of a string, number or
word. -/
inductive Starts (value? : Number → Option Json) (limit : Nat) (stack : List Frame) :
    List Char → State → List Char → Prop where
  | object {rest} (hdepth : stack.length < limit) :
      Starts value? limit stack ('{' :: rest) (.nameOrEnd stack) rest
  | array {rest} (hdepth : stack.length < limit) :
      Starts value? limit stack ('[' :: rest) (.itemOrEnd stack) rest
  | string {text value rest} (hread : readString [] text = some (value, rest)) :
      Starts value? limit stack ('"' :: text) (.after (.string (String.ofList value)) stack) rest
  | negative {text value rest} (hread : readMagnitude value? true text = some (value, rest)) :
      Starts value? limit stack ('-' :: text) (.after value stack) rest
  | number {c text value rest} (hdigit : c.isDigit = true)
      (hread : readMagnitude value? false (c :: text) = some (value, rest)) :
      Starts value? limit stack (c :: text) (.after value stack) rest
  | true {rest} :
      Starts value? limit stack ('t' :: 'r' :: 'u' :: 'e' :: rest) (.after (.boolean true) stack)
        rest
  | false {rest} :
      Starts value? limit stack ('f' :: 'a' :: 'l' :: 's' :: 'e' :: rest)
        (.after (.boolean false) stack) rest
  | null {rest} :
      Starts value? limit stack ('n' :: 'u' :: 'l' :: 'l' :: rest) (.after .null stack) rest

theorem startValue_eq_some_iff {value? : Number → Option Json} {limit : Nat} {stack : List Frame}
    {c : Char} {text rest : List Char} {next : State} :
    startValue value? limit stack c text = some (next, rest) ↔
      Starts value? limit stack (c :: text) next rest := by
  constructor
  · intro h
    unfold startValue at h
    split at h
    next hc =>
      split at h
      next hdepth =>
        cases h
        exact hc ▸ .object hdepth
      · cases h
    split at h
    next hc =>
      split at h
      next hdepth =>
        cases h
        exact hc ▸ .array hdepth
      · cases h
    split at h
    next hc =>
      split at h
      · cases h
      next hread =>
        cases h
        exact hc ▸ .string hread
    split at h
    next hc =>
      split at h
      · cases h
      next hread =>
        cases h
        exact hc ▸ .negative hread
    split at h
    next hdigit =>
      split at h
      · cases h
      next hread =>
        cases h
        exact .number hdigit hread
    split at h
    · cases h
      exact .true
    · cases h
      exact .false
    · cases h
      exact .null
    · cases h
  · intro h
    cases h with
    | object hdepth => simp [startValue, hdepth]
    | array hdepth => simp [startValue, hdepth]
    | string hread => simp [startValue, hread]
    | negative hread => simp [startValue, hread]
    | number hdigit hread =>
      have hne : ∀ sign : Char, sign.isDigit = false → c ≠ sign := fun sign hsign heq => by
        simp [heq, hsign] at hdigit
      simp [startValue, hne, hdigit, hread]
    | true => simp [startValue]
    | false => simp [startValue]
    | null => simp [startValue]

/-! Steps -/

/-- The state with further frames at the bottom of its stack. -/
def State.above (base : List Frame) : State → State
  | .value stack => .value (stack ++ base)
  | .itemOrEnd stack => .itemOrEnd (stack ++ base)
  | .nameOrEnd stack => .nameOrEnd (stack ++ base)
  | .name entries stack => .name entries (stack ++ base)
  | .colon entries key stack => .colon entries key (stack ++ base)
  | .after json stack => .after json (stack ++ base)

/-- A text can stand behind a token that leads to the state: behind a value, no number goes on. -/
def State.Admits (more : List Char) : State → Prop
  | .after .. => Text.EndsRun continuesNumber more
  | _ => True

section Steps
variable {value? : Number → Option Json} {limit : Nat} {stack : List Frame} {c : Char}
  {text rest : List Char} {state next : State}

/-- A value or its opening is a token, and more frames below it need as much more depth. -/
theorem exists_token_of_starts (h : Starts value? limit stack text next rest) :
    ∃ token, text = token ++ rest ∧ EndsSolid token ∧
      ∀ base larger more, limit + base.length ≤ larger → next.Admits more →
        Starts value? larger (stack ++ base) (token ++ more) (next.above base) more := by
  cases h with
  | object hdepth =>
    refine ⟨['{'], rfl, endsSolid_singleton (by decide), fun base larger more hlimit _ => ?_⟩
    exact .object (by rw [List.length_append]; omega)
  | array hdepth =>
    refine ⟨['['], rfl, endsSolid_singleton (by decide), fun base larger more hlimit _ => ?_⟩
    exact .array (by rw [List.length_append]; omega)
  | string hread =>
    obtain ⟨token, rfl, hmore⟩ := exists_token_of_readString hread
    refine ⟨'"' :: (token ++ ['"']), by simp, ?_, fun base larger more _ _ => ?_⟩
    · exact (endsSolid_singleton (by decide)).append ('"' :: token)
    · rw [List.cons_append, List.append_assoc]
      exact .string (hmore more)
  | negative hread =>
    obtain ⟨token, rfl, hends, hmore⟩ := exists_token_of_readMagnitude hread
    exact ⟨'-' :: token, rfl, hends.append ['-'], fun base larger more _ hadmits =>
      .negative (hmore more hadmits)⟩
  | @number c text value rest hdigit hread =>
    obtain ⟨token, htoken, hends, hmore⟩ := exists_token_of_readMagnitude hread
    refine ⟨token, htoken, hends, fun base larger more _ hadmits => ?_⟩
    obtain ⟨d, others, rfl⟩ := List.exists_cons_of_ne_nil hends.ne_nil
    obtain ⟨rfl, -⟩ := List.cons.inj htoken
    exact .number hdigit (hmore more hadmits)
  | true =>
    exact ⟨"true".toList, rfl, (endsSolid_singleton (by decide)).append "tru".toList,
      fun base larger more _ _ => .true⟩
  | false =>
    exact ⟨"false".toList, rfl, (endsSolid_singleton (by decide)).append "fals".toList,
      fun base larger more _ _ => .false⟩
  | null =>
    exact ⟨"null".toList, rfl, (endsSolid_singleton (by decide)).append "nul".toList,
      fun base larger more _ _ => .null⟩

theorem exists_token_of_startName {entries : List (String × Json)}
    (h : startName entries stack c text = some (next, rest)) :
    ∃ token, text = token ++ rest ∧ EndsSolid (c :: token) ∧ ∀ base more,
      startName entries (stack ++ base) c (token ++ more) = some (next.above base, more) := by
  unfold startName at h
  split at h
  next hquote =>
    split at h
    · cases h
    next hread =>
      cases h
      obtain ⟨token, rfl, hmore⟩ := exists_token_of_readString hread
      refine ⟨token ++ ['"'], by simp, ?_, fun base more => ?_⟩
      · exact (endsSolid_singleton (by decide)).append (c :: token)
      · rw [startName, if_pos hquote, List.append_assoc, List.singleton_append, hmore]
        rfl
  · cases h

theorem exists_token_of_startValue (h : startValue value? limit stack c text = some (next, rest)) :
    ∃ token, text = token ++ rest ∧ EndsSolid (c :: token) ∧
      ∀ base larger more, limit + base.length ≤ larger → next.Admits more →
        startValue value? larger (stack ++ base) c (token ++ more) =
          some (next.above base, more) := by
  obtain ⟨token, htoken, hends, hmore⟩ := exists_token_of_starts (startValue_eq_some_iff.mp h)
  obtain ⟨d, others, rfl⟩ := List.exists_cons_of_ne_nil hends.ne_nil
  obtain ⟨rfl, htext⟩ := List.cons.inj htoken
  exact ⟨others, htext, hends, fun base larger more hlimit hadmits =>
    startValue_eq_some_iff.mpr (hmore base larger more hlimit hadmits)⟩

/-- A value is followed by a single character. -/
theorem eq_of_afterValue {json : Json} (h : afterValue json stack c = some next) :
    c = ',' ∨ c = ']' ∨ c = '}' := by
  unfold afterValue at h
  split at h
  · cases h
  · split at h
    next hcomma => exact .inl hcomma
    · split at h
      next hclosing => exact .inr (.inl hclosing)
      · cases h
  · split at h
    next hcomma => exact .inl hcomma
    · split at h
      next hclosing => exact .inr (.inr hclosing)
      · cases h

/-- Behind a value only the frame on top matters. -/
theorem afterValue_above {json : Json} (h : afterValue json stack c = some next)
    (base : List Frame) : afterValue json (stack ++ base) c = some (next.above base) := by
  cases stack with
  | nil => cases h
  | cons frame stack =>
    cases frame with
    | array items =>
      rw [afterValue] at h
      split at h
      next hcomma =>
        cases h
        exact if_pos hcomma
      next hcomma =>
        split at h
        next hclosing =>
          cases h
          exact (if_neg hcomma).trans (if_pos hclosing)
        · cases h
    | entry entries name =>
      rw [afterValue] at h
      split at h
      next hcomma =>
        cases h
        exact if_pos hcomma
      next hcomma =>
        split at h
        next hclosing =>
          cases h
          exact (if_neg hcomma).trans (if_pos hclosing)
        · cases h

/-- A step takes a token, whatever stands behind it and below its frames. -/
theorem exists_token_of_step (h : step value? limit c text state = some (next, rest)) :
    ∃ token, text = token ++ rest ∧ EndsSolid (c :: token) ∧
      ∀ base larger more, limit + base.length ≤ larger → next.Admits more →
        step value? larger c (token ++ more) (state.above base) = some (next.above base, more) := by
  cases state with
  | value stack => exact exists_token_of_startValue h
  | itemOrEnd stack =>
    rw [step] at h
    split at h
    next hclosing =>
      cases h
      exact ⟨[], rfl, endsSolid_singleton (hclosing ▸ by decide), fun base larger more _ _ =>
        if_pos hclosing⟩
    next hclosing =>
      obtain ⟨token, htoken, hends, hmore⟩ := exists_token_of_startValue h
      exact ⟨token, htoken, hends, fun base larger more hlimit hadmits =>
        (if_neg hclosing).trans (hmore base larger more hlimit hadmits)⟩
  | nameOrEnd stack =>
    rw [step] at h
    split at h
    next hclosing =>
      cases h
      exact ⟨[], rfl, endsSolid_singleton (hclosing ▸ by decide), fun base larger more _ _ =>
        if_pos hclosing⟩
    next hclosing =>
      obtain ⟨token, htoken, hends, hmore⟩ := exists_token_of_startName h
      exact ⟨token, htoken, hends, fun base larger more _ _ =>
        (if_neg hclosing).trans (hmore base more)⟩
  | name entries stack =>
    obtain ⟨token, htoken, hends, hmore⟩ := exists_token_of_startName h
    exact ⟨token, htoken, hends, fun base larger more _ _ => hmore base more⟩
  | colon entries name stack =>
    rw [step] at h
    split at h
    next hcolon =>
      cases h
      exact ⟨[], rfl, endsSolid_singleton (hcolon ▸ by decide), fun base larger more _ _ =>
        if_pos hcolon⟩
    · cases h
  | after value stack =>
    obtain ⟨behind, hafter, hpair⟩ := Option.map_eq_some_iff.mp h
    cases hpair
    have hsolid : Text.isBlank c = false := by
      rcases eq_of_afterValue hafter with rfl | rfl | rfl <;> decide
    refine ⟨[], rfl, endsSolid_singleton hsolid, fun base larger more _ _ => ?_⟩
    exact congrArg (Option.map (·, more)) (afterValue_above hafter base)

end Steps

/-! Runs -/

section Runs
variable {value? : Number → Option Json} {limit : Nat} {state : State} {value : Json}
  {text : List Char}

theorem readFrom_end (limit : Nat) (value : Json) :
    readFrom value? limit (.after value []) [] = some value := by
  rw [readFrom]

theorem readFrom_blank {c : Char} (h : isBlank c = true) (limit : Nat) (state : State)
    (rest : List Char) :
    readFrom value? limit state (c :: rest) = readFrom value? limit state rest := by
  rw [readFrom, if_pos h]

/-- White space in front of a token is skipped. -/
theorem readFrom_blanks {blanks : List Char} (h : ∀ c ∈ blanks, isBlank c = true)
    (rest : List Char) :
    readFrom value? limit state (blanks ++ rest) = readFrom value? limit state rest := by
  induction blanks with
  | nil => rfl
  | cons c blanks ih =>
    obtain ⟨hc, hblanks⟩ := List.forall_mem_cons.mp h
    rw [List.cons_append, readFrom_blank hc, ih hblanks]

theorem readFrom_solid {c : Char} (h : isBlank c = false) (limit : Nat) (state : State)
    (rest : List Char) :
    readFrom value? limit state (c :: rest) =
      (step value? limit c rest state).bind fun (next, rest) =>
        readFrom value? limit next rest := by
  rw [readFrom, if_neg (by simp [h])]
  split
  next hnone => rw [hnone, Option.bind_none]
  next hsome => rw [hsome, Option.bind_some]

theorem readFrom_step {c : Char} {rest : List Char} {next : State} (hc : isBlank c = false)
    (h : step value? limit c text state = some (next, rest)) :
    readFrom value? limit state (c :: text) = readFrom value? limit next rest := by
  rw [readFrom_solid hc, h, Option.bind_some]

theorem isBlank_of_digit {c : Char} (h : c.isDigit = true) : isBlank c = false := by
  cases hc : isBlank c with
  | false => rfl
  | true =>
    simp only [isBlank, Bool.or_eq_true, decide_eq_true_eq] at hc
    rcases hc with ((rfl | rfl) | rfl) | rfl <;> cases h

/-- What can begin a value is not skipped. -/
theorem readFrom_starts {c : Char} {stack : List Frame} {rest : List Char} {next : State}
    (h : Starts value? limit stack (c :: text) next rest) :
    readFrom value? limit (.value stack) (c :: text) = readFrom value? limit next rest := by
  have hc : isBlank c = false := by
    cases h with
    | number hdigit => exact isBlank_of_digit hdigit
    | _ => rfl
  exact readFrom_step hc (startValue_eq_some_iff.mpr h)

theorem continuesNumber_of_isBlank {c : Char} (h : isBlank c = true) :
    continuesNumber c = false := by
  simp only [isBlank, Bool.or_eq_true, decide_eq_true_eq] at h
  rcases h with ((rfl | rfl) | rfl) | rfl <;> rfl

/-- No number goes on with white space. -/
theorem endsRun_blanks {blanks : List Char} (h : ∀ c ∈ blanks, isBlank c = true) :
    Text.EndsRun continuesNumber blanks := by
  cases blanks with
  | nil => exact Text.endsRun_nil
  | cons c blanks => exact Text.endsRun_cons (continuesNumber_of_isBlank (h c List.mem_cons_self)) _

/-- Behind a value no number goes on. -/
theorem endsRun_of_readFrom_after {json : Json} {stack : List Frame}
    (h : readFrom value? limit (.after json stack) text = some value) :
    Text.EndsRun continuesNumber text := by
  cases text with
  | nil => exact Text.endsRun_nil
  | cons c rest =>
    refine Text.endsRun_cons ?_ rest
    rw [readFrom] at h
    split at h
    next hblank => exact continuesNumber_of_isBlank hblank
    · split at h
      · cases h
      next hstep =>
        obtain ⟨next, hafter, -⟩ := Option.map_eq_some_iff.mp hstep
        rcases eq_of_afterValue hafter with rfl | rfl | rfl <;> rfl

theorem admits_of_readFrom (h : readFrom value? limit state text = some value) {more : List Char}
    (hmore : Text.EndsRun continuesNumber more) : state.Admits (text ++ more) := by
  cases state with
  | after => exact (endsRun_of_readFrom_after h).append hmore
  | _ => trivial

/-- A text that is read to its end is read as the same value on top of further frames, if it may
nest as much deeper, and what stands behind it comes after that value. -/
theorem readFrom_above (h : readFrom value? limit state text = some value) (base : List Frame)
    {larger : Nat} (hlimit : limit + base.length ≤ larger) {more : List Char}
    (hmore : Text.EndsRun continuesNumber more) :
    readFrom value? larger (state.above base) (text ++ more) =
      readFrom value? larger (.after value base) more := by
  fun_induction readFrom value? limit state text with
  | case1 => cases h; rfl
  | case2 => cases h
  | case3 state c rest hc ih =>
    rw [List.cons_append, readFrom_blank hc]
    exact ih h
  | case4 => cases h
  | case5 state c rest hc next rest' hstep ih =>
    obtain ⟨token, rfl, -, hread⟩ := exists_token_of_step hstep
    have hnext := hread base larger _ hlimit (admits_of_readFrom h hmore)
    rw [List.cons_append, List.append_assoc, readFrom_step (Bool.not_eq_true _ ▸ hc) hnext]
    exact ih h

theorem State.above_nil (state : State) : state.above [] = state := by
  cases state <;> simp [State.above]

/-- A larger limit does not change a value. -/
theorem readFrom_mono (h : readFrom value? limit state text = some value) {larger : Nat}
    (hlimit : limit ≤ larger) : readFrom value? larger state text = some value := by
  have habove := readFrom_above h [] hlimit Text.endsRun_nil
  rw [State.above_nil, List.append_nil] at habove
  rw [habove, readFrom_end]

/-- White space behind a text is no part of its value. -/
theorem readFrom_of_append_blank {tail : List Char}
    (htail : ∀ c ∈ tail, Text.isBlank c = true)
    (h : readFrom value? limit state (text ++ tail) = some value) :
    readFrom value? limit state text = some value := by
  generalize hwhole : text ++ tail = whole at h
  fun_induction readFrom value? limit state whole generalizing text tail with
  | case1 =>
    obtain ⟨rfl, -⟩ := List.append_eq_nil_iff.mp hwhole
    rw [readFrom, h]
  | case2 => cases h
  | case3 state c rest hc ih =>
    -- a blank of the reader is white space, so it can be in the text or in the tail
    cases text with
    | nil =>
      obtain rfl : tail = c :: rest := hwhole
      exact ih (fun d hd => htail d (List.mem_cons_of_mem c hd)) rfl h
    | cons d text =>
      obtain ⟨rfl, hrest⟩ := List.cons.inj hwhole
      rw [readFrom_blank hc]
      exact ih htail hrest h
  | case4 => cases h
  | case5 state c rest hc next rest' hstep ih =>
    obtain ⟨token, rfl, hends, hread⟩ := exists_token_of_step hstep
    obtain ⟨more, rfl, rfl⟩ := exists_of_append_blank hends htail hwhole
    have hvalue := ih htail rfl h
    have hadmits := admits_of_readFrom hvalue Text.endsRun_nil
    rw [List.append_nil] at hadmits
    have hnext := hread [] limit more (Nat.le_refl _) hadmits
    rw [State.above_nil, State.above_nil] at hnext
    rw [List.cons_append, readFrom_step (Bool.not_eq_true _ ▸ hc) hnext]
    exact hvalue

end Runs

end NodeQuery.Json

import NodeQuery.Json.Printer
import NodeQuery.Proofs.Decimal.Printing
import NodeQuery.Proofs.Json.Locality

/-!
# Numbers and what they spell

Taken at its word, a number without point and exponent is an integer of any size, and any other is
the double nearest to what it spells. At their word the printed integers and finite doubles are what
they were printed of.
-/
namespace NodeQuery.Json
open Decimal (IsNearest Layout shortestValue)
open Text (EndsRun endsRun_cons takeWhile_run dropWhile_run)

namespace Number

/-- The number that is spelled, without its sign. -/
def magnitude (n : Number) : ℚ :=
  Nat.ofDigitChars 10 (n.whole ++ n.fraction) 0 * 10 ^ (n.exponent.getD 0 - n.fraction.length)

/-- There is neither a point nor an exponent. -/
def IsWhole (n : Number) : Prop := n.fraction = [] ∧ n.exponent = none

open Classical in
/-- The value of a number at its word, if it is not too large for a double. -/
noncomputable def spelled? (n : Number) : Option Json :=
  if n.IsWhole then
    let size : Int := Nat.ofDigitChars 10 n.whole 0
    some (.integer (if n.negative then -size else size))
  else if h : ∃ x, IsNearest n.negative n.magnitude x then some (.real h.choose)
  else none

section Exact
variable {n : Number} {x : Float}

theorem spelled?_of_isWhole (h : n.IsWhole) :
    n.spelled? = some (.integer (if n.negative then -(Nat.ofDigitChars 10 n.whole 0 : Int)
      else Nat.ofDigitChars 10 n.whole 0)) :=
  if_pos h

theorem spelled?_of_isNearest (hwhole : ¬n.IsWhole) (h : IsNearest n.negative n.magnitude x) :
    n.spelled? = some (.real x) := by
  have hexists : ∃ y, IsNearest n.negative n.magnitude y := ⟨x, h⟩
  rw [spelled?, if_neg hwhole, dif_pos hexists, hexists.choose_spec.unique h]

end Exact

end Number

/-! Tokens -/

/-- Digits that do not begin with a zero, unless it is the only one. -/
structure IsDecimal (digits : List Char) : Prop where
  isDigit : ∀ c ∈ digits, c.isDigit = true
  ne_nil : digits ≠ []
  leading : ∀ more, digits = '0' :: more → more = []

theorem isDecimal_toDigits (n : Nat) : IsDecimal (Nat.toDigits 10 n) :=
  ⟨fun _ => Text.isDigit_of_mem_toDigits, Nat.toDigits_ne_nil, fun _ =>
    Text.eq_nil_of_toDigits_eq⟩

section Tokens
variable {negative : Bool} {whole fraction digits behind more rest : List Char}
  {exponent : Option Int}

/-- A number is read part by part. -/
theorem readNumber_append (hwhole : IsDecimal whole) (hbehind : EndsRun Char.isDigit behind)
    (hfraction : readFraction behind = some (fraction, more))
    (hexponent : readExponent more = some (exponent, rest)) :
    readNumber negative (whole ++ behind) = some (⟨negative, whole, fraction, exponent⟩, rest) := by
  have hleading : ¬(whole.isEmpty || (whole.head? == some '0' && 1 < whole.length)) = true := by
    obtain ⟨c, others, rfl⟩ := List.exists_cons_of_ne_nil hwhole.ne_nil
    have hzero : c = '0' → others = [] := fun hc => hwhole.leading others (hc ▸ rfl)
    simpa using hzero
  rw [readNumber]
  simp only [takeWhile_run hwhole.isDigit hbehind, dropWhile_run hwhole.isDigit hbehind]
  rw [if_neg hleading, hfraction]
  simp [hexponent]

theorem readFraction_of_endsRun (h : EndsRun continuesNumber rest) :
    readFraction rest = some ([], rest) := by
  rw [readFraction]
  intro tail htail
  subst htail
  cases h '.' rfl

theorem readFraction_point (hdigits : ∀ c ∈ digits, c.isDigit = true) (hsome : digits ≠ [])
    (hrest : EndsRun Char.isDigit rest) :
    readFraction ('.' :: (digits ++ rest)) = some (digits, rest) := by
  rw [readFraction, takeWhile_run hdigits hrest, dropWhile_run hdigits hrest]
  cases digits with
  | nil => exact absurd rfl hsome
  | cons c digits => rfl

theorem endsRun_isDigit (h : EndsRun continuesNumber rest) : EndsRun Char.isDigit rest :=
  h.imp fun c hc => continuesNumber_of_fraction c (continuesFraction_of_isDigit c hc)

theorem readNumber_whole (hwhole : IsDecimal whole) (hrest : EndsRun continuesNumber rest) :
    readNumber negative (whole ++ rest) = some (⟨negative, whole, [], none⟩, rest) :=
  readNumber_append hwhole (endsRun_isDigit hrest) (readFraction_of_endsRun hrest)
    (readExponent_of_endsRun hrest)

theorem readNumber_point (hwhole : IsDecimal whole) (hdigits : ∀ c ∈ digits, c.isDigit = true)
    (hsome : digits ≠ []) (hrest : EndsRun continuesNumber rest) :
    readNumber negative (whole ++ '.' :: (digits ++ rest)) =
      some (⟨negative, whole, digits, none⟩, rest) :=
  readNumber_append hwhole (endsRun_cons rfl _)
    (readFraction_point hdigits hsome (endsRun_isDigit hrest)) (readExponent_of_endsRun hrest)

theorem ofDigits_eq (digits : List Char) :
    Decimal.ofDigits digits = Nat.ofDigitChars 10 digits 0 := by
  rw [Decimal.ofDigits, Nat.ofDigitChars_eq_foldl]
  simp only [Nat.mul_comm]
  rfl

theorem readExponent_signed (exponent : Int) (hrest : EndsRun continuesNumber rest) :
    readExponent ('e' :: (if exponent < 0 then '-' else '+') ::
      (Nat.toDigits 10 exponent.natAbs ++ rest)) = some (some exponent, rest) := by
  have hdigits : ∀ c ∈ Nat.toDigits 10 exponent.natAbs, c.isDigit = true := fun _ =>
    Text.isDigit_of_mem_toDigits
  have hsplit : ∀ text, Decimal.splitSign ((if exponent < 0 then '-' else '+') :: text) =
      (decide (exponent < 0), text) := by
    intro text
    split <;> simp_all [Decimal.splitSign]
  have hsize := ofDigits_eq (Nat.toDigits 10 exponent.natAbs)
  rw [Nat.ofDigitChars_ten_toDigits] at hsize
  have hsome : Nat.toDigits 10 exponent.natAbs ≠ [] := Nat.toDigits_ne_nil
  have hends := endsRun_isDigit hrest
  rw [readExponent, if_pos (by decide), hsplit]
  simp only [takeWhile_run hdigits hends, dropWhile_run hdigits hends]
  generalize Nat.toDigits 10 exponent.natAbs = digits at hsize hsome
  cases digits with
  | nil => exact absurd rfl hsome
  | cons c digits =>
    rw [hsize]
    simp only [decide_eq_true_eq]
    congr 3
    split <;> omega

end Tokens

/-! Doubles -/

/-- The text is read as a number of the magnitude that is not whole, whatever its sign and whatever
stands behind it. -/
def Writes (text : List Char) (magnitude : ℚ) : Prop :=
  ∀ (negative : Bool) (rest : List Char), EndsRun continuesNumber rest →
    ∃ n, readNumber negative (text ++ rest) = some (n, rest) ∧ n.negative = negative ∧
      ¬n.IsWhole ∧ n.magnitude = magnitude

section Doubles
variable {whole digits : List Char}

theorem writes_point (hwhole : IsDecimal whole) (hdigits : ∀ c ∈ digits, c.isDigit = true)
    (hsome : digits ≠ []) :
    Writes (whole ++ '.' :: digits)
      (Nat.ofDigitChars 10 (whole ++ digits) 0 * 10 ^ (-(digits.length : Int))) := by
  intro negative rest hrest
  refine ⟨⟨negative, whole, digits, none⟩, ?_, rfl, fun h => hsome h.1, ?_⟩
  · rw [List.append_assoc, List.cons_append, readNumber_point hwhole hdigits hsome hrest]
  · simp [Number.magnitude]

theorem isDecimal_zero : IsDecimal ['0'] := isDecimal_toDigits 0

theorem isDecimal_of_head (hdigits : ∀ c ∈ digits, c.isDigit = true) (hsome : digits ≠ [])
    (hlead : digits.head? ≠ some '0') : IsDecimal digits :=
  ⟨hdigits, hsome, fun _ hzero => absurd (hzero ▸ rfl) hlead⟩

/-- Digits that do not begin with a zero are printed with a point and digits on both sides. -/
theorem exists_point_of_positional (hdigits : ∀ c ∈ digits, c.isDigit = true)
    (hsome : digits ≠ []) (hlead : digits.head? ≠ some '0') (point : Int) :
    ∃ whole fraction, Layout.json.positional digits point = whole ++ '.' :: fraction ∧
      IsDecimal whole ∧ (∀ c ∈ fraction, c.isDigit = true) ∧ fraction ≠ [] := by
  rw [Layout.positional]
  split
  next hpoint =>
    exact ⟨['0'], _, rfl, isDecimal_zero,
      List.forall_mem_append.mpr ⟨Decimal.isDigit_of_mem_zeros, hdigits⟩,
      List.append_ne_nil_of_right_ne_nil _ hsome⟩
  next hpoint =>
    dsimp only
    split
    next hwhole =>
      refine ⟨_, ['0'], rfl, ?_, isDecimal_zero.isDigit, isDecimal_zero.ne_nil⟩
      exact isDecimal_of_head
        (List.forall_mem_append.mpr ⟨hdigits, Decimal.isDigit_of_mem_zeros⟩)
        (List.append_ne_nil_of_left_ne_nil hsome _)
        (by rwa [List.head?_append_of_ne_nil _ hsome])
    next hwhole =>
      have hleft : digits.take point.toNat ≠ [] := by
        rw [ne_eq, List.take_eq_nil_iff, not_or]
        exact ⟨by omega, hsome⟩
      have hright : digits.drop point.toNat ≠ [] := by
        rw [ne_eq, List.drop_eq_nil_iff]
        omega
      refine ⟨_, _, rfl, ?_, fun c hc => hdigits c (List.mem_of_mem_drop hc), hright⟩
      exact isDecimal_of_head (fun c hc => hdigits c (List.mem_of_mem_take hc)) hleft
        (by rwa [List.head?_take, if_neg (by omega)])

theorem writes_positional (hdigits : ∀ c ∈ digits, c.isDigit = true) (hsome : digits ≠ [])
    (hlead : digits.head? ≠ some '0') (point : Int) :
    Writes (Layout.json.positional digits point)
      (Nat.ofDigitChars 10 digits 0 * 10 ^ (point - digits.length)) := by
  obtain ⟨whole, fraction, htext, hwhole, hfraction, hne⟩ :=
    exists_point_of_positional hdigits hsome hlead point
  have hvalue := Decimal.spelledValue_positional (l := Layout.json) (.inr rfl) hdigits point
  rw [htext, Decimal.spelledValue_point hwhole.isDigit] at hvalue
  rw [htext, ← hvalue]
  exact writes_point hwhole hfraction hne

theorem readFraction_letter (tail : List Char) :
    readFraction ('e' :: tail) = some ([], 'e' :: tail) := by
  rw [readFraction]
  intro rest hrest
  cases hrest

theorem writes_scientific (hdigits : ∀ c ∈ digits, c.isDigit = true) (hsome : digits ≠ [])
    (point : Int) :
    Writes (Layout.scientific digits point)
      (Nat.ofDigitChars 10 digits 0 * 10 ^ (point - digits.length)) := by
  intro negative rest hrest
  obtain ⟨c, more, rfl⟩ := List.exists_cons_of_ne_nil hsome
  obtain ⟨hc, hmore⟩ := List.forall_mem_cons.mp hdigits
  have hdecimal : IsDecimal [c] :=
    ⟨List.forall_mem_singleton.mpr hc, List.cons_ne_nil _ _, fun _ htext =>
      (List.cons.inj htext).2.symm⟩
  have hexponent := readExponent_signed (point - 1) hrest
  refine ⟨⟨negative, [c], more, some (point - 1)⟩, ?_, rfl, ?_, ?_⟩
  · cases more with
    | nil =>
      have hread : readNumber negative ([c] ++ _) = _ :=
        readNumber_append hdecimal (endsRun_cons rfl _) (readFraction_letter _) hexponent
      simpa [Layout.scientific] using hread
    | cons d more =>
      have hread : readNumber negative ([c] ++ _) = _ :=
        readNumber_append hdecimal (endsRun_cons rfl _)
          (readFraction_point hmore (List.cons_ne_nil d more) (endsRun_cons rfl _)) hexponent
      simpa [Layout.scientific] using hread
  · rintro ⟨-, hnone⟩
    cases hnone
  · have hlength : point - 1 - (more.length : Int) = point - ((c :: more).length : Int) := by
      rw [List.length_cons]
      omega
    rw [Number.magnitude, Option.getD_some, hlength]
    rfl

theorem head?_toDigits_ne {n : Nat} (h : n ≠ 0) : (Nat.toDigits 10 n).head? ≠ some '0' := by
  intro hzero
  obtain ⟨more, hmore⟩ := List.head?_eq_some_iff.mp hzero
  have hvalue := Nat.ofDigitChars_ten_toDigits (n := n)
  rw [hmore, Text.eq_nil_of_toDigits_eq hmore] at hvalue
  exact h hvalue.symm

theorem writes_scaled {d : Decimal.Scaled} (h : d.digits ≠ 0) :
    Writes (Layout.json.scaled d) d.value := by
  have hdigits := (isDecimal_toDigits d.digits).isDigit
  have hsome := (isDecimal_toDigits d.digits).ne_nil
  have hvalue : d.value = Nat.ofDigitChars 10 (Nat.toDigits 10 d.digits) 0 *
      10 ^ ((Nat.toDigits 10 d.digits).length + d.exponent -
        (Nat.toDigits 10 d.digits).length) := by
    rw [Nat.ofDigitChars_ten_toDigits, add_sub_cancel_left, Decimal.Scaled.value]
  rw [hvalue, Layout.scaled]
  split
  · exact writes_positional hdigits hsome (head?_toDigits_ne h) _
  · exact writes_scientific hdigits hsome _

/-- What is printed of a finite double stands for its shortest decimal. -/
theorem writes_magnitude {x : Float} (hx : x.isFinite = true) :
    Writes (Layout.json.magnitude x.toModel.unpack)
      (shortestValue .toEven x.toModel.unpack) := by
  rcases Decimal.cases_of_isFinite hx with ⟨sign, hunpack⟩ | ⟨sign, m, e, hpos, hunpack⟩
  · rw [hunpack]
    have hwrites := writes_point isDecimal_zero isDecimal_zero.isDigit isDecimal_zero.ne_nil
    have hzero : Nat.ofDigitChars 10 (['0'] ++ ['0']) 0 = 0 := rfl
    rwa [hzero, Nat.cast_zero, zero_mul] at hwrites
  · rw [hunpack, Layout.magnitude, Layout.scaled, shortestValue]
    have hround : (0 : ℚ) < (Decimal.shortest .toEven m e).value :=
      (Decimal.shortest_roundsTo .toEven hpos).pos hpos
    have hdigits : (Decimal.shortest .toEven m e).digits ≠ 0 := by
      intro hzero
      rw [Decimal.Scaled.value, hzero, Nat.cast_zero, zero_mul] at hround
      exact lt_irrefl _ hround
    exact writes_scaled hdigits

/-- A printed finite double is read as itself. -/
theorem readMagnitude_double {x : Float} (hx : x.isFinite = true) {rest : List Char}
    (hrest : EndsRun continuesNumber rest) :
    readMagnitude Number.spelled? (Decimal.isNegative x.toModel.unpack)
      (Layout.json.magnitude x.toModel.unpack ++ rest) = some (.real x, rest) := by
  obtain ⟨n, hread, hsign, hwhole, hmagnitude⟩ :=
    writes_magnitude hx (Decimal.isNegative x.toModel.unpack) rest hrest
  have hnearest := Decimal.isNearest_shortestValue hx .toEven
  rw [← hsign, ← hmagnitude] at hnearest
  exact readMagnitude_eq_some_iff.mpr ⟨n, hread, Number.spelled?_of_isNearest hwhole hnearest⟩

end Doubles

/-- The digits of an integer are read as the integer. -/
theorem readMagnitude_integer (value : Int) {rest : List Char}
    (hrest : EndsRun continuesNumber rest) :
    readMagnitude Number.spelled? (decide (value < 0)) (Nat.toDigits 10 value.natAbs ++ rest) =
      some (.integer value, rest) := by
  refine readMagnitude_eq_some_iff.mpr
    ⟨_, readNumber_whole (isDecimal_toDigits value.natAbs) hrest, ?_⟩
  rw [Number.spelled?_of_isWhole ⟨rfl, rfl⟩, Nat.ofDigitChars_ten_toDigits]
  simp only [decide_eq_true_eq]
  congr 2
  split <;> omega

/-! Numbers in a text -/

section Read
variable {limit : Nat} {stack : List Frame} {rest : List Char}

/-- A number begins with a digit. -/
theorem exists_digit_of_readNumber {negative : Bool} {text : List Char} {number : Number}
    (h : readNumber negative text = some (number, rest)) :
    ∃ c more, text = c :: more ∧ c.isDigit = true := by
  cases text with
  | nil => cases h
  | cons c more =>
    cases hc : c.isDigit with
    | true => exact ⟨c, more, rfl, hc⟩
    | false => simp [readNumber, hc] at h

/-- A number is read behind its sign. -/
theorem readFrom_number {value? : Number → Option Json} {negative : Bool} {text : List Char}
    {value : Json} (h : readMagnitude value? negative (text ++ rest) = some (value, rest)) :
    readFrom value? limit (.value stack) ((if negative then '-' :: text else text) ++ rest) =
      readFrom value? limit (.after value stack) rest := by
  cases negative with
  | true => exact readFrom_starts (.negative h)
  | false =>
    obtain ⟨number, hnumber, -⟩ := readMagnitude_eq_some_iff.mp h
    obtain ⟨c, more, htext, hdigit⟩ := exists_digit_of_readNumber hnumber
    change readFrom value? limit (.value stack) (text ++ rest) = _
    rw [htext] at h ⊢
    exact readFrom_starts (.number hdigit h)

theorem readFrom_double {x : Float} (hx : x.isFinite = true)
    (hrest : EndsRun continuesNumber rest) :
    readFrom Number.spelled? limit (.value stack) ((Layout.json.text x).toList ++ rest) =
      readFrom Number.spelled? limit (.after (.real x) stack) rest := by
  rw [Decimal.toList_text]
  exact readFrom_number (readMagnitude_double hx hrest)

theorem toList_toString_int (value : Int) :
    (toString value).toList =
      if decide (value < 0) then '-' :: Nat.toDigits 10 value.natAbs
      else Nat.toDigits 10 value.natAbs := by
  rw [Int.toString_eq_repr, Int.repr_eq_if]
  split
  next hpos =>
    have hsize : value.toNat = value.natAbs := by omega
    rw [Nat.toList_repr, hsize, if_neg (by simpa using hpos)]
  next hneg =>
    have hsize : (-value).toNat = value.natAbs := by omega
    rw [String.toList_append, Nat.toList_repr, hsize, if_pos (by simpa using hneg)]
    rfl

theorem readFrom_integer (value : Int) (hrest : EndsRun continuesNumber rest) :
    readFrom Number.spelled? limit (.value stack) ((toString value).toList ++ rest) =
      readFrom Number.spelled? limit (.after (.integer value) stack) rest := by
  rw [toList_toString_int]
  exact readFrom_number (readMagnitude_integer value hrest)

end Read

end NodeQuery.Json

import NodeQuery.Proofs.Decimal.Nearest
import NodeQuery.Proofs.Text.Digits
import NodeQuery.Proofs.Text.Runs

/-!
# Printed doubles

The plain text of a finite double is made of digits, a point and a sign, and spells the shortest
decimal of the double. Finite doubles with the same text are therefore the same, the two zeros
included, which have different signs.
-/
namespace NodeQuery.Decimal
open Text (endsRun_cons endsRun_nil takeWhile_run dropWhile_run)


/-- The number that digits with a point between them spell. -/
def spelledValue (text : List Char) : ℚ :=
  let fraction := (text.dropWhile Char.isDigit).drop 1
  Nat.ofDigitChars 10 (text.takeWhile Char.isDigit ++ fraction) 0 * 10 ^ (-(fraction.length : Int))

section Positional
variable {digits whole : List Char}

theorem spelledValue_whole (h : ∀ c ∈ digits, c.isDigit = true) :
    spelledValue digits = Nat.ofDigitChars 10 digits 0 := by
  have htake := takeWhile_run h endsRun_nil
  have hdrop := dropWhile_run h endsRun_nil
  rw [List.append_nil] at htake hdrop
  simp [spelledValue, htake, hdrop]

theorem spelledValue_point (h : ∀ c ∈ whole, c.isDigit = true) (fraction : List Char) :
    spelledValue (whole ++ '.' :: fraction) =
      Nat.ofDigitChars 10 (whole ++ fraction) 0 * 10 ^ (-(fraction.length : Int)) := by
  have hpoint : '.'.isDigit = false := rfl
  have hends := endsRun_cons hpoint fraction
  simp [spelledValue, takeWhile_run h hends, dropWhile_run h hends]

theorem isDigit_of_mem_zeros {n : Nat} : ∀ c ∈ List.replicate n '0', c.isDigit = true := by
  intro c hc
  rw [List.eq_of_mem_replicate hc]
  rfl

/-- The mark on whole numbers spells nothing. -/
theorem spelledValue_mark (h : ∀ c ∈ digits, c.isDigit = true) :
    spelledValue (digits ++ ['.', '0']) = spelledValue digits := by
  have hzero : Nat.ofDigitChars 10 ['0'] (Nat.ofDigitChars 10 digits 0) =
      10 * Nat.ofDigitChars 10 digits 0 := rfl
  rw [spelledValue_point h, spelledValue_whole h, Nat.ofDigitChars_append, hzero]
  push_cast [List.length_singleton]
  rw [zpow_neg_one]
  field_simp

/-- Wherever the point stands, the text spells the digits at their power of ten. -/
theorem spelledValue_positional {l : Layout} (hmark : l.wholeMark = [] ∨ l.wholeMark = ['.', '0'])
    (h : ∀ c ∈ digits, c.isDigit = true) (point : Int) :
    spelledValue (l.positional digits point) =
      Nat.ofDigitChars 10 digits 0 * 10 ^ (point - digits.length) := by
  rw [Layout.positional]
  split
  next hpoint =>
    have hzero : ∀ c ∈ ['0'], c.isDigit = true := by simp
    have hvalue : Nat.ofDigitChars 10 ('0' :: (List.replicate point.natAbs '0' ++ digits)) 0 =
        Nat.ofDigitChars 10 digits 0 := by
      rw [← List.cons_append, ← List.replicate_succ, Nat.ofDigitChars_append,
        Nat.ofDigitChars_replicate_zero, Nat.mul_zero]
    have hexponent : -((point.natAbs + digits.length : Nat) : Int) = point - digits.length := by
      omega
    have htext := spelledValue_point hzero (List.replicate point.natAbs '0' ++ digits)
    simp only [List.singleton_append, List.length_append, List.length_replicate, hvalue,
      hexponent] at htext
    exact htext
  next hpoint =>
    dsimp only
    split
    next hwhole =>
      have hall : ∀ c ∈ digits ++ List.replicate (point.toNat - digits.length) '0',
          c.isDigit = true := List.forall_mem_append.mpr ⟨h, isDigit_of_mem_zeros⟩
      have hexponent : ((point.toNat - digits.length : Nat) : Int) = point - digits.length := by
        omega
      have hfilled : spelledValue (digits ++ List.replicate (point.toNat - digits.length) '0') =
          Nat.ofDigitChars 10 digits 0 * 10 ^ (point - digits.length) := by
        rw [spelledValue_whole hall, Nat.ofDigitChars_append, Nat.ofDigitChars_replicate_zero,
          ← hexponent, zpow_natCast, mul_comm]
        push_cast
        rfl
      rcases hmark with hmark | hmark
      · rw [hmark, List.append_nil, hfilled]
      · rw [hmark, spelledValue_mark hall, hfilled]
    next hwhole =>
      have htake : ∀ c ∈ digits.take point.toNat, c.isDigit = true := fun c hc =>
        h c (List.mem_of_mem_take hc)
      have hexponent : -((digits.length - point.toNat : Nat) : Int) = point - digits.length := by
        omega
      rw [spelledValue_point htake, List.take_append_drop, List.length_drop, hexponent]

/-- Digits are printed with a point between them, and with zeros. -/
theorem forall_mem_positional {P : Char → Prop} (h : ∀ c ∈ digits, P c) (hzero : P '0')
    (hpoint : P '.') (point : Int) : ∀ c ∈ Layout.plain.positional digits point, P c := by
  have hzeros : ∀ n, ∀ c ∈ List.replicate n '0', P c := by
    intro n c hc
    rw [List.eq_of_mem_replicate hc]
    exact hzero
  rw [Layout.positional]
  split
  · refine List.forall_mem_cons.mpr ⟨hzero, List.forall_mem_cons.mpr ⟨hpoint, ?_⟩⟩
    exact List.forall_mem_append.mpr ⟨hzeros _, h⟩
  · dsimp only
    split
    · have hmark : Layout.plain.wholeMark = [] := rfl
      rw [hmark, List.append_nil]
      exact List.forall_mem_append.mpr ⟨h, hzeros _⟩
    · refine List.forall_mem_append.mpr ⟨fun c hc => h c (List.mem_of_mem_take hc), ?_⟩
      exact List.forall_mem_cons.mpr ⟨hpoint, fun c hc => h c (List.mem_of_mem_drop hc)⟩

end Positional

/-! Doubles -/

theorem scaled_plain (d : Scaled) :
    Layout.plain.scaled d =
      Layout.plain.positional (Nat.toDigits 10 d.digits)
        ((Nat.toDigits 10 d.digits).length + d.exponent) := rfl

theorem spelledValue_scaled (d : Scaled) : spelledValue (Layout.plain.scaled d) = d.value := by
  have hdigits : ∀ c ∈ Nat.toDigits 10 d.digits, c.isDigit = true := fun c =>
    Text.isDigit_of_mem_toDigits
  rw [scaled_plain, spelledValue_positional (.inl rfl) hdigits, Nat.ofDigitChars_ten_toDigits,
    add_sub_cancel_left, Scaled.value]

section Texts
variable {x y : Float}

theorem spelledValue_zero : spelledValue ['0'] = 0 := by
  have hzero : ∀ c ∈ ['0'], c.isDigit = true := by simp
  rw [spelledValue_whole hzero]
  rfl

/-- What is printed of a finite double spells its shortest decimal. -/
theorem spelledValue_magnitude (hx : x.isFinite = true) :
    spelledValue (Layout.plain.magnitude x.toModel.unpack) =
      shortestValue .away x.toModel.unpack := by
  rcases cases_of_isFinite hx with ⟨sign, hunpack⟩ | ⟨sign, mantissa, exponent, hpos, hunpack⟩
  · rw [hunpack]
    exact spelledValue_zero
  · rw [hunpack]
    exact spelledValue_scaled _

theorem forall_mem_magnitude {P : Char → Prop} (hx : x.isFinite = true)
    (hdigit : ∀ c, c.isDigit = true → P c) (hpoint : P '.') :
    ∀ c ∈ Layout.plain.magnitude x.toModel.unpack, P c := by
  rcases cases_of_isFinite hx with ⟨sign, hunpack⟩ | ⟨sign, mantissa, exponent, hpos, hunpack⟩
  · have hzero : P '0' := hdigit '0' rfl
    rw [hunpack]
    exact List.forall_mem_singleton.mpr hzero
  · rw [hunpack, Layout.magnitude, scaled_plain]
    exact forall_mem_positional (fun c hc => hdigit c (Text.isDigit_of_mem_toDigits hc))
      (hdigit '0' rfl) hpoint _

theorem toList_text (l : Layout) (x : Float) :
    (l.text x).toList =
      if isNegative x.toModel.unpack then '-' :: l.magnitude x.toModel.unpack
      else l.magnitude x.toModel.unpack := by
  rw [Layout.text, String.toList_ofList]

/-- What holds of digits, the point and the sign holds of a printed double. -/
theorem forall_mem_text {P : Char → Prop} (hx : x.isFinite = true)
    (hdigit : ∀ c, c.isDigit = true → P c) (hpoint : P '.') (hsign : P '-') :
    ∀ c ∈ (Layout.plain.text x).toList, P c := by
  have hmagnitude := forall_mem_magnitude hx hdigit hpoint
  rw [toList_text]
  split
  · exact List.forall_mem_cons.mpr ⟨hsign, hmagnitude⟩
  · exact hmagnitude

/-- Finite doubles with the same text have the same sign and the same magnitude in print. -/
theorem eq_of_text_eq (hx : x.isFinite = true) (hy : y.isFinite = true)
    (h : Layout.plain.text x = Layout.plain.text y) :
    isNegative x.toModel.unpack = isNegative y.toModel.unpack ∧
      Layout.plain.magnitude x.toModel.unpack = Layout.plain.magnitude y.toModel.unpack := by
  have hnoSign : ∀ c : Char, c.isDigit = true → c ≠ '-' := by
    rintro c hc rfl
    cases hc
  have hxChars := forall_mem_magnitude (P := (· ≠ '-')) hx hnoSign (by decide)
  have hyChars := forall_mem_magnitude (P := (· ≠ '-')) hy hnoSign (by decide)
  have htexts := congrArg String.toList h
  rw [toList_text, toList_text] at htexts
  split at htexts
  next hxSign =>
    split at htexts
    next hySign => exact ⟨hxSign.trans hySign.symm, (List.cons.inj htexts).2⟩
    next => exact absurd rfl (hyChars '-' (htexts ▸ List.mem_cons_self))
  next hxSign =>
    split at htexts
    next => exact absurd rfl (hxChars '-' (htexts ▸ List.mem_cons_self))
    next hySign =>
      exact ⟨(Bool.eq_false_of_not_eq_true hxSign).trans
        (Bool.eq_false_of_not_eq_true hySign).symm, htexts⟩

/-- Different finite doubles have different texts. -/
theorem plain_text_injective (hx : x.isFinite = true) (hy : y.isFinite = true)
    (h : Layout.plain.text x = Layout.plain.text y) : x = y := by
  obtain ⟨hsign, hmagnitude⟩ := eq_of_text_eq hx hy h
  have hxNearest := isNearest_shortestValue hx .away
  have hyNearest := isNearest_shortestValue hy .away
  rw [← spelledValue_magnitude hx] at hxNearest
  rw [← spelledValue_magnitude hy, ← hsign, ← hmagnitude] at hyNearest
  exact hxNearest.unique hyNearest

end Texts

end NodeQuery.Decimal

import Mathlib.Algebra.Group.Nat.Defs

/-!
# Decimal texts

Digits and the number that they spell. A text of digits without a leading zero is the decimal text
of its number, so the two directions are inverse on such texts.
-/
namespace NodeQuery.Text

theorem toNat_digit {c : Char} (h : c.isDigit = true) : 48 ≤ c.toNat ∧ c.toNat ≤ 57 := by
  simpa [Char.isDigit, UInt32.le_iff_toNat_le] using h

theorem digitChar_toNat_sub {c : Char} (h : c.isDigit = true) :
    Nat.digitChar (c.toNat - 48) = c := by
  obtain ⟨hlow, hhigh⟩ := toNat_digit h
  apply Char.toNat_inj.mp
  rw [Nat.toNat_digitChar_of_lt_ten (by omega)]
  omega

theorem toDigits_digit {c : Char} (h : c.isDigit = true) :
    Nat.toDigits 10 (c.toNat - 48) = [c] := by
  have := toNat_digit h
  rw [Nat.toDigits_of_lt_base (by omega), digitChar_toNat_sub h]

theorem le_ofDigitChars (digits : List Char) (value : Nat) :
    value ≤ Nat.ofDigitChars 10 digits value := by
  induction digits generalizing value with
  | nil => simp
  | cons c digits ih =>
    rw [Nat.ofDigitChars_cons]
    exact Nat.le_trans (by omega) (ih _)

theorem ofDigitChars_lt {digits : List Char} (h : ∀ c ∈ digits, c.isDigit = true) :
    Nat.ofDigitChars 10 digits 0 < 10 ^ digits.length := by
  induction digits with
  | nil => simp
  | cons c digits ih =>
    have hc := toNat_digit (h c List.mem_cons_self)
    have hrest := ih fun d hd => h d (List.mem_cons_of_mem c hd)
    rw [Nat.ofDigitChars_cons, Nat.ofDigitChars_eq_ofDigitChars_zero, List.length_cons,
      Nat.pow_succ]
    have hhead : 10 * 0 + (c.toNat - '0'.toNat) ≤ 9 := by
      have : '0'.toNat = 48 := rfl
      omega
    have := Nat.mul_le_mul_left (10 ^ digits.length) hhead
    omega

/-- More digits behind the decimal text of a positive number give a decimal text again. -/
theorem toDigits_append_digits {value : Nat} (hvalue : 0 < value) {digits : List Char}
    (h : ∀ c ∈ digits, c.isDigit = true) :
    Nat.toDigits 10 value ++ digits = Nat.toDigits 10 (Nat.ofDigitChars 10 digits value) := by
  induction digits generalizing value with
  | nil => simp
  | cons c digits ih =>
    have hc := h c List.mem_cons_self
    obtain ⟨hlow, hhigh⟩ := toNat_digit hc
    have hzero : '0'.toNat = 48 := rfl
    have hlast := toDigits_digit hc
    calc
      Nat.toDigits 10 value ++ c :: digits
          = (Nat.toDigits 10 value ++ Nat.toDigits 10 (c.toNat - 48)) ++ digits := by simp [hlast]
      _ = Nat.toDigits 10 (10 * value + (c.toNat - 48)) ++ digits := by
        rw [Nat.toDigits_append_toDigits (by decide) hvalue (by omega)]
      _ = Nat.toDigits 10 (Nat.ofDigitChars 10 (c :: digits) value) := by
        rw [ih (by omega) fun d hd => h d (List.mem_cons_of_mem c hd), Nat.ofDigitChars_cons, hzero]

/-- A single digit, or digits that begin with another than zero, are the text of their number. -/
theorem toDigits_ofDigitChars {c : Char} {digits : List Char}
    (h : ∀ d ∈ c :: digits, d.isDigit = true) (hlead : c ≠ '0' ∨ digits = []) :
    Nat.toDigits 10 (Nat.ofDigitChars 10 (c :: digits) 0) = c :: digits := by
  have hc := h c List.mem_cons_self
  obtain ⟨hlow, hhigh⟩ := toNat_digit hc
  have hzero : '0'.toNat = 48 := rfl
  have hhead := toDigits_digit hc
  rw [Nat.ofDigitChars_cons, Nat.mul_zero, Nat.zero_add, hzero]
  rcases hlead with hne | rfl
  · have hpos : 0 < c.toNat - 48 := by
      have : c.toNat ≠ '0'.toNat := fun heq => hne (Char.toNat_inj.mp heq)
      omega
    rw [← toDigits_append_digits hpos fun d hd => h d (List.mem_cons_of_mem c hd), hhead]
    rfl
  · rw [Nat.ofDigitChars_nil, hhead]

theorem toList_toString (n : Nat) : (toString n).toList = Nat.toDigits 10 n := by
  rw [Nat.toString_eq_repr, Nat.toList_repr]

theorem isDigit_of_mem_toDigits {n : Nat} {c : Char} (h : c ∈ Nat.toDigits 10 n) :
    c.isDigit = true :=
  Nat.isDigit_of_mem_toDigits (by decide) (by decide) h

/-- Only the decimal text of zero begins with a zero. -/
theorem eq_nil_of_toDigits_eq {n : Nat} {digits : List Char}
    (h : Nat.toDigits 10 n = '0' :: digits) : digits = [] := by
  cases digits with
  | nil => rfl
  | cons d more =>
    have hdigit : ∀ c ∈ d :: more, c.isDigit = true := fun c hc =>
      isDigit_of_mem_toDigits (h ▸ List.mem_cons_of_mem '0' hc)
    have hn : Nat.ofDigitChars 10 (d :: more) 0 = n := by
      have hvalue := Nat.ofDigitChars_ten_toDigits (n := n)
      rw [h, Nat.ofDigitChars_cons] at hvalue
      exact hvalue
    have hlt := ofDigitChars_lt hdigit
    have hle : (Nat.toDigits 10 n).length ≤ (d :: more).length :=
      (Nat.length_toDigits_le_iff (by decide) (by simp)).mpr (hn ▸ hlt)
    rw [h, List.length_cons] at hle
    omega

end NodeQuery.Text

import NodeQuery.Host.Segment
import NodeQuery.Proofs.Text.Digits
import NodeQuery.Proofs.Text.Runs

/-!
# Numbers of bracket sets

Reading a number takes the whole run of digits that the text starts with. It fails on an empty run
and on a value above the bound, and nothing else. The 64-bit word never wraps on the way: it is in
range before every digit.
-/
namespace NodeQuery.Host.Segment
open Text

theorem toNat_digitValue {c : Char} (h : c.isDigit = true) :
    (digitValue c).toNat = c.toNat - 48 := by
  have := toNat_digit h
  exact UInt64.toNat_ofNat_of_lt' (by omega : c.toNat - 48 < 2 ^ 64)

/-- The next value fits a word, since the last one was below the bound. -/
theorem toNat_next {value : UInt64} (hvalue : value ≤ maxNumber) {c : Char}
    (h : c.isDigit = true) :
    (value * 10 + digitValue c).toNat = 10 * value.toNat + (c.toNat - 48) := by
  have hc := toNat_digit h
  have hbound : value.toNat ≤ 0xFFFFFFFF := UInt64.le_iff_toNat_le.mp hvalue
  have hten : (10 : UInt64).toNat = 10 := rfl
  rw [UInt64.toNat_add, UInt64.toNat_mul, toNat_digitValue h, hten]
  omega

theorem readDigits_eq {value : UInt64} (hvalue : value ≤ maxNumber) {digits rest : List Char}
    (hdigits : ∀ c ∈ digits, c.isDigit = true) (hends : EndsRun Char.isDigit rest) :
    readDigits value (digits ++ rest) =
      if Nat.ofDigitChars 10 digits value.toNat ≤ maxNumber.toNat then
        .ok (Nat.ofDigitChars 10 digits value.toNat, rest)
      else .error .numberOutOfRange := by
  induction digits generalizing value with
  | nil =>
    rw [Nat.ofDigitChars_nil, if_pos (UInt64.le_iff_toNat_le.mp hvalue), List.nil_append]
    cases rest with
    | nil => rfl
    | cons c rest =>
      have hc : c.isDigit = false := hends c rfl
      simp [readDigits, hc]
  | cons c digits ih =>
    have hc := hdigits c List.mem_cons_self
    have hnext := toNat_next hvalue hc
    have hzero : '0'.toNat = 48 := rfl
    rw [List.cons_append, readDigits, if_pos hc, Nat.ofDigitChars_cons, hzero, ← hnext]
    generalize value * 10 + digitValue c = next
    by_cases hbig : maxNumber < next
    · have hover : ¬ Nat.ofDigitChars 10 digits next.toNat ≤ maxNumber.toNat :=
        Nat.not_le.mpr (Nat.lt_of_lt_of_le (UInt64.lt_iff_toNat_lt.mp hbig)
          (le_ofDigitChars digits next.toNat))
      simp only [hbig, hover, if_true, if_false]
    · rw [← ih (UInt64.not_lt.mp hbig) fun d hd => hdigits d (List.mem_cons_of_mem c hd)]
      simp only [hbig, if_false]

/-- A number is exactly the run of digits in front of the text. -/
theorem readNumber_eq (text : List Char) :
    readNumber text =
      if text.takeWhile Char.isDigit = [] then .error .invalidNumber
      else if Nat.ofDigitChars 10 (text.takeWhile Char.isDigit) 0 ≤ maxNumber.toNat then
        .ok (Nat.ofDigitChars 10 (text.takeWhile Char.isDigit) 0, text.dropWhile Char.isDigit)
      else .error .numberOutOfRange := by
  cases text with
  | nil => rfl
  | cons c rest =>
    rw [readNumber]
    by_cases hc : c.isDigit = true
    · have hne : (c :: rest).takeWhile Char.isDigit ≠ [] := by simp [hc]
      rw [if_pos hc, if_neg hne]
      have hzero : (0 : UInt64) ≤ maxNumber := by decide
      have hread := readDigits_eq hzero
        (fun d (hd : d ∈ (c :: rest).takeWhile Char.isDigit) => List.mem_takeWhile_imp hd)
        (endsRun_dropWhile Char.isDigit (c :: rest))
      rw [List.takeWhile_append_dropWhile] at hread
      exact hread
    · simp [hc]

section Outcomes
variable {text : List Char}

theorem readNumber_eq_invalidNumber_iff :
    readNumber text = .error .invalidNumber ↔ text.takeWhile Char.isDigit = [] := by
  rw [readNumber_eq]
  split
  next hnone => simp [hnone]
  next hsome => split <;> simp [hsome]

theorem readNumber_eq_numberOutOfRange_iff :
    readNumber text = .error .numberOutOfRange ↔
      maxNumber.toNat < Nat.ofDigitChars 10 (text.takeWhile Char.isDigit) 0 := by
  rw [readNumber_eq]
  split
  next hnone => simp [hnone]
  next hsome =>
    split
    next hle => simp [Nat.not_lt.mpr hle]
    next hlarge => simp [Nat.not_le.mp hlarge]

theorem readNumber_eq_ok_iff {n : Nat} {rest : List Char} :
    readNumber text = .ok (n, rest) ↔
      text.takeWhile Char.isDigit ≠ [] ∧
        Nat.ofDigitChars 10 (text.takeWhile Char.isDigit) 0 ≤ maxNumber.toNat ∧
        n = Nat.ofDigitChars 10 (text.takeWhile Char.isDigit) 0 ∧
        rest = text.dropWhile Char.isDigit := by
  rw [readNumber_eq]
  split
  next hnone => simp [hnone]
  next hsome =>
    split
    next hle => simp [hsome, hle, eq_comm]
    next hlarge => simp [hlarge]

end Outcomes

/-! The words on the way -/

/-- How far the reading of a number comes: the word so far and the text that is still unread. A
digit is taken as long as the word stays in range with it. -/
inductive Passes (text : List Char) : UInt64 → List Char → Prop
  | start : Passes text 0 text
  | digit {value : UInt64} {c : Char} {rest : List Char} (h : Passes text value (c :: rest))
      (hc : c.isDigit = true) (hnext : value * 10 + digitValue c ≤ maxNumber) :
      Passes text (value * 10 + digitValue c) rest

namespace Passes
variable {text rest : List Char} {value : UInt64}

/-- The bound was checked after the last digit. -/
theorem le_maxNumber (h : Passes text value rest) : value ≤ maxNumber := by
  cases h with
  | start => decide
  | digit _ _ hnext => exact hnext

/-- The word is the number of the digits that were taken. -/
theorem spells (h : Passes text value rest) :
    ∃ digits, text = digits ++ rest ∧ (∀ c ∈ digits, c.isDigit = true) ∧
      value.toNat = Nat.ofDigitChars 10 digits 0 := by
  induction h with
  | start => exact ⟨[], rfl, by simp, rfl⟩
  | @digit value c rest h hc _ ih =>
    obtain ⟨digits, rfl, hdigits, hvalue⟩ := ih
    have hzero : '0'.toNat = 48 := rfl
    refine ⟨digits ++ [c], by simp, ?_, ?_⟩
    · intro d hd
      rcases List.mem_append.mp hd with hd | hd
      · exact hdigits d hd
      · exact List.mem_singleton.mp hd ▸ hc
    · rw [toNat_next h.le_maxNumber hc, hvalue, Nat.ofDigitChars_append, Nat.ofDigitChars_cons,
        Nat.ofDigitChars_nil, hzero]

/-- No word on the way to a number in range is above it, so none stops the reading. -/
theorem through_digits {digits : List Char} (h : Passes text value (digits ++ rest))
    (hdigits : ∀ c ∈ digits, c.isDigit = true) {last : UInt64}
    (hlast : last.toNat = Nat.ofDigitChars 10 digits value.toNat) (hle : last ≤ maxNumber) :
    Passes text last rest := by
  induction digits generalizing value with
  | nil =>
    rw [Nat.ofDigitChars_nil] at hlast
    exact UInt64.toNat_inj.mp hlast ▸ h
  | cons c digits ih =>
    have hc := hdigits c List.mem_cons_self
    have hnext := toNat_next h.le_maxNumber hc
    have hzero : '0'.toNat = 48 := rfl
    rw [Nat.ofDigitChars_cons, hzero, ← hnext] at hlast
    have hbelow : value * 10 + digitValue c ≤ last :=
      UInt64.le_iff_toNat_le.mpr (hlast ▸ le_ofDigitChars digits _)
    exact ih (h.digit hc (UInt64.le_trans hbelow hle))
      (fun d hd => hdigits d (List.mem_cons_of_mem c hd)) hlast

/-- The bound is so far below the size of a word that one more digit fits. -/
theorem next_lt_size (h : Passes text value rest) {c : Char} (hc : c.isDigit = true) :
    value.toNat * 10 + (c.toNat - '0'.toNat) < UInt64.size := by
  have hdigit := toNat_digit hc
  have hbound : value.toNat ≤ 0xFFFFFFFF := UInt64.le_iff_toNat_le.mp h.le_maxNumber
  have hzero : '0'.toNat = 48 := rfl
  have hsize : UInt64.size = 2 ^ 64 := rfl
  omega

theorem toNat_next (h : Passes text value rest) {c : Char} (hc : c.isDigit = true) :
    (value * 10 + digitValue c).toNat = value.toNat * 10 + (c.toNat - '0'.toNat) := by
  have hzero : '0'.toNat = 48 := rfl
  rw [Segment.toNat_next h.le_maxNumber hc, Nat.mul_comm, hzero]

/-- The word and the unread text alone decide how the reading ends. -/
theorem readNumber_eq (h : Passes text value rest)
    (hdigits : text.takeWhile Char.isDigit ≠ []) : readNumber text = readDigits value rest := by
  induction h with
  | start =>
    cases text with
    | nil => contradiction
    | cons c rest =>
      have hc : c.isDigit = true := by
        by_cases hc : c.isDigit = true
        · exact hc
        · simp [hc] at hdigits
      rw [readNumber, if_pos hc]
  | digit _ hc hnext ih =>
    rw [ih, readDigits, if_pos hc]
    exact if_neg (UInt64.not_lt.mpr hnext)

end Passes

/-- The words on the way are the numbers in range that digits in front of the text spell. -/
theorem passes_iff {text rest : List Char} {value : UInt64} :
    Passes text value rest ↔
      ∃ digits, text = digits ++ rest ∧ (∀ c ∈ digits, c.isDigit = true) ∧
        value.toNat = Nat.ofDigitChars 10 digits 0 ∧ value ≤ maxNumber := by
  constructor
  · intro h
    obtain ⟨digits, htext, hdigits, hvalue⟩ := h.spells
    exact ⟨digits, htext, hdigits, hvalue, h.le_maxNumber⟩
  · rintro ⟨digits, rfl, hdigits, hvalue, hle⟩
    exact Passes.start.through_digits hdigits hvalue hle

/-- Reading a number is exact: it fails on an empty run of digits and on a number above the bound,
and otherwise gives the number of the whole run and leaves what stands behind the run. However long
the run is, no word on the way wraps. -/
theorem readNumber_exact (text : List Char) :
    let digits := text.takeWhile Char.isDigit
    let number := Nat.ofDigitChars 10 digits 0
    (readNumber text = .error .invalidNumber ↔ digits = []) ∧
    (readNumber text = .error .numberOutOfRange ↔ 0xFFFFFFFF < number) ∧
    (∀ (n : Nat) (rest : List Char), readNumber text = .ok (n, rest) ↔
      digits ≠ [] ∧ number ≤ 0xFFFFFFFF ∧ n = number ∧ rest = text.dropWhile Char.isDigit) ∧
    (∀ (value : UInt64) (rest : List Char), Passes text value rest → digits ≠ [] →
      readNumber text = readDigits value rest) ∧
    ∀ (value : UInt64) (c : Char) (rest : List Char),
      Passes text value (c :: rest) → c.isDigit = true →
        value.toNat * 10 + (c.toNat - '0'.toNat) < UInt64.size ∧
        (value * 10 + digitValue c).toNat = value.toNat * 10 + (c.toNat - '0'.toNat) := by
  intro digits number
  refine ⟨readNumber_eq_invalidNumber_iff, readNumber_eq_numberOutOfRange_iff,
    fun n rest => readNumber_eq_ok_iff, ?_, ?_⟩
  · intro value rest hpass hsome
    exact hpass.readNumber_eq hsome
  · intro value c rest hpass hc
    exact ⟨hpass.next_lt_size hc, hpass.toNat_next hc⟩

example : readNumber "0004294967295]".toList = .ok (4294967295, [']']) := rfl

/-- A number one above the bound: the word before its last digit is in range, and the last digit
does not wrap it. -/
theorem readNumber_exact_above :
    Passes "04294967296]".toList 429496729 ['6', ']'] ∧
      readNumber "04294967296]".toList = .error .numberOutOfRange ∧
      readNumber "04294967296]".toList = readDigits 429496729 ['6', ']'] ∧
      ((429496729 : UInt64) * 10 + digitValue '6').toNat = 4294967296 := by
  have hpass : Passes "04294967296]".toList 429496729 ['6', ']'] :=
    passes_iff.mpr ⟨"0429496729".toList, rfl, by simp, by decide, by decide⟩
  obtain ⟨-, habove, -, hgoes, hwraps⟩ := readNumber_exact "04294967296]".toList
  refine ⟨hpass, habove.mpr (by decide), hgoes _ _ hpass (by decide), ?_⟩
  exact (hwraps _ _ _ hpass (by decide)).2

end NodeQuery.Host.Segment

import NodeQuery.Decimal.Reading
import NodeQuery.Json.Value

/-!
# Numbers in JSON

A number is first taken apart into its digits and its exponent, and then valued. A value is not
always the nearest double: it comes from the digits that fit a word of 64 bits, and is rounded once
where they become a double and once more where the power of ten is applied to it.
-/
namespace NodeQuery.Json

/-! Tokens -/

/-- A number as it is written; there is no fraction if there is no point. -/
structure Number where
  negative : Bool
  whole : List Char
  fraction : List Char
  exponent : Option Int
  deriving DecidableEq, Repr

/-- A fraction, which is empty if there is no point; behind a point there must be a digit. -/
def readFraction : List Char → Option (List Char × List Char)
  | '.' :: rest =>
    match rest.takeWhile Char.isDigit with
    | [] => none
    | digits => some (digits, rest.dropWhile Char.isDigit)
  | rest => some ([], rest)

/-- An exponent, if there is one; it must have a digit. -/
def readExponent : List Char → Option (Option Int × List Char)
  | c :: rest =>
    if c = 'e' || c = 'E' then
      let (negative, rest) := Decimal.splitSign rest
      match rest.takeWhile Char.isDigit with
      | [] => none
      | digits =>
        let size : Int := Decimal.ofDigits digits
        some (some (if negative then -size else size), rest.dropWhile Char.isDigit)
    else some (none, c :: rest)
  | [] => some (none, [])

/-- Reads a number behind its sign. Leading zeros are refused. -/
def readNumber (negative : Bool) (text : List Char) : Option (Number × List Char) := do
  let whole := text.takeWhile Char.isDigit
  if whole.isEmpty || (whole.head? == some '0' && 1 < whole.length) then none
  else
    let (fraction, rest) ← readFraction (text.dropWhile Char.isDigit)
    let (exponent, rest) ← readExponent rest
    some (⟨negative, whole, fraction, exponent⟩, rest)

theorem length_dropWhile_digits (text : List Char) :
    (text.dropWhile Char.isDigit).length + (text.takeWhile Char.isDigit).length = text.length := by
  have := congrArg List.length (List.takeWhile_append_dropWhile (p := Char.isDigit) (l := text))
  simp only [List.length_append] at this
  omega

theorem length_of_readFraction {text digits rest : List Char}
    (h : readFraction text = some (digits, rest)) : rest.length ≤ text.length := by
  unfold readFraction at h
  split at h
  next tail =>
    have := length_dropWhile_digits tail
    split at h
    · cases h
    · cases h
      simp only [List.length_cons]
      omega
  · cases h; exact Nat.le_refl _

theorem length_of_readExponent {text rest : List Char} {exponent : Option Int}
    (h : readExponent text = some (exponent, rest)) : rest.length ≤ text.length := by
  unfold readExponent at h
  split at h
  next c tail =>
    split at h
    · have hsign : (Decimal.splitSign tail).2.length ≤ tail.length := by
        unfold Decimal.splitSign
        split <;> simp
      have := length_dropWhile_digits (Decimal.splitSign tail).2
      dsimp only at h
      split at h
      · cases h
      · cases h
        simp only [List.length_cons]
        omega
    · cases h; exact Nat.le_refl _
  · cases h; exact Nat.le_refl _

theorem length_of_readNumber {negative : Bool} {text rest : List Char} {number : Number}
    (h : readNumber negative text = some (number, rest)) : rest.length < text.length := by
  unfold readNumber at h
  have hdrop := length_dropWhile_digits text
  dsimp only at h
  split at h
  · cases h
  next hwhole =>
    have hne : text.takeWhile Char.isDigit ≠ [] := fun he => by simp [he] at hwhole
    have hpos := List.length_pos_iff.mpr hne
    simp only [Option.bind_eq_bind, Option.bind_eq_some_iff] at h
    obtain ⟨⟨fraction, behind⟩, hfraction, ⟨exponent, behind'⟩, hexponent, hnumber⟩ := h
    cases hnumber
    have hbehind : behind.length ≤ (text.dropWhile Char.isDigit).length :=
      length_of_readFraction hfraction
    have hrest : behind'.length ≤ behind.length := length_of_readExponent hexponent
    dsimp only
    omega

/-! Values -/

/-- Puts digits behind the number in a word as long as the word holds the result. The digits that
are left over come back, too. -/
def takeWord (word : UInt64) : List Char → UInt64 × List Char
  | [] => (word, [])
  | c :: rest =>
    let digit := c.toNat - 48
    if 10 * word.toNat + digit < UInt64.size then takeWord (10 * word + digit.toUInt64) rest
    else (word, c :: rest)

/-- The double nearest to a power of ten. -/
def powerOfTen (n : Nat) : Float := Float.ofScientific 1 false n

/-- The number times a power of ten. Powers above the 308th are no doubles: there only zero can
grow, and a number that gets smaller does so step by step. -/
def scale (x : Float) (exponent : Int) : Option Float :=
  if exponent.natAbs ≤ 308 then
    let power := powerOfTen exponent.natAbs
    some (if exponent < 0 then x / power else x * power)
  else if x == 0 then some x
  else if 0 ≤ exponent then none
  else scale (x / powerOfTen 308) (exponent + 308)
termination_by exponent.natAbs
decreasing_by omega

/-- What 91.66666666666667 becomes is not the double that is nearest to it, but the next one. -/
example : (9166666666666667 : UInt64).toFloat / powerOfTen 14 = Float.ofBits 0x4056EAAAAAAAAAAC :=
  rfl

namespace Number

/-- A number without point and exponent is an integer if it fits 64 bits. The negative zero has no
integer. -/
def integer? (n : Number) : Option Int :=
  if n.fraction.isEmpty && n.exponent.isNone then
    let (word, unread) := takeWord 0 n.whole
    if !unread.isEmpty then none
    else if !n.negative then some word.toNat
    else if word = 0 || 0x8000000000000000 < word then none
    else some (-word.toNat)
  else none

/-- The double that stands for a number, unless it is too large. Digits that do not fit the word
count as zeros in front of the point, and not at all behind it. -/
def double? (n : Number) : Option Float :=
  let (word, beyond) := takeWord 0 n.whole
  let (word, unread) := takeWord word n.fraction
  let exponent := n.exponent.getD 0 + beyond.length - (n.fraction.length - unread.length : Nat)
  (scale word.toFloat exponent).map (fun x => if n.negative then -x else x)
    |>.filter Float.isFinite

/-- The value of a number, unless it is too large. -/
def value? (n : Number) : Option Json :=
  match n.integer? with
  | some value => some (.integer value)
  | none => n.double?.map .real

end Number

end NodeQuery.Json

import Mathlib.Algebra.Order.Field.Power
import Mathlib.Algebra.Order.Field.Rat
import Mathlib.Tactic.FieldSimp
import Mathlib.Tactic.Linarith
import Mathlib.Tactic.NormNum
import Mathlib.Tactic.Ring
import NodeQuery.Decimal.Shortest

/-!
# Doubles and their decimals

The shortest decimal of a double is one of the numbers that round to it. No number rounds to two
doubles, so a double is known from any such decimal.
-/
namespace NodeQuery.Decimal

/-- The number that a decimal stands for. -/
def Scaled.value (d : Scaled) : ℚ := d.digits * 10 ^ d.exponent

namespace Span

/-- The span accepts the decimal, whose exponent may lie above that of the span. -/
def Holds (s : Span) (d : Scaled) : Prop :=
  ∃ shift : Nat, d.exponent = s.exponent + shift ∧ s.accepts (d.digits * 10 ^ shift) = true

variable {s : Span} {d : Scaled} {tie : Tie}

theorem accepts_of_nearest {step digits : Nat} (h : s.nearest tie step = some digits) :
    s.accepts (digits * step) = true := by
  unfold nearest at h
  dsimp only at h
  split at h
  next hbelow habove =>
    -- both neighbours are accepted, and one of them is chosen
    have hdigits : digits = s.value / step ∨ digits = s.value / step + 1 := by
      split at h
      · exact .inl (Option.some.inj h).symm
      · split at h
        · exact .inr (Option.some.inj h).symm
        · split at h
          · exact .inr (Option.some.inj h).symm
          · split at h
            · exact .inl (Option.some.inj h).symm
            · exact .inr (Option.some.inj h).symm
    rcases hdigits with rfl | rfl
    · exact hbelow
    · exact habove
  next hbelow _ =>
    cases h
    exact hbelow
  next _ habove =>
    cases h
    exact habove
  next => cases h

/-- Where no coarser grid has an accepted number, the value itself is left. -/
theorem holds_coarsest (hvalue : s.accepts s.value = true) (power : Nat) :
    s.Holds (s.coarsest tie power) := by
  induction power with
  | zero => exact ⟨0, by simp [coarsest], by simpa [coarsest] using hvalue⟩
  | succ power ih =>
    rw [coarsest]
    split
    next digits h => exact ⟨power + 1, rfl, accepts_of_nearest h⟩
    next => exact ih

theorem Holds.trim (h : s.Holds d) (fuel : Nat) : s.Holds (d.trim fuel) := by
  induction fuel generalizing d with
  | zero => exact h
  | succ fuel ih =>
    rw [Scaled.trim]
    split
    next hzero =>
      obtain ⟨shift, hexponent, haccepts⟩ := h
      refine ih ⟨shift + 1, ?_, ?_⟩
      · rw [hexponent]
        push_cast
        ring
      · have hdigits : d.digits / 10 * 10 ^ (shift + 1) = d.digits * 10 ^ shift := by
          rw [Nat.pow_succ', ← Nat.mul_assoc, Nat.div_mul_cancel (Nat.dvd_of_mod_eq_zero hzero)]
        rw [hdigits]
        exact haccepts
    next => exact h

end Span

/-- How far below a double the numbers that round to it begin, in quarters of the unit of its
mantissa: half as far at a power of two, where the doubles below lie closer. -/
def gapBelow (mantissa : Nat) (exponent : Int) : Nat :=
  if mantissa = 0x10000000000000 ∧ -1074 < exponent then 1 else 2

theorem gapBelow_le (mantissa : Nat) (exponent : Int) : gapBelow mantissa exponent ≤ 2 := by
  rw [gapBelow]
  split <;> omega

/-- The number rounds to `mantissa * 2 ^ exponent`, at the ends only if the mantissa is even. -/
structure RoundsTo (x : ℚ) (mantissa : Nat) (exponent : Int) : Prop where
  low : (4 * mantissa - gapBelow mantissa exponent : ℚ) * 2 ^ (exponent - 2) ≤ x
  high : x ≤ (4 * mantissa + 2 : ℚ) * 2 ^ (exponent - 2)
  low_lt : mantissa % 2 ≠ 0 →
    (4 * mantissa - gapBelow mantissa exponent : ℚ) * 2 ^ (exponent - 2) < x
  high_lt : mantissa % 2 ≠ 0 → x < (4 * mantissa + 2 : ℚ) * 2 ^ (exponent - 2)

/-- The powers of five or of two that a span is written with. -/
def spanScale (exponent : Int) : Nat :=
  Nat.pow (if exponent - 2 < 0 then 5 else 2) (exponent - 2).natAbs

section Shortest
variable {mantissa : Nat} {exponent : Int}

theorem spanScale_pos (exponent : Int) : 0 < spanScale exponent := by
  rw [spanScale]
  split
  · exact Nat.pow_pos (by decide)
  · exact Nat.pow_pos (by decide)

/-- They turn the powers of ten of the span into powers of two. -/
theorem spanScale_mul (exponent : Int) :
    (spanScale exponent : ℚ) * 10 ^ (Span.ofBinary mantissa exponent).exponent =
      2 ^ (exponent - 2) := by
  have hspan : (Span.ofBinary mantissa exponent).exponent = min (exponent - 2) 0 := rfl
  rw [hspan, spanScale]
  generalize exponent - 2 = quarter
  split
  next hneg =>
    have hquarter : quarter = -(quarter.natAbs : Int) := by omega
    rw [min_eq_left hneg.le]
    generalize quarter.natAbs = n at hquarter ⊢
    subst hquarter
    have hten : (10 : ℚ) = 2 * 5 := by norm_num
    rw [zpow_neg, zpow_neg, zpow_natCast, zpow_natCast, hten, mul_pow]
    push_cast [Nat.pow_eq]
    field_simp
  next hpos =>
    have hquarter : quarter = (quarter.natAbs : Int) := by omega
    rw [min_eq_right (not_lt.mp hpos), zpow_zero, mul_one]
    conv_rhs => rw [hquarter, zpow_natCast]
    push_cast [Nat.pow_eq]
    rfl

theorem accepts_ofBinary_iff {n : Nat} :
    (Span.ofBinary mantissa exponent).accepts n = true ↔
      (4 * mantissa - gapBelow mantissa exponent) * spanScale exponent ≤ n ∧
        n ≤ (4 * mantissa + 2) * spanScale exponent ∧
        (mantissa % 2 ≠ 0 →
          (4 * mantissa - gapBelow mantissa exponent) * spanScale exponent < n ∧
            n < (4 * mantissa + 2) * spanScale exponent) := by
  have hspan : Span.ofBinary mantissa exponent =
      { low := (4 * mantissa - gapBelow mantissa exponent) * spanScale exponent
        value := 4 * mantissa * spanScale exponent
        high := (4 * mantissa + 2) * spanScale exponent
        exponent := min (exponent - 2) 0
        closed := mantissa % 2 = 0 } := rfl
  rw [hspan, Span.accepts]
  dsimp only
  generalize (4 * mantissa - gapBelow mantissa exponent) * spanScale exponent = low
  generalize (4 * mantissa + 2) * spanScale exponent = high
  by_cases heven : mantissa % 2 = 0
  · simp [heven]
  · simp only [heven, decide_false, Bool.false_eq_true, if_false, Bool.and_eq_true,
      decide_eq_true_eq, not_false_eq_true, ne_eq, forall_const]
    omega

theorem accepts_value (hpos : 0 < mantissa) :
    (Span.ofBinary mantissa exponent).accepts (Span.ofBinary mantissa exponent).value = true := by
  have hvalue : (Span.ofBinary mantissa exponent).value =
      4 * mantissa * spanScale exponent := rfl
  have hscale := spanScale_pos exponent
  have hgap : 0 < gapBelow mantissa exponent := by
    rw [gapBelow]
    split <;> omega
  have hlow : (4 * mantissa - gapBelow mantissa exponent) * spanScale exponent <
      4 * mantissa * spanScale exponent := Nat.mul_lt_mul_of_pos_right (by omega) hscale
  have hhigh : 4 * mantissa * spanScale exponent < (4 * mantissa + 2) * spanScale exponent :=
    Nat.mul_lt_mul_of_pos_right (by omega) hscale
  rw [accepts_ofBinary_iff, hvalue]
  exact ⟨hlow.le, hhigh.le, fun _ => ⟨hlow, hhigh⟩⟩

/-- What a span accepts rounds to its double. -/
theorem Span.Holds.roundsTo {d : Scaled} (hpos : 0 < mantissa)
    (h : (Span.ofBinary mantissa exponent).Holds d) : RoundsTo d.value mantissa exponent := by
  obtain ⟨shift, hexponent, haccepts⟩ := h
  obtain ⟨hlow, hhigh, hstrict⟩ := accepts_ofBinary_iff.mp haccepts
  have hscale : (spanScale exponent : ℚ) * 10 ^ (Span.ofBinary mantissa exponent).exponent =
    2 ^ (exponent - 2) := spanScale_mul exponent
  generalize (Span.ofBinary mantissa exponent).exponent = least at hexponent hscale
  have hunit : (0 : ℚ) < 10 ^ least := zpow_pos (by norm_num) least
  have hvalue : d.value = ((d.digits * 10 ^ shift : Nat) : ℚ) * 10 ^ least := by
    rw [Scaled.value, hexponent, zpow_add₀ (by norm_num), zpow_natCast]
    push_cast
    ring
  have hgap : gapBelow mantissa exponent ≤ 4 * mantissa := by
    have := gapBelow_le mantissa exponent
    omega
  -- the ends of the span in units of its power of ten, and in powers of two
  have hlowEnd :
      (((4 * mantissa - gapBelow mantissa exponent) * spanScale exponent : Nat) : ℚ) * 10 ^ least =
        (4 * mantissa - gapBelow mantissa exponent : ℚ) * 2 ^ (exponent - 2) := by
    rw [← hscale]
    push_cast [hgap]
    ring
  have hhighEnd : (((4 * mantissa + 2) * spanScale exponent : Nat) : ℚ) * 10 ^ least =
      (4 * mantissa + 2 : ℚ) * 2 ^ (exponent - 2) := by
    rw [← hscale]
    push_cast
    ring
  have hle : ∀ {a b : Nat}, a ≤ b → (a : ℚ) * 10 ^ least ≤ b * 10 ^ least := fun h =>
    mul_le_mul_of_nonneg_right (Nat.cast_le.mpr h) hunit.le
  have hlt : ∀ {a b : Nat}, a < b → (a : ℚ) * 10 ^ least < b * 10 ^ least := fun h =>
    mul_lt_mul_of_pos_right (Nat.cast_lt.mpr h) hunit
  rw [hvalue]
  refine ⟨?_, ?_, fun hodd => ?_, fun hodd => ?_⟩
  · rw [← hlowEnd]
    exact hle hlow
  · rw [← hhighEnd]
    exact hle hhigh
  · rw [← hlowEnd]
    exact hlt (hstrict hodd).1
  · rw [← hhighEnd]
    exact hlt (hstrict hodd).2

/-- The shortest decimal of a double rounds to it. -/
theorem shortest_roundsTo (tie : Tie) (hpos : 0 < mantissa) :
    RoundsTo (shortest tie mantissa exponent).value mantissa exponent := by
  have hvalue : (Span.ofBinary mantissa exponent).accepts
    (Span.ofBinary mantissa exponent).value = true := accepts_value hpos
  exact ((Span.holds_coarsest hvalue _).trim _).roundsTo hpos

end Shortest

/-! No number rounds to two doubles -/

/-- The mantissa of a double has 53 bits, fewer only at the smallest exponent. -/
structure Canonical (mantissa : Nat) (exponent : Int) : Prop where
  pos : 0 < mantissa
  lt : mantissa < 0x20000000000000
  le : -1074 ≤ exponent
  full : mantissa < 0x10000000000000 → exponent = -1074

section Unique
variable {x : ℚ} {m n : Nat} {e f : Int}

theorem RoundsTo.pos (h : RoundsTo x m e) (hpos : 0 < m) : 0 < x := by
  have hunit : (0 : ℚ) < 2 ^ (e - 2) := zpow_pos (by norm_num) _
  have hgap : (gapBelow m e : ℚ) ≤ 2 := by exact_mod_cast gapBelow_le m e
  have hm : (1 : ℚ) ≤ m := by exact_mod_cast hpos
  exact (mul_pos (by linarith) hunit).trans_le h.low

/-- Of two doubles with one exponent, the lower one ends where the other begins, and one of them is
odd there. -/
theorem RoundsTo.not_lt_mantissa (h : RoundsTo x m e) (hother : RoundsTo x n e) : ¬m < n := by
  intro hlt
  have hunit : (0 : ℚ) < 2 ^ (e - 2) := zpow_pos (by norm_num) _
  have hgap : (gapBelow n e : ℚ) * 2 ^ (e - 2) ≤ 2 * 2 ^ (e - 2) :=
    mul_le_mul_of_nonneg_right (by exact_mod_cast gapBelow_le n e) hunit.le
  have hhigh := h.high
  have hlow := hother.low
  rcases Nat.lt_or_eq_of_le (Nat.succ_le_of_lt hlt) with hfar | hnext
  · have hbetween : (m + 2 : ℚ) * 2 ^ (e - 2) ≤ n * 2 ^ (e - 2) :=
      mul_le_mul_of_nonneg_right (by exact_mod_cast hfar) hunit.le
    linarith
  · have hbetween : (n : ℚ) * 2 ^ (e - 2) = (m + 1) * 2 ^ (e - 2) := by
      rw [← hnext]
      push_cast
      ring
    by_cases hodd : m % 2 = 0
    · have hlowStrict := hother.low_lt (by omega)
      linarith
    · have hhighStrict := h.high_lt hodd
      linarith

/-- Above the smallest exponent the numbers that round to a double begin at no less than this many
quarters of the unit of its mantissa. -/
theorem Canonical.le_low (h : Canonical n f) (hleast : -1074 < f) :
    (2 ^ 54 - 1 : ℚ) ≤ 4 * n - gapBelow n f := by
  have hfull : 0x10000000000000 ≤ n := not_lt.mp fun hsmall => hleast.ne' (h.full hsmall)
  rcases Nat.lt_or_eq_of_le hfull with hlarge | hpower
  · have hgap : (gapBelow n f : ℚ) ≤ 2 := by exact_mod_cast gapBelow_le n f
    have hlarge : (2 ^ 52 + 1 : ℚ) ≤ n := by exact_mod_cast hlarge
    linarith
  · have hgap : gapBelow n f = 1 := if_pos ⟨hpower.symm, hleast⟩
    rw [hgap, ← hpower]
    norm_num

/-- A double of a larger exponent begins behind all numbers that round to the other. -/
theorem RoundsTo.not_lt_exponent (hm : Canonical m e) (hn : Canonical n f) (h : RoundsTo x m e)
    (hother : RoundsTo x n f) : ¬e < f := by
  intro hlt
  have hunit : (0 : ℚ) < 2 ^ (e - 2) := zpow_pos (by norm_num) _
  have hdouble : 2 * (2 : ℚ) ^ (e - 2) ≤ 2 ^ (f - 2) := by
    have hle : (2 : ℚ) ^ (e - 2 + 1) ≤ 2 ^ (f - 2) := zpow_le_zpow_right₀ (by norm_num) (by omega)
    rw [zpow_add_one₀ (by norm_num)] at hle
    linarith
  have hbegins := hn.le_low (lt_of_le_of_lt hm.le hlt)
  have hbehind : (2 ^ 55 - 2 : ℚ) * 2 ^ (e - 2) ≤ x := by
    have hends := mul_le_mul hbegins hdouble (by linarith) (by linarith)
    have hlow := hother.low
    linarith
  rcases Nat.lt_or_eq_of_le (Nat.le_of_lt_succ hm.lt) with hsmall | hlast
  · have hmax : (4 * m + 2 : ℚ) * 2 ^ (e - 2) < (2 ^ 55 - 2) * 2 ^ (e - 2) := by
      refine mul_lt_mul_of_pos_right ?_ hunit
      have hsmall : (m + 1 : ℚ) ≤ 0x1fffffffffffff := by exact_mod_cast hsmall
      linarith
    have hhigh := h.high
    linarith
  · have hhigh := h.high_lt (by omega)
    rw [hlast] at hhigh
    norm_num at hhigh hbehind
    linarith

theorem RoundsTo.unique (hm : Canonical m e) (hn : Canonical n f) (h : RoundsTo x m e)
    (hother : RoundsTo x n f) : m = n ∧ e = f := by
  have hexponent : e = f := le_antisymm (not_lt.mp (hother.not_lt_exponent hn hm h))
    (not_lt.mp (h.not_lt_exponent hm hn hother))
  subst hexponent
  exact ⟨le_antisymm (not_lt.mp (hother.not_lt_mantissa h))
    (not_lt.mp (h.not_lt_mantissa hother)), rfl⟩

end Unique

end NodeQuery.Decimal

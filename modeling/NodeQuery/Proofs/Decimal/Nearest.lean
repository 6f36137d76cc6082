import Mathlib
import NodeQuery.Decimal.Layout
import NodeQuery.Proofs.Decimal.Rounding

/-!
# Nearest doubles

A number with a sign has one nearest double: the finite double of that sign whose rounding interval
has the number in it. Below the interval of the smallest positive double it is a zero.
-/
namespace NodeQuery.Decimal
open Float.Model (UnpackedFloat)

theorem eq_of_unpack_eq {x y : Float} (h : x.toModel.unpack = y.toModel.unpack) : x = y := by
  have hbits := (UnpackedFloat.unpack_inj_of_valid x.toModel.valid y.toModel.valid).mp h
  exact Float.toBits_inj.mp (UInt64.toBitVec_inj.mp hbits)

theorem cases_of_isFinite {x : Float} (hx : x.isFinite = true) :
    (∃ sign, x.toModel.unpack = .zero sign) ∨
      ∃ sign mantissa exponent hpos,
        x.toModel.unpack = .finite sign mantissa exponent hpos := by
  have hfinite : x.toModel.unpack.isFinite = true := hx
  match hunpack : x.toModel.unpack with
  | .notANumber | .infinity _ =>
    rw [hunpack] at hfinite
    cases hfinite
  | .zero sign => exact .inl ⟨sign, rfl⟩
  | .finite sign mantissa exponent hpos => exact .inr ⟨sign, mantissa, exponent, hpos, rfl⟩

/-- A mantissa without its leading one is that of a number at the smallest exponent. -/
theorem canonical_subnormal {mantissa : BitVec 52} (hpos : 0 < mantissa.toNat) :
    Canonical mantissa.toNat (-1074) := by
  have hlt := mantissa.isLt
  exact ⟨hpos, by omega, le_refl _, fun _ => rfl⟩

theorem canonical_normal {mantissa : BitVec 52} {exponent : BitVec 11}
    (hexponent : exponent ≠ 0#11) :
    Canonical (1#1 ++ mantissa).toNat (exponent.toNat - 1075) := by
  have hlt := mantissa.isLt
  have hmantissa : (1#1 ++ mantissa).toNat = 2 ^ 52 + mantissa.toNat := by
    rw [BitVec.toNat_append, ← Nat.shiftLeft_add_eq_or_of_lt hlt]
    rfl
  have hsome : exponent.toNat ≠ 0 := fun hzero => hexponent (BitVec.eq_of_toNat_eq hzero)
  rw [hmantissa]
  exact ⟨by omega, by omega, by omega, fun hsmall => by omega⟩

theorem canonical_of_unpack {x : Float} {sign : UnpackedFloat.Sign} {mantissa : Nat}
    {exponent : Int} {hpos : 0 < mantissa}
    (h : x.toModel.unpack = .finite sign mantissa exponent hpos) : Canonical mantissa exponent := by
  rw [Float.Model.unpack, UnpackedFloat.unpack] at h
  dsimp only at h
  split at h
  · split at h <;> cases h
  next hspecial =>
    split at h
    next hexponent =>
      split at h
      · cases h
      next hmantissa =>
        cases h
        rw [hexponent]
        exact canonical_subnormal hpos
    next hexponent =>
      cases h
      exact canonical_normal hexponent

theorem eq_of_isNegative_eq {s t : UnpackedFloat.Sign}
    (h : isNegative (.zero s) = isNegative (.zero t)) : s = t := by
  cases s <;> cases t <;> first | rfl | cases h

/-- What rounds to a positive double lies above half of the smallest one. -/
theorem RoundsTo.half_least_lt {x : ℚ} {m : Nat} {e : Int} (hm : Canonical m e)
    (h : RoundsTo x m e) : (2 : ℚ) ^ (-1075 : Int) < x := by
  have hunit : (2 : ℚ) ^ (-1076 : Int) ≤ 2 ^ (e - 2) := by
    have hle := hm.le
    exact zpow_le_zpow_right₀ (by norm_num) (by omega)
  have hpos : (0 : ℚ) < 2 ^ (-1076 : Int) := zpow_pos (by norm_num) _
  have hhalf : (2 : ℚ) ^ (-1075 : Int) = 2 * 2 ^ (-1076 : Int) := by
    have hsucc : (-1075 : Int) = -1076 + 1 := rfl
    rw [hsucc, zpow_add_one₀ (by norm_num), mul_comm]
  rw [hhalf]
  generalize (2 : ℚ) ^ (-1076 : Int) = least at hunit hpos
  have hgap : (gapBelow m e : ℚ) ≤ 2 := by exact_mod_cast gapBelow_le m e
  rcases Nat.lt_or_eq_of_le (Nat.succ_le_of_lt hm.pos) with hlarge | hone
  · have htwo : (2 : ℚ) ≤ m := by exact_mod_cast hlarge
    have hends : 6 * least ≤ (4 * m - gapBelow m e) * 2 ^ (e - 2) :=
      mul_le_mul (by linarith) hunit hpos.le (by linarith)
    linarith [h.low]
  · -- the smallest double is odd, so its interval is open
    have hlow := h.low_lt (by omega)
    have hends : 2 * least ≤ (4 * m - gapBelow m e) * 2 ^ (e - 2) := by
      rw [← hone]
      rw [← hone] at hgap
      exact mul_le_mul (by push_cast; linarith) hunit hpos.le (by push_cast; linarith)
    linarith

/-- The finite double that is nearest to a magnitude under a sign. -/
structure IsNearest (negative : Bool) (magnitude : ℚ) (x : Float) : Prop where
  sign : isNegative x.toModel.unpack = negative
  rounds : match x.toModel.unpack with
    | .zero _ => magnitude ≤ 2 ^ (-1075 : Int)
    | .finite _ mantissa exponent _ => RoundsTo magnitude mantissa exponent
    | .infinity _ | .notANumber => False

/-- The number that the shortest decimal of a finite double stands for, without its sign. -/
def shortestValue (tie : Tie) : UnpackedFloat → ℚ
  | .finite _ mantissa exponent _ => (shortest tie mantissa exponent).value
  | .zero _ | .infinity _ | .notANumber => 0

section Nearest
variable {negative : Bool} {magnitude : ℚ} {x y : Float}

/-- A finite double is nearest to what its shortest decimal stands for. -/
theorem isNearest_shortestValue (hx : x.isFinite = true) (tie : Tie) :
    IsNearest (isNegative x.toModel.unpack) (shortestValue tie x.toModel.unpack) x := by
  refine ⟨rfl, ?_⟩
  rcases cases_of_isFinite hx with ⟨sign, hunpack⟩ | ⟨sign, mantissa, exponent, hpos, hunpack⟩
  · have hleast : (0 : ℚ) < 2 ^ (-1075 : Int) := zpow_pos (by norm_num) _
    rw [hunpack]
    exact hleast.le
  · rw [hunpack]
    exact shortest_roundsTo tie hpos

theorem IsNearest.cases (h : IsNearest negative magnitude x) :
    (∃ sign, x.toModel.unpack = .zero sign ∧ magnitude ≤ 2 ^ (-1075 : Int)) ∨
      ∃ sign mantissa exponent hpos, x.toModel.unpack = .finite sign mantissa exponent hpos ∧
        RoundsTo magnitude mantissa exponent := by
  have hrounds := h.rounds
  match hunpack : x.toModel.unpack with
  | .zero sign =>
    rw [hunpack] at hrounds
    exact .inl ⟨sign, rfl, hrounds⟩
  | .finite sign mantissa exponent hpos =>
    rw [hunpack] at hrounds
    exact .inr ⟨sign, mantissa, exponent, hpos, rfl, hrounds⟩
  | .infinity _ | .notANumber =>
    rw [hunpack] at hrounds
    exact hrounds.elim

/-- No number is nearest to two doubles. -/
theorem IsNearest.unique (hx : IsNearest negative magnitude x)
    (hy : IsNearest negative magnitude y) : x = y := by
  have hsign := hx.sign.trans hy.sign.symm
  apply eq_of_unpack_eq
  rcases hx.cases with ⟨s, hxUnpack, hxSmall⟩ | ⟨s, m, e, hm, hxUnpack, hxRounds⟩
  · rcases hy.cases with ⟨t, hyUnpack, -⟩ | ⟨t, n, f, hn, hyUnpack, hyRounds⟩
    · rw [hxUnpack, hyUnpack] at hsign ⊢
      rw [eq_of_isNegative_eq hsign]
    · exact absurd hxSmall (hyRounds.half_least_lt (canonical_of_unpack hyUnpack)).not_ge
  · rcases hy.cases with ⟨t, hyUnpack, hySmall⟩ | ⟨t, n, f, hn, hyUnpack, hyRounds⟩
    · exact absurd hySmall (hxRounds.half_least_lt (canonical_of_unpack hxUnpack)).not_ge
    · obtain ⟨rfl, rfl⟩ := hxRounds.unique (canonical_of_unpack hxUnpack)
        (canonical_of_unpack hyUnpack) hyRounds
      rw [hxUnpack, hyUnpack] at hsign ⊢
      rw [eq_of_isNegative_eq hsign]

end Nearest

end NodeQuery.Decimal

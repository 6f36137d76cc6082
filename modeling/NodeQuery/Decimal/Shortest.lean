/-!
# Shortest decimals

The decimal with the fewest digits that still reads back as a given double. A double is seen as
`mantissa * 2 ^ exponent`; the reals that round to it form an interval, which is written here with
natural numbers at one common power of ten, so that every test is exact.
-/
namespace NodeQuery.Decimal

/-- What to do when two decimals of the same length are equally near. -/
inductive Tie where
  | toEven | away
  deriving DecidableEq, Repr

/-- The number `digits * 10 ^ exponent`. -/
structure Scaled where
  digits : Nat
  exponent : Int
  deriving DecidableEq, Repr

/-- The reals between `low` and `high`, in units of `10 ^ exponent`, are those that round to
`value`; the ends belong to them iff `closed`. -/
structure Span where
  low : Nat
  value : Nat
  high : Nat
  exponent : Int
  closed : Bool
  deriving DecidableEq, Repr

namespace Span

/-- The numbers that round to `mantissa * 2 ^ exponent`. The gap below a power of two is half as
wide as the gap above it, except at the smallest exponent. -/
def ofBinary (mantissa : Nat) (exponent : Int) : Span :=
  let below := if mantissa = 0x10000000000000 ∧ -1074 < exponent then 1 else 2
  let quarter := exponent - 2
  let scale := Nat.pow (if quarter < 0 then 5 else 2) quarter.natAbs
  { low := (4 * mantissa - below) * scale
    value := 4 * mantissa * scale
    high := (4 * mantissa + 2) * scale
    exponent := min quarter 0
    closed := mantissa % 2 = 0 }

def accepts (s : Span) (candidate : Nat) : Bool :=
  if s.closed then s.low ≤ candidate && candidate ≤ s.high
  else s.low < candidate && candidate < s.high

/-- The nearest accepted multiple of `step`, as the factor of `step`. Only the two multiples
around the value can be nearest. -/
def nearest (s : Span) (tie : Tie) (step : Nat) : Option Nat :=
  let below := s.value / step
  match s.accepts (below * step), s.accepts ((below + 1) * step) with
  | true, true =>
    let twice := 2 * (s.value % step)
    if twice < step then some below
    else if step < twice then some (below + 1)
    else match tie with
      | .away => some (below + 1)
      | .toEven => if below % 2 = 0 then some below else some (below + 1)
  | true, false => some below
  | false, true => some (below + 1)
  | false, false => none

/-- Tries the grids `10 ^ power`, `10 ^ (power - 1)`, … in turn; the finest is the value itself. -/
def coarsest (s : Span) (tie : Tie) : Nat → Scaled
  | 0 => ⟨s.value, s.exponent⟩
  | power + 1 =>
    match s.nearest tie (Nat.pow 10 (power + 1)) with
    | some digits => ⟨digits, s.exponent + (power + 1 : Nat)⟩
    | none => s.coarsest tie power

end Span

/-- Moves the zeros at the end of the digits into the exponent, at most `fuel` of them. -/
def Scaled.trim : Nat → Scaled → Scaled
  | 0, d => d
  | fuel + 1, d => if d.digits % 10 = 0 then trim fuel ⟨d.digits / 10, d.exponent + 1⟩ else d

/-- The shortest decimal that rounds to `mantissa * 2 ^ exponent`, and of those the nearest. -/
def shortest (tie : Tie) (mantissa : Nat) (exponent : Int) : Scaled :=
  let span := Span.ofBinary mantissa exponent
  let length := (Nat.toDigits 10 span.value).length
  (span.coarsest tie (length - 1)).trim length

end NodeQuery.Decimal

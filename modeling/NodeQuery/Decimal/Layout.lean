import NodeQuery.Decimal.Shortest

/-!
# Layout of decimals

How a double is written: which digits come from `shortest`, and a `Layout` says where positional
notation ends and how a whole number is marked. Two layouts are used: `plain` in query
expressions, `json` in records.
-/
namespace NodeQuery.Decimal

/-- `wholeMark` follows the digits of a whole number. A number with `p` digits before the point is
written positionally iff `p` lies above `scientificBelow` and not above `scientificAbove`, when
these are given. -/
structure Layout where
  tie : Tie
  wholeMark : List Char
  scientificBelow : Option Int
  scientificAbove : Option Int
  deriving DecidableEq, Repr

/-- Never an exponent, no mark on whole numbers, ties go away from zero. -/
def Layout.plain : Layout := ⟨.away, [], none, none⟩

/-- Positional from 1e-5 up to below 1e16, whole numbers end in `.0`, ties go to even. -/
def Layout.json : Layout := ⟨.toEven, ['.', '0'], some (-5), some 16⟩

namespace Layout

def isPositional (l : Layout) (point : Int) : Bool :=
  l.scientificBelow.all (· < point) && l.scientificAbove.all (point ≤ ·)

/-- The digits with the point after the first `point` of them, filled up with zeros. -/
def positional (l : Layout) (digits : List Char) (point : Int) : List Char :=
  if point ≤ 0 then '0' :: '.' :: (List.replicate point.natAbs '0' ++ digits)
  else
    let whole := point.toNat
    if digits.length ≤ whole then
      digits ++ List.replicate (whole - digits.length) '0' ++ l.wholeMark
    else digits.take whole ++ '.' :: digits.drop whole

/-- One digit before the point, and an exponent that always has a sign. -/
def scientific (digits : List Char) (point : Int) : List Char :=
  let fraction := match digits.drop 1 with
    | [] => []
    | rest => '.' :: rest
  let exponent := point - 1
  digits.take 1 ++ fraction ++ 'e' :: (if exponent < 0 then '-' else '+') ::
    Nat.toDigits 10 exponent.natAbs

def scaled (l : Layout) (d : Scaled) : List Char :=
  let digits := Nat.toDigits 10 d.digits
  let point := digits.length + d.exponent
  if l.isPositional point then l.positional digits point else scientific digits point

/-- A number without its sign. -/
def magnitude (l : Layout) : Float.Model.UnpackedFloat → List Char
  | .notANumber => ['N', 'a', 'N']
  | .infinity _ => ['i', 'n', 'f']
  | .zero _ => '0' :: l.wholeMark
  | .finite _ mantissa exponent _ => l.scaled (shortest l.tie mantissa exponent)

end Layout

/-- True of negative numbers and of the negative zero. -/
def isNegative : Float.Model.UnpackedFloat → Bool
  | .notANumber => false
  | .infinity s | .zero s | .finite s _ _ _ => match s with
    | .negative => true
    | .positive => false

/-- The text of a double under a layout. -/
def Layout.text (l : Layout) (x : Float) : String :=
  let unpacked := x.toModel.unpack
  String.ofList (if isNegative unpacked then '-' :: l.magnitude unpacked else l.magnitude unpacked)

end NodeQuery.Decimal

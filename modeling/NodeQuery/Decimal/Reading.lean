/-!
# Reading decimals

The words that stand for numbers: an optional sign, then `inf`, `infinity` or `nan` in any case,
or ASCII digits with an optional point and an optional exponent. The value is the nearest double.
-/
namespace NodeQuery.Decimal

def isDigit (c : Char) : Bool := c.isDigit

/-- The number that ASCII digits spell. -/
def ofDigits (digits : List Char) : Nat :=
  digits.foldl (fun n c => n * 10 + (c.toNat - 48)) 0

/-- A sign in front of a text; no sign means positive. -/
def splitSign : List Char → Bool × List Char
  | '-' :: rest => (true, rest)
  | '+' :: rest => (false, rest)
  | rest => (false, rest)

/-- The nearest double to `mantissa * 10 ^ exponent`, infinite if it is too large. -/
def nearestDouble (negative : Bool) (mantissa : Nat) (exponent : Int) : Float :=
  let x := Float.ofScientific mantissa (exponent < 0) exponent.natAbs
  if negative then -x else x

/-- The exponent after the digits: nothing at all, or `e`, an optional sign and digits. -/
def readExponent : List Char → Option Int
  | [] => some 0
  | c :: rest =>
    if c = 'e' || c = 'E' then
      let (negative, digits) := splitSign rest
      if digits.isEmpty || !digits.all isDigit then none
      else if negative then some (-(ofDigits digits : Int)) else some (ofDigits digits)
    else none

/-- The digits after a point, if there is one, and what follows them. -/
def splitFraction : List Char → List Char × List Char
  | '.' :: rest => (rest.takeWhile isDigit, rest.dropWhile isDigit)
  | rest => ([], rest)

/-- Digits with a point and an exponent; there must be a digit beside the point. -/
def readUnsigned (negative : Bool) (text : List Char) : Option Float :=
  let whole := text.takeWhile isDigit
  let (fraction, rest) := splitFraction (text.dropWhile isDigit)
  if whole.isEmpty && fraction.isEmpty then none
  else (readExponent rest).map fun exponent =>
    nearestDouble negative (ofDigits (whole ++ fraction)) (exponent - fraction.length)

def infinity : Float := Float.ofBits 0x7FF0000000000000

def notANumber : Float := Float.ofBits 0x7FF8000000000000

/-- The double that a word stands for, if it is a number. -/
def read? (word : String) : Option Float :=
  let (negative, rest) := splitSign word.toList
  let name := rest.map Char.toLower
  if name = ['i', 'n', 'f'] || name = ['i', 'n', 'f', 'i', 'n', 'i', 't', 'y'] then
    some (if negative then -infinity else infinity)
  else if name = ['n', 'a', 'n'] then some notANumber
  else readUnsigned negative rest

end NodeQuery.Decimal

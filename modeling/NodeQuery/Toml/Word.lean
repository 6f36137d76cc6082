import NodeQuery.Toml.Value

/-!
# Words of TOML

The values that are written without quotes and brackets: booleans, integers, floats, dates and
times.
-/
namespace NodeQuery.Toml

/-- The digits of a text in which single underscores may stand between digits. -/
def plainDigits (isDigit : Char → Bool) : List Char → Option (List Char)
  | [] => none
  | [c] => if isDigit c then some [c] else none
  | c :: '_' :: rest => if isDigit c then (plainDigits isDigit rest).map (c :: ·) else none
  | c :: rest => if isDigit c then (plainDigits isDigit rest).map (c :: ·) else none

def hexValue (c : Char) : Nat :=
  if c.isDigit then c.toNat - 48 else if c.isLower then c.toNat - 87 else c.toNat - 55

def isHexDigit (c : Char) : Bool :=
  c.isDigit || ('a' ≤ c && c ≤ 'f') || ('A' ≤ c && c ≤ 'F')

def isOctalDigit (c : Char) : Bool := '0' ≤ c && c ≤ '7'

def isBinaryDigit (c : Char) : Bool := c = '0' || c = '1'

/-- An integer must fit 64 bits with sign. -/
def checkedInteger (n : Int) : Option Toml :=
  if -0x8000000000000000 ≤ n && n < 0x8000000000000000 then some (.integer n) else none

def inBase (base : Nat) (isDigit : Char → Bool) (text : List Char) : Option Toml :=
  (plainDigits isDigit text).bind fun digits =>
    checkedInteger (digits.foldl (fun n c => n * base + hexValue c) 0 : Nat)

/-- Digits of a whole part: none in front of others may be zero. -/
def wholeDigits (text : List Char) : Option (List Char) :=
  (plainDigits Char.isDigit text).filter fun digits =>
    digits.head? != some '0' || digits.length == 1

/-- The exponent behind its letter; it may begin with zeros. -/
def exponentValue (text : List Char) : Option Int :=
  let (negative, rest) := Decimal.splitSign text
  (plainDigits Char.isDigit rest).map fun digits =>
    let n : Int := Decimal.ofDigits digits
    if negative then -n else n

def isExponentMark (c : Char) : Bool := c = 'e' || c = 'E'

/-- A float is refused if it is too large for a double. -/
def checkedReal (x : Float) : Option Toml := if x == Decimal.infinity then none else some (.real x)

/-- A number behind its sign: an integer, or a float with a fraction, an exponent or both. -/
def decimalValue (negative : Bool) (text : List Char) : Option Toml := do
  let whole ← wholeDigits (text.takeWhile fun c => c != '.' && !isExponentMark c)
  match text.dropWhile fun c => c != '.' && !isExponentMark c with
  | [] =>
    let n : Int := Decimal.ofDigits whole
    checkedInteger (if negative then -n else n)
  | '.' :: rest =>
    let fraction ← plainDigits Char.isDigit (rest.takeWhile fun c => !isExponentMark c)
    let exponent ← match rest.dropWhile fun c => !isExponentMark c with
      | [] => some 0
      | _ :: rest => exponentValue rest
    checkedReal (Decimal.nearestDouble negative (Decimal.ofDigits (whole ++ fraction))
      (exponent - fraction.length))
  | _ :: rest =>
    let exponent ← exponentValue rest
    checkedReal (Decimal.nearestDouble negative (Decimal.ofDigits whole) exponent)

/-- The value of a word. -/
def ofWord? (word : List Char) : Option Toml :=
  match word with
  | ['t', 'r', 'u', 'e'] => some (.boolean true)
  | ['f', 'a', 'l', 's', 'e'] => some (.boolean false)
  | ['i', 'n', 'f'] | ['+', 'i', 'n', 'f'] => some (.real Decimal.infinity)
  | ['-', 'i', 'n', 'f'] => some (.real (-Decimal.infinity))
  | ['n', 'a', 'n'] | ['+', 'n', 'a', 'n'] | ['-', 'n', 'a', 'n'] => some (.real Decimal.notANumber)
  | '0' :: 'x' :: rest => inBase 16 isHexDigit rest
  | '0' :: 'o' :: rest => inBase 8 isOctalDigit rest
  | '0' :: 'b' :: rest => inBase 2 isBinaryDigit rest
  | _ =>
    match Moment.read? word with
    | some m => some (.moment m)
    | none =>
      let (negative, rest) := Decimal.splitSign word
      decimalValue negative rest

def isWordChar (c : Char) : Bool :=
  c.isAlphanum || c = '_' || c = '+' || c = '-' || c = '.' || c = ':'

/-- Splits off the word that a text begins with. One space may separate a date from its time. -/
def splitWord (text : List Char) : List Char × List Char :=
  let word := text.takeWhile isWordChar
  match text.dropWhile isWordChar with
  | ' ' :: c :: rest =>
    if (Date.read? word).isSome && c.isDigit then
      (word ++ ' ' :: c :: rest.takeWhile isWordChar, rest.dropWhile isWordChar)
    else (word, ' ' :: c :: rest)
  | rest => (word, rest)

theorem splitWord_append (text : List Char) : (splitWord text).1 ++ (splitWord text).2 = text := by
  unfold splitWord
  have hword := List.takeWhile_append_dropWhile (p := isWordChar) (l := text)
  dsimp only
  split
  next c rest heq =>
    split
    · have htime := List.takeWhile_append_dropWhile (p := isWordChar) (l := rest)
      simp only [List.append_assoc, List.cons_append, htime]
      rw [← heq, hword]
    · rw [← heq, hword]
  next => exact hword

end NodeQuery.Toml

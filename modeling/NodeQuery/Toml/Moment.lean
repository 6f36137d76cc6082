import NodeQuery.Decimal.Reading

/-!
# Dates and times

The dates and times of TOML, each with its one full spelling. Days are checked against the
calendar; the sixtieth second is for leap seconds.
-/
namespace NodeQuery.Toml

structure Date where
  year : Nat
  month : Nat
  day : Nat
  deriving DecidableEq, Repr

/-- A time of day to the nanosecond. -/
structure Time where
  hour : Nat
  minute : Nat
  second : Nat
  nanosecond : Nat
  deriving DecidableEq, Repr

/-- The distance of a clock from universal time: none, spelled as a letter, or in minutes. -/
inductive Offset where
  | zulu
  | minutes (n : Int)
  deriving DecidableEq, Repr

inductive Moment where
  | date (date : Date)
  | time (time : Time)
  | dateTime (date : Date) (time : Time) (offset : Option Offset)
  deriving DecidableEq, Repr

def isLeapYear (year : Nat) : Bool := year % 4 == 0 && (year % 100 != 0 || year % 400 == 0)

def daysInMonth (year month : Nat) : Nat :=
  if month = 2 then if isLeapYear year then 29 else 28
  else if month = 4 || month = 6 || month = 9 || month = 11 then 30
  else 31

/-- The number of a row of digits, if it lies within bounds. -/
def boundedNumber (least greatest : Nat) (digits : List Char) : Option Nat :=
  if digits.all Char.isDigit then
    some (Decimal.ofDigits digits) |>.filter fun n => least ≤ n && n ≤ greatest
  else none

/-- A number with zeros in front of it, up to a width. -/
def paddedNumber (width n : Nat) : List Char := (Nat.toDigits 10 n).leftpad width '0'

/-- Reads a day of the calendar, such as `1979-05-27`. -/
def Date.read? : List Char → Option Date
  | [a, b, c, d, '-', e, f, '-', g, h] => do
    let year ← boundedNumber 0 9999 [a, b, c, d]
    let month ← boundedNumber 1 12 [e, f]
    let day ← boundedNumber 1 (daysInMonth year month) [g, h]
    return ⟨year, month, day⟩
  | _ => none

def Date.render (d : Date) : List Char :=
  paddedNumber 4 d.year ++ '-' :: paddedNumber 2 d.month ++ '-' :: paddedNumber 2 d.day

/-- The digits of a fraction of a second that count; the others are cut off. -/
def fractionDigits : Nat := 9

/-- The nanoseconds of a fraction behind the seconds; there may be none. -/
def readFraction : List Char → Option Nat
  | [] => some 0
  | '.' :: c :: rest =>
    if (c :: rest).all Char.isDigit then
      some (Decimal.ofDigits (((c :: rest).take fractionDigits).rightpad fractionDigits '0'))
    else none
  | _ => none

/-- Reads a time of day, such as `07:32:00.5`. -/
def Time.read? : List Char → Option Time
  | a :: b :: ':' :: c :: d :: ':' :: e :: f :: rest => do
    let hour ← boundedNumber 0 23 [a, b]
    let minute ← boundedNumber 0 59 [c, d]
    let second ← boundedNumber 0 60 [e, f]
    let nanosecond ← readFraction rest
    return ⟨hour, minute, second, nanosecond⟩
  | _ => none

/-- A fraction is written without zeros at its end, and not at all if it is zero. -/
def renderFraction (nanosecond : Nat) : List Char :=
  if nanosecond = 0 then []
  else
    let digits := paddedNumber fractionDigits nanosecond
    '.' :: (digits.reverse.dropWhile (· == '0')).reverse

def Time.render (t : Time) : List Char :=
  paddedNumber 2 t.hour ++ ':' :: paddedNumber 2 t.minute ++ ':' :: paddedNumber 2 t.second ++
    renderFraction t.nanosecond

/-- Reads a distance behind its sign, such as `01:30`. -/
def readOffsetMinutes : List Char → Option Nat
  | [a, b, ':', c, d] => do
    let hours ← boundedNumber 0 23 [a, b]
    let minutes ← boundedNumber 0 59 [c, d]
    return hours * 60 + minutes
  | _ => none

def Offset.read? : List Char → Option Offset
  | ['Z'] | ['z'] => some .zulu
  | '+' :: rest => (readOffsetMinutes rest).map fun n => .minutes n
  | '-' :: rest => (readOffsetMinutes rest).map fun n => .minutes (-n)
  | _ => none

/-- A distance of no minutes is written with a plus. -/
def Offset.render : Offset → List Char
  | .zulu => ['Z']
  | .minutes n =>
    (if n < 0 then '-' else '+') :: paddedNumber 2 (n.natAbs / 60) ++
      ':' :: paddedNumber 2 (n.natAbs % 60)

namespace Moment

def isOffsetStart (c : Char) : Bool := c = 'Z' || c = 'z' || c = '+' || c = '-'

/-- Reads what follows the letter or space behind a date: a time with an offset or without one. -/
def readBehindDate (d : Date) (text : List Char) : Option Moment := do
  let t ← Time.read? (text.takeWhile fun c => !isOffsetStart c)
  match text.dropWhile fun c => !isOffsetStart c with
  | [] => return .dateTime d t none
  | rest =>
    let offset ← Offset.read? rest
    return .dateTime d t (some offset)

/-- Reads a time, a date, or both. -/
def read? (text : List Char) : Option Moment :=
  match Time.read? text with
  | some t => some (.time t)
  | none =>
    match Date.read? (text.take 10), text.drop 10 with
    | some d, [] => some (.date d)
    | some d, 'T' :: rest | some d, 't' :: rest | some d, ' ' :: rest => readBehindDate d rest
    | _, _ => none

def render : Moment → List Char
  | .date d => d.render
  | .time t => t.render
  | .dateTime d t offset => d.render ++ 'T' :: t.render ++ (offset.map Offset.render).getD []

end Moment

end NodeQuery.Toml

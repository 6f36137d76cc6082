import NodeQuery.Host.Error

/-!
# Segments of a host pattern

A pattern is a row of segments: literal characters, stars, and bracket sets of numbers such as
`[1-3,7]`. Segments are read one at a time, so that each use of a pattern can put its own limits
between them.
-/
namespace NodeQuery.Host

/-- A term of a set: the numbers from `first` to `last`. A single number is both. -/
structure Term where
  first : Nat
  last : Nat
  first_le_last : first ≤ last := by omega
  deriving DecidableEq, Repr

namespace Term

def single (n : Nat) : Term := ⟨n, n, Nat.le_refl n⟩

def size (t : Term) : Nat := t.last - t.first + 1

def members (t : Term) : List Nat := List.range' t.first t.size

def contains (t : Term) (n : Nat) : Bool := t.first ≤ n && n ≤ t.last

theorem length_members (t : Term) : t.members.length = t.size := List.length_range'

theorem mem_members {t : Term} {n : Nat} : n ∈ t.members ↔ t.contains n = true := by
  have := t.first_le_last
  simp only [members, List.mem_range'_1, size, contains, Bool.and_eq_true, decide_eq_true_eq]
  omega

/-- The members of all terms in their order, repetitions included. -/
def allMembers (terms : List Term) : List Nat := terms.flatMap members

end Term

/-- A set holds its terms in the order in which it lists them. -/
inductive Segment where
  | literal (c : Char)
  | star
  | set (terms : List Term)
  deriving DecidableEq, Repr

namespace Segment

/-- The largest number that a set may name. -/
def maxNumber : UInt64 := 0xFFFFFFFF

/-- A range may not bring its set above this many members. -/
def maxSetSize : Nat := 10000

def digitValue (c : Char) : UInt64 := (c.toNat - 48).toUInt64

/-- Reads on in a number whose digits so far spell `value`. The 64-bit word cannot wrap, because
the bound is checked after every digit. -/
def readDigits (value : UInt64) : List Char → Except PatternError (Nat × List Char)
  | [] => .ok (value.toNat, [])
  | c :: rest =>
    if c.isDigit then
      let next := value * 10 + digitValue c
      if maxNumber < next then .error .numberOutOfRange else readDigits next rest
    else .ok (value.toNat, c :: rest)

/-- Reads the number that the text starts with; leading zeros are allowed. -/
def readNumber : List Char → Except PatternError (Nat × List Char)
  | [] => .error .invalidNumber
  | c :: rest => if c.isDigit then readDigits 0 (c :: rest) else .error .invalidNumber

/-- Reads a number or a range of a set that has `count` members so far. -/
def readTerm (count : Nat) (text : List Char) : Except PatternError (Term × List Char) :=
  match readNumber text with
  | .error e => .error e
  | .ok (first, '-' :: rest) =>
    match readNumber rest with
    | .error e => .error e
    | .ok (last, rest) =>
      if h : last < first then .error (.invalidRange first last)
      else
        let term : Term := ⟨first, last, Nat.le_of_not_lt h⟩
        if maxSetSize < count + term.size then .error .rangeTooLarge else .ok (term, rest)
  | .ok (first, rest) => .ok (.single first, rest)

theorem length_of_readDigits {value : UInt64} {text : List Char} {n : Nat} {rest : List Char}
    (h : readDigits value text = .ok (n, rest)) : rest.length ≤ text.length := by
  induction text generalizing value with
  | nil => simp [readDigits] at h; simp [h]
  | cons c cs ih =>
    simp only [readDigits] at h
    split at h
    · split at h
      · cases h
      · have := ih h
        simp only [List.length_cons]
        omega
    · cases h; simp

theorem length_of_readNumber {text : List Char} {n : Nat} {rest : List Char}
    (h : readNumber text = .ok (n, rest)) : rest.length < text.length := by
  cases text with
  | nil => cases h
  | cons c cs =>
    simp only [readNumber] at h
    split at h
    case isFalse => cases h
    case isTrue hc =>
      simp only [readDigits, hc, if_true] at h
      split at h
      · cases h
      · have := length_of_readDigits h
        simp only [List.length_cons]
        omega

theorem length_of_readTerm {count : Nat} {text : List Char} {term : Term} {rest : List Char}
    (h : readTerm count text = .ok (term, rest)) : rest.length < text.length := by
  unfold readTerm at h
  split at h
  · cases h
  next first tail hn =>
    have h₁ := length_of_readNumber hn
    split at h
    · cases h
    next last tail' hm =>
      have h₂ := length_of_readNumber hm
      simp only [List.length_cons] at h₁
      split at h
      · cases h
      · dsimp only at h
        split at h
        · cases h
        · cases h; omega
  next hn =>
    cases h
    exact length_of_readNumber hn

/-- Reads the terms of a set that has `count` members so far, and its closing bracket. -/
def readTerms (count : Nat) (text : List Char) : Except PatternError (List Term × List Char) :=
  match _h : readTerm count text with
  | .error e => .error e
  | .ok (term, ']' :: rest) => .ok ([term], rest)
  | .ok (term, ',' :: rest) =>
    match readTerms (count + term.size) rest with
    | .error e => .error e
    | .ok (more, rest) => .ok (term :: more, rest)
  | .ok _ => .error .expectedComma
termination_by text.length
decreasing_by
  have := length_of_readTerm _h
  simp only [List.length_cons] at this
  omega

theorem length_of_readTerms {count : Nat} {text : List Char} {terms : List Term}
    {rest : List Char} (h : readTerms count text = .ok (terms, rest)) :
    rest.length < text.length := by
  fun_induction readTerms count text generalizing terms rest with
  | case1 => cases h
  | case2 count text term tail ht =>
    cases h
    have := length_of_readTerm ht
    simp only [List.length_cons] at this
    omega
  | case3 => cases h
  | case4 count text term tail ht more tail' hm ih =>
    cases h
    have h₁ := ih hm
    have h₂ := length_of_readTerm ht
    simp only [List.length_cons] at h₂
    omega
  | case5 => cases h

/-- Reads the next segment, if there is one. -/
def next : List Char → Except PatternError (Option (Segment × List Char))
  | [] => .ok none
  | '*' :: rest => .ok (some (.star, rest))
  | ',' :: _ => .error .commaNotAllowed
  | '[' :: rest =>
    match readTerms 0 rest with
    | .error e => .error e
    | .ok (terms, rest) => .ok (some (.set terms, rest))
  | c :: rest => .ok (some (.literal c, rest))

theorem length_of_next {text : List Char} {s : Segment} {rest : List Char}
    (h : next text = .ok (some (s, rest))) : rest.length < text.length := by
  unfold next at h
  split at h
  · cases h
  · cases h; simp
  · cases h
  · split at h
    · cases h
    next hm =>
      cases h
      have := length_of_readTerms hm
      simp only [List.length_cons]
      omega
  · cases h; simp

end Segment

end NodeQuery.Host

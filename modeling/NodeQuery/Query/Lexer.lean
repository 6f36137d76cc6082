import NodeQuery.Query.Token

/-!
# Reading tokens one at a time

A lexer stands at a byte position of its text and counts the characters in front of it. It looks one
token ahead: a token that has been peeked at waits until it is taken. The text is cut at byte
positions only, and a cut that would go through a character, or lies behind the end of the text,
fails.
-/
namespace NodeQuery.Query

/-- The characters from a byte position on, if one begins there. -/
def charactersFrom? : List Char → Nat → Option (List Char)
  | text, 0 => some text
  | [], _ + 1 => none
  | c :: text, position + 1 =>
    if position + 1 < c.utf8Size then none
    else charactersFrom? text (position + 1 - c.utf8Size)

/-- The characters in front of a byte position, if one ends there. -/
def charactersUpTo? : List Char → Nat → Option (List Char)
  | _, 0 => some []
  | [], _ + 1 => none
  | c :: text, position + 1 =>
    if position + 1 < c.utf8Size then none
    else (charactersUpTo? text (position + 1 - c.utf8Size)).map (c :: ·)

/-- The characters between two byte positions. -/
def slice? (text : List Char) (start stop : Nat) : Option (List Char) :=
  if stop < start then none
  else (charactersFrom? text start).bind fun behind => charactersUpTo? behind (stop - start)

inductive LexemeKind where
  | parenthesis | operator | word
  deriving DecidableEq, Repr

/-- A token as it stands in the text, with the number of characters in front of it. -/
structure Lexeme where
  text : List Char
  kind : LexemeKind
  location : Nat
  deriving DecidableEq, Repr

/-- The byte `position` and the character `offset` are the place of the next character that has not
been read; `last` is the location of the last token that was taken. -/
structure Lexer where
  source : List Char
  position : Nat
  offset : Nat
  pending : Option Lexeme
  last : Nat
  deriving DecidableEq, Repr

/-- The runs of operator characters that are tokens. -/
def operators : List String := ["<", "<=", ">", ">=", "=", "~"]

namespace Lexer

def ofText (source : List Char) : Lexer := ⟨source, 0, 0, none, 0⟩

/-- What a call gives: the next token or none at the end, or an error, and the lexer after it. There
is nothing where a cut of the text fails. -/
abbrev Answer : Type := Option (Except QueryError (Option Lexeme) × Lexer)

def stepOver (l : Lexer) (c : Char) : Lexer :=
  { l with position := l.position + c.utf8Size, offset := l.offset + 1 }

/-- Steps over the first characters of what stands ahead, as long as they are of the class. -/
def stepWhile (p : Char → Bool) (l : Lexer) : List Char → Lexer
  | [] => l
  | c :: ahead => if p c then (l.stepOver c).stepWhile p ahead else l

def advanceWhile (p : Char → Bool) (l : Lexer) : Option Lexer :=
  (charactersFrom? l.source l.position).map (l.stepWhile p)

/-- The kind of the token that begins with a character, and the lexer behind that token. -/
def advanceOver (l : Lexer) (c : Char) : Option (LexemeKind × Lexer) :=
  if isParenthesis c then some (.parenthesis, l.stepOver c)
  else if isOperatorChar c then (l.advanceWhile isOperatorChar).map fun after => (.operator, after)
  else (l.advanceWhile isWordChar).map fun after => (.word, after)

/-- Reads the token at the place of the lexer, behind the blanks there. -/
def readToken (l : Lexer) : Answer := do
  match ← charactersFrom? l.source l.position with
  | [] => return (.ok none, l)
  | c :: _ =>
    let (kind, after) ← l.advanceOver c
    let text ← slice? l.source l.position after.position
    if kind = .operator ∧ String.ofList text ∉ operators then
      return (.error ⟨l.offset + 1, .unknownOperator (String.ofList text)⟩, after)
    return (.ok (some ⟨text, kind, l.offset⟩), after)

def scan (l : Lexer) : Answer := (l.advanceWhile isSpace).bind readToken

/-- Looks at the next token, which stays the next one. -/
def peek (l : Lexer) : Answer :=
  match l.pending with
  | some lexeme => some (.ok (some lexeme), l)
  | none => do
    match ← l.scan with
    | (.error e, after) => return (.error e, after)
    | (.ok found, after) => return (.ok found, { after with pending := found })

/-- Takes the next token. -/
def next (l : Lexer) : Answer := do
  match ← l.peek with
  | (.error e, after) => return (.error e, after)
  | (.ok none, after) => return (.ok none, { after with pending := none })
  | (.ok (some lexeme), after) =>
    return (.ok (some lexeme), { after with pending := none, last := lexeme.location })

end Lexer

inductive Call where
  | peek | next
  deriving DecidableEq, Repr

/-- What a row of calls has given: an answer for each call up to the first error, that error, and
the lexer after it. -/
structure Reading where
  answers : List (Call × Option Lexeme)
  error : Option QueryError
  lexer : Lexer
  deriving DecidableEq, Repr

namespace Lexer

def call (l : Lexer) : Call → Answer
  | .peek => l.peek
  | .next => l.next

/-- Makes the calls one after the other, up to the first that answers with an error. -/
def callAll (l : Lexer) : List Call → Option Reading
  | [] => some ⟨[], none, l⟩
  | call :: calls => do
    match ← l.call call with
    | (.error e, after) => return ⟨[], some e, after⟩
    | (.ok found, after) =>
      let more ← after.callAll calls
      return { more with answers := (call, found) :: more.answers }

end Lexer

/-- The tokens that were taken, in their order. -/
def Reading.taken (reading : Reading) : List Lexeme :=
  reading.answers.filterMap fun (call, found) => if call = .next then found else none

end NodeQuery.Query

import NodeQuery.Toml.Text

/-!
# Written strings and keys of TOML

A string takes the plainest form that holds it: basic without escapes, literal, then the same two
forms on several lines; what fits none of them is escaped. Keys are bare where they can be.
-/
namespace NodeQuery.Toml

/-- Whether a character stands three times in a row. -/
def hasTriple (c : Char) : List Char → Bool
  | x :: y :: z :: rest => (x = c && y = c && z = c) || hasTriple c (y :: z :: rest)
  | _ => false

/-- The control characters that need an escape everywhere. -/
def needsEscape (c : Char) : Bool := isControl c && c != '\n'

/-- Four hexadecimal digits. -/
def hexText (n : Nat) : List Char :=
  [n / 0x1000, n / 0x100, n / 0x10, n].map fun k => (k % 16).digitChar.toUpper

/-- A character of a basic string other than the quote; line breaks stay in a long one. -/
def escapeChar (long : Bool) (c : Char) : List Char :=
  if c = '\x08' then ['\\', 'b']
  else if c = '\t' then ['\\', 't']
  else if c = '\n' then if long then ['\n'] else ['\\', 'n']
  else if c = '\x0c' then ['\\', 'f']
  else if c = '\r' then ['\\', 'r']
  else if c = '\\' then ['\\', '\\']
  else if isControl c then '\\' :: 'u' :: hexText c.toNat
  else [c]

/-- The characters between the quotes of a basic string, where `run` quotes stand right before
them. A long string holds two quotes in a row, a short one none. -/
def escapeText (long : Bool) (run : Nat) : List Char → List Char
  | [] => []
  | c :: rest =>
    if c = '"' then
      if run < (if long then 2 else 0) then '"' :: escapeText long (run + 1) rest
      else '\\' :: '"' :: escapeText long 0 rest
    else escapeChar long c ++ escapeText long 0 rest

def shortBasic (text : List Char) : List Char := '"' :: (escapeText false 0 text ++ ['"'])

def shortLiteral (text : List Char) : List Char := '\'' :: (text ++ ['\''])

/-- A line break follows the opening quotes if there are others in the string. -/
def openingBreak (text : List Char) : List Char := if text.contains '\n' then ['\n'] else []

def longBasic (text : List Char) : List Char :=
  ['"', '"', '"'] ++ openingBreak text ++ escapeText true 0 text ++ ['"', '"', '"']

def longLiteral (text : List Char) : List Char :=
  ['\'', '\'', '\''] ++ openingBreak text ++ text ++ ['\'', '\'', '\'']

def quoteString (text : List Char) : List Char :=
  let printable := !text.any needsEscape
  let oneLine := !text.contains '\n'
  let noBackslash := !text.contains '\\'
  if printable && oneLine && noBackslash && !text.contains '"' then shortBasic text
  else if printable && oneLine && !text.contains '\'' then shortLiteral text
  else if printable && noBackslash && !hasTriple '"' text then longBasic text
  else if printable && !hasTriple '\'' text then longLiteral text
  else if oneLine then shortBasic text
  else longBasic text

def quoteKey (name : List Char) : List Char :=
  let printable := !name.any isControl
  if !name.isEmpty && name.all isBareChar then name
  else if printable && !name.contains '\\' && !name.contains '"' then shortBasic name
  else if printable && !name.contains '\'' then shortLiteral name
  else shortBasic name

end NodeQuery.Toml

/-!
# Strings and keys of TOML

Strings come in four forms: basic ones with escapes and literal ones without, each on one line or on
several. The parts of a dotted key are bare or are strings on one line.
-/
namespace NodeQuery.Toml

def isBlank (c : Char) : Bool := c = ' ' || c = '\t'

/-- The characters that no string holds as such, but for line breaks in long ones. -/
def isControl (c : Char) : Bool := (c.toNat < 0x20 && c != '\t') || c.toNat = 0x7F

/-- The value of hexadecimal digits. -/
def codePoint (digits : List Char) : Option Nat :=
  digits.foldlM (fun n c =>
    if c.isDigit then some (n * 16 + (c.toNat - 48))
    else if 'a' ≤ c && c ≤ 'f' then some (n * 16 + (c.toNat - 87))
    else if 'A' ≤ c && c ≤ 'F' then some (n * 16 + (c.toNat - 55))
    else none) 0

/-- The character with the given hexadecimal number, unless that is no character. -/
def charOf (digits : List Char) : Option Char :=
  (codePoint digits).bind fun n => if n.isValidChar then some (Char.ofNat n) else none

/-- The character that an escape stands for, and what follows it; the backslash is read already. -/
def readEscape : List Char → Option (Char × List Char)
  | 'b' :: rest => some ('\x08', rest)
  | 't' :: rest => some ('\t', rest)
  | 'n' :: rest => some ('\n', rest)
  | 'f' :: rest => some ('\x0c', rest)
  | 'r' :: rest => some ('\r', rest)
  | '"' :: rest => some ('"', rest)
  | '\\' :: rest => some ('\\', rest)
  | 'u' :: a :: b :: c :: d :: rest => (charOf [a, b, c, d]).map (·, rest)
  | 'U' :: a :: b :: c :: d :: e :: f :: g :: h :: rest =>
    (charOf [a, b, c, d, e, f, g, h]).map (·, rest)
  | _ => none

theorem length_of_readEscape {text rest : List Char} {c : Char}
    (h : readEscape text = some (c, rest)) : rest.length < text.length := by
  unfold readEscape at h
  split at h
  case h_8 =>
    obtain ⟨x, -, hx⟩ := Option.map_eq_some_iff.mp h
    cases hx
    simp only [List.length_cons]
    omega
  case h_9 =>
    obtain ⟨x, -, hx⟩ := Option.map_eq_some_iff.mp h
    cases hx
    simp only [List.length_cons]
    omega
  all_goals cases h
  all_goals simp

/-- Reads a basic string up to its quote, behind characters in reverse order. -/
def readBasic (done : List Char) (text : List Char) : Option (List Char × List Char) :=
  match text with
  | [] => none
  | '"' :: rest => some (done.reverse, rest)
  | '\\' :: rest =>
    match _h : readEscape rest with
    | none => none
    | some (c, rest) => readBasic (c :: done) rest
  | c :: rest => if isControl c then none else readBasic (c :: done) rest
termination_by text.length
decreasing_by
  · have := length_of_readEscape _h
    simp only [List.length_cons]
    omega
  · simp

/-- Reads a literal string up to its quote. -/
def readLiteral (done : List Char) : List Char → Option (List Char × List Char)
  | [] => none
  | '\'' :: rest => some (done.reverse, rest)
  | c :: rest => if isControl c then none else readLiteral (c :: done) rest

/-- Reads a literal string on several lines. One or two quotes in a row belong to it, also in front
of the three that end it. -/
def readLongLiteral (done : List Char) : List Char → Option (List Char × List Char)
  | [] => none
  | '\'' :: '\'' :: '\'' :: '\'' :: '\'' :: rest => some (('\'' :: '\'' :: done).reverse, rest)
  | '\'' :: '\'' :: '\'' :: '\'' :: rest => some (('\'' :: done).reverse, rest)
  | '\'' :: '\'' :: '\'' :: rest => some (done.reverse, rest)
  | '\n' :: rest => readLongLiteral ('\n' :: done) rest
  | '\r' :: '\n' :: rest => readLongLiteral ('\n' :: done) rest
  | c :: rest => if isControl c then none else readLongLiteral (c :: done) rest

/-- Drops blanks and line breaks. -/
def skipSpace : List Char → List Char
  | [] => []
  | '\r' :: '\n' :: rest => skipSpace rest
  | c :: rest => if isBlank c || c = '\n' then skipSpace rest else c :: rest

/-- Behind a backslash at the end of a line: drops what is left of the line, which must be blank,
and all space behind it. -/
def skipLineEnd (text : List Char) : Option (List Char) :=
  match text.dropWhile isBlank with
  | '\n' :: rest => some (skipSpace rest)
  | '\r' :: '\n' :: rest => some (skipSpace rest)
  | _ => none

theorem length_skipSpace_le (text : List Char) : (skipSpace text).length ≤ text.length := by
  fun_induction skipSpace text with
  | case1 => exact Nat.le_refl _
  | case2 rest ih => simp only [List.length_cons]; omega
  | case3 c rest _ _ ih => simp only [List.length_cons]; omega
  | case4 => exact Nat.le_refl _

theorem length_dropBlanks_le (text : List Char) :
    (text.dropWhile isBlank).length ≤ text.length :=
  (List.dropWhile_sublist isBlank).length_le

theorem length_of_skipLineEnd {text rest : List Char} (h : skipLineEnd text = some rest) :
    rest.length < text.length := by
  have hle := length_dropBlanks_le text
  unfold skipLineEnd at h
  split at h
  next tail heq =>
    cases h
    have := length_skipSpace_le tail
    simp only [heq, List.length_cons] at hle
    omega
  next tail heq =>
    cases h
    have := length_skipSpace_le tail
    simp only [heq, List.length_cons] at hle
    omega
  · cases h

/-- Reads a basic string on several lines. -/
def readLongBasic (done : List Char) (text : List Char) : Option (List Char × List Char) :=
  match text with
  | [] => none
  | '"' :: '"' :: '"' :: '"' :: '"' :: rest => some (('"' :: '"' :: done).reverse, rest)
  | '"' :: '"' :: '"' :: '"' :: rest => some (('"' :: done).reverse, rest)
  | '"' :: '"' :: '"' :: rest => some (done.reverse, rest)
  | '\n' :: rest => readLongBasic ('\n' :: done) rest
  | '\r' :: '\n' :: rest => readLongBasic ('\n' :: done) rest
  | '\\' :: rest =>
    match _h : readEscape rest with
    | some (c, rest) => readLongBasic (c :: done) rest
    | none =>
      match _h : skipLineEnd rest with
      | some rest => readLongBasic done rest
      | none => none
  | c :: rest => if isControl c then none else readLongBasic (c :: done) rest
termination_by text.length
decreasing_by
  · simp
  · simp only [List.length_cons]; omega
  · have := length_of_readEscape _h
    simp only [List.length_cons]
    omega
  · have := length_of_skipLineEnd _h
    simp only [List.length_cons]
    omega
  · simp

/-- Drops a line break right behind opening quotes. -/
def skipFirstBreak : List Char → List Char
  | '\n' :: rest => rest
  | '\r' :: '\n' :: rest => rest
  | rest => rest

/-- Reads a string of any form. -/
def readString : List Char → Option (List Char × List Char)
  | '"' :: '"' :: '"' :: rest => readLongBasic [] (skipFirstBreak rest)
  | '"' :: rest => readBasic [] rest
  | '\'' :: '\'' :: '\'' :: rest => readLongLiteral [] (skipFirstBreak rest)
  | '\'' :: rest => readLiteral [] rest
  | _ => none

def isBareChar (c : Char) : Bool := c.isAlphanum || c = '_' || c = '-'

/-- Reads one part of a dotted key. -/
def readKeyPart : List Char → Option (List Char × List Char)
  | '"' :: rest => readBasic [] rest
  | '\'' :: rest => readLiteral [] rest
  | text =>
    match text.takeWhile isBareChar with
    | [] => none
    | name => some (name, text.dropWhile isBareChar)

theorem length_of_readBasic {done text value rest : List Char}
    (h : readBasic done text = some (value, rest)) : rest.length < text.length := by
  fun_induction readBasic done text with
  | case1 => cases h
  | case2 => cases h; simp
  | case3 => cases h
  | case4 done rest' c tail hc ih =>
    have h₁ := ih h
    have h₂ := length_of_readEscape hc
    simp only [List.length_cons]
    omega
  | case5 => cases h
  | case6 done c tail _ _ _ ih =>
    have := ih h
    simp only [List.length_cons]
    omega

theorem length_of_readLiteral {done text value rest : List Char}
    (h : readLiteral done text = some (value, rest)) : rest.length < text.length := by
  fun_induction readLiteral done text with
  | case1 => cases h
  | case2 => cases h; simp
  | case3 => cases h
  | case4 done c tail _ _ ih =>
    have := ih h
    simp only [List.length_cons]
    omega

theorem length_of_readLongLiteral {done text value rest : List Char}
    (h : readLongLiteral done text = some (value, rest)) : rest.length < text.length := by
  fun_induction readLongLiteral done text with
  | case1 => cases h
  | case2 => cases h; simp only [List.length_cons]; omega
  | case3 => cases h; simp only [List.length_cons]; omega
  | case4 => cases h; simp only [List.length_cons]; omega
  | case5 done tail ih =>
    have := ih h
    simp only [List.length_cons]
    omega
  | case6 done tail ih =>
    have := ih h
    simp only [List.length_cons]
    omega
  | case7 => cases h
  | case8 done c tail _ _ _ _ _ _ ih =>
    have := ih h
    simp only [List.length_cons]
    omega

theorem length_of_readLongBasic {done text value rest : List Char}
    (h : readLongBasic done text = some (value, rest)) : rest.length < text.length := by
  fun_induction readLongBasic done text with
  | case1 => cases h
  | case2 => cases h; simp only [List.length_cons]; omega
  | case3 => cases h; simp only [List.length_cons]; omega
  | case4 => cases h; simp only [List.length_cons]; omega
  | case5 done tail ih =>
    have := ih h
    simp only [List.length_cons]
    omega
  | case6 done tail ih =>
    have := ih h
    simp only [List.length_cons]
    omega
  | case7 done rest' c tail hc ih =>
    have h₁ := ih h
    have h₂ := length_of_readEscape hc
    simp only [List.length_cons]
    omega
  | case8 done rest' _ tail hc ih =>
    have h₁ := ih h
    have h₂ := length_of_skipLineEnd hc
    simp only [List.length_cons]
    omega
  | case9 => cases h
  | case10 => cases h
  | case11 done c tail _ _ _ _ _ _ _ ih =>
    have := ih h
    simp only [List.length_cons]
    omega

theorem length_skipFirstBreak_le (text : List Char) :
    (skipFirstBreak text).length ≤ text.length := by
  unfold skipFirstBreak
  split
  · simp
  · simp only [List.length_cons]; omega
  · exact Nat.le_refl _

theorem length_of_readString {text value rest : List Char}
    (h : readString text = some (value, rest)) : rest.length < text.length := by
  unfold readString at h
  split at h
  · refine Nat.lt_of_lt_of_le (length_of_readLongBasic h) ?_
    refine Nat.le_trans (length_skipFirstBreak_le _) ?_
    simp only [List.length_cons]
    omega
  · have := length_of_readBasic h
    simp only [List.length_cons]
    omega
  · refine Nat.lt_of_lt_of_le (length_of_readLongLiteral h) ?_
    refine Nat.le_trans (length_skipFirstBreak_le _) ?_
    simp only [List.length_cons]
    omega
  · have := length_of_readLiteral h
    simp only [List.length_cons]
    omega
  · cases h

theorem length_of_readKeyPart {text name rest : List Char}
    (h : readKeyPart text = some (name, rest)) : rest.length < text.length := by
  unfold readKeyPart at h
  split at h
  · have := length_of_readBasic h
    simp only [List.length_cons]
    omega
  · have := length_of_readLiteral h
    simp only [List.length_cons]
    omega
  · have hsplit := congrArg List.length
      (List.takeWhile_append_dropWhile (p := isBareChar) (l := text))
    simp only [List.length_append] at hsplit
    split at h
    · cases h
    next hne =>
      cases h
      have := List.length_pos_iff.mpr hne
      omega

end NodeQuery.Toml

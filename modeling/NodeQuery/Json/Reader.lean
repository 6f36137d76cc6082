import NodeQuery.Json.Number

/-!
# Reading JSON

A text is read from left to right in one pass. What surrounds the place that has been reached is a
stack of frames, one for every array or object that is still open, so the stack also bounds how
deep values may nest. Which value a number has is a parameter.
-/
namespace NodeQuery.Json

def isBlank (c : Char) : Bool := c = ' ' || c = '\t' || c = '\n' || c = '\r'

/-- The value of a hexadecimal digit. -/
def hexDigit (c : Char) : Option Nat :=
  if c.isDigit then some (c.toNat - 48)
  else if 'a' ≤ c && c ≤ 'f' then some (c.toNat - 87)
  else if 'A' ≤ c && c ≤ 'F' then some (c.toNat - 55)
  else none

/-- A code unit of four hexadecimal digits. -/
def codeUnit (a b c d : Char) : Option Nat := do
  return (((← hexDigit a) * 16 + (← hexDigit b)) * 16 + (← hexDigit c)) * 16 + (← hexDigit d)

def isHighSurrogate (unit : Nat) : Bool := 0xD800 ≤ unit && unit < 0xDC00

def isLowSurrogate (unit : Nat) : Bool := 0xDC00 ≤ unit && unit < 0xE000

/-- The character that an escape of one letter stands for. -/
def escaped (letter : Char) : Option Char :=
  if letter = '"' || letter = '\\' || letter = '/' then some letter
  else if letter = 'b' then some '\x08'
  else if letter = 'f' then some '\x0c'
  else if letter = 'n' then some '\n'
  else if letter = 'r' then some '\r'
  else if letter = 't' then some '\t'
  else none

/-- Reads a string up to its closing quote, behind characters that were read already and stand in
reverse order. Surrogates must come in pairs; control characters must be escaped. -/
def readString (done : List Char) : List Char → Option (List Char × List Char)
  | [] => none
  | '"' :: rest => some (done.reverse, rest)
  | '\\' :: 'u' :: a :: b :: c :: d :: rest =>
    match codeUnit a b c d with
    | none => none
    | some unit =>
      if isLowSurrogate unit then none
      else if isHighSurrogate unit then
        match rest with
        | '\\' :: 'u' :: e :: f :: g :: h :: rest =>
          match codeUnit e f g h with
          | none => none
          | some low =>
            if isLowSurrogate low then
              let point := 0x10000 + (unit - 0xD800) * 0x400 + (low - 0xDC00)
              readString (Char.ofNat point :: done) rest
            else none
        | _ => none
      else readString (Char.ofNat unit :: done) rest
  | '\\' :: letter :: rest =>
    match escaped letter with
    | none => none
    | some c => readString (c :: done) rest
  | c :: rest => if c.toNat < 0x20 || c = '\\' then none else readString (c :: done) rest

/-- Reads the value of a number behind its sign. -/
def readMagnitude (value? : Number → Option Json) (negative : Bool) (text : List Char) :
    Option (Json × List Char) := do
  let (number, rest) ← readNumber negative text
  let value ← value? number
  some (value, rest)

/-- An array or object that is still open: the items so far in reverse order, or the entries so
far and the name whose value is being read. -/
inductive Frame where
  | array (items : List Json)
  | entry (entries : List (String × Json)) (name : String)

/-- What has to come next. -/
inductive State where
  | value (stack : List Frame)
  | itemOrEnd (stack : List Frame)
  | nameOrEnd (stack : List Frame)
  | name (entries : List (String × Json)) (stack : List Frame)
  | colon (entries : List (String × Json)) (name : String) (stack : List Frame)
  | after (value : Json) (stack : List Frame)

/-- Reads the beginning of a value: all of it, or the opening of an array or object if that nests
at most `limit` deep. -/
def startValue (value? : Number → Option Json) (limit : Nat) (stack : List Frame) (c : Char)
    (rest : List Char) : Option (State × List Char) :=
  if c = '{' then if stack.length < limit then some (.nameOrEnd stack, rest) else none
  else if c = '[' then if stack.length < limit then some (.itemOrEnd stack, rest) else none
  else if c = '"' then
    match readString [] rest with
    | none => none
    | some (text, rest) => some (.after (.string (String.ofList text)) stack, rest)
  else if c = '-' then
    match readMagnitude value? true rest with
    | none => none
    | some (value, rest) => some (.after value stack, rest)
  else if c.isDigit then
    match readMagnitude value? false (c :: rest) with
    | none => none
    | some (value, rest) => some (.after value stack, rest)
  else match c, rest with
    | 't', 'r' :: 'u' :: 'e' :: rest => some (.after (.boolean true) stack, rest)
    | 'f', 'a' :: 'l' :: 's' :: 'e' :: rest => some (.after (.boolean false) stack, rest)
    | 'n', 'u' :: 'l' :: 'l' :: rest => some (.after .null stack, rest)
    | _, _ => none

/-- Reads the name of an entry. -/
def startName (entries : List (String × Json)) (stack : List Frame) (c : Char)
    (rest : List Char) : Option (State × List Char) :=
  if c = '"' then
    match readString [] rest with
    | none => none
    | some (text, rest) => some (.colon entries (String.ofList text) stack, rest)
  else none

/-- What a value that has just ended is followed by. -/
def afterValue (value : Json) (stack : List Frame) (c : Char) : Option State :=
  match stack with
  | [] => none
  | .array items :: stack =>
    if c = ',' then some (.value (.array (value :: items) :: stack))
    else if c = ']' then some (.after (.array (value :: items).reverse) stack)
    else none
  | .entry entries name :: stack =>
    if c = ',' then some (.name (insertEntry name value entries) stack)
    else if c = '}' then some (.after (.object (insertEntry name value entries)) stack)
    else none

/-- Reads on from a character that is not blank. -/
def step (value? : Number → Option Json) (limit : Nat) (c : Char) (rest : List Char) :
    State → Option (State × List Char)
  | .value stack => startValue value? limit stack c rest
  | .itemOrEnd stack =>
    if c = ']' then some (.after (.array []) stack, rest)
    else startValue value? limit (.array [] :: stack) c rest
  | .nameOrEnd stack =>
    if c = '}' then some (.after (.object []) stack, rest) else startName [] stack c rest
  | .name entries stack => startName entries stack c rest
  | .colon entries name stack =>
    if c = ':' then some (.value (.entry entries name :: stack), rest) else none
  | .after value stack => (afterValue value stack c).map (·, rest)

theorem length_of_readString {done text value rest : List Char}
    (h : readString done text = some (value, rest)) : rest.length < text.length := by
  fun_induction readString done text with
  | case1 => cases h
  | case2 => cases h; simp
  | case3 => cases h
  | case4 => cases h
  | case5 => cases h
  | case6 done a b c d unit hunit hlow hhigh e f g h' rest' low hlow' hsur point ih =>
    have := ih h
    simp only [List.length_cons]
    omega
  | case7 => cases h
  | case8 => cases h
  | case9 done a b c d rest' unit hunit hlow hhigh ih =>
    have := ih h
    simp only [List.length_cons]
    omega
  | case10 => cases h
  | case11 done letter rest' hu c hc ih =>
    have := ih h
    simp only [List.length_cons]
    omega
  | case12 => cases h
  | case13 done c rest' _ _ _ hc ih =>
    have := ih h
    simp only [List.length_cons]
    omega

section Lengths
variable {value? : Number → Option Json} {limit : Nat} {stack : List Frame} {c : Char}
  {text rest : List Char} {state next : State}

theorem length_of_readMagnitude {negative : Bool} {value : Json}
    (h : readMagnitude value? negative text = some (value, rest)) : rest.length < text.length := by
  simp only [readMagnitude, Option.bind_eq_bind, Option.bind_eq_some_iff] at h
  obtain ⟨⟨number, behind⟩, hnumber, value, -, hpair⟩ := h
  cases hpair
  exact length_of_readNumber hnumber

theorem length_of_startValue (h : startValue value? limit stack c text = some (state, rest)) :
    rest.length ≤ text.length := by
  unfold startValue at h
  split at h
  · split at h
    · cases h; exact Nat.le_refl _
    · cases h
  · split at h
    · split at h
      · cases h; exact Nat.le_refl _
      · cases h
    · split at h
      · split at h
        · cases h
        next hs => cases h; exact Nat.le_of_lt (length_of_readString hs)
      · split at h
        · split at h
          · cases h
          next hm => cases h; exact Nat.le_of_lt (length_of_readMagnitude hm)
        · split at h
          · split at h
            · cases h
            next hm =>
              cases h
              have := length_of_readMagnitude hm
              simp only [List.length_cons] at this
              omega
          · split at h
            · cases h; simp only [List.length_cons]; omega
            · cases h; simp only [List.length_cons]; omega
            · cases h; simp only [List.length_cons]; omega
            · cases h

theorem length_of_startName {entries : List (String × Json)}
    (h : startName entries stack c text = some (state, rest)) : rest.length ≤ text.length := by
  unfold startName at h
  split at h
  · split at h
    · cases h
    next hs => cases h; exact Nat.le_of_lt (length_of_readString hs)
  · cases h

theorem length_of_step (h : step value? limit c text state = some (next, rest)) :
    rest.length ≤ text.length := by
  unfold step at h
  split at h
  · exact length_of_startValue h
  · split at h
    · cases h; exact Nat.le_refl _
    · exact length_of_startValue h
  · split at h
    · cases h; exact Nat.le_refl _
    · exact length_of_startName h
  · exact length_of_startName h
  · split at h
    · cases h; exact Nat.le_refl _
    · cases h
  next value stack =>
    cases ha : afterValue value stack c with
    | none => simp [ha] at h
    | some state => simp [ha] at h; simp [h.2]

end Lengths

/-- Reads on to the end of the text, where one value must be complete. -/
def readFrom (value? : Number → Option Json) (limit : Nat) (state : State) :
    List Char → Option Json
  | [] =>
    match state with
    | .after value [] => some value
    | _ => none
  | c :: rest =>
    if isBlank c then readFrom value? limit state rest
    else match _h : step value? limit c rest state with
      | none => none
      | some (next, rest) => readFrom value? limit next rest
termination_by text => text.length
decreasing_by
  · simp
  · have := length_of_step _h
    simp only [List.length_cons]
    omega

/-- The value of a text in which arrays and objects nest at most `limit` deep. -/
def readWith (value? : Number → Option Json) (limit : Nat) (text : List Char) : Option Json :=
  readFrom value? limit (.value []) text

/-- The value of a text whose numbers are valued as in records. -/
def read (limit : Nat) (text : List Char) : Option Json := readWith Number.value? limit text

end NodeQuery.Json

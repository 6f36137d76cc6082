import NodeQuery.Toml.Document
import NodeQuery.Toml.Text
import NodeQuery.Toml.Word

/-!
# Reading TOML

A text is read from left to right in one pass, along with the document that the lines so far make
up. Within a value, the arrays and inline tables that are still open are a stack of frames.
-/
namespace NodeQuery.Toml

/-- Arrays and inline tables nest at most this deep. -/
def maxDepth : Nat := 79

/-- A dotted key has at most this many parts. -/
def maxKeyParts : Nat := 79

/-- Reads a dotted key of at most `limit` parts, and the blanks behind it. -/
def readPath : Nat → List Char → Option (Path × List Char)
  | 0, _ => none
  | limit + 1, text =>
    match readKeyPart (text.dropWhile isBlank) with
    | none => none
    | some (name, rest) =>
      match rest.dropWhile isBlank with
      | '.' :: rest =>
        (readPath limit rest).map fun (path, rest) =>
          (⟨String.ofList name :: path.parents, path.name⟩, rest)
      | rest => some (⟨[], String.ofList name⟩, rest)

/-- Reads a dotted key and the equals sign behind it. -/
def readAssignment (text : List Char) : Option (Path × List Char) :=
  match readPath maxKeyParts text with
  | some (path, '=' :: rest) => some (path, rest)
  | _ => none

/-- Reads a header, whose first bracket is read already, and opens its table. -/
def readHeader (d : Document) : List Char → Option (Document × List Char)
  | '[' :: rest =>
    match readPath maxKeyParts rest with
    | some (path, ']' :: ']' :: rest) => (d.beginElement path).map (·, rest)
    | _ => none
  | rest =>
    match readPath maxKeyParts rest with
    | some (path, ']' :: rest) => (d.beginTable path).map (·, rest)
    | _ => none

/-- The characters that a comment may hold. -/
def isCommentChar (c : Char) : Bool := !isControl c

/-- An array that is still open, with its items so far in reverse order, or an inline table with
its entries so far and the key whose value is being read. -/
inductive Frame where
  | array (items : List Toml)
  | entry (entries : List (String × Node)) (key : Path)

/-- What has to come next. Within a value, the document and the key wait for it. -/
inductive State where
  | line (d : Document)
  | lineEnd (d : Document)
  | value (d : Document) (key : Path) (stack : List Frame)
  | itemOrEnd (d : Document) (key : Path) (items : List Toml) (stack : List Frame)
  | entryOrEnd (d : Document) (key : Path) (stack : List Frame)
  | entry (d : Document) (key : Path) (entries : List (String × Node)) (stack : List Frame)
  | after (d : Document) (key : Path) (value : Toml) (stack : List Frame)

/-- What a line break leads to, where it may come; comments may come in the same places. -/
def State.afterBreak : State → Option State
  | .line d | .lineEnd d => some (.line d)
  | .itemOrEnd d key items stack => some (.itemOrEnd d key items stack)
  | .after d key v (.array items :: stack) => some (.after d key v (.array items :: stack))
  | _ => none

/-- Goes on behind a value; one that nothing surrounds is assigned. -/
def endValue (d : Document) (key : Path) (value : Toml) : List Frame → Option State
  | [] => (d.assign key value).map .lineEnd
  | stack => some (.after d key value stack)

/-- Reads the beginning of a value: all of it, or the opening of an array or inline table. -/
def startValue (d : Document) (key : Path) (stack : List Frame) (text : List Char) :
    Option (State × List Char) :=
  match text with
  | '[' :: rest =>
    if stack.length < maxDepth then some (.itemOrEnd d key [] stack, rest) else none
  | '\x7b' :: rest =>
    if stack.length < maxDepth then some (.entryOrEnd d key stack, rest) else none
  | '"' :: _ | '\'' :: _ =>
    match readString text with
    | none => none
    | some (value, rest) =>
      (endValue d key (.string (String.ofList value)) stack).map (·, rest)
  | _ =>
    match splitWord text with
    | ([], _) => none
    | (word, rest) =>
      (ofWord? word).bind fun value => (endValue d key value stack).map (·, rest)

/-- Reads the key of an entry of an inline table. -/
def startEntry (d : Document) (key : Path) (entries : List (String × Node)) (stack : List Frame)
    (text : List Char) : Option (State × List Char) :=
  (readAssignment text).map fun (inner, rest) =>
    (.value d key (.entry entries inner :: stack), rest)

/-- What a value that has just ended within brackets is followed by. -/
def afterValue (d : Document) (key : Path) (value : Toml) (c : Char) : List Frame → Option State
  | [] => none
  | .array items :: stack =>
    if c = ',' then some (.itemOrEnd d key (value :: items) stack)
    else if c = ']' then endValue d key (.array (value :: items).reverse) stack
    else none
  | .entry entries inner :: stack =>
    (assign inner value .header entries).bind fun entries =>
      if c = ',' then some (.entry d key entries stack)
      else if c = '}' then endValue d key (.table (entriesToToml entries)) stack
      else none

/-- Reads on from a character that is no blank and begins neither a line break nor a comment. -/
def step (c : Char) (rest : List Char) : State → Option (State × List Char)
  | .line d =>
    if c = '[' then (readHeader d rest).map fun (d, rest) => (.lineEnd d, rest)
    else (readAssignment (c :: rest)).map fun (key, rest) => (.value d key [], rest)
  | .lineEnd _ => none
  | .value d key stack => startValue d key stack (c :: rest)
  | .itemOrEnd d key items stack =>
    if c = ']' then (endValue d key (.array items.reverse) stack).map (·, rest)
    else startValue d key (.array items :: stack) (c :: rest)
  | .entryOrEnd d key stack =>
    if c = '}' then (endValue d key (.table []) stack).map (·, rest)
    else startEntry d key [] stack (c :: rest)
  | .entry d key entries stack => startEntry d key entries stack (c :: rest)
  | .after d key value stack => (afterValue d key value c stack).map (·, rest)

theorem length_of_readPath {limit : Nat} {text rest : List Char} {path : Path}
    (h : readPath limit text = some (path, rest)) : rest.length < text.length := by
  induction limit generalizing text path rest with
  | zero => cases h
  | succ limit ih =>
    have hblank := length_dropBlanks_le text
    simp only [readPath] at h
    split at h
    · cases h
    next name tail hname =>
      have h₁ := length_of_readKeyPart hname
      have h₂ := length_dropBlanks_le tail
      split at h
      next tail' heq =>
        obtain ⟨⟨path', rest'⟩, hpath, hp⟩ := Option.map_eq_some_iff.mp h
        have h₃ := ih hpath
        cases hp
        dsimp only
        simp only [heq, List.length_cons] at h₂
        omega
      · cases h
        omega

theorem length_of_readAssignment {text rest : List Char} {path : Path}
    (h : readAssignment text = some (path, rest)) : rest.length < text.length := by
  unfold readAssignment at h
  split at h
  next hpath =>
    cases h
    have := length_of_readPath hpath
    simp only [List.length_cons] at this
    omega
  · cases h

theorem length_of_readHeader {d d' : Document} {text rest : List Char}
    (h : readHeader d text = some (d', rest)) : rest.length < text.length := by
  unfold readHeader at h
  split at h
  · split at h
    next hpath =>
      obtain ⟨x, -, hx⟩ := Option.map_eq_some_iff.mp h
      cases hx
      have := length_of_readPath hpath
      simp only [List.length_cons] at this ⊢
      omega
    · cases h
  · split at h
    next hpath =>
      obtain ⟨x, -, hx⟩ := Option.map_eq_some_iff.mp h
      cases hx
      have := length_of_readPath hpath
      simp only [List.length_cons] at this
      omega
    · cases h

theorem length_of_startValue {d : Document} {key : Path} {stack : List Frame}
    {text rest : List Char} {state : State}
    (h : startValue d key stack text = some (state, rest)) : rest.length < text.length := by
  unfold startValue at h
  split at h
  · split at h
    · cases h; simp
    · cases h
  · split at h
    · cases h; simp
    · cases h
  · split at h
    · cases h
    next hs =>
      obtain ⟨x, -, hx⟩ := Option.map_eq_some_iff.mp h
      cases hx
      exact length_of_readString hs
  · split at h
    · cases h
    next hs =>
      obtain ⟨x, -, hx⟩ := Option.map_eq_some_iff.mp h
      cases hx
      exact length_of_readString hs
  · split at h
    · cases h
    next word tail hne hword =>
      obtain ⟨value, -, hv⟩ := Option.bind_eq_some_iff.mp h
      obtain ⟨x, -, hx⟩ := Option.map_eq_some_iff.mp hv
      cases hx
      have happend := congrArg List.length (splitWord_append text)
      rw [hword] at happend
      simp only [List.length_append] at happend
      have := List.length_pos_iff.mpr fun he : word = [] => hne he
      omega

theorem length_of_startEntry {d : Document} {key : Path} {entries : List (String × Node)}
    {stack : List Frame} {text rest : List Char} {state : State}
    (h : startEntry d key entries stack text = some (state, rest)) : rest.length < text.length := by
  obtain ⟨⟨path, rest'⟩, hpath, hx⟩ := Option.map_eq_some_iff.mp h
  cases hx
  exact length_of_readAssignment hpath

theorem length_of_step {c : Char} {text rest : List Char} {state next : State}
    (h : step c text state = some (next, rest)) : rest.length ≤ text.length := by
  unfold step at h
  split at h
  · split at h
    · obtain ⟨⟨d, rest'⟩, hd, hx⟩ := Option.map_eq_some_iff.mp h
      cases hx
      exact Nat.le_of_lt (length_of_readHeader hd)
    · obtain ⟨⟨path, rest'⟩, hpath, hx⟩ := Option.map_eq_some_iff.mp h
      cases hx
      exact Nat.le_of_lt_succ (length_of_readAssignment hpath)
  · cases h
  · exact Nat.le_of_lt_succ (length_of_startValue h)
  · split at h
    · obtain ⟨x, -, hx⟩ := Option.map_eq_some_iff.mp h
      cases hx
      exact Nat.le_refl _
    · exact Nat.le_of_lt_succ (length_of_startValue h)
  · split at h
    · obtain ⟨x, -, hx⟩ := Option.map_eq_some_iff.mp h
      cases hx
      exact Nat.le_refl _
    · exact Nat.le_of_lt_succ (length_of_startEntry h)
  · exact Nat.le_of_lt_succ (length_of_startEntry h)
  · obtain ⟨x, -, hx⟩ := Option.map_eq_some_iff.mp h
    cases hx
    exact Nat.le_refl _

/-- Reads on to the end of the text, which must be the end of a line. -/
def readFrom (state : State) (text : List Char) : Option Document :=
  match text with
  | [] =>
    match state with
    | .line d | .lineEnd d => some d
    | _ => none
  | '\n' :: rest =>
    match state.afterBreak with
    | some state => readFrom state rest
    | none => none
  | '\r' :: '\n' :: rest =>
    match state.afterBreak with
    | some state => readFrom state rest
    | none => none
  | c :: rest =>
    if isBlank c then readFrom state rest
    else if c = '#' then
      if state.afterBreak.isSome then readFrom state (rest.dropWhile isCommentChar) else none
    else match _h : step c rest state with
      | none => none
      | some (next, rest) => readFrom next rest
termination_by text.length
decreasing_by
  · simp
  · simp only [List.length_cons]; omega
  · simp
  · exact Nat.lt_succ_of_le (List.dropWhile_sublist isCommentChar).length_le
  · exact Nat.lt_succ_of_le (length_of_step _h)

/-- A byte order mark in front of the text is no part of it. -/
def skipMark : List Char → List Char
  | '\uFEFF' :: rest => rest
  | text => text

/-- The table that a text describes. -/
def read (text : List Char) : Option Toml :=
  (readFrom (.line .empty) (skipMark text)).map Document.toToml

end NodeQuery.Toml

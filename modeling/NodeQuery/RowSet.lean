import NodeQuery.Marks

/-!
# Sets of rows

Sets of row indices below a fixed size, packed 64 to a word. Sets of different sizes combine to the
larger size, since a complement has to know how many rows there are.
-/
namespace NodeQuery

/-- The bit of an index within its word. -/
def rowBit (index : Nat) : UInt64 := 1 <<< (index % 64).toUInt64

/-- The places of the bits of a word, in ascending order. -/
def rowPlaces (word : UInt64) : List Nat :=
  (List.range 64).filter fun place => word &&& rowBit place != 0

/-- The number of words that hold `size` bits. -/
def RowSet.wordCount (size : Nat) : Nat := (size + 63) / 64

/-- Words that are just enough for `size` bits. The last one can have bits to spare; that none of
them is set is not said here, but is `RowSet.Bounded`. -/
structure RowSet where
  size : Nat
  words : Array UInt64
  size_words : words.size = RowSet.wordCount size
  deriving DecidableEq, Repr

namespace RowSet

def empty (size : Nat) : RowSet := ⟨size, Array.replicate (wordCount size) 0, Array.size_replicate⟩

/-- All indices; the last word is filled up to the size only. -/
def full (size : Nat) : RowSet :=
  ⟨size, Array.ofFn fun i : Fin (wordCount size) =>
    if 64 * (i.val + 1) ≤ size then 0xFFFFFFFFFFFFFFFF else rowBit size - 1, Array.size_ofFn⟩

/-- A set of the same size that holds every index. -/
def fill (s : RowSet) : RowSet := full s.size

/-- Adds an index below the size. -/
def insert (s : RowSet) (index : Nat) : RowSet :=
  { s with
    words := s.words.modify (index / 64) (· ||| rowBit index)
    size_words := by rw [Array.size_modify, s.size_words] }

/-- Removes an index below the size. -/
def erase (s : RowSet) (index : Nat) : RowSet :=
  { s with
    words := s.words.modify (index / 64) (· &&& ~~~(rowBit index))
    size_words := by rw [Array.size_modify, s.size_words] }

/-- Membership; an index beyond the words is in no set. -/
def contains (s : RowSet) (index : Nat) : Bool :=
  match s.words[index / 64]? with
  | some word => word &&& rowBit index != 0
  | none => false

def isEmpty (s : RowSet) : Bool := s.size == 0

/-- The members in ascending order. -/
def toList (s : RowSet) : List Nat :=
  s.words.toList.zipIdx.flatMap fun (word, k) =>
    if word = 0 then [] else (rowPlaces word).map (64 * k + ·)

/-- The number of members. -/
def count (s : RowSet) : Nat :=
  s.words.foldl (fun n word => if word = 0 then n else n + (rowPlaces word).length) 0

/-- For every index below the size, whether it is a member. -/
def toBits (s : RowSet) : Array Bool := marks s.size s.toList

/-- A digit for every index below the size, one for members and zero for others. -/
def bitText (s : RowSet) : String :=
  String.ofList (s.toBits.toList.map fun bit => if bit then '1' else '0')

/-- The members in ascending order, with commas between them. -/
def render (s : RowSet) : String := String.intercalate "," (s.toList.map toString)

def ofList (size : Nat) (indices : List Nat) : RowSet := indices.foldl insert (empty size)

/-- The members that pass a test. -/
def filter (s : RowSet) (test : Nat → Bool) : RowSet := ofList s.size (s.toList.filter test)

/-- All indices below `size` that are not members. -/
def complement (s : RowSet) (size : Nat) : RowSet := s.toList.foldl erase (full size)

/-- Combines the sets word by word; words that one of them lacks count as zero. -/
def combine (op : UInt64 → UInt64 → UInt64) (a b : RowSet) : RowSet :=
  ⟨max a.size b.size, Array.ofFn fun i : Fin (wordCount (max a.size b.size)) =>
    op (a.words.getD i.val 0) (b.words.getD i.val 0), Array.size_ofFn⟩

def union (a b : RowSet) : RowSet := combine (· ||| ·) a b

def inter (a b : RowSet) : RowSet := combine (· &&& ·) a b

/-- A place in a walk through a set: what is left of the current word, the index of that word's
first bit, and the words behind it. -/
structure Cursor where
  current : UInt64
  start : Nat
  behind : List UInt64
  deriving DecidableEq, Repr

/-- The cursor in front of the first member. -/
def cursor (s : RowSet) : Cursor :=
  match s.words.toList with
  | [] => ⟨0, 0, []⟩
  | word :: rest => ⟨word, 0, rest⟩

namespace Cursor

/-- The next member; its bit is the lowest of the word, and the word loses it. Words without bits
are skipped. -/
def next (c : Cursor) : Option Nat × Cursor :=
  go c.current c.start c.behind
where
  go (word : UInt64) (start : Nat) (behind : List UInt64) : Option Nat × Cursor :=
    match (List.range 64).find? (fun place => word &&& rowBit place != 0) with
    | some place => (some (start + place), ⟨word &&& (word - 1), start, behind⟩)
    | none =>
      match behind with
      | [] => (none, ⟨word, start, []⟩)
      | word :: rest => go word (start + 64) rest

/-- What the next steps yield, up to the first that yields nothing and at most `steps` of them, and
the cursor behind them. -/
def take : Nat → Cursor → List Nat × Cursor
  | 0, c => ([], c)
  | steps + 1, c =>
    match c.next with
    | (none, c) => ([], c)
    | (some index, c) =>
      let (rest, c) := take steps c
      (index :: rest, c)

end Cursor

/-- The members as the cursor comes to them. A word has 64 places, so these steps are enough. -/
def walk (s : RowSet) : List Nat := (s.cursor.take (64 * s.words.size)).1

end RowSet

end NodeQuery

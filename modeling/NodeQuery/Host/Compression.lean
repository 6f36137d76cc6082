import NodeQuery.Host.Name

/-!
# Compression of host names

Writes a set of host names as few patterns: names with equal tails whose first elements are one
stem with different numbers share a pattern, in which runs of numbers become ranges.
-/
namespace NodeQuery.Host

/-- Cuts ascending numbers into runs of neighbours, as first and last number. -/
def runs : List Nat → List (Nat × Nat)
  | [] => []
  | n :: rest =>
    match runs rest with
    | [] => [(n, n)]
    | (first, last) :: more =>
      if first = n + 1 then (n, last) :: more else (n, n) :: (first, last) :: more

def runText : Nat × Nat → String
  | (first, last) => if first = last then toString first else s!"{first}-{last}"

/-- The terms of a set that holds the given ascending numbers. -/
def runsText (numbers : List Nat) : String :=
  String.intercalate "," ((runs numbers).map runText)

/-- The first element of the pattern for one stem and its ascending numbers. -/
def stemText (stem : String) : List Nat → String
  | [n] => stem ++ toString n
  | numbers => s!"{stem}[{runsText numbers}]"

/-- Stems in order, and the numbers of one stem in order. -/
def numberedLE (a b : String × Nat) : Bool :=
  a.1 < b.1 || (a.1 == b.1 && a.2 ≤ b.2)

/-- Merges the first elements of names with one tail into first elements of patterns. -/
def mergeHeads (heads : List String) : List String :=
  let numbered := (heads.filterMap stemNumber).mergeSort numberedLE
  let groups := numbered.splitBy fun a b => a.1 == b.1
  let merged := groups.filterMap fun group =>
    group.head?.map fun first => stemText first.1 (group.map (·.2))
  let plain := heads.filter fun head => (stemNumber head).isNone
  (plain ++ merged).mergeSort (· ≤ ·)

/-- Patterns that together denote exactly the given host names, each of them once. -/
def compress (hosts : List String) : List String :=
  let names := ((hosts.map Name.ofString).mergeSort Name.le).eraseReps
  let groups := names.splitBy fun a b => a.tail == b.tail
  groups.flatMap fun group =>
    match group with
    | [] => []
    | first :: _ =>
      (mergeHeads (group.map (·.head))).map fun head => (Name.mk head first.tail).render

end NodeQuery.Host

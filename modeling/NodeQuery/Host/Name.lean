import NodeQuery.Text.Pieces

/-!
# Host names

A host name is a row of elements with dots between them. Its first element may end in a number,
behind a stem that does not end in a digit.
-/
namespace NodeQuery.Host

structure Name where
  head : String
  tail : List String
  deriving DecidableEq, Repr

namespace Name

def ofString (text : String) : Name :=
  match (Text.cutAt '.' text.toList).map String.ofList with
  | [] => ⟨"", []⟩
  | head :: tail => ⟨head, tail⟩

/-- The elements with a dot between each two. -/
def render (name : Name) : String := String.intercalate "." (name.head :: name.tail)

/-- Names with equal tails stand together, ordered by their first element. -/
def le (a b : Name) : Bool :=
  a.tail < b.tail || (a.tail == b.tail && a.head ≤ b.head)

end Name

/-- The largest number that two names can be merged by. -/
def maxMergedNumber : Nat := 0xFFFFFFFF

/-- The stem and the number of an element that ends in one. A number with a leading zero does not
count, since its text would not come back, nor does a number too large for a set. -/
def stemNumber (element : String) : Option (String × Nat) :=
  let reversed := element.toList.reverse
  let digits := (reversed.takeWhile Char.isDigit).reverse
  let stem := (reversed.dropWhile Char.isDigit).reverse
  let n := digits.foldl (fun n c => n * 10 + (c.toNat - 48)) 0
  if stem.isEmpty || digits.isEmpty || (digits.head? == some '0' && 1 < digits.length) then none
  else if maxMergedNumber < n then none
  else some (String.ofList stem, n)

end NodeQuery.Host

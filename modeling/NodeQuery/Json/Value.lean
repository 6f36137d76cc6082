import NodeQuery.Table

/-!
# JSON values

An object holds its entries in ascending order of their names. A number that is written without
point and exponent stays an integer as long as it fits 64 bits.
-/
namespace NodeQuery

inductive Json where
  | null
  | boolean (value : Bool)
  | integer (value : Int)
  | real (value : Float)
  | string (value : String)
  | array (items : List Json)
  | object (entries : List (String × Json))
  deriving Repr, Inhabited

namespace Json

/-- The field of an object; nothing for any other value. -/
def field? (name : String) : Json → Option Json
  | .object entries => lookupEntry name entries
  | _ => none

end Json

end NodeQuery

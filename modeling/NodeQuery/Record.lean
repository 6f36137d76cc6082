import NodeQuery.Decimal.Layout
import NodeQuery.Json.Value

/-!
# Records

The rows of a table: what a query can ask of one are numbers under field names and a host name.
-/
namespace NodeQuery

class Record (ρ : Type u) where
  /-- The value of a field, if the record has it and it is a number. -/
  number? : ρ → String → Option Float
  /-- The host name, if the record has one. -/
  hostName? : ρ → Option String

namespace Json

/-- The nearest double to a number; other values are none, also texts that look like one. -/
def toFloat? : Json → Option Float
  | .integer value =>
    some (if value < 0 then -Float.ofNat value.natAbs else Float.ofNat value.natAbs)
  | .real value => some value
  | _ => none

/-- The text of a value that can stand for a host name. -/
def toHostName? : Json → Option String
  | .string value => some value
  | .integer value => some (toString value)
  | .real value => some (Decimal.Layout.json.text value)
  | .boolean value => some (if value then "true" else "false")
  | _ => none

end Json

instance : Record Json where
  number? record name := (record.field? name).bind Json.toFloat?
  hostName? record := (record.field? "hostname").bind Json.toHostName?

end NodeQuery

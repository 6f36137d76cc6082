import NodeQuery.Table
import NodeQuery.Toml.Moment

/-!
# TOML values

A table holds its entries in ascending order of their names.
-/
namespace NodeQuery

inductive Toml where
  | string (value : String)
  | boolean (value : Bool)
  | integer (value : Int)
  | real (value : Float)
  | moment (value : Toml.Moment)
  | array (items : List Toml)
  | table (entries : List (String × Toml))
  deriving Repr, Inhabited

namespace Toml

/-- The name of the one entry of a date or time where it is taken as a table. -/
def momentName : String := "$__toml_private_datetime"

/-- The entries of a value that can be taken as a table. A date or time can: its one entry is its
full spelling. -/
def entries? : Toml → Option (List (String × Toml))
  | .table entries => some entries
  | .moment m => some [(momentName, .string (String.ofList m.render))]
  | _ => none

end Toml

end NodeQuery

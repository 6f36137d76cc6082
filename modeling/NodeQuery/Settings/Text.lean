import NodeQuery.Settings.Basic
import NodeQuery.Toml.Quoted
import NodeQuery.Toml.Reader

/-!
# Settings as text

Settings are written as TOML. On reading, entries that mean nothing here are passed over.
-/
namespace NodeQuery

namespace FieldSetting

def ofToml? : Toml → Option FieldSetting
  | .boolean present => some (.known present)
  | .string target => some (.alias target)
  | _ => none

def render : FieldSetting → List Char
  | .known present => if present then "true".toList else "false".toList
  | .alias target => Toml.quoteString target.toList

end FieldSetting

namespace Operation

/-- An operation is a table with a name and a query, or an array that begins with the two. -/
def ofToml? : Toml → Option Operation
  | .table entries =>
    match lookupEntry "name" entries, lookupEntry "query" entries with
    | some (.string name), some (.string query) => some ⟨name, query⟩
    | _, _ => none
  | .array (.string name :: .string query :: _) => some ⟨name, query⟩
  | _ => none

def render (operation : Operation) : List Char :=
  "\n[[operations]]\nname = ".toList ++ Toml.quoteString operation.name.toList ++
    "\nquery = ".toList ++ Toml.quoteString operation.query.toList ++ ['\n']

end Operation

namespace Settings

def fieldsOfToml? : Option Toml → Option (Table FieldSetting)
  | none => some ∅
  | some value =>
    value.entries?.bind fun entries =>
      entries.foldlM (fun fields (name, value) =>
        (FieldSetting.ofToml? value).map fun setting => fields.insert name setting) ∅

def operationsOfToml? : Option Toml → Option (List Operation)
  | none => some []
  | some (.array items) => items.mapM Operation.ofToml?
  | some _ => none

/-- The settings that a table holds; the catalog is there unless it is switched off. -/
def ofToml? : Toml → Option Settings
  | .table entries => do
    let catalog ← match lookupEntry "catalog" entries with
      | none => some true
      | some (.boolean catalog) => some catalog
      | some _ => none
    let fields ← fieldsOfToml? (lookupEntry "fields" entries)
    let operations ← operationsOfToml? (lookupEntry "operations" entries)
    return ⟨catalog, fields, operations⟩
  | _ => none

def read? (text : String) : Option Settings := (Toml.read text.toList).bind ofToml?

def renderField (field : String × FieldSetting) : List Char :=
  Toml.quoteKey field.1.toList ++ " = ".toList ++ field.2.render ++ ['\n']

def render (s : Settings) : String :=
  String.ofList <|
    "catalog = ".toList ++ (if s.catalog then "true\n" else "false\n").toList ++
      (if s.operations.isEmpty then "operations = []\n" else "").toList ++
      "\n[fields]\n".toList ++ s.fields.entries.flatMap renderField ++
      s.operations.flatMap Operation.render

end Settings

end NodeQuery

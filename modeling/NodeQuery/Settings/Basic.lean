import NodeQuery.Catalog

/-!
# Settings

What a user adds to the vocabulary of queries: whether the catalog of compute nodes is there, names
of fields, and named operations in the order in which they are compiled.
-/
namespace NodeQuery

/-- A name can be known or not known as a field, or stand for another name. -/
inductive FieldSetting where
  | known (present : Bool)
  | alias (target : String)
  deriving DecidableEq, Repr

structure Operation where
  name : String
  query : String
  deriving DecidableEq, Repr

structure Settings where
  catalog : Bool
  fields : Table FieldSetting
  operations : List Operation
  deriving DecidableEq

/-- The errors of settings; all but the last two name the file. -/
inductive SettingsError where
  | missing (path : String)
  | unreadable (path : String)
  | unwritable (path : String)
  | malformed (path : String)
  | operation (name : String) (error : Query.QueryError)
  | catalog (error : Query.QueryError)
  deriving DecidableEq, Repr

def SettingsError.message : SettingsError → String
  | .missing path => s!"Configuration file not found: {path}"
  | .unreadable path => s!"IO error: cannot read {path}"
  | .unwritable path => s!"IO error: cannot write {path}"
  | .malformed path => s!"Configuration error: Failed to parse {path}"
  | .operation name error => s!"Configuration error: Operation '{name}': {error.message}"
  | .catalog error => error.message

namespace Settings

/-- The catalog alone. -/
def standard : Settings := ⟨true, ∅, []⟩

/-- Adds a name to the fields; one that is set as not known is left as it is. -/
def addField (v : Query.Vocabulary) (name : String) : FieldSetting → Query.Vocabulary
  | .known true => v.addField name
  | .known false => v
  | .alias target => v.addAlias name target

def defineOperation (v : Query.Vocabulary) (operation : Operation) :
    Except SettingsError Query.Vocabulary :=
  match v.define operation.name operation.query with
  | .ok v => .ok v
  | .error e => .error (.operation operation.name e)

/-- The vocabulary of the settings: the catalog, then the fields, then the operations in order. -/
def vocabulary (s : Settings) : Except SettingsError Query.Vocabulary :=
  match if s.catalog then Catalog.vocabulary else .ok ∅ with
  | .error e => .error (.catalog e)
  | .ok start =>
    let named := s.fields.entries.foldl (fun v (name, setting) => addField v name setting) start
    s.operations.foldlM defineOperation named

end Settings

end NodeQuery

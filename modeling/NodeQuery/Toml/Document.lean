import NodeQuery.Toml.Value

/-!
# TOML documents

A document grows by headers and assignments. Each table remembers how it came to be, because that
decides who may add to it: a table with a header of its own takes no second header and no dotted
keys from outside, and a table made by dotted keys takes no header.
-/
namespace NodeQuery.Toml

/-- A table comes from its own header, from a header of a table below it, or from dotted keys. -/
inductive Origin where
  | header | parent | dotted
  deriving DecidableEq, Repr

/-- What a name of an unfinished document stands for. The elements of an array of tables stand in
reverse order. -/
inductive Node where
  | value (value : Toml)
  | table (origin : Origin) (entries : List (String × Node))
  | tables (elements : List (List (String × Node)))

/-- A dotted key: the names of the tables that it leads through, and the last name. -/
structure Path where
  parents : List String
  name : String
  deriving DecidableEq, Repr

/-- Changes the table that a path leads to. Tables that are missing on the way are made; an array
of tables is entered at its last element. -/
def change (made : Origin) (f : Origin → List (String × Node) → Option (List (String × Node))) :
    List String → Origin → List (String × Node) → Option (List (String × Node))
  | [], origin, entries => f origin entries
  | name :: path, _, entries =>
    match lookupEntry name entries with
    | none =>
      (change made f path made []).map fun inner =>
        insertEntry name (.table made inner) entries
    | some (.table origin inner) =>
      if made = .dotted && origin = .header then none
      else (change made f path origin inner).map fun inner =>
        insertEntry name (.table origin inner) entries
    | some (.tables (last :: before)) =>
      (change made f path .header last).map fun last =>
        insertEntry name (.tables (last :: before)) entries
    | some (.tables []) => none
    | some (.value _) => none

/-- Gives a value to a dotted key, which must be new. -/
def assign (key : Path) (value : Toml) (origin : Origin) (entries : List (String × Node)) :
    Option (List (String × Node)) :=
  let add (origin : Origin) (entries : List (String × Node)) :=
    if (origin = .dotted) = (key.parents = []) then none
    else if (lookupEntry key.name entries).isSome then none
    else some (insertEntry key.name (.value value) entries)
  change .dotted add key.parents origin entries

/-- A document in progress: its entries and the table that assignments go to. -/
structure Document where
  entries : List (String × Node)
  current : List String

namespace Document

def empty : Document := ⟨[], []⟩

/-- Assigns within the current table. -/
def assign (d : Document) (key : Path) (value : Toml) : Option Document :=
  (change .parent (Toml.assign key value) d.current .header d.entries).map fun entries =>
    { d with entries }

/-- Begins a table at its header. -/
def beginTable (d : Document) (key : Path) : Option Document :=
  let begin (_ : Origin) (entries : List (String × Node)) :=
    match lookupEntry key.name entries with
    | none => some (insertEntry key.name (.table .header []) entries)
    | some (.table .parent inner) => some (insertEntry key.name (.table .header inner) entries)
    | some _ => none
  (change .parent begin key.parents .header d.entries).map fun entries =>
    ⟨entries, key.parents ++ [key.name]⟩

/-- Begins the next element of an array of tables. -/
def beginElement (d : Document) (key : Path) : Option Document :=
  let begin (_ : Origin) (entries : List (String × Node)) :=
    match lookupEntry key.name entries with
    | none => some (insertEntry key.name (.tables [[]]) entries)
    | some (.tables elements) => some (insertEntry key.name (.tables ([] :: elements)) entries)
    | some _ => none
  (change .parent begin key.parents .header d.entries).map fun entries =>
    ⟨entries, key.parents ++ [key.name]⟩

end Document

mutual

def Node.toToml : Node → Toml
  | .value value => value
  | .table _ entries => .table (entriesToToml entries)
  | .tables elements => .array (elementsToToml elements [])

def entriesToToml : List (String × Node) → List (String × Toml)
  | [] => []
  | (name, node) :: rest => (name, node.toToml) :: entriesToToml rest

/-- The elements in their order, in front of those behind them. -/
def elementsToToml : List (List (String × Node)) → List Toml → List Toml
  | [], behind => behind
  | entries :: before, behind => elementsToToml before (.table (entriesToToml entries) :: behind)

end

def Document.toToml (d : Document) : Toml := .table (entriesToToml d.entries)

end NodeQuery.Toml

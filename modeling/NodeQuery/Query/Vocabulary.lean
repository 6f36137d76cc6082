import NodeQuery.Query.Expr
import NodeQuery.Table

/-!
# Vocabularies

The fields and the named operations that a query can use. A name in the field table is a field of
the records or an alias, which stands for another name and may lead on to further aliases.
-/
namespace NodeQuery.Query

inductive FieldEntry where
  | canonical
  | alias (target : String)
  deriving DecidableEq, Repr

/-- Where a name leads: to a field, to a name that is not in the table, or round in a circle. -/
inductive Resolution where
  | field (name : String)
  | name (name : String)
  | cyclic
  deriving DecidableEq, Repr

structure Vocabulary where
  fields : Table FieldEntry
  operations : Table Expr

namespace Vocabulary

def empty : Vocabulary := ⟨∅, ∅⟩

instance : EmptyCollection Vocabulary := ⟨empty⟩

def addField (v : Vocabulary) (name : String) : Vocabulary :=
  { v with fields := v.fields.insert name .canonical }

def addAlias (v : Vocabulary) (name target : String) : Vocabulary :=
  { v with fields := v.fields.insert name (.alias target) }

def insertOperation (v : Vocabulary) (name : String) (e : Expr) : Vocabulary :=
  { v with operations := v.operations.insert name e }

def field? (v : Vocabulary) (name : String) : Option FieldEntry := v.fields.get? name

def operation? (v : Vocabulary) (name : String) : Option Expr := v.operations.get? name

@[simp] theorem field?_empty (name : String) : (∅ : Vocabulary).field? name = none := rfl

@[simp] theorem field?_addField (v : Vocabulary) (name other : String) :
    (v.addField name).field? other = if other = name then some .canonical else v.field? other :=
  Table.get?_insert v.fields name .canonical other

@[simp] theorem field?_addAlias (v : Vocabulary) (name target other : String) :
    (v.addAlias name target).field? other =
      if other = name then some (.alias target) else v.field? other :=
  Table.get?_insert v.fields name (.alias target) other

@[simp] theorem operation?_empty (name : String) : (∅ : Vocabulary).operation? name = none := rfl

@[simp] theorem operation?_addAlias (v : Vocabulary) (name target other : String) :
    (v.addAlias name target).operation? other = v.operation? other := rfl

@[simp] theorem operation?_insertOperation (v : Vocabulary) (name : String) (e : Expr)
    (other : String) : (v.insertOperation name e).operation? other =
      if other = name then some e else v.operation? other :=
  Table.get?_insert v.operations name e other

def isEmpty (v : Vocabulary) : Bool := v.fields.isEmpty && v.operations.isEmpty

/-- Follows aliases through at most `lookups` entries of the field table. -/
def follow (fields : Table FieldEntry) : Nat → String → Resolution
  | 0, _ => .cyclic
  | lookups + 1, name =>
    match fields.get? name with
    | none => .name name
    | some .canonical => .field name
    | some (.alias target) => follow fields lookups target

/-- Follows a name through aliases. One lookup more than the table has entries is enough: a longer
chain comes back to an entry and never ends. -/
def resolve (v : Vocabulary) (name : String) : Resolution :=
  follow v.fields (v.fields.size + 1) name

/-- Follows aliases to a field through at most `lookups` entries of the field table. -/
def followToField? (fields : Table FieldEntry) : Nat → String → Option String
  | 0, _ => none
  | lookups + 1, name =>
    match fields.get? name with
    | none => none
    | some .canonical => some name
    | some (.alias target) => followToField? fields lookups target

/-- The field that a name leads to, looked up in a loop of its own: no field is found at a name that
is not in the table, and none on a circle. -/
def resolveField? (v : Vocabulary) (name : String) : Option String :=
  followToField? v.fields (v.fields.size + 1) name

end Vocabulary

end NodeQuery.Query

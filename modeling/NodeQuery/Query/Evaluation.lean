import NodeQuery.Query.Expr
import NodeQuery.Record
import NodeQuery.RowSet

/-!
# Evaluation of queries

An expression maps candidate rows of a table to a set of rows. Comparisons and host patterns select
among the candidates; a complement is taken within the whole table.
-/
namespace NodeQuery.Query.Expr

variable {ρ : Type u} [Record ρ]

/-- Whether the row exists and its field compares true with the constant. -/
def comparesAt (rows : Array ρ) (op : Comparison) (field : String) (value : Float)
    (index : Nat) : Bool :=
  (rows[index]?.bind (Record.number? · field)).any (op.holds · value)

/-- Whether the row exists and has a host name that the pattern accepts. -/
def nodeAt (rows : Array ρ) (pattern : Host.Pattern) (index : Nat) : Bool :=
  (rows[index]?.bind Record.hostName?).any pattern.accepts

def eval (rows : Array ρ) (candidates : RowSet) : Expr → RowSet
  | .compare op field value => candidates.filter (comparesAt rows op field value)
  | .node pattern => candidates.filter (nodeAt rows pattern)
  | .complement child => (child.eval rows candidates).complement rows.size
  | .combine .and left right => (left.eval rows candidates).inter (right.eval rows candidates)
  | .combine .or left right => (left.eval rows candidates).union (right.eval rows candidates)

/-- The rows of a table that the query selects. -/
def select (e : Expr) (rows : Array ρ) : RowSet := e.eval rows (RowSet.full rows.size)

/-- Whether the query selects a row that stands alone. -/
def accepts (e : Expr) (row : ρ) : Bool := (e.eval #[row] (RowSet.full 1)).contains 0

end NodeQuery.Query.Expr

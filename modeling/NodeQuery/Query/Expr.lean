import NodeQuery.Decimal.Layout
import NodeQuery.Host.Pattern

/-!
# Query expressions

A query compiles to a tree of comparisons of a field with a constant, host patterns, complements
and the two connectives.
-/
namespace NodeQuery.Query

inductive Comparison where
  | lt | le | gt | ge | eq
  deriving DecidableEq, Repr

namespace Comparison

def symbol : Comparison → String
  | .lt => "<"
  | .le => "<="
  | .gt => ">"
  | .ge => ">="
  | .eq => "="

def ofSymbol? (text : String) : Option Comparison :=
  if text = "<" then some .lt
  else if text = "<=" then some .le
  else if text = ">" then some .gt
  else if text = ">=" then some .ge
  else if text = "=" then some .eq
  else none

/-- Compares doubles; nothing holds of a pair in which one is not a number. -/
def holds (op : Comparison) (a b : Float) : Bool :=
  match op with
  | .lt => a < b
  | .le => a ≤ b
  | .gt => b < a
  | .ge => b ≤ a
  | .eq => a == b

end Comparison

inductive Connective where
  | and | or
  deriving DecidableEq, Repr

namespace Connective

def word : Connective → String
  | .and => "and"
  | .or => "or"

def ofWord? (text : String) : Option Connective :=
  if text = "and" then some .and
  else if text = "or" then some .or
  else none

end Connective

inductive Expr where
  | compare (op : Comparison) (field : String) (value : Float)
  | complement (child : Expr)
  | combine (op : Connective) (left right : Expr)
  | node (pattern : Host.Pattern)
  deriving DecidableEq, Repr

namespace Expr

/-- Parentheses around every node, its operator first. -/
def render : Expr → String
  | .compare op field value => s!"({op.symbol} {field} {Decimal.Layout.plain.text value})"
  | .complement child => s!"(~ {child.render})"
  | .combine op left right => s!"({op.word} {left.render} {right.render})"
  | .node pattern => s!"(node {pattern.text})"

end Expr

end NodeQuery.Query

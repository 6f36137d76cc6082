import NodeQuery.Host.Error
import NodeQuery.Query.Expr

/-!
# Errors of queries
-/
namespace NodeQuery.Query

inductive Fault where
  | unknownOperator (text : String)
  | unexpectedEnd
  | junk (text : String)
  | misplaced (text : String)
  | unclosed (opening : Nat)
  | wrongType (op : Comparison)
  | cyclicAlias (word : String)
  | pattern (error : Host.PatternError)
  deriving DecidableEq, Repr

def Fault.message : Fault → String
  | .unknownOperator text => s!"Unknown operator '{text}'"
  | .unexpectedEnd => "Unexpected end of expression"
  | .junk text => s!"Junk at end of expression: {text}"
  | .misplaced text => s!"Misplaced operator or punctuation '{text}'"
  | .unclosed opening => s!"Expected ')' here to close '(' at {opening}"
  | .wrongType op => s!"Wrong type of arguments to relational operator {op.symbol}"
  | .cyclicAlias word => s!"Cyclic field alias '{word}'"
  | .pattern error => error.message

/-- Every error has a place in the query: the number of the character at fault, from one. -/
structure QueryError where
  location : Nat
  fault : Fault
  deriving DecidableEq, Repr

def QueryError.message (e : QueryError) : String := s!"Location {e.location}: {e.fault.message}"

end NodeQuery.Query

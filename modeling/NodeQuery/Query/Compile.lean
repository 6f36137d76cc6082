import NodeQuery.Decimal.Reading
import NodeQuery.Query.Token
import NodeQuery.Query.Vocabulary

/-!
# Compilation of queries

```text
expr    ::= and ("or" and)*
and     ::= rel ("and" rel)*
rel     ::= primary (comparison primary)*
primary ::= "(" expr ")" | "~" primary | word
```

Tokens are read from left to right. What is begun and still waits for its right part is a stack,
the innermost part on top, so that one token is one step. A word that reads as a number or leads to
a field is decided late: a comparison takes it as such, everything else takes it as a host pattern.
-/
namespace NodeQuery.Query

/-- A part of a query before it is known whether a set of rows or something to compare is wanted. -/
inductive Operand where
  | rows (e : Expr)
  | number (value : Float) (word : String) (location : Nat)
  | field (name : String) (word : String) (location : Nat)
  deriving DecidableEq, Repr

/-- A host pattern at a place of the query; in queries patterns match leading elements. -/
def nodes (word : String) (location : Nat) : Except QueryError Expr :=
  match Host.Pattern.compile word .leading with
  | .error e => .error ⟨location, .pattern e⟩
  | .ok pattern => .ok (.node pattern)

/-- Reads an operand as a set of rows. -/
def Operand.toExpr : Operand → Except QueryError Expr
  | .rows e => .ok e
  | .number _ word location | .field _ word location => nodes word location

/-- What a word that is no connective stands for: a finite number, a field, a named operation, or
the nodes of a pattern. -/
def readWord (v : Vocabulary) (word : String) (location : Nat) : Except QueryError Operand :=
  match (Decimal.read? word).filter Float.isFinite with
  | some value => .ok (.number value word location)
  | none =>
    match v.resolve word with
    | .cyclic => .error ⟨location, .cyclicAlias word⟩
    | .field name => .ok (.field name word location)
    | .name name =>
      match v.operation? name with
      | some e => .ok (.rows e)
      | none => (nodes name location).map .rows

/-- A part that waits for its right end. -/
inductive Pending where
  | group (location : Nat)
  | complement
  | comparison (left : Operand) (op : Comparison)
  | conjunction (left : Operand)
  | disjunction (left : Operand)
  deriving DecidableEq, Repr

inductive State where
  | expecting (stack : List Pending)
  | holding (operand : Operand) (stack : List Pending)
  deriving DecidableEq, Repr

/-- A comparison takes a field on its left and a number on its right. -/
def compareOperands (op : Comparison) (left right : Operand) (location : Nat) :
    Except QueryError Operand :=
  match left, right with
  | .field name _ _, .number value _ _ => .ok (.rows (.compare op name value))
  | _, _ => .error ⟨location, .wrongType op⟩

def combineOperands (op : Connective) (left right : Operand) : Except QueryError Operand := do
  let left ← left.toExpr
  let right ← right.toExpr
  return .rows (.combine op left right)

/-- Goes on from a primary whose last token stands at `location`: complements and a comparison that
wait for it take it at once. -/
def completePrimary (location : Nat) (operand : Operand) : List Pending → Except QueryError State
  | .complement :: stack => do
    let e ← operand.toExpr
    completePrimary location (.rows (.complement e)) stack
  | .comparison left op :: stack => do
    return .holding (← compareOperands op left operand location) stack
  | stack => .ok (.holding operand stack)

/-- Ends the conjunction that the operand is the last part of, if there is one. -/
def closeConjunction (operand : Operand) :
    List Pending → Except QueryError (Operand × List Pending)
  | .conjunction left :: stack => do return (← combineOperands .and left operand, stack)
  | stack => .ok (operand, stack)

/-- Ends the conjunction and the disjunction that the operand is the last part of. -/
def closeDisjunction (operand : Operand) (stack : List Pending) :
    Except QueryError (Operand × List Pending) := do
  let (operand, stack) ← closeConjunction operand stack
  match stack with
  | .disjunction left :: stack => return (← combineOperands .or left operand, stack)
  | stack => return (operand, stack)

def stepExpecting (v : Vocabulary) (stack : List Pending) (token : Token) :
    Except QueryError State :=
  match token.symbol with
  | .opening => .ok (.expecting (.group token.location :: stack))
  | .complement => .ok (.expecting (.complement :: stack))
  | .word word => do
    let operand ← readWord v word token.location
    completePrimary token.location operand stack
  | symbol => .error ⟨token.location, .misplaced symbol.text⟩

def stepHolding (operand : Operand) (stack : List Pending) (token : Token) :
    Except QueryError State :=
  match token.symbol with
  | .comparison op => .ok (.expecting (.comparison operand op :: stack))
  | .connective .and => do
    let (operand, stack) ← closeConjunction operand stack
    return .expecting (.conjunction operand :: stack)
  | .connective .or => do
    let (operand, stack) ← closeDisjunction operand stack
    return .expecting (.disjunction operand :: stack)
  | symbol => do
    let (operand, stack) ← closeDisjunction operand stack
    match stack with
    | .group location :: stack =>
      if symbol = .closing then completePrimary token.location operand stack
      else .error ⟨token.location, .unclosed location⟩
    | _ => do
      let _ ← operand.toExpr
      .error ⟨token.location, .junk symbol.text⟩

def step (v : Vocabulary) (state : State) (token : Token) : Except QueryError State :=
  match state with
  | .expecting stack => stepExpecting v stack token
  | .holding operand stack => stepHolding operand stack token

/-- The query that has been read when the text ends at `location`. -/
def finish (location : Nat) : State → Except QueryError Expr
  | .expecting _ => .error ⟨location, .unexpectedEnd⟩
  | .holding operand stack => do
    let (operand, stack) ← closeDisjunction operand stack
    match stack with
    | .group opening :: _ => .error ⟨location, .unclosed opening⟩
    | _ => operand.toExpr

/-- The expression of a query under a vocabulary. -/
def compile (v : Vocabulary) (query : String) : Except QueryError Expr := do
  let scan := Scan.ofText 1 query.toList
  let state ← scan.tokens.foldlM (step v) (.expecting [])
  let location ← scan.ending
  finish location state

/-- Compiles a query under the vocabulary as it stands and stores it under a name. -/
def Vocabulary.define (v : Vocabulary) (name query : String) : Except QueryError Vocabulary := do
  return v.insertOperation name (← compile v query)

end NodeQuery.Query

import NodeQuery.Query.Compile

/-!
# The grammar of queries

```text
expr    ::= and ("or" and)*
and     ::= rel ("and" rel)*
rel     ::= primary (comparison primary)*
primary ::= "(" expr ")" | "~" primary | word
```

The grammar as a relation between symbols and what they stand for. Operators associate left, so each
repetition is a rule that recurses on its left. Locations play no part: they only matter to errors.
-/
namespace NodeQuery.Query

/-- What a part of a query stands for. A number and a field keep the word that they were written as,
since they are host patterns wherever no comparison takes them. -/
inductive Value where
  | rows (e : Expr)
  | number (value : Float) (word : String)
  | field (name : String) (word : String)

/-- The value read as a set of rows. -/
inductive Value.Selects : Value → Expr → Prop
  | rows (e : Expr) : Selects (.rows e) e
  | number {value : Float} {word : String} {pattern : Host.Pattern}
      (h : Host.Pattern.compile word .leading = .ok pattern) :
      Selects (.number value word) (.node pattern)
  | field {name word : String} {pattern : Host.Pattern}
      (h : Host.Pattern.compile word .leading = .ok pattern) :
      Selects (.field name word) (.node pattern)

/-- The word spells a finite double. -/
def IsNumber (word : String) (value : Float) : Prop :=
  Decimal.read? word = some value ∧ value.isFinite = true

/-- What a word that is no connective stands for: a number comes before a field, a field before an
operation, and what is left is a host pattern under the name that the aliases lead to. -/
inductive Reads (v : Vocabulary) (word : String) : Value → Prop
  | number {value : Float} (h : IsNumber word value) : Reads v word (.number value word)
  | field {name : String} (hnumber : ∀ value, ¬ IsNumber word value)
      (hname : v.resolve word = .field name) : Reads v word (.field name word)
  | operation {name : String} {e : Expr} (hnumber : ∀ value, ¬ IsNumber word value)
      (hname : v.resolve word = .name name) (he : v.operation? name = some e) :
      Reads v word (.rows e)
  | pattern {name : String} {pattern : Host.Pattern} (hnumber : ∀ value, ¬ IsNumber word value)
      (hname : v.resolve word = .name name) (hnone : v.operation? name = none)
      (h : Host.Pattern.compile name .leading = .ok pattern) : Reads v word (.rows (.node pattern))

inductive Level where
  | disjunction | conjunction | relation | primary
  deriving DecidableEq, Repr

/-- The symbols derive from the level of the grammar, with the value. -/
inductive Derives (v : Vocabulary) : Level → List Symbol → Value → Prop
  | conjunction {s : List Symbol} {a : Value} (hs : Derives v .conjunction s a) :
      Derives v .disjunction s a
  | or {s t : List Symbol} {a b : Value} {x y : Expr} (hs : Derives v .disjunction s a)
      (ht : Derives v .conjunction t b) (hx : a.Selects x) (hy : b.Selects y) :
      Derives v .disjunction (s ++ .connective .or :: t) (.rows (.combine .or x y))
  | relation {s : List Symbol} {a : Value} (hs : Derives v .relation s a) :
      Derives v .conjunction s a
  | and {s t : List Symbol} {a b : Value} {x y : Expr} (hs : Derives v .conjunction s a)
      (ht : Derives v .relation t b) (hx : a.Selects x) (hy : b.Selects y) :
      Derives v .conjunction (s ++ .connective .and :: t) (.rows (.combine .and x y))
  | primary {s : List Symbol} {a : Value} (hs : Derives v .primary s a) : Derives v .relation s a
  | comparison {s t : List Symbol} {op : Comparison} {name left right : String} {value : Float}
      (hs : Derives v .relation s (.field name left))
      (ht : Derives v .primary t (.number value right)) :
      Derives v .relation (s ++ .comparison op :: t) (.rows (.compare op name value))
  | group {s : List Symbol} {a : Value} (hs : Derives v .disjunction s a) :
      Derives v .primary (.opening :: (s ++ [.closing])) a
  | complement {s : List Symbol} {a : Value} {x : Expr} (hs : Derives v .primary s a)
      (hx : a.Selects x) : Derives v .primary (.complement :: s) (.rows (.complement x))
  | word {word : String} {a : Value} (h : Reads v word a) : Derives v .primary [.word word] a

/-! Operands and their values -/

def Operand.value : Operand → Value
  | .rows e => .rows e
  | .number value word _ => .number value word
  | .field name word _ => .field name word

theorem nodes_eq_ok_iff {word : String} {location : Nat} {e : Expr} :
    nodes word location = .ok e ↔
      ∃ pattern, Host.Pattern.compile word .leading = .ok pattern ∧ e = .node pattern := by
  unfold nodes
  cases Host.Pattern.compile word .leading with
  | error => simp
  | ok pattern => simp [eq_comm]

theorem toExpr_eq_ok_iff {operand : Operand} {e : Expr} :
    operand.toExpr = .ok e ↔ operand.value.Selects e := by
  constructor
  · intro h
    cases operand with
    | rows =>
      cases h
      exact .rows _
    | number value word location =>
      obtain ⟨pattern, hpattern, rfl⟩ := nodes_eq_ok_iff.mp h
      exact .number hpattern
    | field name word location =>
      obtain ⟨pattern, hpattern, rfl⟩ := nodes_eq_ok_iff.mp h
      exact .field hpattern
  · intro h
    cases operand with
    | rows =>
      cases h
      rfl
    | number value word location =>
      cases h with
      | number h => exact nodes_eq_ok_iff.mpr ⟨_, h, rfl⟩
    | field name word location =>
      cases h with
      | field h => exact nodes_eq_ok_iff.mpr ⟨_, h, rfl⟩

theorem filter_isFinite_eq_some_iff {word : String} {value : Float} :
    (Decimal.read? word).filter Float.isFinite = some value ↔ IsNumber word value := by
  rw [Option.filter_eq_some_iff, IsNumber]

theorem filter_isFinite_eq_none_iff {word : String} :
    (Decimal.read? word).filter Float.isFinite = none ↔ ∀ value, ¬ IsNumber word value := by
  rw [Option.eq_none_iff_forall_ne_some]
  exact forall_congr' fun value => not_congr filter_isFinite_eq_some_iff

theorem reads_of_readWord {v : Vocabulary} {word : String} {location : Nat} {operand : Operand}
    (h : readWord v word location = .ok operand) : Reads v word operand.value := by
  unfold readWord at h
  split at h
  next value hvalue =>
    cases h
    exact .number (filter_isFinite_eq_some_iff.mp hvalue)
  next hnone =>
    have hnumber := filter_isFinite_eq_none_iff.mp hnone
    split at h
    · cases h
    next name hname =>
      cases h
      exact .field hnumber hname
    next name hname =>
      split at h
      next e he =>
        cases h
        exact .operation hnumber hname he
      next hmissing =>
        cases hnodes : nodes name location with
        | error => simp [hnodes, Except.map] at h
        | ok e =>
          obtain ⟨pattern, hpattern, rfl⟩ := nodes_eq_ok_iff.mp hnodes
          simp only [hnodes, Except.map, Except.ok.injEq] at h
          subst h
          exact .pattern hnumber hname hmissing hpattern

theorem readWord_of_reads {v : Vocabulary} {word : String} {a : Value} (h : Reads v word a)
    (location : Nat) : ∃ operand, readWord v word location = .ok operand ∧ operand.value = a := by
  unfold readWord
  cases h with
  | number h =>
    rw [filter_isFinite_eq_some_iff.mpr h]
    exact ⟨_, rfl, rfl⟩
  | field hnumber hname =>
    rw [filter_isFinite_eq_none_iff.mpr hnumber]
    simp only [hname]
    exact ⟨_, rfl, rfl⟩
  | operation hnumber hname he =>
    rw [filter_isFinite_eq_none_iff.mpr hnumber]
    simp only [hname, he]
    exact ⟨_, rfl, rfl⟩
  | pattern hnumber hname hnone h =>
    rw [filter_isFinite_eq_none_iff.mpr hnumber]
    simp only [hname, hnone, nodes_eq_ok_iff.mpr ⟨_, h, rfl⟩]
    exact ⟨_, rfl, rfl⟩

theorem compareOperands_eq_ok_iff {op : Comparison} {left right result : Operand}
    {location : Nat} : compareOperands op left right location = .ok result ↔
      ∃ name leftWord value rightWord, left.value = .field name leftWord ∧
        right.value = .number value rightWord ∧ result = .rows (.compare op name value) := by
  cases left <;> cases right <;> simp [compareOperands, Operand.value, eq_comm]

theorem combineOperands_eq_ok_iff {op : Connective} {left right result : Operand} :
    combineOperands op left right = .ok result ↔
      ∃ x y, left.value.Selects x ∧ right.value.Selects y ∧ result = .rows (.combine op x y) := by
  simp only [← toExpr_eq_ok_iff]
  unfold combineOperands
  cases left.toExpr with
  | error => simp [bind, Except.bind]
  | ok x =>
    cases right.toExpr with
    | error => simp [bind, Except.bind]
    | ok y => simp [bind, Except.bind, pure, Except.pure, eq_comm]

end NodeQuery.Query

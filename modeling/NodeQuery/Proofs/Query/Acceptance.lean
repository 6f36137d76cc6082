import NodeQuery.Proofs.Query.Grammar
import NodeQuery.Proofs.Query.Tokens

/-!
# Compilation accepts the grammar

Compilation is a machine on a stack of parts that wait for their right ends. What it has taken in is
always a row of derivations, one for each part, whose levels never fall from the bottom of the stack
to its top; so what it accepts derives from the grammar. Conversely the machine follows every
derivation. Together: a query compiles to an expression iff it is cut into symbols that derive from
the grammar with that expression.
-/
namespace NodeQuery.Query

/-- How tightly a waiting part binds the part to its right. -/
def Pending.rank : Pending → Nat
  | .group _ => 0
  | .disjunction _ => 1
  | .conjunction _ => 2
  | .comparison _ _ | .complement => 3

/-- The rank of the part on top. -/
def topRank : List Pending → Nat
  | [] => 0
  | part :: _ => part.rank

/-- The symbols that the waiting parts have taken in. A left operand is complete at its level, and
what waits below binds no tighter than that. -/
inductive Took (v : Vocabulary) : List Pending → List Symbol → Prop
  | nil : Took v [] []
  | group {stack : List Pending} {s : List Symbol} {location : Nat} (hs : Took v stack s) :
      Took v (.group location :: stack) (s ++ [.opening])
  | complement {stack : List Pending} {s : List Symbol} (hs : Took v stack s) :
      Took v (.complement :: stack) (s ++ [.complement])
  | comparison {stack : List Pending} {s t : List Symbol} {left : Operand} {op : Comparison}
      (hs : Took v stack s) (hrank : topRank stack ≤ 2) (ht : Derives v .relation t left.value) :
      Took v (.comparison left op :: stack) (s ++ (t ++ [.comparison op]))
  | conjunction {stack : List Pending} {s t : List Symbol} {left : Operand}
      (hs : Took v stack s) (hrank : topRank stack ≤ 1)
      (ht : Derives v .conjunction t left.value) :
      Took v (.conjunction left :: stack) (s ++ (t ++ [.connective .and]))
  | disjunction {stack : List Pending} {s t : List Symbol} {left : Operand}
      (hs : Took v stack s) (hrank : topRank stack ≤ 0)
      (ht : Derives v .disjunction t left.value) :
      Took v (.disjunction left :: stack) (s ++ (t ++ [.connective .or]))

/-- An operand of a level behind waiting parts that bind no tighter than `bound`. -/
def Holds (v : Vocabulary) (level : Level) (bound : Nat) (operand : Operand)
    (stack : List Pending) (symbols : List Symbol) : Prop :=
  ∃ s t, symbols = s ++ t ∧ Took v stack s ∧ topRank stack ≤ bound ∧
    Derives v level t operand.value

/-- The symbols that a state has taken in. -/
def State.Took (v : Vocabulary) (symbols : List Symbol) : State → Prop
  | .expecting stack => Query.Took v stack symbols
  | .holding operand stack => Holds v .relation 2 operand stack symbols

/-! What the machine takes in derives from the grammar -/

theorem bind_eq_ok {ε α β : Type} {first : Except ε α} {next : α → Except ε β} {result : β}
    (h : first >>= next = .ok result) :
    ∃ value, first = .ok value ∧ next value = .ok result := by
  cases first with
  | error e => cases h
  | ok value => exact ⟨value, rfl, h⟩

theorem took_completePrimary {v : Vocabulary} {location : Nat} {operand : Operand}
    {stack : List Pending} {s t : List Symbol} {state : State} (hs : Took v stack s)
    (ht : Derives v .primary t operand.value)
    (h : completePrimary location operand stack = .ok state) : state.Took v (s ++ t) := by
  induction hs generalizing operand t with
  | nil =>
    cases h
    exact ⟨[], t, rfl, .nil, Nat.zero_le 2, .primary ht⟩
  | @group stack s opening hs =>
    cases h
    exact ⟨s ++ [.opening], t, rfl, .group hs, Nat.zero_le 2, .primary ht⟩
  | @complement stack s hs ih =>
    obtain ⟨x, hx, hrest⟩ := bind_eq_ok h
    have hcomplement : Derives v .primary (.complement :: t) (Operand.rows x.complement).value :=
      .complement ht (toExpr_eq_ok_iff.mp hx)
    rw [List.append_assoc]
    exact ih hcomplement hrest
  | @comparison stack s u left op hs hrank hu =>
    obtain ⟨result, hresult, hstate⟩ := bind_eq_ok h
    cases hstate
    obtain ⟨name, leftWord, value, rightWord, hleft, hright, rfl⟩ :=
      compareOperands_eq_ok_iff.mp hresult
    rw [hleft] at hu
    rw [hright] at ht
    refine ⟨s, u ++ .comparison op :: t, by simp, hs, hrank, ?_⟩
    exact .comparison hu ht
  | @conjunction stack s u left hs hrank hu =>
    cases h
    exact ⟨_, t, rfl, .conjunction hs hrank hu, Nat.le_refl 2, .primary ht⟩
  | @disjunction stack s u left hs hrank hu =>
    cases h
    exact ⟨_, t, rfl, .disjunction hs hrank hu, Nat.le_succ 1, .primary ht⟩

theorem holds_closeConjunction {v : Vocabulary} {operand result : Operand}
    {stack rest : List Pending} {symbols : List Symbol}
    (hholds : Holds v .relation 2 operand stack symbols)
    (h : closeConjunction operand stack = .ok (result, rest)) :
    Holds v .conjunction 1 result rest symbols := by
  obtain ⟨s, t, rfl, hs, hrank, ht⟩ := hholds
  cases hs with
  | nil =>
    cases h
    exact ⟨[], t, rfl, .nil, Nat.zero_le 1, .relation ht⟩
  | group hs =>
    cases h
    exact ⟨_, t, rfl, .group hs, Nat.zero_le 1, .relation ht⟩
  | complement hs => simp [topRank, Pending.rank] at hrank
  | comparison hs => simp [topRank, Pending.rank] at hrank
  | @conjunction _ s u left hs hbelow hu =>
    obtain ⟨joined, hjoined, hpair⟩ := bind_eq_ok h
    cases hpair
    obtain ⟨x, y, hx, hy, rfl⟩ := combineOperands_eq_ok_iff.mp hjoined
    exact ⟨s, u ++ .connective .and :: t, by simp, hs, hbelow, .and hu ht hx hy⟩
  | disjunction hs hbelow hu =>
    cases h
    exact ⟨_, t, rfl, .disjunction hs hbelow hu, Nat.le_refl 1, .relation ht⟩

theorem holds_closeDisjunction {v : Vocabulary} {operand result : Operand}
    {stack rest : List Pending} {symbols : List Symbol}
    (hholds : Holds v .relation 2 operand stack symbols)
    (h : closeDisjunction operand stack = .ok (result, rest)) :
    Holds v .disjunction 0 result rest symbols := by
  obtain ⟨⟨inner, below⟩, hinner, h⟩ := bind_eq_ok h
  obtain ⟨s, t, rfl, hs, hrank, ht⟩ := holds_closeConjunction hholds hinner
  cases hs with
  | nil =>
    cases h
    exact ⟨[], t, rfl, .nil, Nat.le_refl 0, .conjunction ht⟩
  | group hs =>
    cases h
    exact ⟨_, t, rfl, .group hs, Nat.le_refl 0, .conjunction ht⟩
  | complement hs => simp [topRank, Pending.rank] at hrank
  | comparison hs => simp [topRank, Pending.rank] at hrank
  | conjunction hs => simp [topRank, Pending.rank] at hrank
  | @disjunction _ s u left hs hbelow hu =>
    obtain ⟨joined, hjoined, hpair⟩ := bind_eq_ok h
    cases hpair
    obtain ⟨x, y, hx, hy, rfl⟩ := combineOperands_eq_ok_iff.mp hjoined
    exact ⟨s, u ++ .connective .or :: t, by simp, hs, hbelow, .or hu ht hx hy⟩

theorem took_stepExpecting {v : Vocabulary} {stack : List Pending} {symbols : List Symbol}
    {token : Token} {state : State} (hs : Took v stack symbols)
    (h : stepExpecting v stack token = .ok state) : state.Took v (symbols ++ [token.symbol]) := by
  unfold stepExpecting at h
  split at h
  next hsymbol =>
    cases h
    rw [hsymbol]
    exact .group hs
  next hsymbol =>
    cases h
    rw [hsymbol]
    exact .complement hs
  next word hsymbol =>
    obtain ⟨operand, hoperand, hrest⟩ := bind_eq_ok h
    rw [hsymbol]
    exact took_completePrimary hs (.word (reads_of_readWord hoperand)) hrest
  next => cases h

theorem took_stepHolding {v : Vocabulary} {operand : Operand} {stack : List Pending}
    {symbols : List Symbol} {token : Token} {state : State}
    (hholds : Holds v .relation 2 operand stack symbols)
    (h : stepHolding operand stack token = .ok state) :
    state.Took v (symbols ++ [token.symbol]) := by
  unfold stepHolding at h
  split at h
  next op hsymbol =>
    cases h
    obtain ⟨s, t, rfl, hs, hrank, ht⟩ := hholds
    rw [hsymbol, List.append_assoc]
    exact .comparison hs hrank ht
  next hsymbol =>
    obtain ⟨⟨joined, below⟩, hjoined, hstate⟩ := bind_eq_ok h
    cases hstate
    obtain ⟨s, t, rfl, hs, hrank, ht⟩ := holds_closeConjunction hholds hjoined
    rw [hsymbol, List.append_assoc]
    exact .conjunction hs hrank ht
  next hsymbol =>
    obtain ⟨⟨joined, below⟩, hjoined, hstate⟩ := bind_eq_ok h
    cases hstate
    obtain ⟨s, t, rfl, hs, hrank, ht⟩ := holds_closeDisjunction hholds hjoined
    rw [hsymbol, List.append_assoc]
    exact .disjunction hs hrank ht
  next =>
    obtain ⟨⟨joined, below⟩, hjoined, hrest⟩ := bind_eq_ok h
    obtain ⟨s, t, rfl, hs, hrank, ht⟩ := holds_closeDisjunction hholds hjoined
    dsimp only at hrest
    split at hrest
    next location stack =>
      cases hs with
      | @group _ s _ hs =>
        split at hrest
        next hclosing =>
          have hgroup := took_completePrimary hs (.group ht) hrest
          rw [hclosing]
          simpa using hgroup
        next => cases hrest
    next =>
      obtain ⟨_, _, herror⟩ := bind_eq_ok hrest
      cases herror

theorem took_step {v : Vocabulary} {state next : State} {symbols : List Symbol} {token : Token}
    (hstate : state.Took v symbols) (h : step v state token = .ok next) :
    next.Took v (symbols ++ [token.symbol]) := by
  cases state with
  | expecting stack => exact took_stepExpecting hstate h
  | holding operand stack => exact took_stepHolding hstate h

theorem took_foldlM {v : Vocabulary} {tokens : List Token} {state last : State}
    {symbols : List Symbol} (hstate : state.Took v symbols)
    (h : tokens.foldlM (step v) state = .ok last) :
    last.Took v (symbols ++ tokens.map (·.symbol)) := by
  induction tokens generalizing state symbols with
  | nil =>
    cases h
    simpa using hstate
  | cons token tokens ih =>
    obtain ⟨next, hnext, hrest⟩ := bind_eq_ok h
    have htook := ih (took_step hstate hnext) hrest
    rwa [List.append_assoc] at htook

theorem derives_of_finish {v : Vocabulary} {location : Nat} {state : State}
    {symbols : List Symbol} {e : Expr} (hstate : state.Took v symbols)
    (h : finish location state = .ok e) :
    ∃ a, Derives v .disjunction symbols a ∧ a.Selects e := by
  cases state with
  | expecting stack => cases h
  | holding operand stack =>
    obtain ⟨⟨result, rest⟩, hresult, hrest⟩ := bind_eq_ok h
    obtain ⟨s, t, rfl, hs, hrank, ht⟩ := holds_closeDisjunction hstate hresult
    cases hs with
    | nil => exact ⟨result.value, ht, toExpr_eq_ok_iff.mp hrest⟩
    | group => cases hrest
    | complement => simp [topRank, Pending.rank] at hrank
    | comparison => simp [topRank, Pending.rank] at hrank
    | conjunction => simp [topRank, Pending.rank] at hrank
    | disjunction => simp [topRank, Pending.rank] at hrank

/-! The machine follows every derivation -/

theorem completePrimary_of_rank {location : Nat} {operand : Operand} {stack : List Pending}
    (h : topRank stack ≤ 2) :
    completePrimary location operand stack = .ok (.holding operand stack) := by
  cases stack with
  | nil => rfl
  | cons part stack =>
    cases part with
    | group => rfl
    | complement => simp [topRank, Pending.rank] at h
    | comparison => simp [topRank, Pending.rank] at h
    | conjunction => rfl
    | disjunction => rfl

theorem closeConjunction_of_rank {operand : Operand} {stack : List Pending}
    (h : topRank stack ≤ 1) : closeConjunction operand stack = .ok (operand, stack) := by
  cases stack with
  | nil => rfl
  | cons part stack =>
    cases part with
    | conjunction => simp [topRank, Pending.rank] at h
    | group => rfl
    | complement => rfl
    | comparison => rfl
    | disjunction => rfl

theorem closeDisjunction_of_rank {operand result : Operand} {inner stack : List Pending}
    (hclose : closeConjunction operand inner = .ok (result, stack)) (h : topRank stack ≤ 0) :
    closeDisjunction operand inner = .ok (result, stack) := by
  simp only [closeDisjunction, hclose, bind, Except.bind]
  cases stack with
  | nil => rfl
  | cons part stack =>
    cases part with
    | disjunction => simp [topRank, Pending.rank] at h
    | group => rfl
    | complement => rfl
    | comparison => rfl
    | conjunction => rfl

theorem closeDisjunction_of_disjunction {operand result left joined : Operand}
    {inner stack : List Pending}
    (hclose : closeConjunction operand inner = .ok (result, .disjunction left :: stack))
    (h : combineOperands .or left result = .ok joined) :
    closeDisjunction operand inner = .ok (joined, stack) := by
  simp [closeDisjunction, hclose, h, bind, Except.bind, pure, Except.pure]

/-- From the state that expects it, the machine reads the tokens of a level and is left with its
operand. Above a primary, what waits below must bind no tighter than the level; an operand of the
two lowest levels may still have its last connective open. -/
def Follows (v : Vocabulary) (tokens : List Token) (a : Value) : Level → Prop
  | .primary => ∀ stack, ∃ operand location, operand.value = a ∧
      tokens.foldlM (step v) (.expecting stack) = completePrimary location operand stack
  | .relation => ∀ stack, topRank stack ≤ 2 → ∃ operand, operand.value = a ∧
      tokens.foldlM (step v) (.expecting stack) = .ok (.holding operand stack)
  | .conjunction => ∀ stack, topRank stack ≤ 1 → ∃ operand inner result, result.value = a ∧
      tokens.foldlM (step v) (.expecting stack) = .ok (.holding operand inner) ∧
      closeConjunction operand inner = .ok (result, stack)
  | .disjunction => ∀ stack, topRank stack ≤ 0 → ∃ operand inner result, result.value = a ∧
      tokens.foldlM (step v) (.expecting stack) = .ok (.holding operand inner) ∧
      closeDisjunction operand inner = .ok (result, stack)

theorem exists_tokens_of_map_eq {tokens : List Token} {s t : List Symbol} {symbol : Symbol}
    (h : tokens.map (·.symbol) = s ++ symbol :: t) :
    ∃ first token rest, tokens = first ++ token :: rest ∧ first.map (·.symbol) = s ∧
      token.symbol = symbol ∧ rest.map (·.symbol) = t := by
  obtain ⟨first, more, rfl, hfirst, hmore⟩ := List.map_eq_append_iff.mp h
  obtain ⟨token, rest, rfl, htoken, hrest⟩ := List.map_eq_cons_iff.mp hmore
  exact ⟨first, token, rest, rfl, hfirst, htoken, hrest⟩

theorem foldlM_step_append {v : Vocabulary} {first rest : List Token} {token : Token}
    {state middle : State} (h : first.foldlM (step v) state = .ok middle) :
    (first ++ token :: rest).foldlM (step v) state =
      (step v middle token >>= fun next => rest.foldlM (step v) next) := by
  rw [List.foldlM_append, h]
  rfl

section Following
variable {v : Vocabulary} {first rest : List Token} {token : Token} {a b : Value} {x y : Expr}

theorem follows_or (hleft : Follows v first a .disjunction) (htoken : token.symbol = .connective .or)
    (hright : Follows v rest b .conjunction) (hx : a.Selects x) (hy : b.Selects y) :
    Follows v (first ++ token :: rest) (.rows (.combine .or x y)) .disjunction := by
  intro stack hrank
  obtain ⟨left, leftInner, leftResult, rfl, hrunLeft, hcloseLeft⟩ := hleft stack hrank
  obtain ⟨right, rightInner, rightResult, rfl, hrunRight, hcloseRight⟩ :=
    hright (.disjunction leftResult :: stack) (Nat.le_refl 1)
  have hstep : step v (.holding left leftInner) token =
      .ok (.expecting (.disjunction leftResult :: stack)) := by
    simp [step, stepHolding, htoken, hcloseLeft, bind, Except.bind, pure, Except.pure]
  have hjoined : combineOperands .or leftResult rightResult = .ok (.rows (.combine .or x y)) :=
    combineOperands_eq_ok_iff.mpr ⟨x, y, hx, hy, rfl⟩
  refine ⟨right, rightInner, .rows (.combine .or x y), rfl, ?_, ?_⟩
  · rw [foldlM_step_append hrunLeft, hstep]
    exact hrunRight
  · exact closeDisjunction_of_disjunction hcloseRight hjoined

theorem follows_and (hleft : Follows v first a .conjunction)
    (htoken : token.symbol = .connective .and) (hright : Follows v rest b .relation)
    (hx : a.Selects x) (hy : b.Selects y) :
    Follows v (first ++ token :: rest) (.rows (.combine .and x y)) .conjunction := by
  intro stack hrank
  obtain ⟨left, leftInner, leftResult, rfl, hrunLeft, hcloseLeft⟩ := hleft stack hrank
  obtain ⟨right, rfl, hrunRight⟩ := hright (.conjunction leftResult :: stack) (Nat.le_refl 2)
  have hstep : step v (.holding left leftInner) token =
      .ok (.expecting (.conjunction leftResult :: stack)) := by
    simp [step, stepHolding, htoken, hcloseLeft, bind, Except.bind, pure, Except.pure]
  have hjoined : combineOperands .and leftResult right = .ok (.rows (.combine .and x y)) :=
    combineOperands_eq_ok_iff.mpr ⟨x, y, hx, hy, rfl⟩
  refine ⟨right, .conjunction leftResult :: stack, .rows (.combine .and x y), rfl, ?_, ?_⟩
  · rw [foldlM_step_append hrunLeft, hstep]
    exact hrunRight
  · simp [closeConjunction, hjoined, bind, Except.bind, pure, Except.pure]

theorem follows_comparison {op : Comparison} {name leftWord rightWord : String} {value : Float}
    (hleft : Follows v first (.field name leftWord) .relation)
    (htoken : token.symbol = .comparison op)
    (hright : Follows v rest (.number value rightWord) .primary) :
    Follows v (first ++ token :: rest) (.rows (.compare op name value)) .relation := by
  intro stack hrank
  obtain ⟨left, hleftValue, hrunLeft⟩ := hleft stack hrank
  obtain ⟨right, location, hrightValue, hrunRight⟩ := hright (.comparison left op :: stack)
  have hstep : step v (.holding left stack) token =
      .ok (.expecting (.comparison left op :: stack)) := by
    simp [step, stepHolding, htoken]
  have hcompared : compareOperands op left right location =
      .ok (.rows (.compare op name value)) :=
    compareOperands_eq_ok_iff.mpr ⟨name, leftWord, value, rightWord, hleftValue, hrightValue, rfl⟩
  refine ⟨.rows (.compare op name value), rfl, ?_⟩
  rw [foldlM_step_append hrunLeft, hstep]
  refine hrunRight.trans ?_
  simp [completePrimary, hcompared, bind, Except.bind, pure, Except.pure]

theorem follows_group {opening closing : Token} (hopening : opening.symbol = .opening)
    (h : Follows v first a .disjunction) (hclosing : closing.symbol = .closing) :
    Follows v (opening :: (first ++ [closing])) a .primary := by
  intro stack
  obtain ⟨operand, inner, result, hvalue, hrun, hclose⟩ :=
    h (.group opening.location :: stack) (Nat.le_refl 0)
  have hfirst : step v (.expecting stack) opening =
      .ok (.expecting (.group opening.location :: stack)) := by
    simp [step, stepExpecting, hopening]
  have hlast : step v (.holding operand inner) closing =
      completePrimary closing.location result stack := by
    simp [step, stepHolding, hclosing, hclose, bind, Except.bind]
  refine ⟨result, closing.location, hvalue, ?_⟩
  rw [List.foldlM_cons, hfirst]
  refine (foldlM_step_append hrun).trans ?_
  rw [hlast]
  exact bind_pure _

theorem follows_complement (htoken : token.symbol = .complement)
    (h : Follows v rest a .primary) (hx : a.Selects x) :
    Follows v (token :: rest) (.rows (.complement x)) .primary := by
  intro stack
  obtain ⟨operand, location, rfl, hrun⟩ := h (.complement :: stack)
  have hstep : step v (.expecting stack) token = .ok (.expecting (.complement :: stack)) := by
    simp [step, stepExpecting, htoken]
  have hrows : operand.toExpr = .ok x := toExpr_eq_ok_iff.mpr hx
  refine ⟨.rows x.complement, location, rfl, ?_⟩
  rw [List.foldlM_cons, hstep]
  refine hrun.trans ?_
  simp [completePrimary, hrows, bind, Except.bind]

theorem follows_word {word : String} (htoken : token.symbol = .word word) (h : Reads v word a) :
    Follows v [token] a .primary := by
  intro stack
  obtain ⟨operand, hread, hvalue⟩ := readWord_of_reads h token.location
  have hstep : step v (.expecting stack) token =
      completePrimary token.location operand stack := by
    simp [step, stepExpecting, htoken, hread, bind, Except.bind]
  refine ⟨operand, token.location, hvalue, ?_⟩
  rw [List.foldlM_cons, hstep]
  exact bind_pure _

end Following

theorem follows_of_derives {v : Vocabulary} {level : Level} {s : List Symbol} {a : Value}
    (h : Derives v level s a) {tokens : List Token} (htokens : tokens.map (·.symbol) = s) :
    Follows v tokens a level := by
  induction h generalizing tokens with
  | conjunction hs ih =>
    intro stack hrank
    obtain ⟨operand, inner, result, hvalue, hrun, hclose⟩ := ih htokens stack (by omega)
    exact ⟨operand, inner, result, hvalue, hrun, closeDisjunction_of_rank hclose hrank⟩
  | or hs ht hx hy ihs iht =>
    obtain ⟨first, token, rest, rfl, hfirst, htoken, hrest⟩ := exists_tokens_of_map_eq htokens
    exact follows_or (ihs hfirst) htoken (iht hrest) hx hy
  | relation hs ih =>
    intro stack hrank
    obtain ⟨operand, hvalue, hrun⟩ := ih htokens stack (by omega)
    exact ⟨operand, stack, operand, hvalue, hrun, closeConjunction_of_rank hrank⟩
  | and hs ht hx hy ihs iht =>
    obtain ⟨first, token, rest, rfl, hfirst, htoken, hrest⟩ := exists_tokens_of_map_eq htokens
    exact follows_and (ihs hfirst) htoken (iht hrest) hx hy
  | primary hs ih =>
    intro stack hrank
    obtain ⟨operand, location, hvalue, hrun⟩ := ih htokens stack
    exact ⟨operand, hvalue, hrun.trans (completePrimary_of_rank hrank)⟩
  | comparison hs ht ihs iht =>
    obtain ⟨first, token, rest, rfl, hfirst, htoken, hrest⟩ := exists_tokens_of_map_eq htokens
    exact follows_comparison (ihs hfirst) htoken (iht hrest)
  | group hs ih =>
    obtain ⟨opening, more, rfl, hopening, hmore⟩ := List.map_eq_cons_iff.mp htokens
    obtain ⟨inside, closing, rest, rfl, hinside, hclosing, hrest⟩ := exists_tokens_of_map_eq hmore
    obtain rfl := List.map_eq_nil_iff.mp hrest
    exact follows_group hopening (ih hinside) hclosing
  | complement hs hx ih =>
    obtain ⟨token, rest, rfl, htoken, hrest⟩ := List.map_eq_cons_iff.mp htokens
    exact follows_complement htoken (ih hrest) hx
  | word hword =>
    obtain ⟨token, rest, rfl, htoken, hrest⟩ := List.map_eq_cons_iff.mp htokens
    obtain rfl := List.map_eq_nil_iff.mp hrest
    exact follows_word htoken hword

theorem derives_of_compile {v : Vocabulary} {query : String} {e : Expr}
    (h : compile v query = .ok e) :
    ∃ symbols a, Cuts query.toList symbols ∧ Derives v .disjunction symbols a ∧ a.Selects e := by
  obtain ⟨state, hstate, h⟩ := bind_eq_ok h
  obtain ⟨location, hlocation, h⟩ := bind_eq_ok h
  have hstart : State.Took v [] (.expecting []) := .nil
  obtain ⟨a, ha, he⟩ := derives_of_finish (took_foldlM hstart hstate) h
  exact ⟨_, a, cuts_of_ofText hlocation, ha, he⟩

theorem compile_of_derives {v : Vocabulary} {query : String} {symbols : List Symbol} {a : Value}
    {e : Expr} (hcuts : Cuts query.toList symbols) (ha : Derives v .disjunction symbols a)
    (he : a.Selects e) : compile v query = .ok e := by
  obtain ⟨hsymbols, location, hlocation⟩ := ofText_of_cuts hcuts 1
  obtain ⟨operand, inner, result, hvalue, hrun, hclose⟩ :=
    follows_of_derives ha hsymbols [] (Nat.le_refl 0)
  have hrows : result.toExpr = .ok e := toExpr_eq_ok_iff.mpr (hvalue ▸ he)
  simp [compile, hrun, hlocation, finish, hclose, hrows, bind, Except.bind]

end NodeQuery.Query

import NodeQuery.Proofs.Query.Acceptance
import NodeQuery.Proofs.Query.Places

/-!
# Where compilation fails

Every error of a compilation has a place in the query: where one of its tokens begins, or behind its
last character if more was expected there. The machine keeps locations in its state, since numbers
and fields may turn into host patterns long after they were read; that all of them are places of
tokens is an invariant of its steps. A comparison of operands that do not fit fails at the last
token of its right operand: what the machine has taken in by then derives from the grammar.
-/
namespace NodeQuery.Query

/-! Results and errors of a computation -/

/-- The computation gives a value with the one property, or an error with the other. -/
def Yields {α : Type} (E : QueryError → Prop) (Q : α → Prop) : Except QueryError α → Prop
  | .ok value => Q value
  | .error e => E e

section Yields
variable {α β : Type} {E F : QueryError → Prop} {Q : α → Prop} {R : β → Prop}

theorem Yields.bind {first : Except QueryError α} {next : α → Except QueryError β}
    (hfirst : Yields E Q first) (hnext : ∀ value, Q value → Yields E R (next value)) :
    Yields E R (first >>= next) := by
  cases first with
  | error e => exact hfirst
  | ok value => exact hnext value hfirst

theorem Yields.weaken {x : Except QueryError α} (h : Yields E Q x) (himp : ∀ e, E e → F e) :
    Yields F Q x := by
  cases x with
  | error e => exact himp e h
  | ok value => exact h

theorem Yields.of_error {x : Except QueryError α} {e : QueryError} (h : Yields E Q x)
    (he : x = .error e) : E e := by
  rw [he] at h
  exact h

theorem bind_eq_error {first : Except QueryError α} {next : α → Except QueryError β}
    {e : QueryError} (h : first >>= next = .error e) :
    first = .error e ∨ ∃ value, first = .ok value ∧ next value = .error e := by
  cases first with
  | error _ =>
    cases h
    exact .inl rfl
  | ok value => exact .inr ⟨value, rfl, h⟩

end Yields

/-! Locations in the state of the machine -/

section Locations

def Operand.LocatedBy (P : Nat → Prop) : Operand → Prop
  | .rows _ => True
  | .number _ _ location | .field _ _ location => P location

def Pending.LocatedBy (P : Nat → Prop) : Pending → Prop
  | .group _ | .complement => True
  | .comparison left _ | .conjunction left | .disjunction left => left.LocatedBy P

/-- An operand and the parts that wait below it. -/
def HeldBy (P : Nat → Prop) (held : Operand × List Pending) : Prop :=
  held.1.LocatedBy P ∧ ∀ part ∈ held.2, part.LocatedBy P

def State.LocatedBy (P : Nat → Prop) : State → Prop
  | .expecting stack => ∀ part ∈ stack, part.LocatedBy P
  | .holding operand stack => HeldBy P (operand, stack)

def QueryError.LocatedBy (P : Nat → Prop) (e : QueryError) : Prop := P e.location

theorem Operand.locatedBy_true (operand : Operand) : operand.LocatedBy fun _ => True := by
  cases operand <;> trivial

theorem heldBy_true (held : Operand × List Pending) : HeldBy (fun _ => True) held :=
  ⟨held.1.locatedBy_true, fun part _ => by
    cases part <;> first | trivial | exact Operand.locatedBy_true _⟩

/-- An error at such a location that is not about the operands of a comparison. -/
structure QueryError.PlainlyLocatedBy (P : Nat → Prop) (e : QueryError) : Prop where
  located : P e.location
  not_wrongType : ∀ op, e.fault ≠ .wrongType op

variable {P : Nat → Prop} {operand : Operand} {stack : List Pending} {location : Nat}

theorem Yields.located {α : Type} {Q : α → Prop} {x : Except QueryError α}
    (h : Yields (·.PlainlyLocatedBy P) Q x) : Yields (·.LocatedBy P) Q x :=
  h.weaken fun _ he => he.located

theorem Yields.not_mistyped {α : Type} {Q : α → Prop} {x : Except QueryError α} {e : QueryError}
    (h : Yields (·.PlainlyLocatedBy P) Q x) (he : x = .error e) {op : Comparison}
    (hop : e.fault = .wrongType op) : False :=
  (h.of_error he).not_wrongType op hop

theorem located_nodes (h : P location) (word : String) :
    Yields (·.PlainlyLocatedBy P) (fun _ => True) (nodes word location) := by
  unfold nodes
  split
  next => exact ⟨h, fun op => nofun⟩
  next => trivial

theorem located_toExpr (h : operand.LocatedBy P) :
    Yields (·.PlainlyLocatedBy P) (fun _ => True) operand.toExpr := by
  cases operand with
  | rows e => trivial
  | number value word location => exact located_nodes h word
  | field name word location => exact located_nodes h word

theorem located_readWord (v : Vocabulary) (word : String) (h : P location) :
    Yields (·.PlainlyLocatedBy P) (·.LocatedBy P) (readWord v word location) := by
  unfold readWord
  split
  next => exact h
  next =>
    split
    next => exact ⟨h, fun op => nofun⟩
    next => exact h
    next name _ =>
      split
      next => trivial
      next =>
        have hnodes := located_nodes h name
        cases hresult : nodes name location with
        | error e => exact hnodes.of_error hresult
        | ok e => trivial

theorem located_compareOperands (op : Comparison) (left right : Operand) (h : P location) :
    Yields (·.LocatedBy P) (·.LocatedBy P) (compareOperands op left right location) := by
  unfold compareOperands
  split
  next => trivial
  next => exact h

theorem located_combineOperands (op : Connective) {left right : Operand}
    (hleft : left.LocatedBy P) (hright : right.LocatedBy P) :
    Yields (·.PlainlyLocatedBy P) (·.LocatedBy P) (combineOperands op left right) :=
  (located_toExpr hleft).bind fun _ _ => (located_toExpr hright).bind fun _ _ => trivial

theorem located_completePrimary (hlocation : P location) (hoperand : operand.LocatedBy P)
    (hstack : ∀ part ∈ stack, part.LocatedBy P) :
    Yields (·.LocatedBy P) (·.LocatedBy P) (completePrimary location operand stack) := by
  induction stack generalizing operand with
  | nil => exact ⟨hoperand, hstack⟩
  | cons part stack ih =>
    obtain ⟨hpart, hbelow⟩ := List.forall_mem_cons.mp hstack
    cases part with
    | complement => exact (located_toExpr hoperand).located.bind fun _ _ => ih trivial hbelow
    | comparison left op =>
      exact (located_compareOperands op left operand hlocation).bind fun _ h => ⟨h, hbelow⟩
    | group opening => exact ⟨hoperand, hstack⟩
    | conjunction left => exact ⟨hoperand, hstack⟩
    | disjunction left => exact ⟨hoperand, hstack⟩

theorem located_closeConjunction (h : HeldBy P (operand, stack)) :
    Yields (·.PlainlyLocatedBy P) (HeldBy P) (closeConjunction operand stack) := by
  unfold closeConjunction
  split
  next left stack =>
    obtain ⟨hleft, hbelow⟩ := List.forall_mem_cons.mp h.2
    exact (located_combineOperands .and hleft h.1).bind fun _ hjoined => ⟨hjoined, hbelow⟩
  next => exact h

theorem located_closeDisjunction (h : HeldBy P (operand, stack)) :
    Yields (·.PlainlyLocatedBy P) (HeldBy P) (closeDisjunction operand stack) := by
  refine (located_closeConjunction h).bind ?_
  rintro ⟨operand, stack⟩ hheld
  dsimp only
  split
  next left stack =>
    obtain ⟨hleft, hbelow⟩ := List.forall_mem_cons.mp hheld.2
    exact (located_combineOperands .or hleft hheld.1).bind fun _ hjoined => ⟨hjoined, hbelow⟩
  next => exact hheld

theorem located_stepExpecting (v : Vocabulary) {token : Token}
    (hstack : ∀ part ∈ stack, part.LocatedBy P) (htoken : P token.location) :
    Yields (·.LocatedBy P) (·.LocatedBy P) (stepExpecting v stack token) := by
  unfold stepExpecting
  split
  next => exact List.forall_mem_cons.mpr ⟨trivial, hstack⟩
  next => exact List.forall_mem_cons.mpr ⟨trivial, hstack⟩
  next word _ =>
    have hread := (located_readWord v word htoken).located
    exact hread.bind fun _ hoperand => located_completePrimary htoken hoperand hstack
  next => exact htoken

theorem located_stepHolding {token : Token} (h : HeldBy P (operand, stack))
    (htoken : P token.location) :
    Yields (·.LocatedBy P) (·.LocatedBy P) (stepHolding operand stack token) := by
  have hconjunction := (located_closeConjunction h).located
  have hdisjunction := (located_closeDisjunction h).located
  unfold stepHolding
  split
  next => exact List.forall_mem_cons.mpr h
  next => exact hconjunction.bind fun _ hheld => List.forall_mem_cons.mpr hheld
  next => exact hdisjunction.bind fun _ hheld => List.forall_mem_cons.mpr hheld
  next =>
    refine hdisjunction.bind ?_
    rintro ⟨operand, stack⟩ hheld
    dsimp only
    split
    next opening stack =>
      split
      next => exact located_completePrimary htoken hheld.1 (List.forall_mem_cons.mp hheld.2).2
      next => exact htoken
    next => exact (located_toExpr hheld.1).located.bind fun _ _ => htoken

theorem located_step (v : Vocabulary) {state : State} {token : Token} (h : state.LocatedBy P)
    (htoken : P token.location) :
    Yields (·.LocatedBy P) (·.LocatedBy P) (step v state token) := by
  cases state with
  | expecting stack => exact located_stepExpecting v h htoken
  | holding operand stack => exact located_stepHolding h htoken

/-- Whatever holds of the locations of all tokens holds of every location in a state that the
machine reaches, and of that of the error that it stops with. -/
theorem located_foldlM (v : Vocabulary) {tokens : List Token} {state : State}
    (h : state.LocatedBy P) (htokens : ∀ token ∈ tokens, P token.location) :
    Yields (·.LocatedBy P) (·.LocatedBy P) (tokens.foldlM (step v) state) := by
  induction tokens generalizing state with
  | nil => exact h
  | cons token tokens ih =>
    obtain ⟨htoken, hrest⟩ := List.forall_mem_cons.mp htokens
    exact (located_step v h htoken).bind fun _ hnext => ih hnext hrest

end Locations

/-- The faults of a query that ends too early. -/
inductive Fault.IsEnd : Fault → Prop
  | unexpectedEnd : IsEnd .unexpectedEnd
  | unclosed (opening : Nat) : IsEnd (.unclosed opening)

theorem located_finish {P : Nat → Prop} {location : Nat} {state : State} (h : state.LocatedBy P) :
    Yields (fun e => e.PlainlyLocatedBy P ∨ e.location = location ∧ e.fault.IsEnd)
      (fun _ => True) (finish location state) := by
  cases state with
  | expecting stack => exact .inr ⟨rfl, .unexpectedEnd⟩
  | holding operand stack =>
    refine ((located_closeDisjunction h).weaken fun _ he => .inl he).bind ?_
    rintro ⟨operand, stack⟩ hheld
    dsimp only
    split
    next opening _ => exact .inr ⟨rfl, .unclosed opening⟩
    next => exact (located_toExpr hheld.1).weaken fun _ he => .inl he

/-! Comparisons of operands that do not fit -/

/-- A field on the left of a comparison and a number on its right. -/
inductive Value.Fits : Value → Value → Prop
  | mk (name leftWord : String) (value : Float) (rightWord : String) :
      Fits (.field name leftWord) (.number value rightWord)

/-- What stands in front of an operand of a connective inside its group. -/
inductive Symbol.Leads : Symbol → Prop
  | opening : Leads .opening
  | connective (op : Connective) : Leads (.connective op)

/-- Among the tokens is a comparison whose operands do not fit, and the last token of its right
operand stands at the location. Its left operand begins where a relation can. -/
inductive Mistyped (v : Vocabulary) (op : Comparison) (location : Nat) : List Token → Prop
  | mk {outer left right rest : List Token} {operator last : Token} {a b : Value}
      (hleads : ∀ token ∈ outer.getLast?, token.symbol.Leads)
      (hleft : Derives v .relation (left.map (·.symbol)) a)
      (hoperator : operator.symbol = .comparison op)
      (hright : Derives v .primary ((right ++ [last]).map (·.symbol)) b)
      (hfit : ¬ a.Fits b) (hlocation : last.location = location) :
      Mistyped v op location (outer ++ (left ++ operator :: (right ++ last :: rest)))

/-- The same of symbols, the last of which ends the right operand. -/
inductive EndsMistyped (v : Vocabulary) (op : Comparison) : List Symbol → Prop
  | mk {outer left right : List Symbol} {a b : Value}
      (hleads : ∀ symbol ∈ outer.getLast?, symbol.Leads) (hleft : Derives v .relation left a)
      (hright : Derives v .primary right b) (hfit : ¬ a.Fits b) :
      EndsMistyped v op (outer ++ (left ++ .comparison op :: right))

section Mistyped
variable {v : Vocabulary} {op : Comparison} {location : Nat} {e : QueryError}

theorem compareOperands_eq_error {left right : Operand} {op' : Comparison}
    (h : compareOperands op left right location = .error e) (hop : e.fault = .wrongType op') :
    op = op' ∧ e.location = location ∧ ¬ left.value.Fits right.value := by
  unfold compareOperands at h
  split at h
  next => cases h
  next hnone =>
    cases h
    cases hop
    refine ⟨rfl, rfl, fun hfits => ?_⟩
    cases left <;> cases right <;> cases hfits
    exact hnone _ _ _ _ _ _ rfl rfl

/-- In front of a relation that the machine has begun stands an opening parenthesis or a
connective. -/
theorem leads_of_took {stack : List Pending} {s : List Symbol} (h : Took v stack s)
    (hrank : topRank stack ≤ 2) : ∀ symbol ∈ s.getLast?, symbol.Leads := by
  cases h with
  | nil => simp
  | group => simp [Symbol.Leads.opening]
  | complement => simp [topRank, Pending.rank] at hrank
  | comparison => simp [topRank, Pending.rank] at hrank
  | conjunction => simp [← List.append_assoc, Symbol.Leads.connective]
  | disjunction => simp [← List.append_assoc, Symbol.Leads.connective]

theorem mistyped_completePrimary {operand : Operand} {stack : List Pending} {s t : List Symbol}
    (hs : Took v stack s) (ht : Derives v .primary t operand.value)
    (h : completePrimary location operand stack = .error e) (hop : e.fault = .wrongType op) :
    e.location = location ∧ EndsMistyped v op (s ++ t) := by
  -- A complement hands its rows on to what waits below it; the first comparison that waits decides.
  induction hs generalizing operand t with
  | nil => cases h
  | group => cases h
  | conjunction => cases h
  | disjunction => cases h
  | complement hs ih =>
    rcases bind_eq_error h with herror | ⟨x, hx, hrest⟩
    · exact ((located_toExpr operand.locatedBy_true).not_mistyped herror hop).elim
    · have hcomplement : Derives v .primary (.complement :: t) (Operand.rows x.complement).value :=
        .complement ht (toExpr_eq_ok_iff.mp hx)
      rw [List.append_assoc]
      exact ih hcomplement hrest
  | comparison hs hrank hleft ih =>
    rcases bind_eq_error h with herror | ⟨result, _, hrest⟩
    · obtain ⟨rfl, hlocation, hfit⟩ := compareOperands_eq_error herror hop
      refine ⟨hlocation, ?_⟩
      rw [List.append_assoc, List.append_assoc]
      exact .mk (leads_of_took hs hrank) hleft ht hfit
    · cases hrest

theorem mistyped_stepExpecting {stack : List Pending} {symbols : List Symbol} {token : Token}
    (hs : Took v stack symbols) (h : stepExpecting v stack token = .error e)
    (hop : e.fault = .wrongType op) :
    e.location = token.location ∧ EndsMistyped v op (symbols ++ [token.symbol]) := by
  unfold stepExpecting at h
  split at h
  next => cases h
  next => cases h
  next word hsymbol =>
    rcases bind_eq_error h with herror | ⟨operand, hoperand, hrest⟩
    · have hread : Yields (·.PlainlyLocatedBy fun _ => True) _ (readWord v word token.location) :=
        located_readWord v word trivial
      exact (hread.not_mistyped herror hop).elim
    · rw [hsymbol]
      exact mistyped_completePrimary hs (.word (reads_of_readWord hoperand)) hrest hop
  next =>
    cases h
    cases hop

theorem mistyped_stepHolding {operand : Operand} {stack : List Pending} {symbols : List Symbol}
    {token : Token} (hholds : Holds v .relation 2 operand stack symbols)
    (h : stepHolding operand stack token = .error e) (hop : e.fault = .wrongType op) :
    e.location = token.location ∧ EndsMistyped v op (symbols ++ [token.symbol]) := by
  have hheld := heldBy_true (operand, stack)
  unfold stepHolding at h
  split at h
  next => cases h
  next =>
    rcases bind_eq_error h with herror | ⟨_, _, hrest⟩
    · exact ((located_closeConjunction hheld).not_mistyped herror hop).elim
    · cases hrest
  next =>
    rcases bind_eq_error h with herror | ⟨_, _, hrest⟩
    · exact ((located_closeDisjunction hheld).not_mistyped herror hop).elim
    · cases hrest
  next =>
    rcases bind_eq_error h with herror | ⟨⟨joined, below⟩, hjoined, hrest⟩
    · exact ((located_closeDisjunction hheld).not_mistyped herror hop).elim
    obtain ⟨s, t, rfl, hs, -, ht⟩ := holds_closeDisjunction hholds hjoined
    dsimp only at hrest
    split at hrest
    next opening stack =>
      cases hs with
      | @group _ s _ hs =>
        split at hrest
        next hclosing =>
          have hgroup := mistyped_completePrimary hs (.group ht) hrest hop
          rw [hclosing]
          simpa using hgroup
        next =>
          cases hrest
          cases hop
    next =>
      rcases bind_eq_error hrest with herror | ⟨_, _, hjunk⟩
      · exact ((located_toExpr joined.locatedBy_true).not_mistyped herror hop).elim
      · cases hjunk
        cases hop

theorem mistyped_step {state : State} {symbols : List Symbol} {token : Token}
    (hstate : state.Took v symbols) (h : step v state token = .error e)
    (hop : e.fault = .wrongType op) :
    e.location = token.location ∧ EndsMistyped v op (symbols ++ [token.symbol]) := by
  cases state with
  | expecting stack => exact mistyped_stepExpecting hstate h hop
  | holding operand stack => exact mistyped_stepHolding hstate h hop

theorem foldlM_step_eq_error {tokens : List Token} {state : State}
    (h : tokens.foldlM (step v) state = .error e) :
    ∃ read token rest last, tokens = read ++ token :: rest ∧
      read.foldlM (step v) state = .ok last ∧ step v last token = .error e := by
  induction tokens generalizing state with
  | nil => cases h
  | cons token tokens ih =>
    rcases bind_eq_error h with hstep | ⟨next, hnext, hrest⟩
    · exact ⟨[], token, tokens, state, rfl, rfl, hstep⟩
    · obtain ⟨read, failing, rest, last, rfl, hread, hstep⟩ := ih hrest
      refine ⟨token :: read, failing, rest, last, rfl, ?_, hstep⟩
      rw [List.foldlM_cons, hnext]
      exact hread

theorem derives_ne_nil {level : Level} {s : List Symbol} {a : Value} (h : Derives v level s a) :
    s ≠ [] := by
  induction h <;> simp_all

/-- The symbols are those of the tokens, so the token that is read last ends the right operand. -/
theorem mistyped_of_endsMistyped {read : List Token} {token : Token} (rest : List Token)
    (h : EndsMistyped v op (read.map (·.symbol) ++ [token.symbol])) :
    Mistyped v op token.location (read ++ token :: rest) := by
  generalize hsymbols : read.map (·.symbol) ++ [token.symbol] = symbols at h
  cases h with
  | @mk outerSymbols leftSymbols rightSymbols a b hleads hleft hright hfit =>
  have hmap : (read ++ [token]).map (·.symbol) =
      (outerSymbols ++ leftSymbols) ++ .comparison op :: rightSymbols := by
    rw [List.map_append, List.append_assoc]
    exact hsymbols
  obtain ⟨front, operator, behind, hcut, hfront, hoperator, hbehind⟩ :=
    exists_tokens_of_map_eq hmap
  obtain ⟨outer, left, rfl, rfl, rfl⟩ := List.map_eq_append_iff.mp hfront
  rcases List.eq_nil_or_concat behind with rfl | ⟨right, last, rfl⟩
  · exact absurd hbehind.symm (derives_ne_nil hright)
  have hends : read ++ [token] = (outer ++ (left ++ operator :: right)) ++ [last] := by
    simpa using hcut
  obtain ⟨rfl, hlast⟩ := List.append_inj' hends rfl
  obtain rfl := List.singleton_inj.mp hlast
  rw [← hbehind, List.concat_eq_append] at hright
  have hopens : ∀ token ∈ outer.getLast?, token.symbol.Leads := by
    intro token htoken
    apply hleads
    rw [List.getLast?_map, Option.mem_def.mp htoken]
    rfl
  have hmistyped : Mistyped v op token.location
      (outer ++ (left ++ operator :: (right ++ token :: rest))) :=
    .mk hopens hleft hoperator hright hfit rfl
  simpa using hmistyped

theorem mistyped_foldlM {tokens : List Token}
    (h : tokens.foldlM (step v) (.expecting []) = .error e) (hop : e.fault = .wrongType op) :
    Mistyped v op e.location tokens := by
  obtain ⟨read, token, rest, last, rfl, hread, hstep⟩ := foldlM_step_eq_error h
  have hstart : State.Took v [] (.expecting []) := .nil
  obtain ⟨hlocation, hends⟩ := mistyped_step (took_foldlM hstart hread) hstep hop
  rw [hlocation]
  exact mistyped_of_endsMistyped rest hends

end Mistyped

/-- A query that does not compile fails where one of its tokens begins or, only if it ends too
early, behind its last character. Operands that do not fit fail at the last token of the right one.
-/
theorem compile_error_located {v : Vocabulary} {query : String} {e : QueryError}
    (h : compile v query = .error e) :
    (TokenBegins query.toList e.location ∨ e.location = query.length + 1 ∧ e.fault.IsEnd) ∧
      ∀ op, e.fault = .wrongType op →
        Mistyped v op e.location (Scan.ofText 1 query.toList).tokens := by
  have hscan := locates_scan query.toList
  have htokens : ∀ token ∈ (Scan.ofText 1 query.toList).tokens,
      TokenBegins query.toList token.location := by
    intro token htoken
    obtain ⟨offset, hlocation, hat⟩ := hscan.token token htoken
    exact ⟨offset, _, hlocation, hat⟩
  have hstart : State.LocatedBy (TokenBegins query.toList) (.expecting []) := nofun
  have hrun := located_foldlM v hstart htokens
  -- The machine fails at a token, the scan at a run that is no operator, or the text ends early.
  rcases bind_eq_error h with hfold | ⟨state, hstate, h⟩
  · exact ⟨.inl (hrun.of_error hfold), fun op hop => mistyped_foldlM hfold hop⟩
  rcases bind_eq_error h with hending | ⟨location, hlocation, h⟩
  · obtain ⟨offset, run, hat, rfl⟩ := hscan.error e hending
    exact ⟨.inl ⟨offset, run, rfl, hat⟩, nofun⟩
  rw [hstate] at hrun
  rcases (located_finish hrun).of_error h with hplain | ⟨hend, hfault⟩
  · exact ⟨.inl hplain.located, fun op hop => absurd hop (hplain.not_wrongType op)⟩
  · refine ⟨.inr ⟨?_, hfault⟩, fun op hop => ?_⟩
    · rw [hend, hscan.ending location hlocation, String.length_toList]
    · rw [hop] at hfault
      cases hfault

/-- A name with an accent is one character, and the number that is missing on the right would have
been where the word in parentheses is. -/
theorem compile_error_located_accent :
    ∃ e, compile ((∅ : Vocabulary).addField "é") "é < (é)" = .error e ∧
      (TokenBegins "é < (é)".toList e.location ∨
        e.location = "é < (é)".length + 1 ∧ e.fault.IsEnd) ∧
      ∀ op, e.fault = .wrongType op → Mistyped ((∅ : Vocabulary).addField "é") op e.location
        (Scan.ofText 1 "é < (é)".toList).tokens := by
  have hscan : Scan.ofText 1 "é < (é)".toList =
      ⟨[⟨.word "é", 1⟩, ⟨.comparison .lt, 3⟩, ⟨.opening, 5⟩, ⟨.word "é", 6⟩, ⟨.closing, 7⟩],
        .ok 8⟩ := by cbv
  have herror : compile ((∅ : Vocabulary).addField "é") "é < (é)" =
      .error ⟨7, .wrongType .lt⟩ := by
    unfold compile
    rw [hscan]
    rfl
  exact ⟨_, herror, compile_error_located herror⟩

end NodeQuery.Query

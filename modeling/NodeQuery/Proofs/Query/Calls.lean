import NodeQuery.Proofs.Query.Lexing

/-!
# Rows of calls

Whatever mix of calls reads a text, what has been read is cut into the tokens that were taken, the
one that has been peeked at, and blanks. No cut of the text fails, and reading stops at the end or
at the first run of operator characters that is no operator. The scan of a whole text finds the same
tokens.
-/
namespace NodeQuery.Query
open Text (MaximalRun)

/-- The tokens that were taken and the one that is still pending. -/
def Reading.found (reading : Reading) : List Lexeme :=
  reading.taken ++ reading.lexer.pending.toList

/-- A call has found the end. -/
def Reading.Ended (reading : Reading) : Prop := ∃ call, (call, none) ∈ reading.answers

/-- What the text says about a reading that began with `l`, behind the given tokens, and stands
behind `front`: the lexer is at that place and has the location of the last token that was taken,
all tokens it has answered with are found in what was read, and if it says that it has come to the
end or to an unknown run, it has. -/
structure Reading.Follows (reading : Reading) (l : Lexer) (lexemes : List Lexeme)
    (front rest : List Char) : Prop where
  place : reading.lexer.At front rest
  last : reading.lexer.last = reading.taken.getLast?.elim l.last (·.location)
  cut : reading.error = none → Partition front (lexemes ++ reading.found) rest
  stops : ∀ e, reading.error = some e → StopsAt (lexemes ++ reading.found) front rest e
  ended : reading.Ended → rest = [] ∧ reading.error = none
  answered : ∀ call lexeme, (call, some lexeme) ∈ reading.answers → lexeme ∈ reading.found
  carried : ∀ lexeme ∈ l.pending, lexeme ∈ reading.found

section Answers
variable {l after : Lexer} {call : Call} {found : Option Lexeme} {reading : Reading}
  {lexemes : List Lexeme} {front rest run piece left : List Char} {e : QueryError}

theorem Reading.taken_cons (call : Call) (found : Option Lexeme) (reading : Reading) :
    Reading.taken { reading with answers := (call, found) :: reading.answers } =
      (call.takes (.ok found)).toList ++ reading.taken := by
  cases call with
  | peek => rfl
  | next => cases found <;> rfl

theorem Reading.found_cons (call : Call) (found : Option Lexeme) (reading : Reading) :
    Reading.found { reading with answers := (call, found) :: reading.answers } =
      (call.takes (.ok found)).toList ++ reading.found := by
  rw [Reading.found, Reading.taken_cons, List.append_assoc]
  rfl

/-- Before the first call. -/
theorem Reading.follows_start (hat : l.At front rest)
    (hcut : Partition front (lexemes ++ l.pending.toList) rest) :
    Reading.Follows ⟨[], none, l⟩ l lexemes front rest where
  place := hat
  last := rfl
  cut _ := hcut
  stops _ herror := by cases herror
  ended hended := by
    obtain ⟨call, hcall⟩ := hended
    cases hcall
  answered _ _ hanswer := by cases hanswer
  carried _ hlexeme := Option.mem_toList.mpr hlexeme

theorem Reading.follows_error (h : l.Steps after call (.error e) lexemes front run rest) :
    Reading.Follows ⟨[], some e, after⟩ l lexemes (front ++ run) rest where
  place := h.place
  last := by
    rw [h.last]
    cases call <;> rfl
  cut herror := by cases herror
  stops other herror := by
    have hnone : after.pending = none := by
      rw [h.pending]
      cases call <;> rfl
    have hfound : Reading.found ⟨[], some e, after⟩ = [] := by
      rw [Reading.found, hnone]
      rfl
    cases herror
    rw [hfound, List.append_nil]
    exact h.answers
  ended hended := by
    obtain ⟨call, hcall⟩ := hended
    cases hcall
  answered _ _ hanswer := by cases hanswer
  carried lexeme hlexeme := by cases h.carried lexeme hlexeme

/-- What a call answers is pending then or taken. -/
theorem Lexer.Steps.cut (h : l.Steps after call (.ok found) lexemes front run rest) :
    Partition (front ++ run)
      (lexemes ++ (call.takes (.ok found)).toList ++ after.pending.toList) rest := by
  have hfound := h.answers.1
  rw [h.pending]
  cases call with
  | peek => simpa [Call.leaves, Call.takes] using hfound
  | next => simpa [Call.leaves, Call.takes] using hfound

/-- One more answer in front of those that follow. -/
theorem Reading.Follows.cons
    (hstep : l.Steps after call (.ok found) lexemes front run (piece ++ left))
    (h : reading.Follows after (lexemes ++ (call.takes (.ok found)).toList)
      (front ++ run ++ piece) left) :
    Reading.Follows { reading with answers := (call, found) :: reading.answers } l lexemes
      (front ++ run ++ piece) left := by
  have hmem : ∀ lexeme, found = some lexeme →
      lexeme ∈ Reading.found { reading with answers := (call, found) :: reading.answers } := by
    rintro lexeme rfl
    rw [Reading.found_cons]
    cases call with
    | peek => exact List.mem_append_right _ (h.carried lexeme hstep.pending)
    | next => exact List.mem_append_left _ List.mem_cons_self
  refine ⟨h.place, ?_, ?_, ?_, ?_, ?_, ?_⟩
  · rw [Reading.taken_cons, List.getLast?_append, h.last, hstep.last]
    cases reading.taken.getLast? with
    | none => cases call.takes (.ok found) <;> rfl
    | some lexeme => rfl
  · intro herror
    rw [Reading.found_cons, ← List.append_assoc]
    exact h.cut herror
  · intro e herror
    rw [Reading.found_cons, ← List.append_assoc]
    exact h.stops e herror
  · rintro ⟨other, hother⟩
    rcases List.mem_cons.mp hother with heq | hother
    · cases heq
      obtain ⟨hfound, hend⟩ := hstep.answers
      obtain ⟨rfl, rfl⟩ := List.append_eq_nil_iff.mp (hend rfl)
      refine ⟨rfl, Option.eq_none_iff_forall_ne_some.mpr fun e herror => ?_⟩
      rw [List.append_nil] at h
      exact (h.stops e herror).elim_end hfound
    · exact h.ended ⟨other, hother⟩
  · intro other lexeme hother
    rcases List.mem_cons.mp hother with heq | hother
    · cases heq
      exact hmem lexeme rfl
    · rw [Reading.found_cons]
      exact List.mem_append_right _ (h.answered other lexeme hother)
  · intro lexeme hlexeme
    cases hstep.carried lexeme hlexeme
    exact hmem lexeme rfl

end Answers

/-- No cut of the text fails while calls are made, and the lexer goes on in the text. -/
theorem Lexer.callAll_follows (calls : List Call) {l : Lexer} {front rest : List Char}
    {lexemes : List Lexeme} (hat : l.At front rest)
    (hcut : Partition front (lexemes ++ l.pending.toList) rest) :
    ∃ reading run more, l.callAll calls = some reading ∧ rest = run ++ more ∧
      reading.Follows l lexemes (front ++ run) more := by
  induction calls generalizing l front rest lexemes with
  | nil =>
    refine ⟨⟨[], none, l⟩, [], rest, rfl, rfl, ?_⟩
    rw [List.append_nil]
    exact Reading.follows_start hat hcut
  | cons call calls ih =>
    obtain ⟨answer, after, run, more, hcall, rfl, hstep⟩ := call_steps call hat hcut
    rw [callAll]
    simp only [hcall, Option.bind_eq_bind, Option.bind_some]
    cases answer with
    | error e => exact ⟨_, run, more, rfl, rfl, Reading.follows_error hstep⟩
    | ok found =>
      obtain ⟨reading, piece, left, hmore, rfl, hfollows⟩ := ih hstep.place hstep.cut
      simp only [hmore, Option.bind_some]
      refine ⟨_, run ++ piece, left, rfl, (List.append_assoc _ _ _).symm, ?_⟩
      rw [← List.append_assoc]
      exact hfollows.cons hstep

/-- Up to an error each call has an answer. -/
theorem Lexer.map_fst_answers {calls : List Call} {l : Lexer} {reading : Reading}
    (h : l.callAll calls = some reading) (herror : reading.error = none) :
    reading.answers.map (·.1) = calls := by
  induction calls generalizing l reading with
  | nil =>
    cases h
    rfl
  | cons call calls ih =>
    obtain ⟨⟨answer, after⟩, -, h⟩ := Option.bind_eq_some_iff.mp h
    cases answer with
    | error e =>
      cases h
      cases herror
    | ok found =>
      obtain ⟨more, hmore, h⟩ := Option.bind_eq_some_iff.mp h
      cases h
      rw [List.map_cons, ih hmore herror]

/-- Before the end each call that takes a token finds one. -/
theorem Reading.length_taken {reading : Reading} (h : ¬reading.Ended) :
    reading.taken.length = (reading.answers.map (·.1)).count .next := by
  obtain ⟨answers, error, l⟩ := reading
  have hall : ∀ call, (call, none) ∉ answers := fun call hcall => h ⟨call, hcall⟩
  change (answers.filterMap _).length = _
  induction answers with
  | nil => rfl
  | cons answer answers ih =>
    obtain ⟨call, found⟩ := answer
    have hmore := ih (fun ⟨_, hcall⟩ => hall _ (List.mem_cons_of_mem _ hcall)) fun other hcall =>
      hall other (List.mem_cons_of_mem _ hcall)
    cases call with
    | peek => simpa using hmore
    | next =>
      cases found with
      | none => exact absurd List.mem_cons_self (hall .next)
      | some lexeme => simpa using hmore

/-! The scan of the whole text -/

/-- The characters of a token and the number of the first of them, from one. -/
def Token.place (token : Token) : List Char × Nat := (token.symbol.text.toList, token.location)

def Lexeme.place (lexeme : Lexeme) : List Char × Nat := (lexeme.text, lexeme.location + 1)

theorem Symbol.ofOperator?_eq_none_iff {run : String} :
    Symbol.ofOperator? run = none ↔ run ∉ operators := by
  constructor
  · intro hnone hrun
    have hall : ∀ operator ∈ operators, Symbol.ofOperator? operator ≠ none := by decide
    exact hall run hrun hnone
  · intro hrun
    refine Option.eq_none_iff_forall_ne_some.mpr fun symbol hsymbol => hrun ?_
    obtain ⟨hoperator, rfl⟩ := Symbol.ofOperator?_eq_some_iff.mp hsymbol
    cases hoperator with
    | complement => decide
    | comparison op => cases op <;> decide

section Scans
variable {front run rest : List Char}

theorem ofText_operator (h : MaximalRun isOperatorChar front run rest) (location : Nat) :
    Scan.ofText location (run ++ rest) =
      match Symbol.ofOperator? (String.ofList run) with
      | none => ⟨[], .error ⟨location, .unknownOperator (String.ofList run)⟩⟩
      | some symbol => (Scan.ofText (location + run.length) rest).push ⟨symbol, location⟩ := by
  obtain ⟨c, more, rfl, hc, htake, hdrop⟩ := h.exists_cons
  obtain ⟨hspace, hopening, hclosing⟩ := not_special_of_isOperatorChar hc
  rw [List.cons_append, Scan.ofText, if_neg hspace, if_neg hopening, if_neg hclosing, if_pos hc]
  cases hsymbol : Symbol.ofOperator? (String.ofList (c :: more)) with
  | none => simp only [htake, hsymbol]
  | some symbol => simp only [htake, hdrop, hsymbol]

theorem ofText_word (h : MaximalRun isWordChar front run rest) (location : Nat) :
    Scan.ofText location (run ++ rest) =
      (Scan.ofText (location + run.length) rest).push ⟨.ofWord (String.ofList run), location⟩ := by
  obtain ⟨c, more, rfl, hc, htake, hdrop⟩ := h.exists_cons
  obtain ⟨hspace, hopening, hclosing, hoperator⟩ := not_special_of_isWordChar hc
  rw [List.cons_append, Scan.ofText, if_neg hspace, if_neg hopening, if_neg hclosing,
    if_neg hoperator]
  simp only [htake, hdrop]

/-- The scan finds a token where one stands. -/
theorem exists_push_of_standsAt {lexeme : Lexeme} (h : lexeme.StandsAt front rest) :
    ∃ token : Token, token.place = lexeme.place ∧
      Scan.ofText (front.length + 1) (lexeme.text ++ rest) =
        (Scan.ofText ((front ++ lexeme.text).length + 1) rest).push token := by
  obtain ⟨text, kind, location⟩ := lexeme
  obtain ⟨rfl, hstands, hoperator⟩ := h
  have hlength : (front ++ text).length + 1 = front.length + 1 + text.length := by
    rw [List.length_append]
    omega
  dsimp only at hstands hoperator ⊢
  rw [hlength]
  cases kind with
  | parenthesis =>
    obtain ⟨c, hc, rfl⟩ := hstands
    simp only [isParenthesis, Bool.or_eq_true, decide_eq_true_eq] at hc
    rcases hc with rfl | rfl
    · refine ⟨⟨.opening, front.length + 1⟩, by simp [Token.place, Lexeme.place, Symbol.text], ?_⟩
      rw [List.singleton_append, Scan.ofText]
      rfl
    · refine ⟨⟨.closing, front.length + 1⟩, by simp [Token.place, Lexeme.place, Symbol.text], ?_⟩
      rw [List.singleton_append, Scan.ofText]
      rfl
  | operator =>
    rw [ofText_operator hstands]
    cases hsymbol : Symbol.ofOperator? (String.ofList text) with
    | none => exact absurd (hoperator rfl) (Symbol.ofOperator?_eq_none_iff.mp hsymbol)
    | some symbol =>
      refine ⟨⟨symbol, front.length + 1⟩, ?_, rfl⟩
      rw [Token.place, ← (Symbol.ofOperator?_eq_some_iff.mp hsymbol).2, String.toList_ofList]
      rfl
  | word =>
    refine ⟨⟨.ofWord (String.ofList text), front.length + 1⟩, ?_, ofText_word hstands _⟩
    rw [Token.place, Symbol.text_ofWord, String.toList_ofList]
    rfl

/-- The scan of the whole text finds the tokens of what is cut, and those of the rest. -/
theorem Partition.ofText {lexemes : List Lexeme} (h : Partition front lexemes rest) :
    (Scan.ofText 1 (front ++ rest)).tokens.map Token.place =
        lexemes.map Lexeme.place ++
          (Scan.ofText (front.length + 1) rest).tokens.map Token.place ∧
      (Scan.ofText 1 (front ++ rest)).ending = (Scan.ofText (front.length + 1) rest).ending := by
  induction h with
  | start => exact ⟨rfl, rfl⟩
  | @blank front rest lexemes c hc _ ih =>
    rw [Scan.ofText, if_pos hc] at ih
    rw [List.append_assoc, List.length_append]
    exact ih
  | @token front rest lexemes lexeme hat _ ih =>
    obtain ⟨token, hplace, hscan⟩ := exists_push_of_standsAt hat
    rw [hscan] at ih
    rw [List.append_assoc, ih.1, ih.2, List.map_append, List.append_assoc, Scan.push,
      List.map_cons, hplace]
    exact ⟨rfl, rfl⟩

end Scans

/-- The scan begins with the tokens of the reading. It goes on behind them, unless the reading has
come to the end or to an error, where both stop. -/
structure Reading.Agrees (reading : Reading) (scan : Scan) : Prop where
  tokens : ∃ more, scan.tokens.map Token.place = reading.found.map Lexeme.place ++ more ∧
    (reading.Ended ∨ reading.error ≠ none → more = [])
  ended : reading.Ended → ∃ location, scan.ending = .ok location
  error : ∀ e, reading.error = some e → scan.ending = .error e

theorem Reading.Follows.agrees {reading : Reading} {start : Lexer} {front rest : List Char}
    (h : reading.Follows start [] front rest) : reading.Agrees (Scan.ofText 1 (front ++ rest)) := by
  cases herror : reading.error with
  | none =>
    obtain ⟨htokens, hending⟩ := (h.cut herror).ofText
    refine ⟨⟨_, htokens, ?_⟩, ?_, ?_⟩
    · rintro (hended | hfailed)
      · obtain ⟨rfl, -⟩ := h.ended hended
        rw [Scan.ofText]
        rfl
      · exact absurd herror hfailed
    · intro hended
      obtain ⟨rfl, -⟩ := h.ended hended
      rw [hending, Scan.ofText]
      exact ⟨_, rfl⟩
    · intro e hfailed
      rw [herror] at hfailed
      cases hfailed
  | some e =>
    obtain ⟨before, run, rfl, hcut, hrun, rfl⟩ := h.stops e herror
    obtain ⟨htokens, hending⟩ := hcut.ofText
    have hscan := ofText_operator hrun.maximal (before.length + 1)
    rw [Symbol.ofOperator?_eq_none_iff.mpr hrun.unknown] at hscan
    rw [hscan] at htokens hending
    rw [List.append_assoc]
    refine ⟨⟨[], htokens, fun _ => rfl⟩, ?_, ?_⟩
    · intro hended
      rw [(h.ended hended).2] at herror
      cases herror
    · intro e hfailed
      rw [herror] at hfailed
      cases hfailed
      exact hending

/-- Reading stops no later than at the first unknown run. -/
theorem Reading.Follows.unknownRun {reading : Reading} {start : Lexer}
    {front rest before run behind : List Char}
    (h : reading.Follows start [] front rest) (htext : front ++ rest = before ++ (run ++ behind))
    (hrun : UnknownRun before run behind) :
    ¬reading.Ended ∧ (reading.error = none → front.length ≤ before.length) ∧
      ∀ e, reading.error = some e → e.location ≤ before.length + 1 := by
  have hcut : reading.error = none → front.length ≤ before.length := fun herror =>
    (h.cut herror).length_le_of_unknownRun htext hrun
  refine ⟨fun hended => ?_, hcut, fun e herror => ?_⟩
  · obtain ⟨rfl, herror⟩ := h.ended hended
    have hle := hcut herror
    have hsome := List.length_pos_iff.mpr hrun.maximal.ne_nil
    have hlength := congrArg List.length htext
    simp only [List.length_append, List.length_nil] at hlength
    omega
  · obtain ⟨first, unknown, rfl, hfirst, -, rfl⟩ := h.stops e herror
    rw [List.append_assoc] at htext
    exact Nat.succ_le_succ (hfirst.length_le_of_unknownRun htext hrun)

/-- As many calls as the text has characters, and one more, take all tokens of a text. -/
theorem Reading.Follows.stops_of_count {reading : Reading} {front rest : List Char}
    {calls : List Call} {start : Lexer} (h : reading.Follows start [] front rest)
    (hread : start.callAll calls = some reading)
    (hcount : (front ++ rest).length < calls.count .next) :
    reading.Ended ∨ reading.error ≠ none := by
  refine Classical.byContradiction fun hgoes => ?_
  obtain ⟨hended, herror⟩ := not_or.mp hgoes
  have hnone : reading.error = none := Classical.not_not.mp herror
  have hle := (h.cut hnone).length_le
  have htaken := Reading.length_taken hended
  rw [Lexer.map_fst_answers hread hnone] at htaken
  rw [Reading.found, List.nil_append, List.length_append] at hle
  rw [List.length_append] at hcount
  omega

/-- For each mix of calls that reads a query: no cut of the text fails; what has been read is cut
into the tokens and blanks, where the byte position and the number of characters say how far it
goes; the first unknown run is where an error is raised, and reading gets there or to the end; and
the tokens are those of the scan. To peek changes nothing of what is read next. -/
theorem lexer_partitions_text :
    (∀ (query : String) (calls : List Call), ∃ reading front rest,
      (Lexer.ofText query.toList).callAll calls = some reading ∧ query.toList = front ++ rest ∧
      reading.Follows (Lexer.ofText query.toList) [] front rest ∧
      (∀ before run behind, query.toList = before ++ (run ++ behind) →
        UnknownRun before run behind →
          ¬reading.Ended ∧ (reading.error = none → front.length ≤ before.length) ∧
            ∀ e, reading.error = some e → e.location ≤ before.length + 1) ∧
      (query.toList.length < calls.count .next → reading.Ended ∨ reading.error ≠ none) ∧
      reading.Agrees (Scan.ofText 1 query.toList)) ∧
    ∀ (l after : Lexer) (found : Option Lexeme), l.peek = some (.ok found, after) →
      after.next = l.next ∧ ∃ behind, l.next = some (.ok found, behind) := by
  refine ⟨fun query calls => ?_, fun _ _ _ => Lexer.next_of_peek⟩
  have hstart : Partition [] ([] ++ (Lexer.ofText query.toList).pending.toList) query.toList :=
    .start
  obtain ⟨reading, front, rest, hread, htext, hfollows⟩ :=
    Lexer.callAll_follows calls (Lexer.at_ofText query.toList) hstart
  rw [List.nil_append] at hfollows
  refine ⟨reading, front, rest, hread, htext, hfollows, ?_, ?_, ?_⟩
  · intro before run behind hbehind hrun
    exact hfollows.unknownRun (htext.symm.trans hbehind) hrun
  · intro hcount
    exact hfollows.stops_of_count hread (htext ▸ hcount)
  · rw [htext]
    exact hfollows.agrees

/-- An unknown run behind a word that is longer in bytes than in characters. -/
theorem lexer_partitions_text_accent :
    ∃ reading front rest,
      (Lexer.ofText "é <> 5".toList).callAll [.peek, .next, .next] = some reading ∧
      "é <> 5".toList = front ++ rest ∧
      reading.Follows (Lexer.ofText "é <> 5".toList) [] front rest ∧
      reading.error = some ⟨3, .unknownOperator "<>"⟩ ∧ reading.lexer.position = 5 := by
  obtain ⟨reading, front, rest, hread, htext, hfollows, -⟩ :=
    lexer_partitions_text.1 "é <> 5" [.peek, .next, .next]
  have hend : ((Lexer.ofText "é <> 5".toList).callAll [.peek, .next, .next]).map
      (fun reading => (reading.error, reading.lexer.position)) =
        some (some ⟨3, .unknownOperator "<>"⟩, 5) := by decide
  rw [hread] at hend
  obtain ⟨herror, hposition⟩ := Prod.mk.inj (Option.some.inj hend)
  exact ⟨reading, front, rest, hread, htext, hfollows, herror, hposition⟩

end NodeQuery.Query

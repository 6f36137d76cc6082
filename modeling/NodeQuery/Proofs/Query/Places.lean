import NodeQuery.Proofs.Query.Tokens

/-!
# Where tokens stand

Locations are places of the text. What stands at a place is said of the text alone: a parenthesis,
or a run of operator or word characters that could not be longer on either side. A scan keeps its
count of characters in step with the text, so each of its tokens stands at its location, also in a
text that is not ASCII, and so does the run that is no operator; a scan without an error ends behind
the last character.
-/
namespace NodeQuery.Query
open Text (EndsRun MaximalRun endsRun_dropWhile endsRun_reverse_append maximalRun_takeWhile)

/-- So many characters into the text stands a token: a parenthesis, or an operator or a word that
could not be longer on either side. -/
def TokenAt (text : List Char) (offset : Nat) (token : List Char) : Prop :=
  ∃ before rest, text = before ++ (token ++ rest) ∧ before.length = offset ∧
    ((∃ c, isParenthesis c = true ∧ token = [c]) ∨ MaximalRun isOperatorChar before token rest ∨
      MaximalRun isWordChar before token rest)

/-- A token of the text begins at the location, the number of its first character from one. -/
def TokenBegins (text : List Char) (location : Nat) : Prop :=
  ∃ offset token, location = offset + 1 ∧ TokenAt text offset token

/-- No operator and no word goes on from the one text into the other. -/
structure Apart (before text : List Char) : Prop where
  operator : EndsRun isOperatorChar before.reverse ∨ EndsRun isOperatorChar text
  word : EndsRun isWordChar before.reverse ∨ EndsRun isWordChar text

/-- The tokens of the scan stand at their locations in the text, and so does what ends it: the end
of the text or a run that is no operator. -/
structure Scan.Locates (s : Scan) (text : List Char) : Prop where
  token : ∀ token ∈ s.tokens, ∃ offset, token.location = offset + 1 ∧
    TokenAt text offset token.symbol.text.toList
  ending : ∀ location, s.ending = .ok location → location = text.length + 1
  error : ∀ e, s.ending = .error e → ∃ offset run, TokenAt text offset run ∧
    e = ⟨offset + 1, .unknownOperator (String.ofList run)⟩

theorem Scan.Locates.push {s : Scan} {text : List Char} (h : s.Locates text) {symbol : Symbol}
    {offset : Nat} (hat : TokenAt text offset symbol.text.toList) :
    (s.push ⟨symbol, offset + 1⟩).Locates text := by
  refine ⟨?_, h.ending, h.error⟩
  intro token htoken
  rcases List.mem_cons.mp htoken with rfl | htoken
  · exact ⟨offset, rfl, hat⟩
  · exact h.token token htoken

theorem Symbol.text_ofWord (run : String) : (Symbol.ofWord run).text = run := by
  unfold Symbol.ofWord Connective.ofWord?
  split
  next op hop =>
    split at hop
    next hand =>
      cases hop
      exact hand.symm
    next =>
      split at hop
      next hor =>
        cases hop
        exact hor.symm
      next => cases hop
  next => rfl

section Steps
variable {before rest run : List Char} {c : Char}

theorem not_endsRun_cons {p : Char → Bool} (h : p c = true) (rest : List Char) :
    ¬ EndsRun p (c :: rest) := fun hends => by
  have hnot : p c = false := hends c rfl
  rw [h] at hnot
  cases hnot

/-- Behind a character of neither class everything is apart. -/
theorem apart_of_neither (hoperator : isOperatorChar c = false) (hword : isWordChar c = false)
    (before rest : List Char) : Apart (before ++ [c]) rest :=
  ⟨.inl (endsRun_reverse_append (by simp) (by simpa using hoperator) before),
    .inl (endsRun_reverse_append (by simp) (by simpa using hword) before)⟩

theorem isWordChar_of_isOperatorChar (h : isOperatorChar c = true) : isWordChar c = false := by
  simp [isWordChar, h]

theorem isOperatorChar_of_isWordChar (h : isWordChar c = true) : isOperatorChar c = false := by
  simpa using (not_special_of_isWordChar h).2.2.2

/-- An operator begins where nothing of its class stands in front. -/
theorem maximalRun_operator (hc : isOperatorChar c = true) (h : Apart before (c :: rest)) :
    MaximalRun isOperatorChar before (c :: rest.takeWhile isOperatorChar)
      (rest.dropWhile isOperatorChar) :=
  maximalRun_takeWhile hc (h.operator.resolve_right (not_endsRun_cons hc rest)) rest

theorem maximalRun_word (hc : isWordChar c = true) (h : Apart before (c :: rest)) :
    MaximalRun isWordChar before (c :: rest.takeWhile isWordChar) (rest.dropWhile isWordChar) :=
  maximalRun_takeWhile hc (h.word.resolve_right (not_endsRun_cons hc rest)) rest

theorem apart_of_operator (h : MaximalRun isOperatorChar before run rest) :
    Apart (before ++ run) rest :=
  ⟨.inr h.ends_behind, .inl (endsRun_reverse_append h.ne_nil
    (fun d hd => isWordChar_of_isOperatorChar (h.of_class d hd)) before)⟩

theorem apart_of_word (h : MaximalRun isWordChar before run rest) : Apart (before ++ run) rest :=
  ⟨.inl (endsRun_reverse_append h.ne_nil
    (fun d hd => isOperatorChar_of_isWordChar (h.of_class d hd)) before), .inr h.ends_behind⟩

/-- A parenthesis, or a run that could not be longer, in front of what is located already. -/
theorem Scan.Locates.push_parenthesis {s : Scan} {symbol : Symbol}
    (htext : symbol.text.toList = [c]) (hc : isParenthesis c = true)
    (h : s.Locates ((before ++ [c]) ++ rest)) :
    (s.push ⟨symbol, before.length + 1⟩).Locates (before ++ c :: rest) := by
  rw [List.append_assoc, List.singleton_append] at h
  exact h.push ⟨before, rest, by rw [htext]; rfl, rfl, .inl ⟨c, hc, htext⟩⟩

theorem Scan.Locates.push_run {s : Scan} {symbol : Symbol} (htext : symbol.text.toList = run)
    (hrun : MaximalRun isOperatorChar before run rest ∨ MaximalRun isWordChar before run rest)
    (h : s.Locates ((before ++ run) ++ rest)) :
    (s.push ⟨symbol, before.length + 1⟩).Locates (before ++ (run ++ rest)) := by
  rw [List.append_assoc] at h
  rw [← htext] at hrun h ⊢
  exact h.push ⟨before, rest, rfl, rfl, .inr hrun⟩

end Steps

/-- A scan that begins behind `before`, at the next character's number, locates its tokens in the
whole text. -/
theorem locates_ofText {location : Nat} {text : List Char} : ∀ before : List Char,
    location = before.length + 1 → Apart before text →
    (Scan.ofText location text).Locates (before ++ text) := by
  fun_induction Scan.ofText location text with
  | case1 location =>
    intro before hlocation _
    refine ⟨by simp, ?_, by simp⟩
    intro last hlast
    cases hlast
    simpa using hlocation
  | case2 location c rest hspace ih =>
    rintro before rfl _
    obtain ⟨-, hoperator, hword⟩ := not_inSymbol_of_isSpace hspace
    have hrest := ih (before ++ [c]) (by simp) (apart_of_neither hoperator hword before rest)
    rwa [List.append_assoc, List.singleton_append] at hrest
  | case3 location rest _ ih =>
    rintro before rfl _
    exact (ih (before ++ ['(']) (by simp) (apart_of_neither rfl rfl before rest)).push_parenthesis
      rfl rfl
  | case4 location rest _ _ ih =>
    rintro before rfl _
    exact (ih (before ++ [')']) (by simp) (apart_of_neither rfl rfl before rest)).push_parenthesis
      rfl rfl
  | case5 location c rest _ _ _ hc run hnone =>
    rintro before rfl hapart
    have hmaximal := maximalRun_operator hc hapart
    refine ⟨by simp, by simp, ?_⟩
    intro e he
    cases he
    refine ⟨before.length, run, ⟨before, _, ?_, rfl, .inr (.inl hmaximal)⟩, rfl⟩
    rw [List.cons_append, List.takeWhile_append_dropWhile]
  | case6 location c rest _ _ _ hc run symbol hsymbol ih =>
    rintro before rfl hapart
    have hmaximal := maximalRun_operator hc hapart
    have htext : symbol.text.toList = run := by
      rw [← (Symbol.ofOperator?_eq_some_iff.mp hsymbol).2, String.toList_ofList]
    have hlength : before.length + 1 + run.length = (before ++ run).length + 1 := by
      rw [List.length_append]
      omega
    have hrest := (ih _ hlength (apart_of_operator hmaximal)).push_run htext (.inl hmaximal)
    rwa [List.cons_append, List.takeWhile_append_dropWhile] at hrest
  | case7 location c rest hspace hopening hclosing hoperator run ih =>
    rintro before rfl hapart
    have hword := isWordChar_of_not hspace hopening hclosing hoperator
    have hmaximal := maximalRun_word hword hapart
    have htext : (Symbol.ofWord (String.ofList run)).text.toList = run := by
      rw [Symbol.text_ofWord, String.toList_ofList]
    have hlength : before.length + 1 + run.length = (before ++ run).length + 1 := by
      rw [List.length_append]
      omega
    have hrest := (ih _ hlength (apart_of_word hmaximal)).push_run htext (.inr hmaximal)
    rwa [List.cons_append, List.takeWhile_append_dropWhile] at hrest

theorem locates_scan (text : List Char) : (Scan.ofText 1 text).Locates text := by
  have hempty : ∀ p, EndsRun p ([] : List Char).reverse := fun p c hc => by cases hc
  exact locates_ofText [] rfl ⟨.inl (hempty _), .inl (hempty _)⟩

end NodeQuery.Query

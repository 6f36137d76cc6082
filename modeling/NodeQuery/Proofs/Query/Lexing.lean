import NodeQuery.Proofs.Query.Places
import NodeQuery.Proofs.Query.Slices

/-!
# Texts cut into tokens

What stands in front of a place of a text is cut into tokens and blanks, and each token says where
it stands. A call of the lexer goes on from one such place to the next, or stops at the end or at a
run of operator characters that is no operator; to peek changes nothing of what is read next.
-/
namespace NodeQuery.Query
open Text (EndsRun MaximalRun endsRun_cons endsRun_dropWhile endsRun_reverse_append takeWhile_run
  dropWhile_run)

/-- A parenthesis stands alone; operators and words could not be longer on either side. -/
def LexemeKind.Stands (kind : LexemeKind) (front run rest : List Char) : Prop :=
  match kind with
  | .parenthesis => ∃ c, isParenthesis c = true ∧ run = [c]
  | .operator => MaximalRun isOperatorChar front run rest
  | .word => MaximalRun isWordChar front run rest

/-- The token stands behind `front` and in front of `rest`. -/
structure Lexeme.StandsAt (lexeme : Lexeme) (front rest : List Char) : Prop where
  location : lexeme.location = front.length
  stands : lexeme.kind.Stands front lexeme.text rest
  operator : lexeme.kind = .operator → String.ofList lexeme.text ∈ operators

/-- A run of operator characters that could not be longer on either side and is no operator. -/
structure UnknownRun (front run rest : List Char) : Prop where
  maximal : MaximalRun isOperatorChar front run rest
  unknown : String.ofList run ∉ operators

/-- What stands in front of `rest` is cut into the tokens, with blanks between them. -/
inductive Partition : List Char → List Lexeme → List Char → Prop
  | start {rest : List Char} : Partition [] [] rest
  | blank {front rest : List Char} {lexemes : List Lexeme} {c : Char} (hc : isSpace c = true)
      (h : Partition front lexemes (c :: rest)) : Partition (front ++ [c]) lexemes rest
  | token {front rest : List Char} {lexemes : List Lexeme} {lexeme : Lexeme}
      (hat : lexeme.StandsAt front rest) (h : Partition front lexemes (lexeme.text ++ rest)) :
      Partition (front ++ lexeme.text) (lexemes ++ [lexeme]) rest

section Standing
variable {front run rest : List Char} {kind : LexemeKind} {c : Char}

theorem isWordChar_eq_false_of_isParenthesis (h : isParenthesis c = true) :
    isOperatorChar c = false ∧ isWordChar c = false := by
  simp only [isParenthesis, Bool.or_eq_true, decide_eq_true_eq] at h
  rcases h with rfl | rfl <;> decide

theorem LexemeKind.Stands.ne_nil (h : kind.Stands front run rest) : run ≠ [] := by
  cases kind with
  | parenthesis =>
    obtain ⟨c, -, rfl⟩ := h
    exact List.cons_ne_nil c []
  | operator => exact MaximalRun.ne_nil h
  | word => exact MaximalRun.ne_nil h

/-- Only operators have operator characters. -/
theorem LexemeKind.Stands.operator_of_mem (h : kind.Stands front run rest) (hmem : c ∈ run)
    (hc : isOperatorChar c = true) :
    kind = .operator ∧ MaximalRun isOperatorChar front run rest := by
  cases kind with
  | parenthesis =>
    obtain ⟨d, hd, rfl⟩ := h
    rw [List.mem_singleton.mp hmem] at hc
    exact absurd hc (by simp [(isWordChar_eq_false_of_isParenthesis hd).1])
  | operator => exact ⟨rfl, h⟩
  | word =>
    have hword := isOperatorChar_of_isWordChar (MaximalRun.of_class h c hmem)
    exact absurd hc (by simp [hword])

theorem LexemeKind.Stands.apart (h : kind.Stands front run rest) : Apart (front ++ run) rest := by
  cases kind with
  | parenthesis =>
    obtain ⟨c, hc, rfl⟩ := h
    obtain ⟨hoperator, hword⟩ := isWordChar_eq_false_of_isParenthesis hc
    exact apart_of_neither hoperator hword front rest
  | operator => exact apart_of_operator h
  | word => exact apart_of_word h

end Standing

/-- Behind characters of a class a run of the class goes on. -/
theorem not_endsRun_reverse_append {p : Char → Bool} {run : List Char} (hne : run ≠ [])
    (hrun : ∀ c ∈ run, p c = true) (front : List Char) : ¬EndsRun p (front ++ run).reverse := by
  obtain ⟨d, more, hlast⟩ := List.exists_cons_of_ne_nil (List.reverse_ne_nil_iff.mpr hne)
  have hmem : d ∈ run := List.mem_reverse.mp (by simp [hlast])
  rw [List.reverse_append, hlast, List.cons_append]
  exact not_endsRun_cons (hrun d hmem) _

/-- No unknown run begins inside a token. -/
theorem Lexeme.StandsAt.length_le_of_unknownRun {lexeme : Lexeme}
    {front rest skipped run behind : List Char} (h : lexeme.StandsAt front rest)
    (htext : lexeme.text ++ rest = skipped ++ (run ++ behind))
    (hrun : UnknownRun (front ++ skipped) run behind) : lexeme.text.length ≤ skipped.length := by
  obtain ⟨d, more, rfl⟩ := List.exists_cons_of_ne_nil hrun.maximal.ne_nil
  have hd : isOperatorChar d = true := hrun.maximal.of_class d List.mem_cons_self
  refine Nat.not_lt.mp fun hlt => ?_
  have hstart : skipped ++ [d] <+: lexeme.text ++ rest := ⟨more ++ behind, by simp [htext]⟩
  have hinside : skipped ++ [d] <+: lexeme.text :=
    List.prefix_of_prefix_length_le hstart (List.prefix_append _ _)
      (by rw [List.length_append]; exact hlt)
  have hmem : d ∈ lexeme.text := hinside.subset (List.mem_append_right _ List.mem_cons_self)
  obtain ⟨hkind, hmaximal⟩ := h.stands.operator_of_mem hmem hd
  cases skipped with
  | nil =>
    have hrunText : d :: more = lexeme.text := by
      rw [← takeWhile_run hrun.maximal.of_class hrun.maximal.ends_behind,
        ← takeWhile_run hmaximal.of_class hmaximal.ends_behind, htext, List.nil_append]
    exact hrun.unknown (hrunText ▸ h.operator hkind)
  | cons e skipped =>
    have hclass : ∀ c ∈ e :: skipped, isOperatorChar c = true := fun c hc =>
      hmaximal.of_class c (hinside.subset (List.mem_append_left _ hc))
    exact absurd hrun.maximal.ends_before
      (not_endsRun_reverse_append (List.cons_ne_nil e skipped) hclass front)

namespace Partition
variable {front rest : List Char} {lexemes : List Lexeme}

theorem apart (h : Partition front lexemes rest) : Apart front rest := by
  cases h with
  | start => exact ⟨.inl Text.endsRun_nil, .inl Text.endsRun_nil⟩
  | blank hc =>
    obtain ⟨-, hoperator, hword⟩ := not_inSymbol_of_isSpace hc
    exact apart_of_neither hoperator hword _ rest
  | token hat => exact hat.stands.apart

theorem blanks {spaces : List Char} (hspaces : ∀ c ∈ spaces, isSpace c = true)
    (h : Partition front lexemes (spaces ++ rest)) : Partition (front ++ spaces) lexemes rest := by
  induction spaces generalizing front with
  | nil => simpa using h
  | cons c spaces ih =>
    obtain ⟨hc, hmore⟩ := List.forall_mem_cons.mp hspaces
    rw [List.append_cons]
    exact ih hmore (.blank hc h)

/-- No unknown run begins in what is cut. -/
theorem length_le_of_unknownRun {before run behind : List Char} (h : Partition front lexemes rest)
    (htext : front ++ rest = before ++ (run ++ behind)) (hrun : UnknownRun before run behind) :
    front.length ≤ before.length := by
  induction h with
  | start => exact Nat.zero_le _
  | @blank front rest lexemes c hc _ ih =>
    rw [List.append_assoc, List.singleton_append] at htext
    have hle := ih htext
    have hne : front.length ≠ before.length := by
      intro heq
      obtain ⟨-, hbehind⟩ := List.append_inj htext heq
      obtain ⟨d, more, rfl⟩ := List.exists_cons_of_ne_nil hrun.maximal.ne_nil
      obtain ⟨rfl, -⟩ := List.cons.inj hbehind
      have hoperator := hrun.maximal.of_class c List.mem_cons_self
      exact absurd hoperator (by simp [(not_inSymbol_of_isSpace hc).2.1])
    rw [List.length_append, List.length_singleton]
    omega
  | @token front rest lexemes lexeme hat _ ih =>
    rw [List.append_assoc] at htext
    have hfront : front <+: before ++ (run ++ behind) := ⟨_, htext⟩
    obtain ⟨skipped, rfl⟩ :=
      List.prefix_of_prefix_length_le hfront (List.prefix_append before _) (ih htext)
    rw [List.append_assoc] at htext
    rw [List.length_append, List.length_append]
    exact Nat.add_le_add_left
      (hat.length_le_of_unknownRun (List.append_cancel_left htext) hrun) _

/-- Each token has a character of its own. -/
theorem length_le (h : Partition front lexemes rest) : lexemes.length ≤ front.length := by
  induction h with
  | start => exact Nat.le_refl 0
  | blank hc _ ih =>
    rw [List.length_append]
    exact Nat.le_add_right_of_le ih
  | token hat _ ih =>
    have hsome := List.length_pos_iff.mpr hat.stands.ne_nil
    rw [List.length_append, List.length_append, List.length_singleton]
    omega

end Partition

/-! What a call does -/

/-- Reading stops at an unknown run, which is what the error says. -/
def StopsAt (lexemes : List Lexeme) (front rest : List Char) (e : QueryError) : Prop :=
  ∃ before run, front = before ++ run ∧ Partition before lexemes (run ++ rest) ∧
    UnknownRun before run rest ∧ e = ⟨before.length + 1, .unknownOperator (String.ofList run)⟩

theorem StopsAt.elim_end {lexemes tokens : List Lexeme} {front : List Char} {e : QueryError}
    (h : StopsAt lexemes front [] e) (hcut : Partition front tokens []) : False := by
  obtain ⟨before, run, rfl, -, hrun, -⟩ := h
  have hle := hcut.length_le_of_unknownRun (List.append_assoc before run []) hrun
  have hsome := List.length_pos_iff.mpr hrun.maximal.ne_nil
  rw [List.length_append] at hle
  omega

/-- Behind the tokens comes the one that is found, or the end, or an unknown run. -/
def Answers (lexemes : List Lexeme) (front rest : List Char) :
    Except QueryError (Option Lexeme) → Prop
  | .ok found => Partition front (lexemes ++ found.toList) rest ∧ (found = none → rest = [])
  | .error e => StopsAt lexemes front rest e

/-- What is still pending behind a call. -/
def Call.leaves : Call → Except QueryError (Option Lexeme) → Option Lexeme
  | .peek, .ok found => found
  | .peek, .error _ | .next, _ => none

/-- The token that a call takes. -/
def Call.takes : Call → Except QueryError (Option Lexeme) → Option Lexeme
  | .next, .ok found => found
  | .next, .error _ | .peek, _ => none

/-- A call reads on over `run`. What was pending is its answer, and the last location is that of the
token it takes. -/
structure Lexer.Steps (l after : Lexer) (call : Call) (answer : Except QueryError (Option Lexeme))
    (lexemes : List Lexeme) (front run more : List Char) : Prop where
  place : after.At (front ++ run) more
  answers : Answers lexemes (front ++ run) more answer
  pending : after.pending = call.leaves answer
  last : after.last = (call.takes answer).elim l.last (·.location)
  carried : ∀ lexeme ∈ l.pending, answer = .ok (some lexeme)

namespace Lexer
variable {l : Lexer} {front rest : List Char} {lexemes : List Lexeme}

theorem behind_append (l : Lexer) (left right : List Char) :
    l.behind (left ++ right) = (l.behind left).behind right := by
  simp only [behind, byteSize_append, List.length_append, Nat.add_assoc]

theorem advanceOver_stands {c : Char} (hat : l.At front (c :: rest)) (hspace : isSpace c = false)
    (hapart : Apart front (c :: rest)) :
    ∃ kind run more, c :: rest = run ++ more ∧ LexemeKind.Stands kind front run more ∧
      l.advanceOver c = some (kind, l.behind run) := by
  have hcut : ∀ p, c :: rest = (c :: rest).takeWhile p ++ (c :: rest).dropWhile p := fun p =>
    List.takeWhile_append_dropWhile.symm
  rw [advanceOver]
  split
  next hc => exact ⟨.parenthesis, [c], rest, rfl, ⟨c, hc, rfl⟩, by rw [stepOver_eq]⟩
  next hparenthesis =>
    split
    next hc =>
      refine ⟨.operator, _, _, hcut isOperatorChar, ?_, by rw [hat.advanceWhile]; rfl⟩
      rw [List.takeWhile_cons_of_pos hc, List.dropWhile_cons_of_pos hc]
      exact maximalRun_operator hc hapart
    next hoperator =>
      have hc : isWordChar c = true := by simp [isWordChar, hparenthesis, hoperator, hspace]
      refine ⟨.word, _, _, hcut isWordChar, ?_, by rw [hat.advanceWhile]; rfl⟩
      rw [List.takeWhile_cons_of_pos hc, List.dropWhile_cons_of_pos hc]
      exact maximalRun_word hc hapart

theorem readToken_answers (hat : l.At front rest) (hcut : Partition front lexemes rest)
    (hhead : EndsRun isSpace rest) :
    ∃ answer run more, l.readToken = some (answer, l.behind run) ∧ rest = run ++ more ∧
      Answers lexemes (front ++ run) more answer := by
  cases rest with
  | nil =>
    refine ⟨.ok none, [], [], ?_, rfl, by simpa using hcut, fun _ => rfl⟩
    rw [readToken, hat.charactersFrom?]
    rfl
  | cons c rest =>
    obtain ⟨kind, run, more, htext, hstands, hover⟩ :=
      advanceOver_stands hat (hhead c rfl) hcut.apart
    rw [htext] at hat hcut
    have hread : l.readToken =
        if kind = .operator ∧ String.ofList run ∉ operators then
          some (.error ⟨front.length + 1, .unknownOperator (String.ofList run)⟩, l.behind run)
        else some (.ok (some ⟨run, kind, front.length⟩), l.behind run) := by
      rw [readToken, hat.charactersFrom?, ← htext]
      simp only [Option.bind_eq_bind, Option.bind_some, hover, hat.slice?, hat.offset]
      split <;> rfl
    rw [hread]
    split
    next hunknown =>
      obtain ⟨rfl, hunknown⟩ := hunknown
      exact ⟨_, run, more, rfl, htext, front, run, rfl, hcut, ⟨hstands, hunknown⟩, rfl⟩
    next hknown =>
      have hstandsAt : Lexeme.StandsAt ⟨run, kind, front.length⟩ front more :=
        ⟨rfl, hstands, fun hkind => Classical.not_not.mp fun h => hknown ⟨hkind, h⟩⟩
      exact ⟨_, run, more, rfl, htext, .token hstandsAt hcut,
        fun hnone => absurd hnone (Option.some_ne_none _)⟩

theorem scan_answers (hat : l.At front rest) (hcut : Partition front lexemes rest) :
    ∃ answer run more, l.scan = some (answer, l.behind run) ∧ rest = run ++ more ∧
      Answers lexemes (front ++ run) more answer := by
  have htext : rest = rest.takeWhile isSpace ++ rest.dropWhile isSpace :=
    List.takeWhile_append_dropWhile.symm
  have hspaces : ∀ c ∈ rest.takeWhile isSpace, isSpace c = true := fun c => List.mem_takeWhile_imp
  have hskip := hat.advanceWhile (p := isSpace)
  rw [htext] at hat hcut
  obtain ⟨answer, run, more, hread, hrest, hanswer⟩ :=
    readToken_answers hat.behind (hcut.blanks hspaces) (endsRun_dropWhile isSpace rest)
  refine ⟨answer, rest.takeWhile isSpace ++ run, more, ?_, ?_, ?_⟩
  · rw [scan, hskip, Option.bind_some, hread, behind_append]
  · rw [List.append_assoc, ← hrest]
    exact htext
  · rwa [← List.append_assoc]

theorem peek_steps (hat : l.At front rest)
    (hcut : Partition front (lexemes ++ l.pending.toList) rest) :
    ∃ answer after run more, l.peek = some (answer, after) ∧ rest = run ++ more ∧
      l.Steps after .peek answer lexemes front run more := by
  rw [peek]
  cases hpending : l.pending with
  | some lexeme =>
    rw [hpending] at hcut
    refine ⟨.ok (some lexeme), l, [], rest, rfl, rfl, by simpa using hat, ?_, hpending, rfl, ?_⟩
    · exact ⟨by simpa using hcut, nofun⟩
    · intro other hother
      rw [hpending] at hother
      cases hother
      rfl
  | none =>
    rw [hpending, Option.toList_none, List.append_nil] at hcut
    obtain ⟨answer, run, more, hscan, rfl, hanswer⟩ := scan_answers hat hcut
    have hcarried : ∀ lexeme ∈ l.pending, answer = .ok (some lexeme) := by
      rw [hpending]
      exact nofun
    simp only [hscan, Option.bind_eq_bind, Option.bind_some]
    cases answer with
    | error e => exact ⟨_, _, run, more, rfl, rfl, hat.behind, hanswer, hpending, rfl, hcarried⟩
    | ok found =>
      have hbehind := hat.behind
      exact ⟨_, _, run, more, rfl, rfl, ⟨hbehind.source, hbehind.position, hbehind.offset⟩, hanswer,
        rfl, rfl, hcarried⟩

theorem call_steps (call : Call) (hat : l.At front rest)
    (hcut : Partition front (lexemes ++ l.pending.toList) rest) :
    ∃ answer after run more, l.call call = some (answer, after) ∧ rest = run ++ more ∧
      l.Steps after call answer lexemes front run more := by
  obtain ⟨answer, after, run, more, hpeek, hrest, hafter, hanswer, hleaves, hlast, hcarried⟩ :=
    peek_steps hat hcut
  cases call with
  | peek =>
    exact ⟨answer, after, run, more, hpeek, hrest, hafter, hanswer, hleaves, hlast, hcarried⟩
  | next =>
    have hplace : ∀ pending last, Lexer.At { after with pending := pending, last := last }
        (front ++ run) more := fun _ _ => ⟨hafter.source, hafter.position, hafter.offset⟩
    simp only [Lexer.call, next, hpeek, Option.bind_eq_bind, Option.bind_some]
    match answer with
    | .error e => exact ⟨_, _, run, more, rfl, hrest, hafter, hanswer, hleaves, hlast, hcarried⟩
    | .ok none =>
      exact ⟨_, _, run, more, rfl, hrest, hplace _ _, hanswer, rfl, hlast, hcarried⟩
    | .ok (some lexeme) =>
      exact ⟨_, _, run, more, rfl, hrest, hplace _ _, hanswer, rfl, rfl, hcarried⟩

/-- Where nothing is left a scan finds nothing and stays. -/
theorem scan_of_charactersFrom? (h : charactersFrom? l.source l.position = some []) :
    l.scan = some (.ok none, l) := by
  have hstay : l.advanceWhile isSpace = some l := by
    rw [advanceWhile, h]
    rfl
  have hend : l.readToken = some (.ok none, l) := by
    rw [readToken, h]
    rfl
  rw [scan, hstay, Option.bind_some, hend]

theorem charactersFrom?_of_scan {after : Lexer} (h : l.scan = some (.ok none, after)) :
    charactersFrom? after.source after.position = some [] := by
  obtain ⟨skipped, -, hread⟩ := Option.bind_eq_some_iff.mp h
  obtain ⟨ahead, hahead, hread⟩ := Option.bind_eq_some_iff.mp hread
  cases ahead with
  | nil =>
    cases hread
    exact hahead
  | cons c ahead =>
    obtain ⟨⟨kind, behind⟩, -, hread⟩ := Option.bind_eq_some_iff.mp hread
    obtain ⟨text, -, hread⟩ := Option.bind_eq_some_iff.mp hread
    split at hread
    · cases hread
    · cases hread

/-- To peek before a token is taken changes nothing. -/
theorem next_of_peek {after : Lexer} {found : Option Lexeme}
    (h : l.peek = some (.ok found, after)) :
    after.next = l.next ∧ ∃ behind, l.next = some (.ok found, behind) := by
  have hnext : ∃ behind, l.next = some (.ok found, behind) := by
    simp only [next, h, Option.bind_eq_bind, Option.bind_some]
    cases found with
    | none => exact ⟨_, rfl⟩
    | some lexeme => exact ⟨_, rfl⟩
  refine ⟨?_, hnext⟩
  have hstay : after.peek = some (.ok found, after) := by
    rw [peek] at h
    cases hpending : l.pending with
    | some lexeme =>
      rw [hpending] at h
      cases h
      rw [peek, hpending]
    | none =>
      rw [hpending] at h
      obtain ⟨⟨answer, behind⟩, hscan, h⟩ := Option.bind_eq_some_iff.mp h
      match answer, found with
      | .error e, _ => cases h
      | .ok (some lexeme), _ =>
        cases h
        rfl
      | .ok none, found =>
        cases h
        have hahead := charactersFrom?_of_scan hscan
        have hend : Lexer.scan { behind with pending := none } =
            some (.ok none, { behind with pending := none }) := scan_of_charactersFrom? hahead
        simp only [peek, hend, Option.bind_eq_bind, Option.bind_some]
        rfl
  rw [next, next, h, hstay]

end Lexer

end NodeQuery.Query

import NodeQuery.Command.Run
import NodeQuery.Proofs.Host.Expansion

/-!
# What a failing command prints

All commands but one do everything that can fail before they print anything, so their output is
empty if they fail. Expansion prints the names of each pattern before it looks at the next one: if a
pattern cannot be expanded, the names of those in front of it are printed already.
-/
namespace NodeQuery.Command

/-- The command ends with an error, which is more than that nothing matches. -/
def Outcome.Failed (o : Outcome) : Prop :=
  o.code = 1 ∧ ∃ message : String, o.errors = s!"Error: {message}\n"

/-- The outcome of an expansion that fails: at the list itself, or at one of its patterns, behind
the names of the patterns in front of it. -/
inductive ExpansionFails (patterns : String) : Outcome → Prop
  | list {e : Host.PatternError} (h : Host.splitPatterns patterns = .error e) :
      ExpansionFails patterns ⟨1, "", s!"Error: {e.message}\n"⟩
  | pattern {before later : List String} {pattern : String} {names : List (List String)}
      {e : Host.PatternError}
      (hlist : Host.splitPatterns patterns = .ok (before ++ pattern :: later))
      (hbefore : before.mapM Host.expand = .ok names) (h : Host.expand pattern = .error e) :
      ExpansionFails patterns ⟨1, lines names.flatten, s!"Error: {e.message}\n"⟩

theorem errors_ne_empty {o : Outcome} (h : o.Failed) : o.errors ≠ "" := by
  obtain ⟨-, message, herrors⟩ := h
  rw [herrors]
  simp [toString, String.append_eq_empty_iff]

theorem not_failed_ok (output : String) : ¬ (Report.ok output).outcome.Failed := fun h =>
  errors_ne_empty h rfl

/-- What fails before anything is printed prints nothing. -/
theorem output_ofExcept {r : Except Error String} (h : (Report.ofExcept r).outcome.Failed) :
    (Report.ofExcept r).outcome.output = "" := by
  cases r with
  | ok output => exact absurd h (not_failed_ok output)
  | error e => rfl

theorem output_matchHosts {patterns : String} {hosts : List String} {leading : Bool}
    (h : (matchHosts patterns hosts leading).Failed) :
    (matchHosts patterns hosts leading).output = "" := by
  unfold matchHosts at h ⊢
  split
  · rfl
  next hfilter =>
    rw [hfilter] at h
    exact absurd rfl (errors_ne_empty h)

theorem lines_append (left right : List String) :
    lines (left ++ right) = lines left ++ lines right := by
  simp [lines]

/-- The names of the patterns are printed up to the first pattern that cannot be expanded. -/
theorem exists_of_expandAll_error {patterns : List String} {error : Error}
    (h : (expandAll patterns).error = some error) :
    ∃ before pattern later names e, patterns = before ++ pattern :: later ∧
      before.mapM Host.expand = .ok names ∧ Host.expand pattern = .error e ∧
      expandAll patterns = ⟨lines names.flatten, some (.pattern e)⟩ := by
  induction patterns with
  | nil => cases h
  | cons first rest ih =>
    unfold expandAll at h ⊢
    cases hfirst : Host.expand first with
    | error e => exact ⟨[], first, rest, [], e, rfl, rfl, hfirst, rfl⟩
    | ok found =>
      simp only [hfirst] at h ⊢
      obtain ⟨before, pattern, later, names, e, rfl, hbefore, hpattern, hrest⟩ := ih h
      refine ⟨first :: before, pattern, later, found :: names, e, rfl, ?_, hpattern, ?_⟩
      · rw [List.mapM_cons, hfirst, hbefore]
        rfl
      · rw [hrest, List.flatten_cons, lines_append]

theorem expansionFails_of_failed {patterns : List String} {text : String}
    (hlist : Host.splitPatterns text = .ok patterns) (h : (expandAll patterns).outcome.Failed) :
    ExpansionFails text (expandAll patterns).outcome := by
  cases herror : (expandAll patterns).error with
  | none =>
    have hempty : (expandAll patterns).outcome.errors = "" := by simp [Report.outcome, herror]
    exact absurd hempty (errors_ne_empty h)
  | some error =>
    obtain ⟨before, pattern, later, names, e, rfl, hbefore, hpattern, hreport⟩ :=
      exists_of_expandAll_error herror
    rw [hreport]
    exact .pattern hlist hbefore hpattern

theorem output_perform {around : Surroundings} {invocation : Invocation}
    (h : (perform around invocation).Failed)
    (hother : ∀ patterns, invocation.action ≠ .expand patterns) :
    (perform around invocation).output = "" := by
  unfold perform at h ⊢
  cases haction : invocation.action with
  | expand patterns => exact absurd haction (hother patterns)
  | matchHosts patterns hosts leading =>
    simp only [haction] at h ⊢
    exact output_matchHosts h
  | select query file format =>
    simp only [haction] at h ⊢
    exact output_ofExcept h
  | check query =>
    simp only [haction] at h ⊢
    exact output_ofExcept h
  | split patterns =>
    simp only [haction] at h ⊢
    exact output_ofExcept h
  | compress file =>
    simp only [haction] at h ⊢
    exact output_ofExcept h
  | fields =>
    simp only [haction] at h ⊢
    exact output_ofExcept h

theorem expansionFails_perform {around : Surroundings} {invocation : Invocation}
    {patterns : String} (h : (perform around invocation).Failed)
    (hexpand : invocation.action = .expand patterns) :
    ExpansionFails patterns (perform around invocation) := by
  unfold perform at h ⊢
  simp only [hexpand] at h ⊢
  cases hlist : Host.splitPatterns patterns with
  | error e => exact .list hlist
  | ok list =>
    rw [hlist] at h
    exact expansionFails_of_failed hlist h

/-- Help, version and usage are no failures. -/
theorem not_failed_refusal (refusal : Refusal) : ¬ refusal.outcome.Failed := by
  rintro ⟨hcode, -⟩
  cases refusal <;> cases hcode

/-- A pattern with a star behind a name. -/
theorem run_expand_star_last (around : Surroundings) :
    run around ["expand", "a,b*"] =
      ⟨1, "a\n", "Error: Wildcard not allowed in expandable pattern 'b*'\n"⟩ := by
  have hread : readInvocation ["expand", "a,b*"] = .ok ⟨.expand "a,b*", none, false⟩ := rfl
  have hlist : Host.splitPatterns "a,b*" = .ok ["a", "b*"] := rfl
  have hname : Host.expand "a" = .ok ["a"] := Host.expand_plain (by simp [Host.Plain])
  have hstar : Host.expand "b*" = .error (.wildcardNotAllowed "b*") := by
    rw [Host.expand]
    exact (Host.expandFrom_literal rfl _ _).trans (Host.expandFrom_star rfl _ _)
  simp only [run, hread, perform, hlist, expandAll, hname, hstar]
  rfl

/-- A command line that fails asks for an action. It has printed nothing if the action is not an
expansion, and an expansion has printed the names of the patterns in front of the one that fails and
nothing else. -/
theorem output_of_failed {around : Surroundings} {arguments : List String}
    (h : (run around arguments).Failed) :
    ∃ invocation, readInvocation arguments = .ok invocation ∧
      ((∀ patterns, invocation.action ≠ .expand patterns) → (run around arguments).output = "") ∧
      ∀ patterns, invocation.action = .expand patterns →
        ExpansionFails patterns (run around arguments) := by
  unfold run at h ⊢
  cases hread : readInvocation arguments with
  | error refusal =>
    rw [hread] at h
    exact absurd h (not_failed_refusal refusal)
  | ok invocation =>
    rw [hread] at h
    exact ⟨invocation, rfl, output_perform h, fun patterns => expansionFails_perform h⟩

theorem output_of_failed_star_last :
    (run ⟨fun _ => none, none, none, ""⟩ ["expand", "a,b*"]).Failed ∧
      ExpansionFails "a,b*" (run ⟨fun _ => none, none, none, ""⟩ ["expand", "a,b*"]) := by
  have hfailed : (run ⟨fun _ => none, none, none, ""⟩ ["expand", "a,b*"]).Failed := by
    rw [run_expand_star_last]
    exact ⟨rfl, "Wildcard not allowed in expandable pattern 'b*'", rfl⟩
  obtain ⟨invocation, hread, -, hexpand⟩ := output_of_failed hfailed
  cases hread
  exact ⟨hfailed, hexpand "a,b*" rfl⟩

/-- The name in front of the pattern that fails is printed. -/
theorem not_output_empty_of_failed :
    ¬ ∀ around arguments, (run around arguments).Failed → (run around arguments).output = "" := by
  intro h
  have houtput := h ⟨fun _ => none, none, none, ""⟩ ["expand", "a,b*"]
  rw [run_expand_star_last] at houtput
  have hempty : "a\n" = "" := houtput ⟨rfl, "Wildcard not allowed in expandable pattern 'b*'", rfl⟩
  exact absurd hempty (by decide)

end NodeQuery.Command

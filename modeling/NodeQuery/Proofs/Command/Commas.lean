import NodeQuery.Proofs.Command.Failure
import NodeQuery.Proofs.Host.Commas

/-!
# Commas on the command line

A pattern that holds a comma of its own is refused, but a list of patterns is cut at such commas. So
the commands that take a list never report one, however malformed its patterns are.
-/
namespace NodeQuery.Command
open Host (PatternError Pattern Filter)

/-! The report and all others -/

/-- What a command prints about a comma that stands outside of a set. -/
def commaReport : String := s!"Error: {PatternError.commaNotAllowed.message}\n"

theorem head_append {c : Char} {text : String} (h : text.toList.head? = some c) (rest : String) :
    (text ++ rest).toList.head? = some c := by
  rw [String.toList_append, List.head?_append, h, Option.some_or]

/-- No other message begins with a quotation mark. -/
theorem head_message {e : PatternError} (h : e ≠ .commaNotAllowed) :
    ∃ c, e.message.toList.head? = some c ∧ c ≠ '\'' := by
  cases e with
  | commaNotAllowed => contradiction
  | invalidNumber => exact ⟨'I', rfl, by decide⟩
  | numberOutOfRange => exact ⟨'N', rfl, by decide⟩
  | rangeTooLarge => exact ⟨'R', rfl, by decide⟩
  | expectedComma | expressionTooLarge => exact ⟨'E', rfl, by decide⟩
  | invalidRange => exact ⟨'I', head_append (head_append (head_append rfl _) _) _, by decide⟩
  | illegalList => exact ⟨'I', head_append rfl _, by decide⟩
  | wildcardNotAllowed => exact ⟨'W', head_append (head_append rfl _) _, by decide⟩
  | expansionTooLarge => exact ⟨'E', head_append (head_append rfl _) _, by decide⟩

theorem message_of_report {message other : String}
    (h : s!"Error: {message}\n" = s!"Error: {other}\n") : message = other := by
  simpa [toString] using h

theorem errors_pattern_ne {e : PatternError} (h : e ≠ .commaNotAllowed) (output : String) :
    (Report.outcome ⟨output, some (.pattern e)⟩).errors ≠ commaReport := by
  intro hreport
  have hmessage : e.message = PatternError.commaNotAllowed.message := message_of_report hreport
  obtain ⟨c, hfirst, hne⟩ := head_message h
  rw [hmessage] at hfirst
  have hquote : PatternError.commaNotAllowed.message.toList.head? = some '\'' := rfl
  exact hne (Option.some.inj (hfirst.symm.trans hquote))

theorem empty_ne_commaReport : "" ≠ commaReport := by decide

/-! The commands -/

theorem errors_matchHosts_ne (patterns : String) (hosts : List String) (leading : Bool) :
    (matchHosts patterns hosts leading).errors ≠ commaReport := by
  have hinsert := Host.insertList_ne_comma
    (Filter.empty (if leading then .leading else .whole)) patterns
  unfold matchHosts
  split
  next hfilter =>
    rw [hfilter] at hinsert
    exact errors_pattern_ne (fun he => hinsert (congrArg Except.error he)) ""
  next => exact empty_ne_commaReport

theorem errors_expandAll_ne {patterns : List String}
    (h : ∀ pattern ∈ patterns, Host.expand pattern ≠ .error .commaNotAllowed) :
    (expandAll patterns).outcome.errors ≠ commaReport := by
  cases herror : (expandAll patterns).error with
  | none =>
    have hnone : (expandAll patterns).outcome.errors = "" := by simp [Report.outcome, herror]
    rw [hnone]
    exact empty_ne_commaReport
  | some error =>
    obtain ⟨before, pattern, later, names, e, rfl, -, hpattern, hreport⟩ :=
      exists_of_expandAll_error herror
    have hnot := h pattern (List.mem_append_right _ List.mem_cons_self)
    rw [hreport]
    refine errors_pattern_ne (fun he => ?_) _
    exact hnot (he ▸ hpattern)

theorem errors_perform_expand_ne (around : Surroundings) {invocation : Invocation} {text : String}
    (h : invocation.action = .expand text) : (perform around invocation).errors ≠ commaReport := by
  unfold perform
  simp only [h]
  split
  next e herror =>
    refine errors_pattern_ne (fun he => ?_) ""
    rcases Host.splitPatterns_total text with ⟨patterns, hok⟩ | ⟨fault, hfault⟩
    · exact absurd (hok.symm.trans herror) nofun
    · cases he
      exact absurd (hfault.symm.trans herror) nofun
  next patterns hlist =>
    refine errors_expandAll_ne fun pattern hmem => ?_
    exact Host.expand_ne_comma_of_balanced (Host.balanced_of_splitPatterns hlist hmem)

/-- The splitter and the reader agree on which commas are separators. No pattern of a list is
refused for a comma, by compilation or expansion, whatever else is wrong with it, and a list of
several patterns is no pattern itself. So a comma is never the error of inserting a list into a
filter, and neither matching nor expanding a list reports it. -/
theorem comma_never_reported (text : String) :
    (∀ patterns, Host.splitPatterns text = .ok patterns → ∀ pattern ∈ patterns,
      (∀ anchor, Pattern.compile pattern anchor ≠ .error .commaNotAllowed) ∧
        Host.expand pattern ≠ .error .commaNotAllowed) ∧
    (∀ first second more, Host.splitPatterns text = .ok (first :: second :: more) →
      (∀ anchor p, Pattern.compile text anchor ≠ .ok p) ∧
        ∀ names, Host.expand text ≠ .ok names) ∧
    (∀ f : Filter, (f.insertList text).2 ≠ .error .commaNotAllowed) ∧
    ∀ around arguments invocation, readInvocation arguments = .ok invocation →
      (∃ hosts leading, invocation.action = .matchHosts text hosts leading) ∨
        invocation.action = .expand text →
      (run around arguments).errors ≠ commaReport := by
  refine ⟨?_, ?_, ?_, ?_⟩
  · intro patterns hlist pattern hmem
    have hbalanced := Host.balanced_of_splitPatterns hlist hmem
    exact ⟨Host.compile_ne_comma_of_balanced hbalanced, Host.expand_ne_comma_of_balanced hbalanced⟩
  · intro first second more hlist
    obtain ⟨e, hscan⟩ := Host.scan_of_several hlist
    refine ⟨fun anchor p hcompile => ?_, fun names hexpand => ?_⟩
    · exact absurd ((Pattern.scan_of_compile hcompile).symm.trans hscan) nofun
    · obtain ⟨segments, hread⟩ := Host.scan_of_expand hexpand
      exact absurd (hread.symm.trans hscan) nofun
  · exact fun f => Host.insertList_ne_comma f text
  · intro around arguments invocation hread haction
    unfold run
    rw [hread]
    rcases haction with ⟨hosts, leading, hmatch⟩ | hexpand
    · simp only [perform, hmatch]
      exact errors_matchHosts_ne text hosts leading
    · exact errors_perform_expand_ne around hexpand

/-- A range that goes down, behind a set with a comma of its own. -/
theorem comma_never_reported_range :
    Host.splitPatterns "a[1,2],b[3-1]" = .ok ["a[1,2]", "b[3-1]"] ∧
      Host.expand "b[3-1]" ≠ .error .commaNotAllowed ∧
      (∀ names, Host.expand "a[1,2],b[3-1]" ≠ .ok names) ∧
      ∀ around, (run around ["expand", "a[1,2],b[3-1]"]).errors ≠ commaReport := by
  have hlist : Host.splitPatterns "a[1,2],b[3-1]" = .ok ["a[1,2]", "b[3-1]"] := rfl
  obtain ⟨hparts, hseveral, -, hrun⟩ := comma_never_reported "a[1,2],b[3-1]"
  refine ⟨hlist, (hparts _ hlist "b[3-1]" (by decide)).2, (hseveral _ _ _ hlist).2, ?_⟩
  exact fun around => hrun around ["expand", "a[1,2],b[3-1]"] _ rfl (.inr rfl)

end NodeQuery.Command

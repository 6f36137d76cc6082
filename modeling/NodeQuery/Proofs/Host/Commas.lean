import NodeQuery.Proofs.Host.Insertions

/-!
# Commas and the reader

The splitter of lists tracks brackets with a flag; the reader of a pattern takes in whole sets and
stops at their first fault. On balanced text the two are in step: where the splitter's flag is down
the reader is between two segments, and the reader meets no comma there. So a balanced text is never
refused for a comma, and a comma behind one always is met, unless a set in front of it is at fault.
-/
namespace NodeQuery.Host

namespace Segment

/-- The reader of a text comes to the rest between two segments, unless a set in front of it is at
fault. -/
inductive Reaches (rest : List Char) : List Char → Prop
  | here : Reaches rest rest
  | fault {text : List Char} {e : PatternError} (he : e.InSet) (h : next text = .error e) :
      Reaches rest text
  | step {text left : List Char} {segment : Segment}
      (h : next text = .ok (some (segment, left))) (hleft : Reaches rest left) : Reaches rest text

theorem Reaches.literal {c : Char} {text rest : List Char} (hopening : c ≠ '[') (hcomma : c ≠ ',')
    (h : Reaches rest text) : Reaches rest (c :: text) := by
  by_cases hstar : c = '*'
  · subst hstar
    exact .step rfl h
  · exact .step (next_literal hstar hopening hcomma text) h

/-- A text is cut at its first closing bracket in one way only. -/
theorem eq_of_append_closing {left right body rest : List Char}
    (hleft : ∀ c ∈ left, c ≠ '[' ∧ c ≠ ']') (hright : ∀ c ∈ right, c ≠ '[' ∧ c ≠ ']')
    (h : left ++ ']' :: body = right ++ ']' :: rest) : body = rest := by
  have hinside : ∀ {before : List Char}, (∀ c ∈ before, c ≠ '[' ∧ c ≠ ']') →
      ∀ c ∈ before, (c != ']') = true := fun hbefore c hc => bne_iff_ne.mpr (hbefore c hc).2
  exact (Text.eq_of_run_append_cons (hinside hleft) (hinside hright) rfl rfl h).2.2

/-- The reader knows more of the inside of a set than the splitter, but it gets past it, if it
does, at the same place. -/
theorem Reaches.opening {body text rest : List Char} (hbody : ∀ c ∈ body, c ≠ '[' ∧ c ≠ ']')
    (h : Reaches rest text) : Reaches rest ('[' :: (body ++ ']' :: text)) := by
  cases hread : readTerms 0 (body ++ ']' :: text) with
  | error e => exact .fault (inSet_of_readTerms hread) (next_set_error hread)
  | ok found =>
    obtain ⟨terms, left⟩ := found
    obtain ⟨spelled, htext, hspelled, -⟩ := spells_of_readTerms hread
    have hleft : text = left := eq_of_append_closing hbody hspelled.ne_bracket htext
    exact .step (next_set hread) (hleft ▸ h)

theorem reaches_of_balanced {text : List Char} (h : Balanced text) (rest : List Char) :
    Reaches rest (text ++ rest) := by
  induction h with
  | nil => exact .here
  | other hopening _ hcomma _ ih => exact .literal hopening hcomma ih
  | set hbody _ ih =>
    rw [List.cons_append, List.append_assoc, List.cons_append]
    exact .opening hbody ih

/-- A fault of the text is one of the rest, or lies in a set in front of it. -/
theorem Reaches.error_cases {text rest : List Char} {e : PatternError} (h : Reaches rest text)
    (hscan : scan text = .error e) : e.InSet ∨ scan rest = .error e := by
  induction h with
  | here => exact .inr hscan
  | fault he hnext =>
    rw [scan_of_error hnext] at hscan
    cases hscan
    exact .inl he
  | step hnext _ ih => exact ih ((scan_eq_error_iff hnext).mp hscan)

/-- Nothing behind a fault is read. -/
theorem Reaches.exists_error {text rest : List Char} {e : PatternError} (h : Reaches rest text)
    (hscan : scan rest = .error e) : ∃ e, scan text = .error e := by
  induction h with
  | here => exact ⟨e, hscan⟩
  | fault _ hnext => exact ⟨_, scan_of_error hnext⟩
  | step hnext _ ih =>
    obtain ⟨e', hleft⟩ := ih
    exact ⟨e', (scan_eq_error_iff hnext).mpr hleft⟩

theorem scan_ne_comma_of_balanced {text : List Char} (h : Balanced text) :
    scan text ≠ .error .commaNotAllowed := by
  intro hscan
  have hreaches := reaches_of_balanced h []
  rw [List.append_nil] at hreaches
  rcases hreaches.error_cases hscan with hset | hend
  · exact hset
  · rw [scan_nil] at hend
    cases hend

theorem scan_comma_behind {text : List Char} (h : Balanced text) (rest : List Char) :
    ∃ e, scan (text ++ ',' :: rest) = .error e :=
  (reaches_of_balanced h (',' :: rest)).exists_error (scan_of_error rfl)

end Segment

/-! Balanced patterns and lists of patterns -/

theorem compile_ne_comma_of_balanced {text : String} (h : Balanced text.toList) (anchor : Anchor) :
    Pattern.compile text anchor ≠ .error .commaNotAllowed := by
  intro hcompile
  rcases Pattern.scan_of_compile_error hcompile with hscan | hlimit
  · exact Segment.scan_ne_comma_of_balanced h hscan
  · cases hlimit

theorem expand_ne_comma_of_balanced {text : String} (h : Balanced text.toList) :
    expand text ≠ .error .commaNotAllowed := by
  intro hexpand
  rcases scan_of_expand_error hexpand with hscan | hlimit | hlimit
  · exact Segment.scan_ne_comma_of_balanced h hscan
  · cases hlimit
  · cases hlimit

/-- The patterns of a list are balanced, whatever else is wrong with them. -/
theorem balanced_of_splitPatterns {text pattern : String} {patterns : List String}
    (h : splitPatterns text = .ok patterns) (hmem : pattern ∈ patterns) :
    Balanced pattern.toList := by
  rcases lists_of_splitPatterns h with ⟨-, rfl⟩ | ⟨-, -, hall⟩
  · cases hmem
  · exact (hall pattern hmem).2

/-- A list of several patterns is none itself: the reader meets the first comma of the list. -/
theorem scan_of_several {text first second : String} {more : List String}
    (h : splitPatterns text = .ok (first :: second :: more)) :
    ∃ e, Segment.scan text.toList = .error e := by
  rcases lists_of_splitPatterns h with ⟨-, hnone⟩ | ⟨-, rfl, hall⟩
  · cases hnone
  · have hfirst := (hall first List.mem_cons_self).2
    have hcomma : ",".toList = [','] := rfl
    rw [String.intercalate_cons_cons, String.append_assoc, String.toList_append,
      String.toList_append, hcomma, List.singleton_append]
    exact Segment.scan_comma_behind hfirst _

theorem insertList_ne_comma (f : Filter) (text : String) :
    (f.insertList text).2 ≠ .error .commaNotAllowed := by
  intro hcomma
  obtain ⟨texts, patterns, result, haccepts, -, hstep⟩ := f.accepts_apply (.list text)
  have hresult : result = .error .commaNotAllowed := (congrArg Prod.snd hstep).symm.trans hcomma
  cases haccepts with
  | unsplit h =>
    rcases splitPatterns_total text with ⟨parts, hparts⟩ | ⟨fault, hfault⟩
    · exact absurd (h.symm.trans hparts) nofun
    · cases hresult
      exact absurd (h.symm.trans hfault) nofun
  | all => cases hresult
  | upTo hlist _ h =>
    cases hresult
    have hpart := balanced_of_splitPatterns hlist (List.mem_append_right _ List.mem_cons_self)
    exact compile_ne_comma_of_balanced hpart f.anchor h

end NodeQuery.Host

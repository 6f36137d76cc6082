import NodeQuery.Proofs.Host.Errors
import NodeQuery.Proofs.Host.Filters

/-!
# What a filter holds

A filter is filled by calls that insert one pattern or a list of them. A call can fail, a list of
patterns also in the middle, and what it has inserted before it fails stays. So after any calls the
filter holds the patterns that were accepted, in their order: of a list those in front of the first
that does not compile. Nothing is ever taken out again.
-/
namespace NodeQuery.Host

/-- A call that inserts the pattern of a text, or the patterns of a list. -/
inductive Insertion where
  | single (text : String)
  | list (text : String)
  deriving DecidableEq, Repr

/-- The texts that a call accepts, and what the call returns. -/
inductive Accepts (anchor : Anchor) :
    Insertion → List String → Except PatternError Unit → Prop
  | single {text : String} {p : Pattern} (h : Pattern.compile text anchor = .ok p) :
      Accepts anchor (.single text) [text] (.ok ())
  | refused {text : String} {e : PatternError} (h : Pattern.compile text anchor = .error e) :
      Accepts anchor (.single text) [] (.error e)
  | unsplit {text : String} {e : PatternError} (h : splitPatterns text = .error e) :
      Accepts anchor (.list text) [] (.error e)
  | all {text : String} {parts : List String} {patterns : List Pattern}
      (hlist : splitPatterns text = .ok parts) (h : CompileTo anchor parts patterns) :
      Accepts anchor (.list text) parts (.ok ())
  | upTo {text part : String} {before later : List String} {patterns : List Pattern}
      {e : PatternError} (hlist : splitPatterns text = .ok (before ++ part :: later))
      (hbefore : CompileTo anchor before patterns) (h : Pattern.compile part anchor = .error e) :
      Accepts anchor (.list text) before (.error e)

/-- The texts that the calls of a row accept, and what the calls return. -/
inductive AcceptsAll (anchor : Anchor) :
    List Insertion → List (List String) → List (Except PatternError Unit) → Prop
  | nil : AcceptsAll anchor [] [] []
  | cons {call : Insertion} {texts : List String} {result : Except PatternError Unit}
      {calls : List Insertion} {accepted : List (List String)}
      {results : List (Except PatternError Unit)} (h : Accepts anchor call texts result)
      (hrest : AcceptsAll anchor calls accepted results) :
      AcceptsAll anchor (call :: calls) (texts :: accepted) (result :: results)

/-! Texts that compile -/

section CompileTo
variable {anchor : Anchor} {texts : List String} {patterns : List Pattern}

theorem CompileTo.exists_of_mem (h : CompileTo anchor texts patterns) {text : String}
    (hmem : text ∈ texts) : ∃ p, Pattern.compile text anchor = .ok p := by
  unfold CompileTo at h
  induction h with
  | nil => cases hmem
  | @cons _ p _ _ hp _ ih =>
    rcases List.mem_cons.mp hmem with rfl | hlater
    · exact ⟨p, hp⟩
    · exact ih hlater

theorem CompileTo.ne_error {before later : List String} {part : String}
    (h : CompileTo anchor (before ++ part :: later) patterns) (e : PatternError) :
    Pattern.compile part anchor ≠ .error e := by
  intro herror
  obtain ⟨p, hp⟩ := h.exists_of_mem (List.mem_append_right before List.mem_cons_self)
  exact absurd (hp.symm.trans herror) nofun

/-- Texts that compile cannot reach past one that does not. -/
theorem CompileTo.eq_nil_of_error {before between later rest : List String} {part : String}
    {e : PatternError} (h : CompileTo anchor (before ++ between) patterns)
    (herror : Pattern.compile part anchor = .error e) (heq : part :: later = between ++ rest) :
    between = [] := by
  cases between with
  | nil => rfl
  | cons text between =>
    obtain ⟨rfl, -⟩ := List.cons.inj heq
    exact absurd herror (h.ne_error e)

theorem CompileTo.first_error_unique {before others later rest : List String}
    {more : List Pattern} {part other : String} {e e' : PatternError}
    (hbefore : CompileTo anchor before patterns) (h : Pattern.compile part anchor = .error e)
    (hothers : CompileTo anchor others more) (h' : Pattern.compile other anchor = .error e')
    (heq : before ++ part :: later = others ++ other :: rest) : before = others ∧ part = other := by
  rcases List.append_eq_append_iff.mp heq with ⟨between, rfl, htail⟩ | ⟨between, rfl, htail⟩
  · obtain rfl := hothers.eq_nil_of_error h htail
    exact ⟨(List.append_nil before).symm, (List.cons.inj htail).1⟩
  · obtain rfl := hbefore.eq_nil_of_error h' htail
    exact ⟨List.append_nil others, (List.cons.inj htail).1.symm⟩

theorem CompileTo.any_accepts_iff (h : CompileTo anchor texts patterns) (host : String) :
    patterns.any (·.accepts host) = true ↔
      ∃ text ∈ texts, ∃ p, Pattern.compile text anchor = .ok p ∧ p.accepts host = true := by
  unfold CompileTo at h
  induction h with
  | nil => simp
  | @cons text p texts patterns hp _ ih =>
    rw [List.any_cons, Bool.or_eq_true, ih, List.exists_mem_cons_iff]
    refine or_congr_left ⟨fun haccepts => ⟨p, hp, haccepts⟩, ?_⟩
    rintro ⟨q, hq, haccepts⟩
    rwa [Except.ok.inj (hp.symm.trans hq)]

/-- Texts compile up to the first that does not. -/
theorem compileTo_or_error (anchor : Anchor) (texts : List String) :
    (∃ patterns, CompileTo anchor texts patterns) ∨
      ∃ before part later patterns e, texts = before ++ part :: later ∧
        CompileTo anchor before patterns ∧ Pattern.compile part anchor = .error e := by
  induction texts with
  | nil => exact .inl ⟨[], .nil⟩
  | cons text texts ih =>
    cases htext : Pattern.compile text anchor with
    | error e => exact .inr ⟨[], text, texts, [], e, rfl, .nil, htext⟩
    | ok p =>
      rcases ih with ⟨patterns, hall⟩ | ⟨before, part, later, patterns, e, rfl, hbefore, hpart⟩
      · exact .inl ⟨p :: patterns, .cons htext hall⟩
      · exact .inr ⟨text :: before, part, later, p :: patterns, e, rfl, .cons htext hbefore, hpart⟩

end CompileTo

/-! Calls accept one thing only -/

theorem Accepts.unique {anchor : Anchor} {call : Insertion} {texts others : List String}
    {result other : Except PatternError Unit} (h : Accepts anchor call texts result)
    (hother : Accepts anchor call others other) : others = texts ∧ other = result := by
  cases h with
  | single h =>
    cases hother with
    | single => exact ⟨rfl, rfl⟩
    | refused h' => exact absurd (h.symm.trans h') nofun
  | refused h =>
    cases hother with
    | single h' => exact absurd (h.symm.trans h') nofun
    | refused h' => exact ⟨rfl, by rw [Except.error.inj (h.symm.trans h')]⟩
  | unsplit h =>
    cases hother with
    | unsplit h' => exact ⟨rfl, by rw [Except.error.inj (h.symm.trans h')]⟩
    | all hlist' | upTo hlist' => exact absurd (h.symm.trans hlist') nofun
  | all hlist h =>
    cases hother with
    | unsplit h' => exact absurd (hlist.symm.trans h') nofun
    | all hlist' => exact ⟨Except.ok.inj (hlist'.symm.trans hlist), rfl⟩
    | upTo hlist' _ h' =>
      cases hlist.symm.trans hlist'
      exact absurd h' (h.ne_error _)
  | upTo hlist hbefore h =>
    cases hother with
    | unsplit h' => exact absurd (hlist.symm.trans h') nofun
    | all hlist' h' =>
      cases hlist'.symm.trans hlist
      exact absurd h (h'.ne_error _)
    | upTo hlist' hbefore' h' =>
      have hparts := Except.ok.inj (hlist'.symm.trans hlist)
      obtain ⟨rfl, rfl⟩ := hbefore'.first_error_unique h' hbefore h hparts
      exact ⟨rfl, by rw [Except.error.inj (h.symm.trans h')]⟩

theorem AcceptsAll.unique {anchor : Anchor} {calls : List Insertion}
    {accepted others : List (List String)} {results returned : List (Except PatternError Unit)}
    (h : AcceptsAll anchor calls accepted results)
    (hother : AcceptsAll anchor calls others returned) :
    others = accepted ∧ returned = results := by
  induction h generalizing others returned with
  | nil =>
    cases hother
    exact ⟨rfl, rfl⟩
  | cons h _ ih =>
    cases hother with
    | cons h' hrest' =>
      obtain ⟨rfl, rfl⟩ := h.unique h'
      obtain ⟨rfl, rfl⟩ := ih hrest'
      exact ⟨rfl, rfl⟩

namespace Filter

/-- The filter behind a call, and what the call returns. A text that is no pattern leaves the filter
as it is. -/
def apply (f : Filter) : Insertion → Filter × Except PatternError Unit
  | .single text =>
    match f.insert text with
    | .error e => (f, .error e)
    | .ok after => (after, .ok ())
  | .list text => f.insertList text

/-- The filter behind a row of calls, and what each of them returns. -/
def applyAll (f : Filter) : List Insertion → Filter × List (Except PatternError Unit)
  | [] => (f, [])
  | call :: calls =>
    let step := f.apply call
    let rest := step.1.applyAll calls
    (rest.1, step.2 :: rest.2)

/-- The filter with more patterns behind its own. -/
def extend (f : Filter) (patterns : List Pattern) : Filter :=
  { f with patterns := f.patterns ++ patterns }

theorem extend_nil (f : Filter) : f.extend [] = f := by simp [extend]

theorem extend_extend (f : Filter) (patterns more : List Pattern) :
    (f.extend patterns).extend more = f.extend (patterns ++ more) := by
  simp [extend]

theorem accepts_extend (f : Filter) (patterns : List Pattern) (host : String) :
    (f.extend patterns).accepts host = (f.accepts host || patterns.any (·.accepts host)) := by
  simp [extend, accepts]

theorem insert_of_compile {f : Filter} {text : String} {p : Pattern}
    (h : Pattern.compile text f.anchor = .ok p) : f.insert text = .ok (f.extend [p]) := by
  simp only [insert, h, extend]

theorem insert_of_error {f : Filter} {text : String} {e : PatternError}
    (h : Pattern.compile text f.anchor = .error e) : f.insert text = .error e := by
  simp only [insert, h]

/-- The patterns in front of one that does not compile stay in the filter. -/
theorem insertAll_of_error {f : Filter} {before later : List String} {patterns : List Pattern}
    {part : String} {e : PatternError} (hbefore : CompileTo f.anchor before patterns)
    (h : Pattern.compile part f.anchor = .error e) :
    f.insertAll (before ++ part :: later) = (f.extend patterns, .error e) := by
  unfold CompileTo at hbefore
  induction before generalizing f patterns with
  | nil =>
    cases hbefore
    simp only [List.nil_append, insertAll, insert_of_error h, extend_nil]
  | cons text before ih =>
    cases hbefore with
    | @cons _ p _ patterns hp hrest =>
      have hlater : (f.extend [p]).insertAll (before ++ part :: later) =
          ((f.extend [p]).extend patterns, .error e) := ih hrest h
      simp only [List.cons_append, insertAll, insert_of_compile hp, hlater]
      rw [extend_extend, List.singleton_append]

/-- A call puts the patterns of the texts that it accepts behind those of the filter. -/
theorem accepts_apply (f : Filter) (call : Insertion) :
    ∃ texts patterns result, Accepts f.anchor call texts result ∧
      CompileTo f.anchor texts patterns ∧ f.apply call = (f.extend patterns, result) := by
  cases call with
  | single text =>
    cases h : Pattern.compile text f.anchor with
    | error e =>
      refine ⟨[], [], .error e, .refused h, .nil, ?_⟩
      simp only [apply, insert_of_error h, extend_nil]
    | ok p =>
      refine ⟨[text], [p], .ok (), .single h, .cons h .nil, ?_⟩
      simp only [apply, insert_of_compile h]
  | list text =>
    cases hlist : splitPatterns text with
    | error e =>
      refine ⟨[], [], .error e, .unsplit hlist, .nil, ?_⟩
      simp only [apply, insertList, hlist, extend_nil]
    | ok parts =>
      rcases compileTo_or_error f.anchor parts with
        ⟨patterns, hall⟩ | ⟨before, part, later, patterns, e, rfl, hbefore, hpart⟩
      · refine ⟨parts, patterns, .ok (), .all hlist hall, hall, ?_⟩
        simp only [apply, insertList, hlist]
        exact insertAll_of_compileTo hall
      · refine ⟨before, patterns, .error e, .upTo hlist hbefore hpart, hbefore, ?_⟩
        simp only [apply, insertList, hlist]
        exact insertAll_of_error hbefore hpart

/-- A row of calls puts the patterns of all texts that they accept behind those of the filter. -/
theorem accepts_applyAll (f : Filter) (calls : List Insertion) :
    ∃ accepted patterns results, AcceptsAll f.anchor calls accepted results ∧
      CompileTo f.anchor accepted.flatten patterns ∧
      f.applyAll calls = (f.extend patterns, results) := by
  induction calls generalizing f with
  | nil =>
    refine ⟨[], [], [], .nil, .nil, ?_⟩
    rw [applyAll, extend_nil]
  | cons call calls ih =>
    obtain ⟨texts, patterns, result, hcall, hpatterns, hstep⟩ := f.accepts_apply call
    obtain ⟨accepted, more, results, hcalls, hmore, hrest⟩ := ih (f.extend patterns)
    refine ⟨texts :: accepted, patterns ++ more, result :: results, .cons hcall hcalls, ?_, ?_⟩
    · rw [List.flatten_cons]
      exact List.rel_append hpatterns hmore
    · simp only [applyAll, hstep, hrest, extend_extend]

theorem applyAll_append (f : Filter) (calls later : List Insertion) :
    (f.applyAll (calls ++ later)).1 = ((f.applyAll calls).1.applyAll later).1 := by
  induction calls generalizing f with
  | nil => rfl
  | cons call calls ih => exact ih (f.apply call).1

/-- No call takes back what the filter accepts. -/
theorem accepts_after_applyAll {f : Filter} {host : String} (h : f.accepts host = true)
    (calls : List Insertion) : (f.applyAll calls).1.accepts host = true := by
  obtain ⟨accepted, patterns, results, -, -, hrun⟩ := f.accepts_applyAll calls
  rw [hrun, accepts_extend, h, Bool.true_or]

/-- After any row of calls, failing or not, a new filter holds the patterns of the texts that the
calls have accepted, in their order, and what the calls accept and return is determined. So it has
as many patterns as there are such texts, and it accepts a host name iff one of them does. It goes
on accepting that name whatever calls there are later. -/
theorem patterns_of_applyAll (anchor : Anchor) (calls : List Insertion) :
    ∃ accepted, AcceptsAll anchor calls accepted ((empty anchor).applyAll calls).2 ∧
      (∀ others returned, AcceptsAll anchor calls others returned →
        others = accepted ∧ returned = ((empty anchor).applyAll calls).2) ∧
      CompileTo anchor accepted.flatten ((empty anchor).applyAll calls).1.patterns ∧
      ((empty anchor).applyAll calls).1.size = accepted.flatten.length ∧
      (∀ host, ((empty anchor).applyAll calls).1.accepts host = true ↔
        ∃ text ∈ accepted.flatten, ∃ p, Pattern.compile text anchor = .ok p ∧
          p.accepts host = true) ∧
      ∀ later host, ((empty anchor).applyAll calls).1.accepts host = true →
        ((empty anchor).applyAll (calls ++ later)).1.accepts host = true := by
  obtain ⟨accepted, patterns, results, hcalls, hpatterns, hrun⟩ :=
    (empty anchor).accepts_applyAll calls
  have hheld : ((empty anchor).extend patterns).patterns = patterns := List.nil_append patterns
  rw [hrun]
  refine ⟨accepted, hcalls, fun others returned => hcalls.unique, ?_, ?_, ?_, ?_⟩
  · rw [hheld]
    exact hpatterns
  · rw [size, hheld]
    exact (List.Forall₂.length_eq hpatterns).symm
  · intro host
    rw [accepts, hheld]
    exact hpatterns.any_accepts_iff host
  · intro later host haccepts
    rw [applyAll_append, hrun]
    exact accepts_after_applyAll haccepts later

/-- A list that fails at an empty set, behind a pattern that stays, and a text without a fault. -/
theorem patterns_of_applyAll_failing :
    AcceptsAll .whole [.list "a,[],b", .single "d"] [["a"], ["d"]]
        [.error .invalidNumber, .ok ()] ∧
      ((empty .whole).applyAll [.list "a,[],b", .single "d"]).2 =
        [.error .invalidNumber, .ok ()] ∧
      ((empty .whole).applyAll [.list "a,[],b", .single "d"]).1.size = 2 := by
  have ha : Segment.readAll 1 "a".toList = .ok [.literal 'a'] :=
    Segment.readAll_cons rfl (by decide) (Segment.readAll_nil (by decide))
  have hd : Segment.readAll 1 "d".toList = .ok [.literal 'd'] :=
    Segment.readAll_cons rfl (by decide) (Segment.readAll_nil (by decide))
  have hset : Segment.next "[]".toList = .error .invalidNumber :=
    Segment.next_set_error (Segment.readTerms_error rfl)
  have hempty : Pattern.compile "[]" .whole = .error .invalidNumber :=
    Pattern.compile_eq_error_iff.mpr (Segment.readAll_of_error hset (by decide))
  have hlist : splitPatterns "a,[],b" = .ok (["a"] ++ "[]" :: ["b"]) := rfl
  have hcalls : AcceptsAll .whole [.list "a,[],b", .single "d"] [["a"], ["d"]]
      [.error .invalidNumber, .ok ()] :=
    .cons (.upTo hlist (.cons (Pattern.compile_of_readAll .whole ha) .nil) hempty)
      (.cons (.single (Pattern.compile_of_readAll .whole hd)) .nil)
  obtain ⟨accepted, -, hunique, -, hsize, -⟩ :=
    patterns_of_applyAll .whole [.list "a,[],b", .single "d"]
  obtain ⟨rfl, hresults⟩ := hunique _ _ hcalls
  exact ⟨hcalls, hresults.symm, hsize⟩

end Filter

end NodeQuery.Host

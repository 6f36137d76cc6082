import NodeQuery.Proofs.Host.Matching
import NodeQuery.Proofs.Query.Acceptance

/-!
# Operations and their definitions

A word of a derivation can be replaced by any primary that stands for it, whatever the place: under
complements, in groups, beside connectives of any rank. So a named operation means its definition in
parentheses. The definition may be a bare number or field, which a comparison could take and the
operation could not; that is why the replacement only has to serve where the word did.
-/
namespace NodeQuery.Query

theorem reads_operation_unique {v : Vocabulary} {word name : String} {e : Expr} {a : Value}
    (hnumber : ∀ value, ¬ IsNumber word value) (hname : v.resolve word = .name name)
    (he : v.operation? name = some e) (h : Reads v word a) : a = .rows e := by
  cases h with
  | number h => exact absurd h (hnumber _)
  | field _ hfield =>
    rw [hname] at hfield
    cases hfield
  | operation _ hother he' =>
    rw [hname] at hother
    cases hother
    rw [he] at he'
    cases he'
    rfl
  | pattern _ hother hnone _ =>
    rw [hname] at hother
    cases hother
    rw [he] at hnone
    cases hnone

/-- In every place that takes the one value, the other can stand: it is the same value, or one that
selects the rows that the other is. -/
def Value.StandsFor (b a : Value) : Prop := b = a ∨ ∃ e, a = .rows e ∧ b.Selects e

theorem Value.StandsFor.refl (a : Value) : a.StandsFor a := .inl rfl

theorem Value.StandsFor.selects {a b : Value} {x : Expr} (h : b.StandsFor a) (hx : a.Selects x) :
    b.Selects x := by
  rcases h with rfl | ⟨e, rfl, hb⟩
  · exact hx
  · cases hx
    exact hb

theorem Value.StandsFor.eq_field {b : Value} {name word : String}
    (h : b.StandsFor (.field name word)) : b = .field name word := by
  rcases h with rfl | ⟨e, he, -⟩
  · rfl
  · cases he

theorem Value.StandsFor.eq_number {b : Value} {value : Float} {word : String}
    (h : b.StandsFor (.number value word)) : b = .number value word := by
  rcases h with rfl | ⟨e, he, -⟩
  · rfl
  · cases he

/-- A symbol of a row of two parts with another symbol between them is in one of the parts. -/
theorem exists_of_append_cons_eq {α : Type} {s t before after : List α} {x y : α} (hne : x ≠ y)
    (h : s ++ x :: t = before ++ y :: after) :
    (∃ more, s = before ++ y :: more ∧ after = more ++ x :: t) ∨
      ∃ more, before = s ++ x :: more ∧ t = more ++ y :: after := by
  rcases List.append_eq_append_iff.mp h with ⟨more, rfl, hmore⟩ | ⟨more, rfl, hmore⟩
  · cases more with
    | nil => exact absurd (List.cons.inj hmore).1 hne
    | cons z more =>
      obtain ⟨rfl, rfl⟩ := List.cons.inj hmore
      exact .inr ⟨more, rfl, rfl⟩
  · cases more with
    | nil => exact absurd (List.cons.inj hmore).1.symm hne
    | cons z more =>
      obtain ⟨rfl, rfl⟩ := List.cons.inj hmore
      exact .inl ⟨more, rfl, rfl⟩

/-- What stands for the word at each of its places in the two parts of a connection stands for it in
the whole. -/
theorem derives_replace_combined {v : Vocabulary} {level right : Level} {op : Connective}
    (hrule : ∀ {s t : List Symbol} {a b : Value} {x y : Expr}, Derives v level s a →
      Derives v right t b → a.Selects x → b.Selects y →
      Derives v level (s ++ .connective op :: t) (.rows (.combine op x y)))
    {word : String} {middle s t : List Symbol} {a b : Value} {x y : Expr}
    (hs : Derives v level s a) (ht : Derives v right t b) (hx : a.Selects x) (hy : b.Selects y)
    (ihs : ∀ {before after}, s = before ++ .word word :: after →
      ∃ c, Derives v level (before ++ (middle ++ after)) c ∧ c.StandsFor a)
    (iht : ∀ {before after}, t = before ++ .word word :: after →
      ∃ c, Derives v right (before ++ (middle ++ after)) c ∧ c.StandsFor b)
    {before after : List Symbol}
    (hplace : s ++ .connective op :: t = before ++ .word word :: after) :
    ∃ c, Derives v level (before ++ (middle ++ after)) c ∧
      c.StandsFor (.rows (.combine op x y)) := by
  rcases exists_of_append_cons_eq (by simp) hplace with ⟨more, rfl, rfl⟩ | ⟨more, rfl, rfl⟩
  · obtain ⟨c, hc, hfor⟩ := ihs rfl
    have hwhole := hrule hc ht (hfor.selects hx) hy
    exact ⟨_, by simpa using hwhole, .refl _⟩
  · obtain ⟨c, hc, hfor⟩ := iht rfl
    have hwhole := hrule hs hc hx (hfor.selects hy)
    exact ⟨_, by simpa using hwhole, .refl _⟩

/-- A primary that stands for a word can replace it at any place of a derivation. -/
theorem derives_replace {v : Vocabulary} {word : String} {middle : List Symbol} {b : Value}
    (hmiddle : Derives v .primary middle b) (hstands : ∀ a, Reads v word a → b.StandsFor a)
    {level : Level} {symbols : List Symbol} {a : Value} (h : Derives v level symbols a)
    {before after : List Symbol} (hplace : symbols = before ++ .word word :: after) :
    ∃ c, Derives v level (before ++ (middle ++ after)) c ∧ c.StandsFor a := by
  induction h generalizing before after with
  | conjunction _ ih =>
    obtain ⟨c, hc, hfor⟩ := ih hplace
    exact ⟨c, .conjunction hc, hfor⟩
  | relation _ ih =>
    obtain ⟨c, hc, hfor⟩ := ih hplace
    exact ⟨c, .relation hc, hfor⟩
  | primary _ ih =>
    obtain ⟨c, hc, hfor⟩ := ih hplace
    exact ⟨c, .primary hc, hfor⟩
  | or hs ht hx hy ihs iht => exact derives_replace_combined .or hs ht hx hy ihs iht hplace
  | and hs ht hx hy ihs iht => exact derives_replace_combined .and hs ht hx hy ihs iht hplace
  | @comparison s t op name left right value hs ht ihs iht =>
    rcases exists_of_append_cons_eq (by simp) hplace with ⟨more, rfl, rfl⟩ | ⟨more, rfl, rfl⟩
    · obtain ⟨c, hc, hfor⟩ := ihs rfl
      have hcompared : Derives v .relation (_ ++ .comparison op :: t) _ :=
        .comparison (hfor.eq_field ▸ hc) ht
      exact ⟨_, by simpa using hcompared, .refl _⟩
    · obtain ⟨c, hc, hfor⟩ := iht rfl
      have hcompared : Derives v .relation (s ++ .comparison op :: _) _ :=
        .comparison hs (hfor.eq_number ▸ hc)
      exact ⟨_, by simpa using hcompared, .refl _⟩
  | group _ ih =>
    cases before with
    | nil => cases hplace
    | cons z before =>
      obtain ⟨rfl, hinside⟩ := List.cons.inj hplace
      rcases exists_of_append_cons_eq (by simp) hinside with ⟨more, rfl, rfl⟩ | ⟨more, -, hend⟩
      · obtain ⟨c, hc, hfor⟩ := ih rfl
        exact ⟨c, by simpa using Derives.group hc, hfor⟩
      · simp at hend
  | complement _ hx ih =>
    cases before with
    | nil => cases hplace
    | cons z before =>
      obtain ⟨rfl, hrest⟩ := List.cons.inj hplace
      obtain ⟨c, hc, hfor⟩ := ih hrest
      exact ⟨_, .complement hc (hfor.selects hx), .refl _⟩
  | @word read a hread =>
    cases before with
    | nil =>
      cases hplace
      exact ⟨b, by simpa using hmiddle, hstands a hread⟩
    | cons z before => simp at hplace

/-- A text that is cut around a word with blanks beside it. -/
theorem exists_of_cuts_around {before word after : String} (hword : IsWord word)
    {symbols : List Symbol} (h : Cuts (before ++ " " ++ word ++ " " ++ after).toList symbols) :
    ∃ s t, symbols = s ++ .word word :: t ∧ Cuts before.toList s ∧ Cuts after.toList t := by
  have hspace : isSpace ' ' = true := rfl
  have htext : (before ++ " " ++ word ++ " " ++ after).toList =
      before.toList ++ ' ' :: (word.toList ++ ' ' :: after.toList) := by simp
  rw [htext] at h
  obtain ⟨s, rest, rfl, hs, hrest⟩ := exists_of_cuts_append hspace h
  obtain ⟨middle, t, rfl, hmiddle, ht⟩ := exists_of_cuts_append hspace hrest
  obtain rfl := cuts_unique hmiddle hword.cuts
  exact ⟨s, t, rfl, hs, ht⟩

theorem cuts_around_group {before inside after : String} {s middle t : List Symbol}
    (hs : Cuts before.toList s) (hmiddle : Cuts inside.toList middle) (ht : Cuts after.toList t) :
    Cuts (before ++ " ( " ++ inside ++ " ) " ++ after).toList
      (s ++ (.opening :: (middle ++ [.closing]) ++ t)) := by
  have hspace : isSpace ' ' = true := rfl
  have htext : (before ++ " ( " ++ inside ++ " ) " ++ after).toList =
      before.toList ++ ' ' :: '(' :: ' ' :: (inside.toList ++
        ' ' :: ')' :: ' ' :: after.toList) := by simp
  have hclosing : Cuts (')' :: ' ' :: after.toList) (.closing :: t) :=
    .closing (.space hspace ht)
  have hinside := cuts_append hspace hmiddle hclosing
  rw [htext, List.cons_append, List.append_assoc, List.singleton_append]
  exact cuts_append hspace hs (.opening (.space hspace hinside))

/-- A word that leads to an operation can be replaced by the definition in parentheses, wherever it
stands. -/
theorem compile_replace_operation {v : Vocabulary} {word name definition before after : String}
    {e t : Expr} (hword : IsWord word) (hnumber : ∀ value, ¬ IsNumber word value)
    (hname : v.resolve word = .name name) (he : v.operation? name = some e)
    (hdefinition : compile v definition = .ok e)
    (h : compile v (before ++ " " ++ word ++ " " ++ after) = .ok t) :
    compile v (before ++ " ( " ++ definition ++ " ) " ++ after) = .ok t := by
  obtain ⟨symbols, a, hcuts, ha, ht⟩ := derives_of_compile h
  obtain ⟨middle, b, hmiddle, hb, hrows⟩ := derives_of_compile hdefinition
  obtain ⟨s, u, rfl, hs, hu⟩ := exists_of_cuts_around hword hcuts
  have hstands : ∀ c, Reads v word c → b.StandsFor c := fun c hc =>
    .inr ⟨e, reads_operation_unique hnumber hname he hc, hrows⟩
  obtain ⟨c, hc, hfor⟩ := derives_replace (.group hb) hstands ha rfl
  exact compile_of_derives (cuts_around_group hs hmiddle hu) hc (hfor.selects ht)

/-- An alias of an operation under a complement and beside a connective that binds tighter than the
one of its definition. -/
theorem compile_replace_operation_complement :
    ∃ v e t, v.resolve "b" = .name "pair" ∧ v.operation? "pair" = some e ∧
      compile v "n1 or n2" = .ok e ∧ compile v "~ b and n2" = .ok t ∧
      compile v "~ ( n1 or n2 ) and n2" = .ok t := by
  have hone : Host.Segment.readAll 1 "n1".toList = .ok [.literal 'n', .literal '1'] :=
    Host.Segment.readAll_cons rfl (by decide) <| Host.Segment.readAll_cons rfl (by decide)
      (Host.Segment.readAll_nil (by decide))
  have htwo : Host.Segment.readAll 1 "n2".toList = .ok [.literal 'n', .literal '2'] :=
    Host.Segment.readAll_cons rfl (by decide) <| Host.Segment.readAll_cons rfl (by decide)
      (Host.Segment.readAll_nil (by decide))
  let first : Host.Pattern := ⟨"n1", .leading, _, hone⟩
  let second : Host.Pattern := ⟨"n2", .leading, _, htwo⟩
  let e : Expr := .combine .or (.node first) (.node second)
  let v : Vocabulary := ((∅ : Vocabulary).addAlias "b" "pair").insertOperation "pair" e
  have hnumber : ∀ {word}, Decimal.read? word = none → ∀ value, ¬ IsNumber word value :=
    fun hnone value h => Option.some_ne_none value (h.1.symm.trans hnone)
  have hfirst : Derives v .relation [.word "n1"] (.rows (.node first)) :=
    .primary (.word (.pattern (hnumber (by decide)) rfl rfl
      (Host.Pattern.compile_of_readAll .leading hone)))
  have hsecond : Derives v .relation [.word "n2"] (.rows (.node second)) :=
    .primary (.word (.pattern (hnumber (by decide)) rfl rfl
      (Host.Pattern.compile_of_readAll .leading htwo)))
  have hb : Derives v .primary [.word "b"] (.rows e) :=
    .word (.operation (hnumber (by decide)) rfl rfl)
  have hdefinition : compile v "n1 or n2" = .ok e := by
    have hscan : Scan.ofText 1 "n1 or n2".toList =
        ⟨[⟨.word "n1", 1⟩, ⟨.connective .or, 4⟩, ⟨.word "n2", 7⟩], .ok 9⟩ := by cbv
    have hcuts := cuts_of_ofText (congrArg Scan.ending hscan)
    rw [hscan] at hcuts
    exact compile_of_derives hcuts
      (.or (.conjunction (.relation hfirst)) (.relation hsecond) (.rows _) (.rows _)) (.rows _)
  have hplace : compile v "~ b and n2" = .ok (.combine .and (.complement e) (.node second)) := by
    have hscan : Scan.ofText 1 "~ b and n2".toList =
        ⟨[⟨.complement, 1⟩, ⟨.word "b", 3⟩, ⟨.connective .and, 5⟩, ⟨.word "n2", 9⟩],
          .ok 11⟩ := by cbv
    have hcuts := cuts_of_ofText (congrArg Scan.ending hscan)
    rw [hscan] at hcuts
    exact compile_of_derives hcuts
      (.conjunction (.and (.relation (.primary (.complement hb (.rows _)))) hsecond
        (.rows _) (.rows _))) (.rows _)
  have hword : IsWord "b" := ⟨by decide, List.forall_mem_singleton.mpr rfl, by decide⟩
  have htext : "~" ++ " " ++ "b" ++ " " ++ "and n2" = "~ b and n2" := by decide
  have hreplaced := compile_replace_operation hword (hnumber (by decide)) rfl rfl hdefinition
    (htext ▸ hplace)
  exact ⟨v, e, _, rfl, rfl, hdefinition, hplace, hreplaced⟩

end NodeQuery.Query

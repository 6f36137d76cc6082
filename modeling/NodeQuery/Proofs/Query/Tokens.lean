import NodeQuery.Proofs.Text.Runs
import NodeQuery.Query.Token

/-!
# Texts and their symbols

How a text is cut into symbols, said without scanning: blanks separate, parentheses stand alone,
and operators and words are maximal runs. A scan that ends without an error yields exactly these
symbols.
-/
namespace NodeQuery.Query
open Text (EndsRun endsRun_dropWhile endsRun_append_cons_iff exists_of_run_append takeWhile_run
  dropWhile_run)

/-- The symbols that are written with operator characters. -/
inductive Symbol.IsOperator : Symbol → Prop
  | complement : IsOperator .complement
  | comparison (op : Comparison) : IsOperator (.comparison op)

/-- The text is cut into the symbols, and nothing is left. -/
inductive Cuts : List Char → List Symbol → Prop
  | nil : Cuts [] []
  | space {c : Char} {rest : List Char} {symbols : List Symbol} (hc : isSpace c = true)
      (hrest : Cuts rest symbols) : Cuts (c :: rest) symbols
  | opening {rest : List Char} {symbols : List Symbol} (hrest : Cuts rest symbols) :
      Cuts ('(' :: rest) (.opening :: symbols)
  | closing {rest : List Char} {symbols : List Symbol} (hrest : Cuts rest symbols) :
      Cuts (')' :: rest) (.closing :: symbols)
  | operator {symbol : Symbol} {rest : List Char} {symbols : List Symbol}
      (hoperator : symbol.IsOperator) (hends : EndsRun isOperatorChar rest)
      (hrest : Cuts rest symbols) : Cuts (symbol.text.toList ++ rest) (symbol :: symbols)
  | word {run rest : List Char} {symbols : List Symbol} (hne : run ≠ [])
      (hrun : ∀ c ∈ run, isWordChar c = true) (hends : EndsRun isWordChar rest)
      (hrest : Cuts rest symbols) :
      Cuts (run ++ rest) (.ofWord (String.ofList run) :: symbols)

theorem Comparison.ofSymbol?_eq_some_iff {run : String} {op : Comparison} :
    Comparison.ofSymbol? run = some op ↔ run = op.symbol := by
  constructor
  · intro h
    unfold Comparison.ofSymbol? at h
    repeat' split at h
    all_goals first | cases h; assumption | cases h
  · rintro rfl
    cases op <;> decide

theorem Symbol.ofOperator?_eq_some_iff {run : String} {symbol : Symbol} :
    Symbol.ofOperator? run = some symbol ↔ symbol.IsOperator ∧ run = symbol.text := by
  unfold Symbol.ofOperator?
  constructor
  · intro h
    split at h
    next hrun =>
      cases h
      exact ⟨.complement, hrun⟩
    next =>
      obtain ⟨op, hop, rfl⟩ := Option.map_eq_some_iff.mp h
      exact ⟨.comparison op, Comparison.ofSymbol?_eq_some_iff.mp hop⟩
  · rintro ⟨hoperator, rfl⟩
    cases hoperator with
    | complement => rfl
    | comparison op => cases op <;> decide

theorem Symbol.IsOperator.run {symbol : Symbol} (h : symbol.IsOperator) :
    ∃ c run, symbol.text.toList = c :: run ∧ ∀ d ∈ c :: run, isOperatorChar d = true := by
  cases h with
  | complement => exact ⟨'~', [], rfl, by simp [isOperatorChar]⟩
  | comparison op =>
    cases op with
    | lt => exact ⟨'<', [], rfl, by simp [isOperatorChar]⟩
    | le => exact ⟨'<', ['='], rfl, by simp [isOperatorChar]⟩
    | gt => exact ⟨'>', [], rfl, by simp [isOperatorChar]⟩
    | ge => exact ⟨'>', ['='], rfl, by simp [isOperatorChar]⟩
    | eq => exact ⟨'=', [], rfl, by simp [isOperatorChar]⟩

theorem isWordChar_of_not {c : Char} (hspace : ¬ isSpace c = true) (hopening : ¬ c = '(')
    (hclosing : ¬ c = ')') (hoperator : ¬ isOperatorChar c = true) : isWordChar c = true := by
  simp [isWordChar, isParenthesis, hspace, hopening, hclosing, hoperator]

/-- A scan without an error has cut the whole text. -/
theorem cuts_of_ofText {location last : Nat} {text : List Char}
    (h : (Scan.ofText location text).ending = .ok last) :
    Cuts text ((Scan.ofText location text).tokens.map (·.symbol)) := by
  fun_induction Scan.ofText location text with
  | case1 => exact .nil
  | case2 location c rest hspace ih => exact .space hspace (ih h)
  | case3 location rest _ ih => exact .opening (ih h)
  | case4 location rest _ _ ih => exact .closing (ih h)
  | case5 => cases h
  | case6 location c rest _ _ _ hc run symbol hsymbol ih =>
    obtain ⟨hoperator, htext⟩ := Symbol.ofOperator?_eq_some_iff.mp hsymbol
    have hrun : symbol.text.toList = run := by rw [← htext, String.toList_ofList]
    have hcut := Cuts.operator hoperator (endsRun_dropWhile isOperatorChar rest) (ih h)
    rw [hrun, List.cons_append, List.takeWhile_append_dropWhile] at hcut
    exact hcut
  | case7 location c rest hspace hopening hclosing hoperator run ih =>
    have hword := isWordChar_of_not hspace hopening hclosing hoperator
    have hrun : ∀ d ∈ run, isWordChar d = true := by
      intro d hd
      rcases List.mem_cons.mp hd with rfl | hd
      · exact hword
      · exact List.mem_takeWhile_imp hd
    have hcut := Cuts.word (List.cons_ne_nil _ _) hrun (endsRun_dropWhile isWordChar rest) (ih h)
    rw [List.cons_append, List.takeWhile_append_dropWhile] at hcut
    exact hcut

theorem not_special_of_isOperatorChar {c : Char} (h : isOperatorChar c = true) :
    ¬ isSpace c = true ∧ ¬ c = '(' ∧ ¬ c = ')' := by
  simp only [isOperatorChar, Bool.or_eq_true, decide_eq_true_eq] at h
  rcases h with ((rfl | rfl) | rfl) | rfl <;> decide

theorem not_special_of_isWordChar {c : Char} (h : isWordChar c = true) :
    ¬ isSpace c = true ∧ ¬ c = '(' ∧ ¬ c = ')' ∧ ¬ isOperatorChar c = true := by
  simp only [isWordChar, isParenthesis, Bool.and_eq_true, Bool.not_eq_true', Bool.or_eq_false_iff,
    decide_eq_false_iff_not] at h
  obtain ⟨⟨⟨hopening, hclosing⟩, hoperator⟩, hspace⟩ := h
  exact ⟨by simp [hspace], hopening, hclosing, by simp [hoperator]⟩

/-- A scan finds the symbols of every cut of its text. -/
theorem ofText_of_cuts {text : List Char} {symbols : List Symbol} (h : Cuts text symbols)
    (location : Nat) :
    (Scan.ofText location text).tokens.map (·.symbol) = symbols ∧
      ∃ last, (Scan.ofText location text).ending = .ok last := by
  induction h generalizing location with
  | nil =>
    rw [Scan.ofText]
    exact ⟨rfl, location, rfl⟩
  | space hc _ ih =>
    rw [Scan.ofText, if_pos hc]
    exact ih (location + 1)
  | opening _ ih =>
    obtain ⟨hsymbols, last, hlast⟩ := ih (location + 1)
    rw [Scan.ofText]
    exact ⟨congrArg (Symbol.opening :: ·) hsymbols, last, hlast⟩
  | closing _ ih =>
    obtain ⟨hsymbols, last, hlast⟩ := ih (location + 1)
    rw [Scan.ofText]
    exact ⟨congrArg (Symbol.closing :: ·) hsymbols, last, hlast⟩
  | @operator symbol rest symbols hoperator hends _ ih =>
    obtain ⟨c, run, htext, hrun⟩ := hoperator.run
    have hc := hrun c List.mem_cons_self
    have hmore : ∀ d ∈ run, isOperatorChar d = true := fun d hd =>
      hrun d (List.mem_cons_of_mem c hd)
    obtain ⟨hspace, hopening, hclosing⟩ := not_special_of_isOperatorChar hc
    have hsymbol : Symbol.ofOperator? (String.ofList (c :: run)) = some symbol := by
      rw [← htext, String.ofList_toList]
      exact Symbol.ofOperator?_eq_some_iff.mpr ⟨hoperator, rfl⟩
    obtain ⟨hsymbols, last, hlast⟩ := ih (location + (c :: run).length)
    rw [htext, List.cons_append, Scan.ofText, if_neg hspace, if_neg hopening, if_neg hclosing,
      if_pos hc]
    simp only [takeWhile_run hmore hends, dropWhile_run hmore hends, hsymbol]
    exact ⟨congrArg (symbol :: ·) hsymbols, last, hlast⟩
  | @word run rest symbols hne hrun hends _ ih =>
    obtain ⟨c, run, rfl⟩ := List.exists_cons_of_ne_nil hne
    have hmore : ∀ d ∈ run, isWordChar d = true := fun d hd =>
      hrun d (List.mem_cons_of_mem c hd)
    obtain ⟨hspace, hopening, hclosing, hoperator⟩ :=
      not_special_of_isWordChar (hrun c List.mem_cons_self)
    obtain ⟨hsymbols, last, hlast⟩ := ih (location + (c :: run).length)
    rw [List.cons_append, Scan.ofText, if_neg hspace, if_neg hopening, if_neg hclosing,
      if_neg hoperator]
    simp only [takeWhile_run hmore hends, dropWhile_run hmore hends]
    exact ⟨congrArg (Symbol.ofWord (String.ofList (c :: run)) :: ·) hsymbols, last, hlast⟩

theorem cuts_unique {text : List Char} {s t : List Symbol} (hs : Cuts text s) (ht : Cuts text t) :
    s = t := by
  rw [← (ofText_of_cuts hs 1).1, (ofText_of_cuts ht 1).1]

theorem not_inSymbol_of_isSpace {c : Char} (h : isSpace c = true) :
    isParenthesis c = false ∧ isOperatorChar c = false ∧ isWordChar c = false := by
  simp only [isSpace, Bool.or_eq_true, decide_eq_true_eq] at h
  rcases h with ((rfl | rfl) | rfl) | rfl <;> decide

theorem cuts_append {left right : List Char} {c : Char} {s t : List Symbol} (hc : isSpace c = true)
    (hleft : Cuts left s) (hright : Cuts right t) : Cuts (left ++ c :: right) (s ++ t) := by
  obtain ⟨-, hoperatorChar, hwordChar⟩ := not_inSymbol_of_isSpace hc
  induction hleft with
  | nil => exact .space hc hright
  | space hd _ ih => exact .space hd ih
  | opening _ ih => exact .opening ih
  | closing _ ih => exact .closing ih
  | operator hoperator hends _ ih =>
    rw [List.append_assoc]
    exact .operator hoperator ((endsRun_append_cons_iff hoperatorChar _ right).mpr hends) ih
  | word hne hrun hends _ ih =>
    rw [List.append_assoc]
    exact .word hne hrun ((endsRun_append_cons_iff hwordChar _ right).mpr hends) ih

/-- A blank is in no symbol, so what stands on its two sides is cut apart. -/
theorem exists_of_cuts_append {left right : List Char} {c : Char} {symbols : List Symbol}
    (hc : isSpace c = true) (h : Cuts (left ++ c :: right) symbols) :
    ∃ s t, symbols = s ++ t ∧ Cuts left s ∧ Cuts right t := by
  obtain ⟨hparenthesis, hoperatorChar, hwordChar⟩ := not_inSymbol_of_isSpace hc
  generalize htext : left ++ c :: right = text at h
  induction h generalizing left with
  | nil => simp at htext
  | @space d rest symbols hd hrest ih =>
    cases left with
    | nil =>
      obtain ⟨rfl, rfl⟩ := List.cons.inj htext
      exact ⟨[], symbols, rfl, .nil, hrest⟩
    | cons e left =>
      obtain ⟨rfl, rfl⟩ := List.cons.inj htext
      obtain ⟨s, t, rfl, hs, ht⟩ := ih rfl
      exact ⟨s, t, rfl, .space hd hs, ht⟩
  | @opening rest symbols _ ih =>
    have hrun : ∀ d ∈ ['('], isParenthesis d = true := List.forall_mem_singleton.mpr rfl
    obtain ⟨more, rfl, rfl⟩ := exists_of_run_append hrun hparenthesis htext
    obtain ⟨s, t, rfl, hs, ht⟩ := ih rfl
    exact ⟨.opening :: s, t, rfl, .opening hs, ht⟩
  | @closing rest symbols _ ih =>
    have hrun : ∀ d ∈ [')'], isParenthesis d = true := List.forall_mem_singleton.mpr rfl
    obtain ⟨more, rfl, rfl⟩ := exists_of_run_append hrun hparenthesis htext
    obtain ⟨s, t, rfl, hs, ht⟩ := ih rfl
    exact ⟨.closing :: s, t, rfl, .closing hs, ht⟩
  | @operator symbol rest symbols hoperator hends _ ih =>
    obtain ⟨d, run, hsymbol, hrun⟩ := hoperator.run
    obtain ⟨more, rfl, rfl⟩ := exists_of_run_append (hsymbol ▸ hrun) hoperatorChar htext
    obtain ⟨s, t, rfl, hs, ht⟩ := ih rfl
    have hleft := (endsRun_append_cons_iff hoperatorChar more right).mp hends
    exact ⟨symbol :: s, t, rfl, .operator hoperator hleft hs, ht⟩
  | @word run rest symbols hne hrun hends _ ih =>
    obtain ⟨more, rfl, rfl⟩ := exists_of_run_append hrun hwordChar htext
    obtain ⟨s, t, rfl, hs, ht⟩ := ih rfl
    have hleft := (endsRun_append_cons_iff hwordChar more right).mp hends
    exact ⟨_ :: s, t, rfl, .word hne hrun hleft hs, ht⟩

/-- The word is a single token of its own, and no connective. -/
structure IsWord (word : String) : Prop where
  ne_empty : word ≠ ""
  isWordChar : ∀ c ∈ word.toList, isWordChar c = true
  not_connective : word ≠ "and" ∧ word ≠ "or"

theorem IsWord.cuts {word : String} (h : IsWord word) : Cuts word.toList [.word word] := by
  have hne : word.toList ≠ [] := fun hnil => h.ne_empty (String.toList_eq_nil_iff.mp hnil)
  have hends : EndsRun NodeQuery.Query.isWordChar [] := by simp [EndsRun]
  have hcut := Cuts.word hne h.isWordChar hends .nil
  have hsymbol : Symbol.ofWord word = .word word := by
    simp [Symbol.ofWord, Connective.ofWord?, h.not_connective]
  rwa [List.append_nil, String.ofList_toList, hsymbol] at hcut

end NodeQuery.Query

import NodeQuery.Host.PatternList

/-!
# Splitting of pattern lists

A text whose brackets pair up, with no comma outside of them, passes through the splitter as one
piece. So the splitter undoes the joining of such texts with commas. What it puts out are such texts
as well, so that splitting and joining are inverse to each other.
-/
namespace NodeQuery.Host

/-- Brackets pair up without nesting, and no comma stands outside of them. -/
inductive Balanced : List Char → Prop
  | nil : Balanced []
  | other {c : Char} {rest : List Char} (hopening : c ≠ '[') (hclosing : c ≠ ']')
      (hcomma : c ≠ ',') (hrest : Balanced rest) : Balanced (c :: rest)
  | set {body rest : List Char} (hbody : ∀ c ∈ body, c ≠ '[' ∧ c ≠ ']')
      (hrest : Balanced rest) : Balanced ('[' :: (body ++ ']' :: rest))

theorem Balanced.append {left right : List Char} (hleft : Balanced left)
    (hright : Balanced right) : Balanced (left ++ right) := by
  induction hleft with
  | nil => exact hright
  | other hopening hclosing hcomma _ ih => exact .other hopening hclosing hcomma ih
  | @set body rest hbody _ ih =>
    have hset := Balanced.set hbody ih
    rwa [List.cons_append, List.append_assoc, List.cons_append]

/-- Inside brackets everything up to the closing one is passed. -/
theorem splitFrom_body {body : List Char} (hbody : ∀ c ∈ body, c ≠ '[' ∧ c ≠ ']')
    (pending rest : List Char) :
    splitFrom true pending (body ++ ']' :: rest) =
      splitFrom false (']' :: (body.reverse ++ pending)) rest := by
  induction body generalizing pending with
  | nil => simp [splitFrom]
  | cons c body ih =>
    obtain ⟨hopening, hclosing⟩ := hbody c List.mem_cons_self
    have hstill : (c != ']') = true := by simpa using hclosing
    rw [List.cons_append, splitFrom, if_pos rfl, if_neg hopening, hstill,
      ih (fun d hd => hbody d (List.mem_cons_of_mem c hd))]
    simp

theorem splitFrom_balanced {piece : List Char} (h : Balanced piece) (pending rest : List Char) :
    splitFrom false pending (piece ++ rest) =
      splitFrom false (piece.reverse ++ pending) rest := by
  induction h generalizing pending with
  | nil => rfl
  | @other c piece hopening hclosing hcomma _ ih =>
    have houtside : (c == '[') = false := by simpa using hopening
    rw [List.cons_append, splitFrom]
    simp only [Bool.false_eq_true, hclosing, hcomma, houtside, if_false]
    rw [ih, List.reverse_cons, List.append_assoc, List.singleton_append]
  | @set body piece hbody _ ih =>
    rw [List.cons_append, splitFrom]
    simp only [Bool.false_eq_true, if_false, beq_self_eq_true,
      (by decide : ('[' = ']') = False), (by decide : ('[' = ',') = False)]
    rw [List.append_assoc, List.cons_append, splitFrom_body hbody, ih]
    simp

theorem splitFrom_last {piece : List Char} (h : Balanced piece) (hne : piece ≠ []) :
    splitFrom false [] piece = .ok [piece] := by
  have hwhole := splitFrom_balanced h [] []
  simp only [List.append_nil] at hwhole
  rw [hwhole, splitFrom]
  simp [hne]

theorem splitFrom_more {piece rest : List Char} (h : Balanced piece) (hne : piece ≠ [])
    {pieces : List (List Char)} (hrest : splitFrom false [] rest = .ok pieces) :
    splitFrom false [] (piece ++ ',' :: rest) = .ok (piece :: pieces) := by
  rw [splitFrom_balanced h, splitFrom]
  simp [hne, hrest]

theorem splitFrom_intercalate {pieces : List (List Char)} (hsome : pieces ≠ [])
    (h : ∀ piece ∈ pieces, piece ≠ [] ∧ Balanced piece) :
    splitFrom false [] ([','].intercalate pieces) = .ok pieces := by
  induction pieces with
  | nil => contradiction
  | cons piece pieces ih =>
    obtain ⟨hne, hpiece⟩ := h piece List.mem_cons_self
    cases pieces with
    | nil =>
      rw [List.intercalate_singleton]
      exact splitFrom_last hpiece hne
    | cons next more =>
      have hmore := ih (List.cons_ne_nil next more) fun p hp => h p (List.mem_cons_of_mem piece hp)
      rw [List.intercalate_cons_cons, List.append_assoc, List.singleton_append]
      exact splitFrom_more hpiece hne hmore

theorem splitPatterns_intercalate {patterns : List String}
    (h : ∀ pattern ∈ patterns, pattern ≠ "" ∧ Balanced pattern.toList) :
    splitPatterns (String.intercalate "," patterns) = .ok patterns := by
  cases patterns with
  | nil => rfl
  | cons first more =>
    have hpieces : ∀ piece ∈ (first :: more).map String.toList, piece ≠ [] ∧ Balanced piece := by
      intro piece hpiece
      obtain ⟨pattern, hmem, rfl⟩ := List.mem_map.mp hpiece
      obtain ⟨hne, hbalanced⟩ := h pattern hmem
      exact ⟨fun hnil => hne (String.toList_eq_nil_iff.mp hnil), hbalanced⟩
    have hsplit := splitFrom_intercalate (by simp) hpieces
    have htext : (String.intercalate "," (first :: more)).toList =
        [','].intercalate ((first :: more).map String.toList) := String.toList_intercalate
    rw [← htext] at hsplit
    rw [splitPatterns]
    split
    next hempty =>
      -- the splitter refuses the empty text, which it is not given here
      rw [String.isEmpty_iff.mp hempty] at hsplit
      cases hsplit
    next =>
      rw [hsplit]
      simp [Function.comp_def]

/-! What the splitter puts out -/

/-- A piece as far as it has been read: outside of brackets a balanced text, inside of them a
balanced text, the opening bracket and what stands behind it. -/
inductive Begun : Bool → List Char → Prop
  | outside {text : List Char} (h : Balanced text) : Begun false text
  | inside {before body : List Char} (hbefore : Balanced before)
      (hbody : ∀ c ∈ body, c ≠ '[' ∧ c ≠ ']') : Begun true (before ++ '[' :: body)

theorem Begun.start : Begun false ([] : List Char).reverse := .outside .nil

theorem Begun.balanced {inside : Bool} {text : List Char} (h : Begun inside text)
    (hout : ¬ inside = true) : Balanced text := by
  cases h with
  | outside h => exact h
  | inside => contradiction

theorem Begun.push_outside {inside : Bool} {text : List Char} {c : Char} (h : Begun inside text)
    (hout : ¬ inside = true) (hclosing : c ≠ ']') (hcomma : c ≠ ',') :
    Begun (c == '[') (text ++ [c]) := by
  have hbalanced := h.balanced hout
  by_cases hopening : c = '['
  · subst hopening
    exact .inside hbalanced (by simp)
  · have hnot : (c == '[') = false := by simpa using hopening
    rw [hnot]
    exact .outside (hbalanced.append (.other hopening hclosing hcomma .nil))

theorem Begun.push_inside {text : List Char} {c : Char} (h : Begun true text)
    (hopening : c ≠ '[') : Begun (c != ']') (text ++ [c]) := by
  cases h with
  | @inside before body hbefore hbody =>
    rw [List.append_assoc, List.cons_append]
    by_cases hclosing : c = ']'
    · subst hclosing
      exact .outside (hbefore.append (.set hbody .nil))
    · have hstill : (c != ']') = true := by simpa using hclosing
      rw [hstill]
      refine .inside hbefore (List.forall_mem_append.mpr ⟨hbody, ?_⟩)
      exact List.forall_mem_singleton.mpr ⟨hopening, hclosing⟩

/-- What is pending and the rest of the text are the pieces that come out, with commas between. -/
theorem pieces_of_splitFrom {inside : Bool} {pending text : List Char} {pieces : List (List Char)}
    (hbegun : Begun inside pending.reverse) (h : splitFrom inside pending text = .ok pieces) :
    pieces ≠ [] ∧ [','].intercalate pieces = pending.reverse ++ text ∧
      ∀ piece ∈ pieces, piece ≠ [] ∧ Balanced piece := by
  fun_induction splitFrom inside pending text generalizing pieces with
  | case1 | case2 | case4 | case6 | case7 | case8 => cases h
  | case3 inside pending hout hne =>
    -- the end of the text ends the last piece
    cases h
    have hpiece : pending.reverse ≠ [] := by simpa using hne
    exact ⟨by simp, by simp, List.forall_mem_singleton.mpr ⟨hpiece, hbegun.balanced hout⟩⟩
  | case5 pending c rest hopening ih =>
    have hpushed := hbegun.push_inside hopening
    rw [← List.reverse_cons] at hpushed
    simpa using ih hpushed h
  | case9 inside pending rest hout hne others hothers _ ih =>
    -- a comma outside of brackets ends a piece, and the next one begins empty
    cases h
    have hpiece : pending.reverse ≠ [] := by simpa using hne
    obtain ⟨hsome, hjoin, hall⟩ := ih .start hothers
    refine ⟨List.cons_ne_nil _ _, ?_, ?_⟩
    · rw [List.intercalate_cons_of_ne_nil hsome, hjoin]
      simp
    · exact List.forall_mem_cons.mpr ⟨⟨hpiece, hbegun.balanced hout⟩, hall⟩
  | case10 inside pending c rest hout hclosing hcomma ih =>
    have hpushed := hbegun.push_outside hout hclosing hcomma
    rw [← List.reverse_cons] at hpushed
    simpa using ih hpushed h

theorem lists_of_splitPatterns {text : String} {patterns : List String}
    (h : splitPatterns text = .ok patterns) :
    text = "" ∧ patterns = [] ∨ patterns ≠ [] ∧ String.intercalate "," patterns = text ∧
      ∀ pattern ∈ patterns, pattern ≠ "" ∧ Balanced pattern.toList := by
  unfold splitPatterns at h
  split at h
  next hempty =>
    cases h
    exact .inl ⟨String.isEmpty_iff.mp hempty, rfl⟩
  next =>
    split at h
    · cases h
    next pieces hpieces =>
      cases h
      obtain ⟨hsome, hjoin, hall⟩ := pieces_of_splitFrom .start hpieces
      refine .inr ⟨by simpa using hsome, ?_, ?_⟩
      · apply String.toList_injective
        rw [String.toList_intercalate]
        simpa [Function.comp_def] using hjoin
      · intro pattern hpattern
        obtain ⟨piece, hpiece, rfl⟩ := List.mem_map.mp hpattern
        obtain ⟨hne, hbalanced⟩ := hall piece hpiece
        rw [String.toList_ofList]
        exact ⟨by simpa using hne, hbalanced⟩

/-- Every text is split into a list or is no list of patterns, which is the only error. -/
theorem splitPatterns_total (text : String) :
    (∃ patterns, splitPatterns text = .ok patterns) ∨
      ∃ fault, splitPatterns text = .error (.illegalList fault) := by
  unfold splitPatterns
  split
  · exact .inl ⟨[], rfl⟩
  · split
    next fault _ => exact .inr ⟨fault, rfl⟩
    next pieces _ => exact .inl ⟨pieces.map String.ofList, rfl⟩

/-- Splitting is the inverse of joining by commas: it gives the patterns of which a text is the
list, as long as none is empty, brackets pair up without nesting and commas of their own stand
inside of brackets. The empty text is the empty list, and any other text is an illegal list. -/
theorem splitPatterns_eq_ok_iff (text : String) :
    (∀ patterns, splitPatterns text = .ok patterns ↔
      text = "" ∧ patterns = [] ∨ patterns ≠ [] ∧ String.intercalate "," patterns = text ∧
        ∀ pattern ∈ patterns, pattern ≠ "" ∧ Balanced pattern.toList) ∧
      ((∃ patterns, splitPatterns text = .ok patterns) ∨
        ∃ fault, splitPatterns text = .error (.illegalList fault)) := by
  refine ⟨fun patterns => ⟨lists_of_splitPatterns, fun h => ?_⟩, splitPatterns_total text⟩
  rcases h with ⟨rfl, rfl⟩ | ⟨-, rfl, hall⟩
  · rfl
  · exact splitPatterns_intercalate hall

end NodeQuery.Host

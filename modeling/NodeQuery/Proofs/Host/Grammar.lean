import NodeQuery.Host.Pattern
import NodeQuery.Proofs.Host.Numbers

/-!
# The grammar of host patterns

```text
pattern ::= (literal | "*" | set)*
set     ::= "[" term ("," term)* "]"
term    ::= number | number "-" number
```

The grammar as relations between texts and what they spell. What a reader accepts is spelled by the
text that it takes, and its numbers are in range; a text that spells a term within the limits is read
as that term, and terms are read one after the other.
-/
namespace NodeQuery.Host
open Text

/-- Digits spell a number; leading zeros are allowed. -/
structure SpellsNumber (text : List Char) (n : Nat) : Prop where
  ne_nil : text ≠ []
  isDigit : ∀ c ∈ text, c.isDigit = true
  value : Nat.ofDigitChars 10 text 0 = n

inductive SpellsTerm : List Char → Term → Prop
  | single {text : List Char} {n : Nat} (h : SpellsNumber text n) : SpellsTerm text (.single n)
  | range {left right : List Char} {first last : Nat} (hleft : SpellsNumber left first)
      (hright : SpellsNumber right last) (hle : first ≤ last) :
      SpellsTerm (left ++ '-' :: right) ⟨first, last, hle⟩

inductive SpellsTerms : List Char → List Term → Prop
  | last {text : List Char} {term : Term} (h : SpellsTerm text term) : SpellsTerms text [term]
  | more {text rest : List Char} {term : Term} {terms : List Term} (h : SpellsTerm text term)
      (hrest : SpellsTerms rest terms) : SpellsTerms (text ++ ',' :: rest) (term :: terms)

inductive SpellsSegment : List Char → Segment → Prop
  | literal {c : Char} (hstar : c ≠ '*') (hcomma : c ≠ ',') (hopening : c ≠ '[') :
      SpellsSegment [c] (.literal c)
  | star : SpellsSegment ['*'] .star
  | set {text : List Char} {terms : List Term} (h : SpellsTerms text terms) :
      SpellsSegment ('[' :: (text ++ [']'])) (.set terms)

/-- The text is spelled by the segments one after the other. -/
inductive SpellsPattern : List Char → List Segment → Prop
  | nil : SpellsPattern [] []
  | cons {text rest : List Char} {segment : Segment} {segments : List Segment}
      (h : SpellsSegment text segment) (hrest : SpellsPattern rest segments) :
      SpellsPattern (text ++ rest) (segment :: segments)

/-- No term goes above the largest number. -/
def Segment.InRange : Segment → Prop
  | .set terms => ∀ term ∈ terms, term.last ≤ Segment.maxNumber.toNat
  | .literal _ | .star => True

namespace Segment

/-! What is read is spelled -/

theorem spells_of_readNumber {text : List Char} {n : Nat} {rest : List Char}
    (h : readNumber text = .ok (n, rest)) :
    ∃ body, text = body ++ rest ∧ SpellsNumber body n ∧ n ≤ maxNumber.toNat := by
  obtain ⟨hne, hle, rfl, rfl⟩ := readNumber_eq_ok_iff.mp h
  refine ⟨_, (List.takeWhile_append_dropWhile).symm, ⟨hne, ?_, rfl⟩, hle⟩
  exact fun c hc => List.mem_takeWhile_imp hc

/-- A term is read as a number, or as a range that fits its set. -/
theorem readTerm_cases {count : Nat} {text : List Char} {term : Term} {rest : List Char}
    (h : readTerm count text = .ok (term, rest)) :
    (∃ digits n, text = digits ++ rest ∧ term = .single n ∧ SpellsNumber digits n ∧
      n ≤ maxNumber.toNat) ∨
    ∃ left right, text = left ++ '-' :: (right ++ rest) ∧ SpellsNumber left term.first ∧
      SpellsNumber right term.last ∧ term.last ≤ maxNumber.toNat ∧
      count + term.size ≤ maxSetSize := by
  unfold readTerm at h
  split at h
  · cases h
  next first tail hfirst =>
    obtain ⟨left, rfl, hleft, -⟩ := spells_of_readNumber hfirst
    split at h
    · cases h
    next last more hlast =>
      obtain ⟨right, rfl, hright, hmax⟩ := spells_of_readNumber hlast
      split at h
      · cases h
      next hle =>
        dsimp only at h
        split at h
        · cases h
        next hfits =>
          cases h
          exact .inr ⟨left, right, rfl, hleft, hright, hmax, Nat.le_of_not_lt hfits⟩
  next first tail _ hfirst =>
    cases h
    obtain ⟨digits, rfl, hdigits, hmax⟩ := spells_of_readNumber hfirst
    exact .inl ⟨digits, first, rfl, rfl, hdigits, hmax⟩

theorem spells_of_readTerm {count : Nat} {text : List Char} {term : Term} {rest : List Char}
    (h : readTerm count text = .ok (term, rest)) :
    ∃ body, text = body ++ rest ∧ SpellsTerm body term ∧ term.last ≤ maxNumber.toNat := by
  rcases readTerm_cases h with ⟨digits, n, rfl, rfl, hdigits, hmax⟩ |
    ⟨left, right, rfl, hleft, hright, hmax, -⟩
  · exact ⟨digits, rfl, .single hdigits, hmax⟩
  · exact ⟨left ++ '-' :: right, by simp, .range hleft hright term.first_le_last, hmax⟩

theorem spells_of_readTerms {count : Nat} {text : List Char} {terms : List Term}
    {rest : List Char} (h : readTerms count text = .ok (terms, rest)) :
    ∃ body, text = body ++ ']' :: rest ∧ SpellsTerms body terms ∧
      ∀ term ∈ terms, term.last ≤ maxNumber.toNat := by
  fun_induction readTerms count text generalizing terms rest with
  | case1 => cases h
  | case2 count text term tail hterm =>
    cases h
    obtain ⟨body, rfl, hbody, hmax⟩ := spells_of_readTerm hterm
    exact ⟨body, rfl, .last hbody, by simpa using hmax⟩
  | case3 => cases h
  | case4 count text term tail hterm more tail' hmore ih =>
    cases h
    obtain ⟨body, rfl, hbody, hmax⟩ := spells_of_readTerm hterm
    obtain ⟨others, rfl, hothers, hothersMax⟩ := ih hmore
    refine ⟨body ++ ',' :: others, by simp, .more hbody hothers, ?_⟩
    intro t ht
    rcases List.mem_cons.mp ht with rfl | ht
    · exact hmax
    · exact hothersMax t ht
  | case5 => cases h

theorem spells_of_next {text : List Char} {segment : Segment} {rest : List Char}
    (h : next text = .ok (some (segment, rest))) :
    ∃ body, text = body ++ rest ∧ SpellsSegment body segment ∧ segment.InRange := by
  unfold next at h
  split at h
  · cases h
  · cases h
    exact ⟨['*'], rfl, .star, trivial⟩
  · cases h
  next tail =>
    split at h
    · cases h
    next terms rest' hterms =>
      cases h
      obtain ⟨body, rfl, hbody, hmax⟩ := spells_of_readTerms hterms
      exact ⟨'[' :: (body ++ [']']), by simp, .set hbody, hmax⟩
  next c tail hstar hcomma hopening =>
    cases h
    exact ⟨[c], rfl, .literal hstar hcomma hopening, trivial⟩

theorem eq_nil_of_next {text : List Char} (h : next text = .ok none) : text = [] := by
  unfold next at h
  split at h
  · rfl
  · cases h
  · cases h
  · split at h
    · cases h
    · cases h
  · cases h

theorem spells_of_readAll {size : Nat} {text : List Char} {segments : List Segment}
    (h : readAll size text = .ok segments) :
    SpellsPattern text segments ∧ ∀ segment ∈ segments, segment.InRange := by
  fun_induction readAll size text generalizing segments with
  | case1 => cases h
  | case2 => cases h
  | case3 size text _ hnext =>
    cases h
    rw [eq_nil_of_next hnext]
    exact ⟨.nil, by simp⟩
  | case4 => cases h
  | case5 size text _ segment rest hnext more hmore ih =>
    cases h
    obtain ⟨body, rfl, hbody, hrange⟩ := spells_of_next hnext
    obtain ⟨hmoreSpells, hmoreRange⟩ := ih hmore
    refine ⟨.cons hbody hmoreSpells, ?_⟩
    intro s hs
    rcases List.mem_cons.mp hs with rfl | hs
    · exact hrange
    · exact hmoreRange s hs

/-! What is spelled is read, up to the limit on ranges -/

theorem readNumber_of_spells {body rest : List Char} {n : Nat} (h : SpellsNumber body n)
    (hmax : n ≤ maxNumber.toNat) (hends : EndsRun Char.isDigit rest) :
    readNumber (body ++ rest) = .ok (n, rest) := by
  rw [readNumber_eq, takeWhile_run h.isDigit hends, dropWhile_run h.isDigit hends, if_neg h.ne_nil,
    h.value, if_pos hmax]

theorem readTerm_number {body : List Char} {n : Nat} (h : SpellsNumber body n)
    (hmax : n ≤ maxNumber.toNat) {c : Char} (hc : c.isDigit = false ∧ c ≠ '-') (count : Nat)
    (rest : List Char) : readTerm count (body ++ c :: rest) = .ok (.single n, c :: rest) := by
  rw [readTerm, readNumber_of_spells h hmax (endsRun_cons hc.1 rest)]
  split
  · contradiction
  next heq =>
    cases heq
    exact absurd rfl hc.2
  next heq =>
    cases heq
    rfl

theorem readTerm_range {left right : List Char} {first last : Nat} (hleft : SpellsNumber left first)
    (hright : SpellsNumber right last) (hle : first ≤ last) (hmax : last ≤ maxNumber.toNat)
    {c : Char} (hc : c.isDigit = false) (count : Nat) (rest : List Char) :
    readTerm count (left ++ '-' :: (right ++ c :: rest)) =
      if maxSetSize < count + (⟨first, last, hle⟩ : Term).size then .error .rangeTooLarge
      else .ok (⟨first, last, hle⟩, c :: rest) := by
  have hfirst : first ≤ maxNumber.toNat := Nat.le_trans hle hmax
  have hdash : EndsRun Char.isDigit ('-' :: (right ++ c :: rest)) := endsRun_cons rfl _
  rw [readTerm, readNumber_of_spells hleft hfirst hdash]
  simp only [readNumber_of_spells hright hmax (endsRun_cons hc rest), Nat.not_lt.mpr hle, dite_false]

theorem readTerms_last {count : Nat} {text rest : List Char} {term : Term}
    (h : readTerm count text = .ok (term, ']' :: rest)) :
    readTerms count text = .ok ([term], rest) := by
  rw [readTerms]
  split <;> simp_all

theorem readTerms_more {count : Nat} {text rest tail : List Char} {term : Term}
    {terms : List Term} (h : readTerm count text = .ok (term, ',' :: rest))
    (hrest : readTerms (count + term.size) rest = .ok (terms, tail)) :
    readTerms count text = .ok (term :: terms, tail) := by
  rw [readTerms]
  split <;> simp_all

theorem readTerms_error {count : Nat} {text : List Char} {e : PatternError}
    (h : readTerm count text = .error e) : readTerms count text = .error e := by
  rw [readTerms]
  split <;> simp_all

theorem readTerms_more_error {count : Nat} {text rest : List Char} {term : Term} {e : PatternError}
    (h : readTerm count text = .ok (term, ',' :: rest))
    (hrest : readTerms (count + term.size) rest = .error e) :
    readTerms count text = .error e := by
  rw [readTerms]
  split <;> simp_all

theorem length_allMembers_cons (term : Term) (terms : List Term) :
    (Term.allMembers (term :: terms)).length = term.size + (Term.allMembers terms).length := by
  rw [Term.allMembers, List.flatMap_cons, List.length_append, Term.length_members]
  rfl

theorem next_literal {c : Char} (hstar : c ≠ '*') (hopening : c ≠ '[') (hcomma : c ≠ ',')
    (rest : List Char) : next (c :: rest) = .ok (some (.literal c, rest)) := by
  unfold next
  split <;> simp_all

theorem next_set {text rest : List Char} {terms : List Term}
    (h : readTerms 0 text = .ok (terms, rest)) :
    next ('[' :: text) = .ok (some (.set terms, rest)) := by
  simp only [next, h]

theorem next_set_error {text : List Char} {e : PatternError} (h : readTerms 0 text = .error e) :
    next ('[' :: text) = .error e := by
  simp only [next, h]

theorem readTerms_of_next {text rest : List Char} {terms : List Term}
    (h : next text = .ok (some (.set terms, rest))) :
    ∃ tail, text = '[' :: tail ∧ readTerms 0 tail = .ok (terms, rest) := by
  unfold next at h
  split at h
  · cases h
  · cases h
  · cases h
  next tail =>
    split at h
    · cases h
    next hterms =>
      cases h
      exact ⟨tail, rfl, hterms⟩
  · cases h

theorem readAll_nil {size : Nat} (h : size ≤ maxExpressionSize) : readAll size [] = .ok [] := by
  rw [readAll, if_neg (Nat.not_lt.mpr h)]
  split <;> simp_all [next]

theorem readAll_cons {size : Nat} {text rest : List Char} {segment : Segment}
    {segments : List Segment} (h : next text = .ok (some (segment, rest)))
    (hsize : size ≤ maxExpressionSize)
    (hrest : readAll (size + segment.expressionSize) rest = .ok segments) :
    readAll size text = .ok (segment :: segments) := by
  rw [readAll, if_neg (Nat.not_lt.mpr hsize)]
  split <;> simp_all

end Segment

end NodeQuery.Host

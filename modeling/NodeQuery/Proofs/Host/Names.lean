import Mathlib.Data.List.Lex
import Mathlib.Data.Prod.Lex
import Mathlib.Data.String.Basic
import NodeQuery.Host.Name
import NodeQuery.Proofs.Text.Digits
import NodeQuery.Proofs.Text.Runs

/-!
# Host names and their numbers

A name keeps the text that it was cut from, names are linearly ordered, and the stem and number of
an element spell the element.
-/
namespace NodeQuery.Text

theorem cutAt_eq_splitOn (separator : Char) (text : List Char) :
    cutAt separator text = text.splitOn separator := by
  induction text with
  | nil => rfl
  | cons c text ih =>
    rw [List.splitOn_cons_eq_if_modifyHead, ← ih]
    have hne : cutAt separator text ≠ [] := ih ▸ List.splitOn_ne_nil separator text
    change cutStep separator c (cutAt separator text) = _
    cases hpieces : cutAt separator text with
    | nil => contradiction
    | cons piece pieces => simp [cutStep]

theorem notMem_of_mem_cutAt {separator : Char} {text : List Char} :
    ∀ piece ∈ cutAt separator text, separator ∉ piece := by
  induction text with
  | nil => simp [cutAt]
  | cons c text ih =>
    change ∀ piece ∈ cutStep separator c (cutAt separator text), separator ∉ piece
    cases hpieces : cutAt separator text with
    | nil =>
      rw [cutAt_eq_splitOn] at hpieces
      exact absurd hpieces (List.splitOn_ne_nil separator text)
    | cons piece pieces =>
      rw [hpieces] at ih
      rw [cutStep]
      split
      next => exact List.forall_mem_cons.mpr ⟨List.not_mem_nil, ih⟩
      next hne =>
        obtain ⟨hpiece, hmore⟩ := List.forall_mem_cons.mp ih
        refine List.forall_mem_cons.mpr ⟨fun hmem => ?_, hmore⟩
        rcases List.mem_cons.mp hmem with heq | hlater
        · exact hne heq.symm
        · exact hpiece hlater

end NodeQuery.Text

namespace NodeQuery.Host
open Text

namespace Name

/-- The elements of a name, the first one in front. -/
def elements (name : Name) : List String := name.head :: name.tail

theorem elements_ofString (text : String) :
    (ofString text).elements = (text.toList.splitOn '.').map String.ofList := by
  rw [ofString, cutAt_eq_splitOn]
  split
  next hnil => exact absurd (List.map_eq_nil_iff.mp hnil) (List.splitOn_ne_nil _ _)
  next hcons => exact hcons.symm

theorem toList_intercalate_ofList (pieces : List (List Char)) :
    (String.intercalate "." (pieces.map String.ofList)).toList = ['.'].intercalate pieces := by
  have hid : String.toList ∘ String.ofList = id := funext fun _ => String.toList_ofList
  rw [String.toList_intercalate, List.map_map, hid, List.map_id]
  rfl

theorem render_ofString (text : String) : (ofString text).render = text := by
  have hrender : (ofString text).render = String.intercalate "." (ofString text).elements := rfl
  apply String.toList_injective
  rw [hrender, elements_ofString, toList_intercalate_ofList]
  exact List.intercalate_splitOn '.'

theorem elements_injective : Function.Injective elements := by
  intro ⟨head, tail⟩ ⟨head', tail'⟩ h
  obtain ⟨rfl, rfl⟩ := List.cons.inj h
  rfl

theorem ofString_of_notMem {text : String} (h : '.' ∉ text.toList) :
    ofString text = ⟨text, []⟩ := by
  have hone := elements_ofString text
  rw [List.splitOn_eq_singleton h, List.map_singleton, String.ofList_toList] at hone
  exact elements_injective hone

theorem dot_notMem_elements (text : String) :
    ∀ element ∈ (ofString text).elements, '.' ∉ element.toList := by
  intro element helement
  rw [elements_ofString, ← cutAt_eq_splitOn] at helement
  obtain ⟨piece, hpiece, rfl⟩ := List.mem_map.mp helement
  rw [String.toList_ofList]
  exact notMem_of_mem_cutAt piece hpiece

/-- Elements without dots are found again in the text of their name. -/
theorem ofString_render {name : Name} (h : ∀ element ∈ name.elements, '.' ∉ element.toList) :
    ofString name.render = name := by
  have htext : name.render.toList = ['.'].intercalate (name.elements.map String.toList) :=
    String.toList_intercalate
  have hpieces : ∀ piece ∈ name.elements.map String.toList, '.' ∉ piece :=
    List.forall_mem_map.mpr h
  apply elements_injective
  rw [elements_ofString, htext, List.splitOn_intercalate '.' hpieces (by simp [elements]),
    List.map_map]
  simp [Function.comp_def]

theorem ofString_injective : Function.Injective ofString := by
  intro a b h
  rw [← render_ofString a, h, render_ofString]

/-- The tail with a dot in front of each element. -/
def suffix (tail : List String) : String := (Name.mk "" tail).render

theorem render_mk (head : String) (tail : List String) :
    (Name.mk head tail).render = head ++ suffix tail := by
  cases tail with
  | nil => simp [render, suffix]
  | cons next more => simp [render, suffix, String.intercalate_cons_cons, String.append_assoc]

/-- Names in order are the pairs of their tails and heads in order. -/
def key (name : Name) : List String ×ₗ String := toLex (name.tail, name.head)

theorem key_injective : Function.Injective key := by
  intro ⟨head, tail⟩ ⟨head', tail'⟩ h
  obtain ⟨rfl, rfl⟩ := Prod.mk.inj (toLex.injective h)
  rfl

theorem le_iff {a b : Name} : a.le b = true ↔ a.key ≤ b.key := by
  rw [key, key, Prod.Lex.toLex_le_toLex]
  simp [le]

end Name

/-! Stems and numbers -/

theorem foldl_digits (digits : List Char) (value : Nat) :
    digits.foldl (fun n c => n * 10 + (c.toNat - 48)) value =
      Nat.ofDigitChars 10 digits value := by
  induction digits generalizing value with
  | nil => simp
  | cons c digits ih =>
    have hzero : '0'.toNat = 48 := rfl
    rw [List.foldl_cons, ih, Nat.ofDigitChars_cons, Nat.mul_comm, hzero]

/-- The digits at the end of a text. -/
def lastDigits (text : List Char) : List Char := (text.reverse.takeWhile Char.isDigit).reverse

/-- What stands in front of the digits at the end of a text. -/
def frontPart (text : List Char) : List Char := (text.reverse.dropWhile Char.isDigit).reverse

theorem frontPart_append_lastDigits (text : List Char) :
    frontPart text ++ lastDigits text = text := by
  rw [frontPart, lastDigits, ← List.reverse_append, List.takeWhile_append_dropWhile,
    List.reverse_reverse]

theorem isDigit_of_mem_lastDigits {text : List Char} {c : Char} (h : c ∈ lastDigits text) :
    c.isDigit = true :=
  List.mem_takeWhile_imp (List.mem_reverse.mp h)

theorem lastDigits_append {stem digits : List Char} (hdigits : ∀ c ∈ digits, c.isDigit = true)
    (hstem : EndsRun Char.isDigit stem.reverse) : lastDigits (stem ++ digits) = digits := by
  have hrun : ∀ c ∈ digits.reverse, c.isDigit = true := fun c hc =>
    hdigits c (List.mem_reverse.mp hc)
  rw [lastDigits, List.reverse_append, takeWhile_run hrun hstem, List.reverse_reverse]

theorem frontPart_append {stem digits : List Char} (hdigits : ∀ c ∈ digits, c.isDigit = true)
    (hstem : EndsRun Char.isDigit stem.reverse) : frontPart (stem ++ digits) = stem := by
  have hparts := frontPart_append_lastDigits (stem ++ digits)
  rw [lastDigits_append hdigits hstem] at hparts
  exact List.append_cancel_right hparts

theorem stemNumber_eq (element : String) :
    stemNumber element =
      if frontPart element.toList = [] ∨ lastDigits element.toList = [] ∨
          (lastDigits element.toList).head? = some '0' ∧ 1 < (lastDigits element.toList).length then
        none
      else if maxMergedNumber < Nat.ofDigitChars 10 (lastDigits element.toList) 0 then none
      else some (String.ofList (frontPart element.toList),
        Nat.ofDigitChars 10 (lastDigits element.toList) 0) := by
  simp only [stemNumber, frontPart, lastDigits, foldl_digits]
  refine if_congr ?_ rfl rfl
  simp only [Bool.or_eq_true, Bool.and_eq_true, List.isEmpty_iff, beq_iff_eq, decide_eq_true_eq,
    or_assoc]

/-- Digits without a leading zero are the decimal text of their number. -/
theorem toDigits_of_canonical {digits : List Char} (hsome : digits ≠ [])
    (hdigits : ∀ c ∈ digits, c.isDigit = true)
    (hzero : digits.head? = some '0' → digits.length ≤ 1) :
    Nat.toDigits 10 (Nat.ofDigitChars 10 digits 0) = digits := by
  cases digits with
  | nil => contradiction
  | cons c more =>
    refine toDigits_ofDigitChars hdigits ?_
    by_cases hc : c = '0'
    · have hlength := hzero (congrArg some hc)
      rw [List.length_cons] at hlength
      exact .inr (List.eq_nil_of_length_eq_zero (by omega))
    · exact .inl hc

/-- An element with a stem and a number is the stem with the decimal text of the number behind. -/
theorem stemNumber_spells {element stem : String} {n : Nat}
    (h : stemNumber element = some (stem, n)) :
    stem ≠ "" ∧ n ≤ maxMergedNumber ∧ element = stem ++ toString n := by
  rw [stemNumber_eq] at h
  split at h
  · cases h
  next hmergeable =>
    split at h
    · cases h
    next hmax =>
      cases h
      simp only [not_or, not_and, Nat.not_lt] at hmergeable
      obtain ⟨hfront, hsome, hzero⟩ := hmergeable
      have htext := toDigits_of_canonical hsome (fun c => isDigit_of_mem_lastDigits) hzero
      refine ⟨fun hempty => hfront (by simpa using hempty), Nat.not_lt.mp hmax, ?_⟩
      apply String.toList_injective
      rw [String.toList_append, String.toList_ofList, toList_toString, htext,
        frontPart_append_lastDigits]

/-- All digits at the end of an element are its number, so none is left at the end of the stem. -/
theorem endsRun_of_stemNumber {element stem : String} {n : Nat}
    (h : stemNumber element = some (stem, n)) : EndsRun Char.isDigit stem.toList.reverse := by
  rw [stemNumber_eq] at h
  split at h
  · cases h
  · split at h
    · cases h
    · cases h
      rw [String.toList_ofList, frontPart, List.reverse_reverse]
      exact endsRun_dropWhile _ _

/-- A stem that does not end in a digit is found again in front of a number. -/
theorem stemNumber_append {stem : String} (hne : stem ≠ "")
    (hstem : EndsRun Char.isDigit stem.toList.reverse) {n : Nat} (hmax : n ≤ maxMergedNumber) :
    stemNumber (stem ++ toString n) = some (stem, n) := by
  have hdigits : ∀ c ∈ Nat.toDigits 10 n, c.isDigit = true := fun c => isDigit_of_mem_toDigits
  have hlead : ¬((Nat.toDigits 10 n).head? = some '0' ∧ 1 < (Nat.toDigits 10 n).length) := by
    intro h
    obtain ⟨more, hmore⟩ := List.head?_eq_some_iff.mp h.1
    rw [hmore, eq_nil_of_toDigits_eq hmore] at h
    exact Nat.lt_irrefl 1 h.2
  have hfront : stem.toList ≠ [] := fun hnil => hne (String.toList_eq_nil_iff.mp hnil)
  rw [stemNumber_eq, String.toList_append, toList_toString, frontPart_append hdigits hstem,
    lastDigits_append hdigits hstem, Nat.ofDigitChars_ten_toDigits,
    if_neg (by simp only [hfront, Nat.toDigits_ne_nil, hlead, or_self, not_false_eq_true]),
    if_neg (Nat.not_lt.mpr hmax), String.ofList_toList]

/-- The elements that can be merged are the stems with a number behind them. -/
theorem stemNumber_eq_some_iff {element stem : String} {n : Nat} :
    stemNumber element = some (stem, n) ↔
      stem ≠ "" ∧ (∀ c ∈ stem.toList.getLast?, c.isDigit = false) ∧ n ≤ maxMergedNumber ∧
        element = stem ++ toString n := by
  constructor
  · intro h
    obtain ⟨hne, hmax, htext⟩ := stemNumber_spells h
    have hends := endsRun_of_stemNumber h
    rw [EndsRun, List.head?_reverse] at hends
    exact ⟨hne, hends, hmax, htext⟩
  · rintro ⟨hne, hlast, hmax, rfl⟩
    have hends : EndsRun Char.isDigit stem.toList.reverse := by
      rwa [EndsRun, List.head?_reverse]
    exact stemNumber_append hne hends hmax

/-! Numbers in 64 bits -/

/-- The number with one more digit, unless it does not fit a word. -/
def pushDigit (value : UInt64) (c : Char) : Option UInt64 :=
  let next := 10 * value.toNat + (c.toNat - '0'.toNat)
  if next < UInt64.size then some (UInt64.ofNat next) else none

/-- The word that digits of any length spell, read from the left. -/
def readWord (digits : List Char) : Option UInt64 := digits.foldlM pushDigit 0

/-- The stem and the number of an element, where the number is read as a word before its bound is
checked. -/
def stemWord (element : String) : Option (String × UInt64) :=
  let digits := lastDigits element.toList
  if frontPart element.toList = [] ∨ digits = [] ∨
      digits.head? = some '0' ∧ 1 < digits.length then none
  else
    ((readWord digits).filter (·.toNat ≤ maxMergedNumber)).map
      fun n => (String.ofList (frontPart element.toList), n)

/-- A word that does not fit after some digits does not fit after more of them. -/
theorem foldlM_pushDigit (digits : List Char) (value : UInt64) :
    digits.foldlM pushDigit value =
      if Nat.ofDigitChars 10 digits value.toNat < UInt64.size then
        some (UInt64.ofNat (Nat.ofDigitChars 10 digits value.toNat))
      else none := by
  induction digits generalizing value with
  | nil => simp [UInt64.toNat_lt_size]
  | cons c digits ih =>
    rw [List.foldlM_cons, Nat.ofDigitChars_cons, pushDigit]
    split
    next hfits =>
      have hmore := ih (UInt64.ofNat (10 * value.toNat + (c.toNat - '0'.toNat)))
      rw [UInt64.toNat_ofNat_of_lt' hfits] at hmore
      exact hmore
    next hwraps =>
      have hle := le_ofDigitChars digits (10 * value.toNat + (c.toNat - '0'.toNat))
      rw [if_neg (by omega)]
      rfl

theorem filter_readWord (digits : List Char) :
    ((readWord digits).filter (·.toNat ≤ maxMergedNumber)).map UInt64.toNat =
      if maxMergedNumber < Nat.ofDigitChars 10 digits 0 then none
      else some (Nat.ofDigitChars 10 digits 0) := by
  have hsize : maxMergedNumber < UInt64.size := by decide
  have hword := foldlM_pushDigit digits 0
  rw [readWord, hword, UInt64.toNat_zero]
  split
  next hfits =>
    have hvalue := UInt64.toNat_ofNat_of_lt' hfits
    rw [Option.filter_some, hvalue]
    by_cases hmax : Nat.ofDigitChars 10 digits 0 ≤ maxMergedNumber
    · simp [hmax, hvalue, Nat.not_lt.mpr hmax]
    · simp [hmax, Nat.not_le.mp hmax]
  next hwraps =>
    rw [if_pos (by omega)]
    rfl

/-- Digits that do not fit a word do not count, like all numbers above the bound. -/
theorem stemNumber_eq_stemWord (element : String) :
    stemNumber element = (stemWord element).map fun found => (found.1, found.2.toNat) := by
  have hread := filter_readWord (lastDigits element.toList)
  rw [stemNumber_eq, stemWord]
  split
  next => rfl
  next =>
    split at hread
    next hlarge =>
      rw [Option.map_eq_none_iff.mp hread, if_pos hlarge]
      rfl
    next hsmall =>
      obtain ⟨word, hword, hvalue⟩ := Option.map_eq_some_iff.mp hread
      rw [hword, if_neg hsmall, ← hvalue]
      rfl

/-- The stem and the number say exactly which element they come from: an element has them iff it is
the stem, which does not end in a digit, with the decimal text of the number behind it. No two
elements have the same, and a number too long for a word is none. -/
theorem stemNumber_exact :
    (∀ (element stem : String) (n : Nat), stemNumber element = some (stem, n) ↔
      stem ≠ "" ∧ (∀ c ∈ stem.toList.getLast?, c.isDigit = false) ∧ n ≤ maxMergedNumber ∧
        element = stem ++ toString n) ∧
    (∀ left right : String, (stemNumber left).isSome = true →
      stemNumber left = stemNumber right → left = right) ∧
    ∀ element : String,
      stemNumber element = (stemWord element).map fun found => (found.1, found.2.toNat) := by
  refine ⟨fun _ _ _ => stemNumber_eq_some_iff, ?_, stemNumber_eq_stemWord⟩
  intro left right hsome hsame
  obtain ⟨⟨stem, n⟩, hleft⟩ := Option.isSome_iff_exists.mp hsome
  have hright : stemNumber right = some (stem, n) := hsame ▸ hleft
  exact (stemNumber_spells hleft).2.2.trans (stemNumber_spells hright).2.2.symm

/-- A stem that is longer in bytes than in characters. -/
theorem stemNumber_accent :
    stemNumber "é42" = some ("é", 42) ∧
      ∀ other, stemNumber "é42" = stemNumber other → "é42" = other := by
  obtain ⟨hiff, hinjective, -⟩ := stemNumber_exact
  have hlast : ∀ c ∈ "é".toList.getLast?, c.isDigit = false := by simp
  have hnumber : stemNumber "é42" = some ("é", 42) :=
    (hiff "é42" "é" 42).mpr ⟨by decide, hlast, by decide, by decide⟩
  exact ⟨hnumber, fun other => hinjective "é42" other (by rw [hnumber]; rfl)⟩

end NodeQuery.Host

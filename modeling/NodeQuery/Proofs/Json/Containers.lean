import Mathlib.Data.List.Forall2
import NodeQuery.Proofs.Json.Locality

/-!
# Reading arrays and objects

Texts with commas between them and brackets around them are read as the array of their values,
with white space behind the commas and inside the brackets or without, and entries in braces are
read alike. Each text is read as by itself, at a place one level deeper. Arrays in one another are
read as long as they are within the limit, and the bracket that goes over it is refused.
-/
namespace NodeQuery

theorem exists_intercalate_cons {α : Type} (separator first : List α) (more : List (List α)) :
    ∃ rest, separator.intercalate (first :: more) = first ++ rest := by
  cases more with
  | nil => exact ⟨[], by rw [List.intercalate_singleton, List.append_nil]⟩
  | cons next more => exact ⟨_, by rw [List.intercalate_cons_cons, List.append_assoc]⟩

namespace Json

/-! Items -/

section Items
variable {value? : Number → Option Json} {limit larger : Nat} {stack : List Frame}
  {items : List Json} {value : Json} {blanks ending : List Char}

theorem readFrom_opening (hdepth : stack.length < limit) (rest : List Char) :
    readFrom value? limit (.value stack) ('[' :: rest) =
      readFrom value? limit (.itemOrEnd stack) rest :=
  readFrom_starts (.array hdepth)

theorem readFrom_itemOrEnd {c : Char} (hblank : isBlank c = false) (hclosing : c ≠ ']')
    (rest : List Char) :
    readFrom value? limit (.itemOrEnd stack) (c :: rest) =
      readFrom value? limit (.value (.array [] :: stack)) (c :: rest) := by
  have hstep : step value? limit c rest (.itemOrEnd stack) =
      step value? limit c rest (.value (.array [] :: stack)) := if_neg hclosing
  rw [readFrom_solid hblank, readFrom_solid hblank, hstep]

theorem readFrom_comma (rest : List Char) :
    readFrom value? limit (.after value (.array items :: stack)) (',' :: rest) =
      readFrom value? limit (.value (.array (value :: items) :: stack)) rest :=
  readFrom_step rfl rfl

theorem readFrom_closing (rest : List Char) :
    readFrom value? limit (.after value (.array items :: stack)) (']' :: rest) =
      readFrom value? limit (.after (.array (value :: items).reverse) stack) rest :=
  readFrom_step rfl rfl

/-- The first item can be read where the array could also end. -/
theorem readFrom_firstItem {text : List Char}
    (h : readFrom value? limit (.value (.array [] :: stack)) text = some value) :
    readFrom value? limit (.itemOrEnd stack) text = some value := by
  induction text with
  | nil => simp [readFrom] at h
  | cons c rest ih =>
    cases hblank : isBlank c with
    | true =>
      rw [readFrom_blank hblank] at h ⊢
      exact ih h
    | false =>
      have hclosing : c ≠ ']' := by
        rintro rfl
        rw [readFrom_solid rfl] at h
        cases h
      rw [readFrom_itemOrEnd hblank hclosing, h]

/-- A text that is read by itself is read as an item, if it may nest one level deeper. -/
theorem readFrom_item {text rest : List Char} (h : readWith value? limit text = some value)
    (hlimit : limit < larger) (hrest : Text.EndsRun continuesNumber rest) :
    readFrom value? larger (.value [.array items]) (text ++ rest) =
      readFrom value? larger (.after value [.array items]) rest :=
  readFrom_above h [.array items] hlimit hrest

/-- Items with commas between them are read in their order, up to the end of the array. -/
theorem readFrom_items {texts : List (List Char)} {values : List Json} (hlimit : limit < larger)
    (hblanks : ∀ c ∈ blanks, isBlank c = true) (hending : ∀ c ∈ ending, isBlank c = true)
    (h : List.Forall₂ (fun text value => readWith value? limit text = some value) texts values)
    (hsome : texts ≠ []) :
    readFrom value? larger (.value [.array items])
        ((',' :: blanks).intercalate texts ++ (ending ++ [']'])) =
      some (.array (items.reverse ++ values)) := by
  induction h generalizing items with
  | nil => contradiction
  | @cons text value texts values hread hreads ih =>
    cases texts with
    | nil =>
      cases hreads
      have hrest : Text.EndsRun continuesNumber (ending ++ [']']) :=
        (endsRun_blanks hending).append (Text.endsRun_cons rfl [])
      rw [List.intercalate_singleton, readFrom_item hread hlimit hrest,
        readFrom_blanks hending, readFrom_closing, readFrom_end, List.reverse_cons]
    | cons next texts =>
      rw [List.intercalate_cons_cons, List.append_assoc, List.append_assoc, List.cons_append,
        readFrom_item hread hlimit (Text.endsRun_cons rfl _), readFrom_comma,
        readFrom_blanks hblanks, ih (List.cons_ne_nil next texts), List.reverse_cons,
        List.append_assoc, List.singleton_append]

/-- An array of texts has their values as its items. -/
theorem readWith_array {texts : List (List Char)} {values : List Json} (hlimit : limit < larger)
    (hblanks : ∀ c ∈ blanks, isBlank c = true) (hending : ∀ c ∈ ending, isBlank c = true)
    (h : List.Forall₂ (fun text value => readWith value? limit text = some value) texts values) :
    readWith value? larger
        ('[' :: (blanks ++ ((',' :: blanks).intercalate texts ++ (ending ++ [']'])))) =
      some (.array values) := by
  have hdepth : ([] : List Frame).length < larger := Nat.zero_lt_of_lt hlimit
  rw [readWith, readFrom_opening hdepth, readFrom_blanks hblanks]
  cases h with
  | nil =>
    rw [List.intercalate_nil, List.nil_append, readFrom_blanks hending, readFrom_step rfl rfl,
      readFrom_end]
  | cons hread hreads =>
    exact readFrom_firstItem
      (readFrom_items hlimit hblanks hending (.cons hread hreads) (List.cons_ne_nil _ _))

end Items

/-! Entries -/

section Entries
variable {value? : Number → Option Json} {limit larger : Nat} {stack : List Frame}
  {done : List (String × Json)} {text name rest blanks ending : List Char}

theorem readFrom_brace (hdepth : stack.length < limit) (rest : List Char) :
    readFrom value? limit (.value stack) ('{' :: rest) =
      readFrom value? limit (.nameOrEnd stack) rest :=
  readFrom_starts (.object hdepth)

/-- The first name is read where the object could also end. -/
theorem readFrom_firstName (text : List Char) :
    readFrom value? limit (.nameOrEnd stack) ('"' :: text) =
      readFrom value? limit (.name [] stack) ('"' :: text) := by
  rw [readFrom_solid rfl, readFrom_solid rfl]
  rfl

theorem readFrom_name (h : readString [] text = some (name, rest)) :
    readFrom value? limit (.name done stack) ('"' :: text) =
      readFrom value? limit (.colon done (String.ofList name) stack) rest := by
  have hname : startName done stack '"' text =
      some (.colon done (String.ofList name) stack, rest) := by
    rw [startName, if_pos rfl, h]
  exact readFrom_step rfl hname

theorem readFrom_colon (name : String) (rest : List Char) :
    readFrom value? limit (.colon done name stack) (':' :: rest) =
      readFrom value? limit (.value (.entry done name :: stack)) rest :=
  readFrom_step rfl rfl

theorem readFrom_nextEntry (name : String) (value : Json) (rest : List Char) :
    readFrom value? limit (.after value (.entry done name :: stack)) (',' :: rest) =
      readFrom value? limit (.name (insertEntry name value done) stack) rest :=
  readFrom_step rfl rfl

theorem readFrom_closingBrace (name : String) (value : Json) (rest : List Char) :
    readFrom value? limit (.after value (.entry done name :: stack)) ('}' :: rest) =
      readFrom value? limit (.after (.object (insertEntry name value done)) stack) rest :=
  readFrom_step rfl rfl

/-- The text is that of an entry: its name in quotes, a colon and the text of its value. -/
def IsEntry (value? : Number → Option Json) (limit : Nat) (text : List Char)
    (entry : String × Json) : Prop :=
  ∃ name body, text = '"' :: (name ++ '"' :: ':' :: body) ∧
    (∀ rest, readString [] (name ++ '"' :: rest) = some (entry.1.toList, rest)) ∧
      readWith value? limit body = some entry.2

theorem IsEntry.mono {entry : String × Json} (h : IsEntry value? limit text entry) {larger : Nat}
    (hlimit : limit ≤ larger) : IsEntry value? larger text entry := by
  obtain ⟨name, body, htext, hname, hbody⟩ := h
  exact ⟨name, body, htext, hname, readFrom_mono hbody hlimit⟩

theorem readFrom_entry {entry : String × Json} (h : IsEntry value? limit text entry)
    (hlimit : limit < larger) (hrest : Text.EndsRun continuesNumber rest) :
    readFrom value? larger (.name done []) (text ++ rest) =
      readFrom value? larger (.after entry.2 [.entry done entry.1]) rest := by
  obtain ⟨name, body, rfl, hname, hbody⟩ := h
  rw [List.cons_append, List.append_assoc, List.cons_append, List.cons_append,
    readFrom_name (hname _), String.ofList_toList, readFrom_colon]
  exact readFrom_above hbody [.entry done entry.1] hlimit hrest

/-- Entries in the order of their names are read in their order, up to the end of the object. -/
theorem readFrom_entries {texts : List (List Char)} {entries : List (String × Json)}
    (hlimit : limit < larger) (hblanks : ∀ c ∈ blanks, isBlank c = true)
    (hending : ∀ c ∈ ending, isBlank c = true)
    (h : List.Forall₂ (IsEntry value? limit) texts entries) (hsome : texts ≠ [])
    (hsorted : (done ++ entries).Pairwise (·.1 < ·.1)) :
    readFrom value? larger (.name done [])
        ((',' :: blanks).intercalate texts ++ (ending ++ ['}'])) =
      some (.object (done ++ entries)) := by
  induction h generalizing done with
  | nil => contradiction
  | @cons text entry texts entries hentry hentries ih =>
    have hlast : insertEntry entry.1 entry.2 done = done ++ [entry] :=
      insertEntry_of_lt (fun other hother =>
        (List.pairwise_append.mp hsorted).2.2 other hother entry List.mem_cons_self) entry.2
    cases texts with
    | nil =>
      cases hentries
      have hrest : Text.EndsRun continuesNumber (ending ++ ['}']) :=
        (endsRun_blanks hending).append (Text.endsRun_cons rfl [])
      rw [List.intercalate_singleton, readFrom_entry hentry hlimit hrest,
        readFrom_blanks hending, readFrom_closingBrace, readFrom_end, hlast]
    | cons next texts =>
      have hrest : (done ++ [entry] ++ entries).Pairwise (·.1 < ·.1) := by
        rwa [List.append_assoc, List.singleton_append]
      rw [List.intercalate_cons_cons, List.append_assoc, List.append_assoc, List.cons_append,
        readFrom_entry hentry hlimit (Text.endsRun_cons rfl _), readFrom_nextEntry,
        readFrom_blanks hblanks, hlast, ih (List.cons_ne_nil next texts) hrest,
        List.append_assoc, List.singleton_append]

/-- An object of entries in the order of their names has these entries. -/
theorem readWith_object {texts : List (List Char)} {entries : List (String × Json)}
    (hlimit : limit < larger) (hblanks : ∀ c ∈ blanks, isBlank c = true)
    (hending : ∀ c ∈ ending, isBlank c = true)
    (h : List.Forall₂ (IsEntry value? limit) texts entries)
    (hsorted : entries.Pairwise (·.1 < ·.1)) :
    readWith value? larger
        ('{' :: (blanks ++ ((',' :: blanks).intercalate texts ++ (ending ++ ['}'])))) =
      some (.object entries) := by
  have hdepth : ([] : List Frame).length < larger := Nat.zero_lt_of_lt hlimit
  rw [readWith, readFrom_brace hdepth, readFrom_blanks hblanks]
  cases h with
  | nil =>
    rw [List.intercalate_nil, List.nil_append, readFrom_blanks hending, readFrom_step rfl rfl,
      readFrom_end]
  | @cons text entry texts entries hentry hentries =>
    have hread : readFrom value? larger (.name [] []) _ = some (.object ([] ++ _)) :=
      readFrom_entries hlimit hblanks hending (.cons hentry hentries) (List.cons_ne_nil _ _) hsorted
    obtain ⟨name, body, rfl, -⟩ := hentry
    obtain ⟨more, hmore⟩ := exists_intercalate_cons (',' :: blanks) _ texts
    rw [hmore, List.cons_append, List.cons_append] at hread ⊢
    rw [readFrom_firstName, hread, List.nil_append]

end Entries

/-! Nesting -/

/-- Arrays in one another, around an empty one. -/
def nested : Nat → Json
  | 0 => .array []
  | n + 1 => .array [nested n]

section Nesting
variable {value? : Number → Option Json} {limit : Nat} {stack : List Frame}

/-- Brackets within the limit are read as arrays in one another. -/
theorem readFrom_nested {n : Nat} (hdepth : stack.length + n < limit) (rest : List Char) :
    readFrom value? limit (.value stack)
        (List.replicate (n + 1) '[' ++ (List.replicate (n + 1) ']' ++ rest)) =
      readFrom value? limit (.after (nested n) stack) rest := by
  induction n generalizing stack rest with
  | zero =>
    change readFrom value? limit (.value stack) ('[' :: ']' :: rest) = _
    rw [readFrom_opening hdepth]
    exact readFrom_step rfl rfl
  | succ n ih =>
    rw [List.replicate_succ, List.cons_append, readFrom_opening (by omega),
      List.replicate_succ' (n := n + 1), List.append_assoc, List.singleton_append,
      List.replicate_succ (n := n), List.cons_append, readFrom_itemOrEnd rfl (by decide),
      ← List.cons_append, ← List.replicate_succ, ih (by simp; omega), readFrom_closing]
    rfl

theorem readFrom_opening_refused (hdepth : limit ≤ stack.length) (rest : List Char) :
    readFrom value? limit (.value stack) ('[' :: rest) = none := by
  have hnone : step value? limit '[' rest (.value stack) = none := by
    simp [step, startValue, hdepth]
  rw [readFrom_solid rfl, hnone, Option.bind_none]

/-- The bracket that goes over the limit is refused. -/
theorem readFrom_too_deep {n : Nat} (hdepth : limit ≤ stack.length + n) (rest : List Char) :
    readFrom value? limit (.value stack) (List.replicate (n + 1) '[' ++ rest) = none := by
  induction n generalizing stack with
  | zero => exact readFrom_opening_refused hdepth rest
  | succ n ih =>
    rw [List.replicate_succ, List.cons_append]
    rcases Nat.lt_or_ge stack.length limit with hlt | hge
    · rw [readFrom_opening hlt, List.replicate_succ, List.cons_append,
        readFrom_itemOrEnd rfl (by decide), ← List.cons_append, ← List.replicate_succ]
      exact ih (by simp; omega)
    · exact readFrom_opening_refused hge _

end Nesting

end Json

end NodeQuery

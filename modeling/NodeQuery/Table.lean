/-!
# Tables

Entries under names, in ascending order of the names; the last write to a name wins. Two tables
are equal iff they hold the same entries, whatever writes led to them.
-/
namespace NodeQuery

/-- Writes an entry into entries that are in order. -/
def insertEntry (name : String) (value : α) : List (String × α) → List (String × α)
  | [] => [(name, value)]
  | entry :: rest =>
    if name < entry.1 then (name, value) :: entry :: rest
    else if name = entry.1 then (name, value) :: rest
    else entry :: insertEntry name value rest

def lookupEntry (name : String) : List (String × α) → Option α
  | [] => none
  | entry :: rest => if name = entry.1 then some entry.2 else lookupEntry name rest

theorem eq_of_mem_insertEntry {name : String} {value : α} {entries : List (String × α)}
    {entry : String × α} (h : entry ∈ insertEntry name value entries) :
    entry = (name, value) ∨ entry ∈ entries := by
  induction entries with
  | nil => simp [insertEntry] at h; simp [h]
  | cons head rest ih =>
    simp only [insertEntry] at h
    split at h
    · rcases List.mem_cons.mp h with rfl | h
      · exact .inl rfl
      · exact .inr h
    · split at h
      · rcases List.mem_cons.mp h with rfl | h
        · exact .inl rfl
        · exact .inr (List.mem_cons_of_mem _ h)
      · rcases List.mem_cons.mp h with rfl | h
        · exact .inr List.mem_cons_self
        · rcases ih h with h | h
          · exact .inl h
          · exact .inr (List.mem_cons_of_mem _ h)

theorem pairwise_insertEntry (name : String) (value : α) {entries : List (String × α)}
    (h : entries.Pairwise (·.1 < ·.1)) :
    (insertEntry name value entries).Pairwise (·.1 < ·.1) := by
  induction entries with
  | nil => simp [insertEntry]
  | cons head rest ih =>
    have ⟨hhead, hrest⟩ := List.pairwise_cons.mp h
    simp only [insertEntry]
    split
    next hlt =>
      refine List.pairwise_cons.mpr ⟨fun entry he => ?_, h⟩
      rcases List.mem_cons.mp he with rfl | he
      · exact hlt
      · exact String.lt_trans hlt (hhead entry he)
    next hge =>
      split
      next heq =>
        subst heq
        exact List.pairwise_cons.mpr ⟨hhead, hrest⟩
      next hne =>
        refine List.pairwise_cons.mpr ⟨fun entry he => ?_, ih hrest⟩
        rcases eq_of_mem_insertEntry he with he | he
        · rw [he]
          exact Std.lt_of_le_of_ne (String.not_lt.mp hge) (Ne.symm hne)
        · exact hhead entry he

theorem lookupEntry_insertEntry (name : String) (value : α) (entries : List (String × α))
    (other : String) :
    lookupEntry other (insertEntry name value entries) =
      if other = name then some value else lookupEntry other entries := by
  induction entries with
  | nil => simp [insertEntry, lookupEntry]
  | cons head rest ih =>
    simp only [insertEntry]
    split
    · simp [lookupEntry]
    · split
      next heq =>
        subst heq
        by_cases h : other = head.1 <;> simp [lookupEntry, h]
      next hne =>
        simp only [lookupEntry, ih]
        by_cases h : other = head.1
        · subst h
          simp [Ne.symm hne]
        · simp [h]

/-- The last write wins. -/
theorem insertEntry_insertEntry (name : String) (old new : α) (entries : List (String × α)) :
    insertEntry name new (insertEntry name old entries) = insertEntry name new entries := by
  induction entries with
  | nil => simp [insertEntry]
  | cons head rest ih =>
    by_cases hlt : name < head.1
    · simp [insertEntry, hlt]
    · by_cases heq : name = head.1
      · simp [insertEntry, heq]
      · simp [insertEntry, hlt, heq, ih]

/-- A name behind all others is written at the end. -/
theorem insertEntry_of_lt {name : String} {entries : List (String × α)}
    (h : ∀ entry ∈ entries, entry.1 < name) (value : α) :
    insertEntry name value entries = entries ++ [(name, value)] := by
  induction entries with
  | nil => rfl
  | cons head rest ih =>
    have ⟨hhead, hrest⟩ := List.forall_mem_cons.mp h
    have hne : name ≠ head.1 := fun heq => String.lt_irrefl _ (heq ▸ hhead)
    simp [insertEntry, String.lt_asymm hhead, hne, ih hrest]

theorem lookupEntry_eq_none {name : String} {entries : List (String × α)}
    (h : ∀ entry ∈ entries, name ≠ entry.1) : lookupEntry name entries = none := by
  induction entries with
  | nil => rfl
  | cons entry entries ih =>
    rw [lookupEntry, if_neg (h entry List.mem_cons_self)]
    exact ih fun other hother => h other (List.mem_cons_of_mem entry hother)

structure Table (α : Type u) where
  entries : List (String × α)
  sorted : entries.Pairwise (·.1 < ·.1)

namespace Table

def empty : Table α := ⟨[], .nil⟩

instance : EmptyCollection (Table α) := ⟨empty⟩

def insert (t : Table α) (name : String) (value : α) : Table α :=
  ⟨insertEntry name value t.entries, pairwise_insertEntry name value t.sorted⟩

def get? (t : Table α) (name : String) : Option α := lookupEntry name t.entries

def size (t : Table α) : Nat := t.entries.length

def isEmpty (t : Table α) : Bool := t.entries.isEmpty

@[simp] theorem get?_empty (name : String) : (∅ : Table α).get? name = none := rfl

@[simp] theorem get?_insert (t : Table α) (name : String) (value : α) (other : String) :
    (t.insert name value).get? other = if other = name then some value else t.get? other :=
  lookupEntry_insertEntry name value t.entries other

theorem ext {t u : Table α} (h : t.entries = u.entries) : t = u := by
  cases t
  cases u
  cases h
  rfl

instance [DecidableEq α] : DecidableEq (Table α) := fun t u =>
  decidable_of_iff (t.entries = u.entries) ⟨ext, congrArg entries⟩

end Table

end NodeQuery

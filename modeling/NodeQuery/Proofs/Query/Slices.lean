import NodeQuery.Query.Lexer

/-!
# Cutting a text at byte positions

A cut of a text works exactly at the bytes where a character begins. A lexer whose byte position is
the size of what it has read therefore finds there what is left, and steps over characters keep the
position and the number of characters in step.
-/
namespace NodeQuery.Query

/-- The number of bytes of some characters. -/
def byteSize (text : List Char) : Nat := (String.ofList text).utf8ByteSize

theorem byteSize_nil : byteSize [] = 0 := rfl

theorem byteSize_cons (c : Char) (text : List Char) :
    byteSize (c :: text) = c.utf8Size + byteSize text := by
  rw [byteSize, String.ofList_cons, String.utf8ByteSize_append, String.utf8ByteSize_singleton]
  rfl

theorem byteSize_append (left right : List Char) :
    byteSize (left ++ right) = byteSize left + byteSize right := by
  rw [byteSize, String.ofList_append, String.utf8ByteSize_append]
  rfl

theorem charactersFrom?_cons (c : Char) (text : List Char) (position : Nat) :
    charactersFrom? (c :: text) (c.utf8Size + position) = charactersFrom? text position := by
  have hsize := c.utf8Size_pos
  obtain ⟨before, hbefore⟩ := Nat.exists_eq_add_one_of_ne_zero (n := c.utf8Size + position)
    (by omega)
  have hbehind : before + 1 - c.utf8Size = position := by omega
  rw [hbefore, charactersFrom?, if_neg (by omega), hbehind]

theorem charactersUpTo?_cons (c : Char) (text : List Char) (position : Nat) :
    charactersUpTo? (c :: text) (c.utf8Size + position) =
      (charactersUpTo? text position).map (c :: ·) := by
  have hsize := c.utf8Size_pos
  obtain ⟨before, hbefore⟩ := Nat.exists_eq_add_one_of_ne_zero (n := c.utf8Size + position)
    (by omega)
  have hbehind : before + 1 - c.utf8Size = position := by omega
  rw [hbefore, charactersUpTo?, if_neg (by omega), hbehind]

theorem charactersFrom?_byteSize (front rest : List Char) :
    charactersFrom? (front ++ rest) (byteSize front) = some rest := by
  induction front with
  | nil => simp [byteSize_nil, charactersFrom?]
  | cons c front ih => rw [byteSize_cons, List.cons_append, charactersFrom?_cons, ih]

theorem charactersUpTo?_byteSize (front rest : List Char) :
    charactersUpTo? (front ++ rest) (byteSize front) = some front := by
  induction front with
  | nil => simp [byteSize_nil, charactersUpTo?]
  | cons c front ih =>
    rw [byteSize_cons, List.cons_append, charactersUpTo?_cons, ih]
    rfl

theorem slice?_byteSize (front run rest : List Char) :
    slice? (front ++ (run ++ rest)) (byteSize front) (byteSize front + byteSize run) =
      some run := by
  rw [slice?, if_neg (by omega), charactersFrom?_byteSize, Option.bind_some,
    Nat.add_sub_cancel_left]
  exact charactersUpTo?_byteSize run rest

namespace Lexer

/-- The lexer stands between what it has read and what is left. -/
structure At (l : Lexer) (front rest : List Char) : Prop where
  source : l.source = front ++ rest
  position : l.position = byteSize front
  offset : l.offset = front.length

/-- The lexer behind a run of characters. -/
def behind (l : Lexer) (run : List Char) : Lexer :=
  { l with position := l.position + byteSize run, offset := l.offset + run.length }

theorem at_ofText (source : List Char) : (ofText source).At [] source := ⟨rfl, rfl, rfl⟩

variable {l : Lexer} {front run rest : List Char} {p : Char → Bool}

theorem At.behind (h : l.At front (run ++ rest)) : (l.behind run).At (front ++ run) rest := by
  refine ⟨?_, ?_, ?_⟩
  · rw [List.append_assoc]
    exact h.source
  · rw [byteSize_append, ← h.position]
    rfl
  · rw [List.length_append, ← h.offset]
    rfl

theorem behind_nil (l : Lexer) : l.behind [] = l := rfl

theorem stepOver_eq (l : Lexer) (c : Char) : l.stepOver c = l.behind [c] := by
  rw [stepOver, behind, byteSize_cons]
  rfl

theorem stepWhile_eq (p : Char → Bool) (l : Lexer) (ahead : List Char) :
    l.stepWhile p ahead = l.behind (ahead.takeWhile p) := by
  induction ahead generalizing l with
  | nil => rfl
  | cons c ahead ih =>
    rw [stepWhile]
    split
    next hc =>
      rw [ih, List.takeWhile_cons_of_pos hc, behind, behind, stepOver, byteSize_cons,
        List.length_cons, Nat.add_assoc, Nat.add_assoc, Nat.add_comm 1]
    next hc => rw [List.takeWhile_cons_of_neg hc, behind_nil]

theorem At.charactersFrom? (h : l.At front rest) :
    charactersFrom? l.source l.position = some rest := by
  rw [h.source, h.position]
  exact charactersFrom?_byteSize front rest

theorem At.advanceWhile (h : l.At front rest) :
    l.advanceWhile p = some (l.behind (rest.takeWhile p)) := by
  rw [Lexer.advanceWhile, h.charactersFrom?, Option.map_some, stepWhile_eq]

theorem At.slice? (h : l.At front (run ++ rest)) :
    slice? l.source l.position (l.behind run).position = some run := by
  rw [Lexer.behind, h.source, h.position]
  exact slice?_byteSize front run rest

end Lexer

end NodeQuery.Query

import NodeQuery.Proofs.Host.Matching
import NodeQuery.Proofs.Host.Names

/-!
# Leading elements of a host name

A pattern for leading elements and the same pattern for whole names read the same segments and
differ in where a match may end. A match of leading elements ends at the end of the name or in front
of a dot, and these are the places behind one element or several. So the pattern accepts a name iff,
as a whole-name pattern, it accepts the first few elements of it, and no line feed follows them.
-/
namespace NodeQuery.Host

namespace Name

/-- The first `k` elements, with dots between them. -/
def front (name : Name) (k : Nat) : String := String.intercalate "." (name.elements.take k)

/-- What is left behind the first `k` elements, with dots between them. -/
def back (name : Name) (k : Nat) : String := String.intercalate "." (name.elements.drop k)

end Name

theorem intercalate_append {α : Type u} (separator : List α) {left right : List (List α)}
    (hleft : left ≠ []) (hright : right ≠ []) :
    separator.intercalate (left ++ right) =
      separator.intercalate left ++ (separator ++ separator.intercalate right) := by
  induction left with
  | nil => contradiction
  | cons piece left ih =>
    by_cases hlast : left = []
    · rw [hlast, List.singleton_append, List.intercalate_cons_of_ne_nil hright,
        List.intercalate_singleton, List.append_assoc]
    · rw [List.cons_append, List.intercalate_cons_of_ne_nil (by simp [hlast]), ih hlast,
        List.intercalate_cons_of_ne_nil hlast, List.append_assoc, List.append_assoc,
        List.append_assoc]

section Cuts
variable {text part rest : List Char} {k : Nat}

theorem intercalate_take_drop (hk : 1 ≤ k) (hlt : k < (text.splitOn '.').length) :
    text = ['.'].intercalate ((text.splitOn '.').take k) ++
      '.' :: ['.'].intercalate ((text.splitOn '.').drop k) := by
  have hfront : (text.splitOn '.').take k ≠ [] := by
    rw [Ne, List.take_eq_nil_iff, not_or]
    exact ⟨by omega, List.splitOn_ne_nil '.' text⟩
  have hback : (text.splitOn '.').drop k ≠ [] := by
    rw [Ne, List.drop_eq_nil_iff]
    omega
  have hjoin := intercalate_append ['.'] hfront hback
  rw [List.take_append_drop, List.intercalate_splitOn] at hjoin
  exact hjoin

/-- A text is cut in front of one of its dots, or behind all of it, where one of its elements or
several end. -/
theorem cut_at_dot_iff : (text = part ∨ ∃ rest, text = part ++ '.' :: rest ∧ '\n' ∉ rest) ↔
    ∃ k, 1 ≤ k ∧ k ≤ (text.splitOn '.').length ∧
      part = ['.'].intercalate ((text.splitOn '.').take k) ∧
      (k < (text.splitOn '.').length → '\n' ∉ ['.'].intercalate ((text.splitOn '.').drop k)) := by
  constructor
  · rintro (rfl | ⟨rest, rfl, hline⟩)
    · refine ⟨(text.splitOn '.').length, ?_, Nat.le_refl _, ?_, fun h => absurd h (Nat.lt_irrefl _)⟩
      · exact List.length_pos_of_ne_nil (List.splitOn_ne_nil '.' text)
      · rw [List.take_length, List.intercalate_splitOn]
    · rw [List.splitOn_append_cons_self]
      refine ⟨(part.splitOn '.').length, ?_, ?_, ?_, fun _ => ?_⟩
      · exact List.length_pos_of_ne_nil (List.splitOn_ne_nil '.' part)
      · rw [List.length_append]
        exact Nat.le_add_right _ _
      · rw [List.take_left, List.intercalate_splitOn]
      · rwa [List.drop_left, List.intercalate_splitOn]
  · rintro ⟨k, hk, hle, rfl, hline⟩
    rcases Nat.lt_or_eq_of_le hle with hlt | rfl
    · exact .inr ⟨_, intercalate_take_drop hk hlt, hline hlt⟩
    · left
      rw [List.take_length, List.intercalate_splitOn]

end Cuts

namespace Name

theorem toList_front (text : String) (k : Nat) :
    ((ofString text).front k).toList = ['.'].intercalate ((text.toList.splitOn '.').take k) := by
  rw [front, elements_ofString, ← List.map_take, toList_intercalate_ofList]

theorem toList_back (text : String) (k : Nat) :
    ((ofString text).back k).toList = ['.'].intercalate ((text.toList.splitOn '.').drop k) := by
  rw [back, elements_ofString, ← List.map_drop, toList_intercalate_ofList]

end Name

namespace Pattern

/-- A text that is accepted as a pattern is one of both kinds, with the same segments. -/
theorem compile_both {text : String} {anchor : Anchor} {r : Pattern}
    (h : compile text anchor = .ok r) :
    ∃ p q, compile text .whole = .ok p ∧ compile text .leading = .ok q ∧
      p.segments = q.segments := by
  have hread := r.segments_eq
  rw [(compile_eq_ok h).1] at hread
  exact ⟨_, _, compile_of_readAll .whole hread, compile_of_readAll .leading hread, rfl⟩

/-- A pattern for leading elements accepts a name iff the pattern for whole names accepts the first
elements of the name, one or more, and the elements behind them hold no line feed. -/
theorem accepts_leading_iff_front {text : String} {anchor : Anchor} {r : Pattern}
    (h : compile text anchor = .ok r) :
    ∃ p q, compile text .whole = .ok p ∧ compile text .leading = .ok q ∧ ∀ host : String,
      q.accepts host = true ↔
        ∃ k, 1 ≤ k ∧ k ≤ (Name.ofString host).elements.length ∧
          p.accepts ((Name.ofString host).front k) = true ∧
          (k < (Name.ofString host).elements.length →
            '\n' ∉ ((Name.ofString host).back k).toList) := by
  obtain ⟨p, q, hp, hq, hsegments⟩ := compile_both h
  refine ⟨p, q, hp, hq, fun host => ?_⟩
  have hlength : (Name.ofString host).elements.length = (host.toList.splitOn '.').length := by
    rw [Name.elements_ofString, List.length_map]
  have hwhole : ∀ k, p.accepts ((Name.ofString host).front k) = true ↔
      Denotes q.segments (['.'].intercalate ((host.toList.splitOn '.').take k)) := fun k => by
    rw [accepts_whole (compile_eq_ok hp).2, hsegments, Name.toList_front]
  simp only [accepts_leading (compile_eq_ok hq).2, cut_at_dot_iff, hlength, hwhole,
    Name.toList_back]
  constructor
  · rintro ⟨part, hpart, k, hk, hle, rfl, hline⟩
    exact ⟨k, hk, hle, hpart, hline⟩
  · rintro ⟨k, hk, hle, hpart, hline⟩
    exact ⟨_, hpart, k, hk, hle, rfl, hline⟩

/-- A pattern that holds a dot itself, and a name with a line feed in its last element. -/
theorem accepts_leading_iff_front_dotted :
    ∃ p q, compile "*.b" .whole = .ok p ∧ compile "*.b" .leading = .ok q ∧
      (q.accepts "a.b.c\n" = true ↔
        ∃ k, 1 ≤ k ∧ k ≤ (Name.ofString "a.b.c\n").elements.length ∧
          p.accepts ((Name.ofString "a.b.c\n").front k) = true ∧
          (k < (Name.ofString "a.b.c\n").elements.length →
            '\n' ∉ ((Name.ofString "a.b.c\n").back k).toList)) := by
  have hread : Segment.readAll 1 "*.b".toList = .ok [.star, .literal '.', .literal 'b'] :=
    Segment.readAll_cons rfl (by decide) <| Segment.readAll_cons rfl (by decide) <|
      Segment.readAll_cons rfl (by decide) (Segment.readAll_nil (by decide))
  obtain ⟨p, q, hp, hq, haccepts⟩ :=
    accepts_leading_iff_front (compile_of_readAll .leading hread)
  exact ⟨p, q, hp, hq, haccepts "a.b.c\n"⟩

end Pattern

end NodeQuery.Host

import Mathlib.Data.List.Forall2
import NodeQuery.Host.Filter
import NodeQuery.Proofs.Host.Lists
import NodeQuery.Proofs.Host.Sets

/-!
# Lists of patterns in a filter

In the text of a pattern brackets pair up, since a set has none of its own, unless a closing bracket
outside of the sets stands for itself. So patterns without such a bracket can be listed with commas,
commas in their sets included, and a filter takes in the list as it takes in the patterns one by
one.
-/
namespace NodeQuery.Host

theorem SpellsPattern.balanced {text : List Char} {segments : List Segment}
    (h : SpellsPattern text segments) (hclosing : .literal ']' ∉ segments) : Balanced text := by
  induction h with
  | nil => exact .nil
  | @cons text rest segment segments h _ ih =>
    rw [List.mem_cons, not_or] at hclosing
    obtain ⟨hhead, htail⟩ := hclosing
    cases h with
    | @literal c _ hcomma hopening =>
      have hother : c ≠ ']' := fun heq => hhead (by rw [heq])
      exact .other hopening hother hcomma (ih htail)
    | star => exact .other (by decide) (by decide) (by decide) (ih htail)
    | set h =>
      rw [List.cons_append, List.append_assoc, List.singleton_append]
      exact .set h.ne_bracket (ih htail)

/-- The texts compile to the patterns, one by one. -/
def CompileTo (anchor : Anchor) (texts : List String) (patterns : List Pattern) : Prop :=
  List.Forall₂ (fun text p => Pattern.compile text anchor = .ok p) texts patterns

theorem exists_compileTo {anchor : Anchor} {texts : List String}
    (h : ∀ text ∈ texts, ∃ p, Pattern.compile text anchor = .ok p) :
    ∃ patterns, CompileTo anchor texts patterns := by
  induction texts with
  | nil => exact ⟨[], List.Forall₂.nil⟩
  | cons text texts ih =>
    obtain ⟨p, hp⟩ := h text List.mem_cons_self
    obtain ⟨patterns, hpatterns⟩ := ih fun other hother =>
      h other (List.mem_cons_of_mem text hother)
    exact ⟨p :: patterns, List.Forall₂.cons hp hpatterns⟩

namespace Filter

theorem insertAll_of_compileTo {f : Filter} {texts : List String} {patterns : List Pattern}
    (h : CompileTo f.anchor texts patterns) :
    f.insertAll texts = ({ f with patterns := f.patterns ++ patterns }, .ok ()) := by
  unfold CompileTo at h
  induction texts generalizing f patterns with
  | nil =>
    cases h
    simp [insertAll]
  | cons text texts ih =>
    cases h with
    | @cons _ p _ patterns hp hpatterns =>
      have hinsert : f.insert text = .ok { f with patterns := f.patterns ++ [p] } := by
        simp only [insert, hp]
      have hrest : Filter.insertAll { f with patterns := f.patterns ++ [p] } texts =
          ({ f with patterns := f.patterns ++ [p] ++ patterns }, .ok ()) := ih hpatterns
      simp only [insertAll, hinsert, hrest, List.append_assoc, List.singleton_append]

/-- A list of patterns that can be split again is inserted as a whole. -/
theorem insertList_of_compileTo {f : Filter} {texts : List String} {patterns : List Pattern}
    (hlist : ∀ text ∈ texts, text ≠ "" ∧ Balanced text.toList)
    (h : CompileTo f.anchor texts patterns) :
    f.insertList (String.intercalate "," texts) =
      ({ f with patterns := f.patterns ++ patterns }, .ok ()) := by
  simp only [insertList, splitPatterns_intercalate hlist]
  exact insertAll_of_compileTo h

end Filter

end NodeQuery.Host

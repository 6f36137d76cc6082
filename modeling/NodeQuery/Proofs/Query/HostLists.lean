import NodeQuery.Proofs.Host.Filters
import NodeQuery.Proofs.Host.Matching
import NodeQuery.Proofs.Query.Acceptance
import NodeQuery.Proofs.Query.Meaning

/-!
# Lists of hosts as queries and as filters

Host patterns can be listed in two ways: with `or` between them as a query, and with commas between
them for a filter. The query reader takes some of them for numbers before it takes them for
patterns, and the filter cuts its text at commas but not inside of sets. Under the empty vocabulary
both come to the same patterns, and a row is selected by the query iff its host name passes the
filter.
-/
namespace NodeQuery.Query
open Host (Pattern CompileTo Filter)

/-- The rows of one pattern or of another one, joined from the left. -/
def Expr.anyNode (first : Pattern) (more : List Pattern) : Expr :=
  more.foldl (fun e pattern => .combine .or e (.node pattern)) (.node first)

namespace Expr
section Accepts
variable {ρ : Type u} [Record ρ]

theorem accepts_foldl_or (patterns : List Pattern) (e : Expr) (row : ρ) :
    (patterns.foldl (fun e pattern => combine .or e (.node pattern)) e).accepts row =
      (e.accepts row || patterns.any fun p => (Record.hostName? row).any p.accepts) := by
  induction patterns generalizing e with
  | nil => simp
  | cons p patterns ih =>
    rw [List.foldl_cons, ih, accepts_or, accepts_node, List.any_cons, Bool.or_assoc]

theorem accepts_anyNode (first : Pattern) (more : List Pattern) {row : ρ} {host : String}
    (hhost : Record.hostName? row = some host) :
    (anyNode first more).accepts row = (first :: more).any (·.accepts host) := by
  rw [anyNode, accepts_foldl_or, accepts_node, List.any_cons]
  simp [hhost]

end Accepts
end Expr

/-! The query of a list -/

/-- The symbols of words with `or` in front of each. -/
def orWords (words : List String) : List Symbol :=
  words.flatMap fun word => [.connective .or, .word word]

theorem cuts_or : Cuts ['o', 'r'] [.connective .or] := by
  have hrun : ∀ c ∈ ['o', 'r'], isWordChar c = true :=
    List.all_eq_true.mp (by decide)
  have hends : Text.EndsRun isWordChar [] := by simp [Text.EndsRun]
  exact .word (by simp) hrun hends .nil

theorem cuts_intercalate_or {word : String} {words : List String}
    (h : ∀ w ∈ word :: words, IsWord w) :
    Cuts (String.intercalate " or " (word :: words)).toList (.word word :: orWords words) := by
  induction words generalizing word with
  | nil =>
    rw [String.intercalate_singleton]
    exact (h word List.mem_cons_self).cuts
  | cons next words ih =>
    have hspace : isSpace ' ' = true := rfl
    have hrest := ih fun w hw => h w (List.mem_cons_of_mem word hw)
    have htext : (String.intercalate " or " (word :: next :: words)).toList =
        word.toList ++ ' ' :: (['o', 'r'] ++
          ' ' :: (String.intercalate " or " (next :: words)).toList) := by
      simp [String.intercalate_cons_cons]
    have hcut := cuts_append hspace (h word List.mem_cons_self).cuts
      (cuts_append hspace cuts_or hrest)
    rw [htext]
    exact hcut

/-- Under the empty vocabulary a word is a number or a pattern, and a number is read as a pattern
where rows are wanted. -/
theorem exists_reads_empty {word : String} {pattern : Pattern}
    (h : Pattern.compile word .leading = .ok pattern) :
    ∃ a, Reads ∅ word a ∧ a.Selects (.node pattern) := by
  by_cases hnumber : ∃ value, IsNumber word value
  · obtain ⟨value, hvalue⟩ := hnumber
    exact ⟨_, .number hvalue, .number h⟩
  · have hname : (∅ : Vocabulary).resolve word = .name word := rfl
    exact ⟨_, .pattern (not_exists.mp hnumber) hname rfl h, .rows _⟩

/-- A disjunction goes on with every word of a list. -/
theorem derives_orWords {words : List String} {patterns : List Pattern}
    (h : CompileTo .leading words patterns) {s : List Symbol} {a : Value} {e : Expr}
    (hs : Derives ∅ .disjunction s a) (he : a.Selects e) :
    ∃ b, Derives ∅ .disjunction (s ++ orWords words) b ∧
      b.Selects (patterns.foldl (fun e pattern => .combine .or e (.node pattern)) e) := by
  unfold CompileTo at h
  induction h generalizing s a e with
  | nil => exact ⟨a, by simpa [orWords] using hs, he⟩
  | @cons word pattern words patterns hpattern _ ih =>
    obtain ⟨b, hb, hrows⟩ := exists_reads_empty hpattern
    have hword : Derives ∅ .conjunction [.word word] b := .relation (.primary (.word hb))
    obtain ⟨c, hc, hmore⟩ := ih (.or hs hword he hrows) (.rows _)
    refine ⟨c, ?_, hmore⟩
    simpa [orWords] using hc

theorem compile_intercalate_or {word : String} {words : List String} {pattern : Pattern}
    {patterns : List Pattern} (hwords : ∀ w ∈ word :: words, IsWord w)
    (h : CompileTo .leading (word :: words) (pattern :: patterns)) :
    compile ∅ (String.intercalate " or " (word :: words)) = .ok (.anyNode pattern patterns) := by
  obtain ⟨hpattern, hpatterns⟩ := List.forall₂_cons.mp h
  obtain ⟨a, ha, hrows⟩ := exists_reads_empty hpattern
  have hfirst : Derives ∅ .disjunction [.word word] a :=
    .conjunction (.relation (.primary (.word ha)))
  obtain ⟨b, hb, he⟩ := derives_orWords hpatterns hfirst hrows
  exact compile_of_derives (cuts_intercalate_or hwords) hb he

/-- Words that are patterns, in which no closing bracket stands outside of a set, make a query and a
filter for leading elements. The query accepts a record with a host name iff the filter accepts the
name. -/
theorem accepts_host_query_iff_filter {texts : List String} (hne : texts ≠ [])
    (h : ∀ text ∈ texts, IsWord text ∧ ∃ anchor p, Pattern.compile text anchor = .ok p ∧
      .literal ']' ∉ p.segments) :
    ∃ e filter, compile ∅ (String.intercalate " or " texts) = .ok e ∧
      (Filter.empty .leading).insertList (String.intercalate "," texts) = (filter, .ok ()) ∧
      ∀ host, e.accepts (Json.object [("hostname", .string host)]) = filter.accepts host := by
  have hcompile : ∀ text ∈ texts, ∃ p, Pattern.compile text .leading = .ok p := by
    intro text htext
    obtain ⟨-, anchor, p, hp, -⟩ := h text htext
    have hread := p.segments_eq
    rw [(Pattern.compile_eq_ok hp).1] at hread
    exact ⟨_, Pattern.compile_of_readAll .leading hread⟩
  have hlist : ∀ text ∈ texts, text ≠ "" ∧ Host.Balanced text.toList := by
    intro text htext
    obtain ⟨hword, anchor, p, hp, hclosing⟩ := h text htext
    have hspells := (Host.Segment.spells_of_readAll p.segments_eq).1
    rw [(Pattern.compile_eq_ok hp).1] at hspells
    exact ⟨hword.ne_empty, hspells.balanced hclosing⟩
  obtain ⟨patterns, hpatterns⟩ := Host.exists_compileTo hcompile
  have hfilter := Filter.insertList_of_compileTo (f := Filter.empty .leading) hlist hpatterns
  cases hpatterns with
  | nil => contradiction
  | @cons text first texts more hfirst hmore =>
    have hwords : ∀ w ∈ text :: texts, IsWord w := fun w hw => (h w hw).1
    refine ⟨_, _, compile_intercalate_or hwords (.cons hfirst hmore), hfilter, fun host => ?_⟩
    exact Expr.accepts_anyNode first more rfl

/-- A pattern that reads as a number, and a set with a comma of its own. -/
theorem accepts_host_query_iff_filter_number :
    (∃ value, IsNumber "37.5" value) ∧
      ∃ e filter, compile ∅ "37.5 or n[1,2]" = .ok e ∧
        (Filter.empty .leading).insertList "37.5,n[1,2]" = (filter, .ok ()) ∧
        ∀ host, e.accepts (Json.object [("hostname", .string host)]) = filter.accepts host := by
  have hdecimal : Host.Segment.readAll 1 "37.5".toList =
      .ok [.literal '3', .literal '7', .literal '.', .literal '5'] :=
    Host.Segment.readAll_cons rfl (by decide) <| Host.Segment.readAll_cons rfl (by decide) <|
      Host.Segment.readAll_cons rfl (by decide) <| Host.Segment.readAll_cons rfl (by decide)
        (Host.Segment.readAll_nil (by decide))
  have hset : Host.Segment.readAll 1 "n[1,2]".toList =
      .ok [.literal 'n', .set [.single 1, .single 2]] :=
    Host.Segment.readAll_cons rfl (by decide) <| Host.Segment.readAll_cons
      (Host.Segment.next_set (Host.Segment.readTerms_more rfl (Host.Segment.readTerms_last rfl)))
      (by decide) (Host.Segment.readAll_nil (by decide))
  have hpatterns : ∀ text ∈ ["37.5", "n[1,2]"], IsWord text ∧ ∃ anchor p,
      Pattern.compile text anchor = .ok p ∧ .literal ']' ∉ p.segments := by
    refine List.forall_mem_cons.mpr ⟨⟨⟨by decide, List.all_eq_true.mp (by decide), by decide⟩, ?_⟩,
      List.forall_mem_singleton.mpr
        ⟨⟨by decide, List.all_eq_true.mp (by decide), by decide⟩, ?_⟩⟩
    · exact ⟨.leading, _, Pattern.compile_of_readAll .leading hdecimal, by simp⟩
    · exact ⟨.leading, _, Pattern.compile_of_readAll .leading hset, by simp⟩
  exact ⟨⟨37.5, by decide, by decide⟩,
    accepts_host_query_iff_filter (List.cons_ne_nil _ _) hpatterns⟩

end NodeQuery.Query

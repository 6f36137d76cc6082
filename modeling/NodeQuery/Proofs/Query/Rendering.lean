import NodeQuery.Proofs.Decimal.Printing
import NodeQuery.Proofs.Query.Tokens
import NodeQuery.Query.Expr

/-!
# Rendered expressions

A rendered expression begins with a parenthesis and a word that says which kind of node it is, so it
can be read from left to right, and one sees where it ends. Names and patterns may be anything that
has no space and no parenthesis, the words of the nodes included.
-/
namespace NodeQuery.Host

/-- A pattern is known from its text and how far it reaches. -/
theorem Pattern.eq_of_text_eq {p q : Pattern} (htext : p.text = q.text)
    (hanchor : p.anchor = q.anchor) : p = q := by
  obtain ⟨text, anchor, segments, hread⟩ := p
  obtain ⟨text', anchor', segments', hread'⟩ := q
  cases htext
  cases hanchor
  cases hread.symm.trans hread'
  rfl

end NodeQuery.Host

namespace NodeQuery.Query
open Text (eq_of_run_append_cons)

/-- The text has no space and no parenthesis. -/
def Unbroken (text : String) : Prop := ∀ c ∈ text.toList, c ≠ ' ' ∧ isParenthesis c = false

/-- What the first word of a rendered node says. -/
inductive Lead where
  | comparison (op : Comparison)
  | complement
  | connective (op : Connective)
  | node

def Lead.text : Lead → String
  | .comparison op => op.symbol
  | .complement => "~"
  | .connective op => op.word
  | .node => "node"

theorem Lead.space_notMem (l : Lead) : ∀ c ∈ l.text.toList, (c != ' ') = true := by
  cases l with
  | comparison op => cases op <;> simp [text, Comparison.symbol]
  | complement => simp [text]
  | connective op => cases op <;> simp [text, Connective.word]
  | node => simp [text]

theorem Lead.text_injective : Function.Injective Lead.text := by
  intro a b h
  rcases a with op | _ | op | _ <;> rcases b with op' | _ | op' | _ <;>
    (try cases op) <;> (try cases op') <;> first | rfl | exact absurd h (by decide)

namespace Expr

/-- What can be read back: unbroken names and patterns, finite constants, and patterns that match
leading elements, since it is not rendered what they match. -/
def Legible : Expr → Prop
  | .compare _ field value => Unbroken field ∧ value.isFinite = true
  | .complement child => child.Legible
  | .combine _ left right => left.Legible ∧ right.Legible
  | .node pattern => Unbroken pattern.text ∧ pattern.anchor = .leading

def lead : Expr → Lead
  | .compare op _ _ => .comparison op
  | .complement _ => .complement
  | .combine op _ _ => .connective op
  | .node _ => .node

/-- What stands behind the first word of a rendered node, with more text behind the node. -/
def behindLead (more : List Char) : Expr → List Char
  | .compare _ field value =>
    field.toList ++ ' ' :: ((Decimal.Layout.plain.text value).toList ++ ')' :: more)
  | .complement child => child.render.toList ++ ')' :: more
  | .combine _ left right => left.render.toList ++ ' ' :: (right.render.toList ++ ')' :: more)
  | .node pattern => pattern.text.toList ++ ')' :: more

theorem toList_render (e : Expr) (more : List Char) :
    e.render.toList ++ more = '(' :: (e.lead.text.toList ++ ' ' :: e.behindLead more) := by
  cases e with
  | compare op field value => simp [render, lead, Lead.text, behindLead, toString]
  | complement child => simp [render, lead, Lead.text, behindLead, toString]
  | combine op left right => simp [render, lead, Lead.text, behindLead, toString]
  | node pattern => simp [render, lead, Lead.text, behindLead, toString]

variable {a b : Expr} {rest more : List Char}

theorem lead_eq_of_render_append (h : a.render.toList ++ rest = b.render.toList ++ more) :
    a.lead = b.lead ∧ a.behindLead rest = b.behindLead more := by
  have hspace : (' ' != ' ') = false := rfl
  rw [toList_render, toList_render] at h
  obtain ⟨hlead, -, hbehind⟩ := eq_of_run_append_cons a.lead.space_notMem b.lead.space_notMem
    hspace hspace (List.cons.inj h).2
  exact ⟨Lead.text_injective (String.toList_injective hlead), hbehind⟩

/-- An unbroken text ends where a space or a parenthesis stands. -/
theorem eq_of_unbroken_append {s t : String} {c : Char} (hs : Unbroken s) (ht : Unbroken t)
    (hc : (c != ' ' && !isParenthesis c) = false)
    (h : s.toList ++ c :: rest = t.toList ++ c :: more) : s = t ∧ rest = more := by
  have hclass : ∀ {u : String}, Unbroken u →
      ∀ d ∈ u.toList, (d != ' ' && !isParenthesis d) = true := by
    intro u hu d hd
    obtain ⟨hspace, hparenthesis⟩ := hu d hd
    simp [hspace, hparenthesis]
  obtain ⟨htext, -, hmore⟩ := eq_of_run_append_cons (hclass hs) (hclass ht) hc hc h
  exact ⟨String.toList_injective htext, hmore⟩

theorem unbroken_text {x : Float} (h : x.isFinite = true) :
    Unbroken (Decimal.Layout.plain.text x) := by
  refine Decimal.forall_mem_text h (fun c hc => ?_) (by decide) (by decide)
  refine ⟨?_, Bool.eq_false_iff.mpr fun hparenthesis => ?_⟩
  · rintro rfl
    cases hc
  · simp only [isParenthesis, Bool.or_eq_true, decide_eq_true_eq] at hparenthesis
    rcases hparenthesis with rfl | rfl <;> cases hc

/-- Rendered expressions with anything behind them are the same only if they are the same
expression, with the same behind it. -/
theorem eq_of_render_append (ha : a.Legible) (hb : b.Legible)
    (h : a.render.toList ++ rest = b.render.toList ++ more) : a = b ∧ rest = more := by
  induction a generalizing b rest more with
  | compare op field value =>
    obtain ⟨hlead, hbehind⟩ := lead_eq_of_render_append h
    cases b with
    | compare other name constant =>
      cases hlead
      obtain ⟨rfl, hvalue⟩ := eq_of_unbroken_append ha.1 hb.1 rfl hbehind
      obtain ⟨htext, rfl⟩ :=
        eq_of_unbroken_append (unbroken_text ha.2) (unbroken_text hb.2) rfl hvalue
      rw [Decimal.plain_text_injective ha.2 hb.2 htext]
      exact ⟨rfl, rfl⟩
    | complement | combine | node => cases hlead
  | complement child ih =>
    obtain ⟨hlead, hbehind⟩ := lead_eq_of_render_append h
    cases b with
    | complement other =>
      obtain ⟨rfl, hmore⟩ := ih (b := other) ha hb hbehind
      exact ⟨rfl, (List.cons.inj hmore).2⟩
    | compare | combine | node => cases hlead
  | combine op left right ihLeft ihRight =>
    obtain ⟨hlead, hbehind⟩ := lead_eq_of_render_append h
    cases b with
    | combine other leftOther rightOther =>
      cases hlead
      obtain ⟨rfl, hright⟩ := ihLeft ha.1 hb.1 hbehind
      obtain ⟨rfl, hmore⟩ := ihRight ha.2 hb.2 (List.cons.inj hright).2
      exact ⟨rfl, (List.cons.inj hmore).2⟩
    | compare | complement | node => cases hlead
  | node pattern =>
    obtain ⟨hlead, hbehind⟩ := lead_eq_of_render_append h
    cases b with
    | node other =>
      obtain ⟨htext, rfl⟩ := eq_of_unbroken_append ha.1 hb.1 rfl hbehind
      rw [pattern.eq_of_text_eq htext (ha.2.trans hb.2.symm)]
      exact ⟨rfl, rfl⟩
    | compare | complement | combine => cases hlead

end Expr

end NodeQuery.Query

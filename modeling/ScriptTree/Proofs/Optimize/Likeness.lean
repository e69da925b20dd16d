import ScriptTree.Proofs.Optimize.Rules
import Mathlib.Data.List.Forall2

/-!
What the rules look at. A rule looks at the constructs and constants of its pattern and at nothing else, so
trees that are alike in these are treated alike: the rule applies to both or to none, and what it makes of
them is alike again.
-/

namespace ScriptTree

/-- A relation of trees that are alike in their constants, in the constructs that can be seen, and in whether
they bind a name in the scope around. -/
structure Likeness (seen : Form → Prop) (R : Node → Node → Prop) : Prop where
  construct {form : Form} {text : String} {span : Span} {n : Node} {ms : List Node} : seen form →
    R n (.construct form text span ms) → ∃ ns, n = .construct form text span ns ∧ List.Forall₂ R ns ms
  constant {value : Literal} {text : String} {span : Span} {n : Node} {ms : List Node} :
    R n (.constant value text span ms) → ∃ ns, n = .constant value text span ns
  declares {n m : Node} : R n m → n.isForm .block = m.isForm .block ∧ Rule.declares n = Rule.declares m
  build {form : Form} {text : String} {span : Span} {ns ms : List Node} : List.Forall₂ R ns ms →
    R (.construct form text span ns) (.construct form text span ms)
  leaf (value : Literal) (text : String) (span : Span) : R (.constant value text span []) (.constant value text span [])

/-- The constructs that a pass looks at. -/
def Pass.forms : Pass → List Form
  | .trailingReturn => [.definition, .block, .returned]
  | .loneBlock => [.block]
  | .deadBranch => [.conditional, .ternary]
  | .constantFolding => [.binary, .call, .identifier, .argumentList]
  | .countedLoop => [.forLoop, .equation, .declaration, .binary, .identifier, .prefixed]

/-- The pass takes every head of this shape. -/
theorem CountingHead.countedHead? {setup test step : Node} {loop : CountedLoop}
    (h : CountingHead setup test step loop) : Rule.countedHead? setup test step = some loop := by
  cases h with
  | mk hx => simp [Rule.countedHead?, Rule.counterSetup?, Rule.intLiteral?, Rule.counterLimit?, Rule.isIncrement, hx]

namespace Likeness

variable {seen : Form → Prop} {R : Node → Node → Prop} {pass : Pass} {k n m : Node} {ns ms : List Node}

/-- A constant with a number goes with itself. -/
theorem number (hR : Likeness seen R) (h : R n m) {d : Datum} (hd : Rule.numberOf m = some d) :
    ∃ v t s ns ks, n = .constant v t s ns ∧ m = .constant v t s ks := by
  obtain ⟨v, t, s, ks, -, rfl, -, -⟩ := Rule.numberOf_eq_some hd
  obtain ⟨ns, rfl⟩ := hR.constant h
  exact ⟨v, t, s, ns, ks, rfl, rfl⟩

/-- Nodes related to children and a last child are children and a last child. -/
theorem split_last {pre : List Node} {a : Node} (h : List.Forall₂ R ns (pre ++ [a])) :
    ∃ pre' a', ns = pre' ++ [a'] ∧ List.Forall₂ R pre' pre ∧ R a' a := by
  induction pre generalizing ns with
  | nil =>
    obtain _ | @⟨a', _, _, _, ha, _ | _⟩ := h
    exact ⟨[], a', rfl, .nil, ha⟩
  | cons c pre ih =>
    obtain _ | @⟨c', _, _, _, hc, h⟩ := h
    obtain ⟨pre', a', rfl, hpre, ha⟩ := ih h
    exact ⟨c' :: pre', a', rfl, .cons hc hpre, ha⟩

theorem trailingReturn (hR : Likeness seen R) (hseen : ∀ f ∈ Pass.trailingReturn.forms, seen f) (h : R n m)
    (hm : Rule.trailingReturn m = some k) : ∃ l, Rule.trailingReturn n = some l ∧ R l k := by
  obtain ⟨text, span, pre, s, a, init, t, b, e, rfl, rfl⟩ := Rule.trailingReturn_eq_some hm
  obtain ⟨_, rfl, hchildren⟩ := hR.construct (hseen _ (by decide)) h
  obtain ⟨pre', body, rfl, hpre, hbody⟩ := split_last hchildren
  obtain ⟨_, rfl, hstatements⟩ := hR.construct (hseen _ (by decide)) hbody
  obtain ⟨init', final, rfl, hinit, hfinal⟩ := split_last hstatements
  obtain ⟨_, rfl, _ | @⟨e', _, _, _, he, _ | _⟩⟩ := hR.construct (hseen _ (by decide)) hfinal
  refine ⟨.construct .definition text span (pre' ++ [.construct .block s a (init' ++ [e'])]), ?_, ?_⟩
  · simp [Rule.trailingReturn, Node.isForm, Node.kind, Node.last?, Node.children, Node.withChildren]
  · exact hR.build (List.rel_append hpre (.cons (hR.build (List.rel_append hinit (.cons he .nil))) .nil))

theorem loneBlock (hR : Likeness seen R) (hseen : ∀ f ∈ Pass.loneBlock.forms, seen f) (h : R n m)
    (hm : Rule.loneBlock m = some k) : ∃ l, Rule.loneBlock n = some l ∧ R l k := by
  obtain ⟨text, span, rfl, hd⟩ := Rule.loneBlock_eq_some hm
  obtain ⟨_, rfl, _ | @⟨c, _, _, _, hc, _ | _⟩⟩ := hR.construct (hseen _ (by decide)) h
  obtain ⟨hblock, hdeclares⟩ := hR.declares hc
  have hd' : Rule.declaresAny [c] = false := by
    rw [Rule.declaresAny, Rule.declaresAny] at hd ⊢
    rwa [hblock, hdeclares]
  exact ⟨c, by rw [Rule.loneBlock, hd']; rfl, hc⟩

theorem deadBranch (hR : Likeness seen R) (hseen : ∀ f ∈ Pass.deadBranch.forms, seen f) (h : R n m)
    (hm : Rule.deadBranch m = some k) : ∃ l, Rule.deadBranch n = some l ∧ R l k := by
  obtain ⟨form, text, span, b, s, a, ns, first, rest, rfl, hform, hb⟩ := Rule.deadBranch_eq_some hm
  have hform' : seen form := hseen form (by rcases hform with rfl | rfl <;> decide)
  obtain ⟨_, rfl, _ | ⟨htest, _ | @⟨first', _, _, _, hfirst, hrest⟩⟩⟩ := hR.construct hform' h
  obtain ⟨_, rfl⟩ := hR.constant htest
  rcases hb with ⟨rfl, rfl⟩ | ⟨rfl, rfl⟩
  · exact ⟨first', by simp [Rule.deadBranch, hform], hfirst⟩
  · obtain _ | @⟨second', _, _, _, hsecond, _ | _⟩ := hrest
    exact ⟨second', by simp [Rule.deadBranch, hform], hsecond⟩

theorem constantFolding (hR : Likeness seen R) (hseen : ∀ f ∈ Pass.constantFolding.forms, seen f) (h : R n m)
    (hm : Rule.constantFolding m = some k) : ∃ l, Rule.constantFolding n = some l ∧ R l k := by
  rcases Rule.constantFolding_eq_some hm with ⟨op, span, lhs, rhs, rfl, hf⟩ | ⟨text, span, callee, list, rfl, hf⟩
  · obtain ⟨x, y, o, d, hx, hy, -, -, rfl⟩ := Rule.foldBinary_eq_some hf
    obtain ⟨_, rfl, _ | ⟨hl, _ | ⟨hr, _ | _⟩⟩⟩ := hR.construct (hseen _ (by decide)) h
    obtain ⟨_, _, _, _, _, rfl, rfl⟩ := hR.number hl hx
    obtain ⟨_, _, _, _, _, rfl, rfl⟩ := hR.number hr hy
    exact ⟨_, hf, hR.leaf _ _ _⟩
  · obtain ⟨name, s, a, ks, t, b, argument, d, r, rfl, rfl, -, hd, -, rfl⟩ := Rule.foldConversion_eq_some hf
    obtain ⟨_, rfl, _ | ⟨hcallee, _ | ⟨hlist, _ | _⟩⟩⟩ := hR.construct (hseen _ (by decide)) h
    obtain ⟨_, rfl, -⟩ := hR.construct (hseen _ (by decide)) hcallee
    obtain ⟨_, rfl, _ | ⟨hargument, _ | _⟩⟩ := hR.construct (hseen _ (by decide)) hlist
    obtain ⟨_, _, _, _, _, rfl, rfl⟩ := hR.number hargument hd
    exact ⟨_, hf, hR.leaf _ _ _⟩

theorem countingHead (hR : Likeness seen R) (hseen : ∀ f ∈ Pass.countedLoop.forms, seen f)
    (hname : ∀ n m, R n m → n.text = m.text) {setup test step setup' test' step' : Node} {loop : CountedLoop}
    (hsetup : R setup setup') (htest : R test test') (hstep : R step step')
    (h : CountingHead setup' test' step' loop) : CountingHead setup test step loop := by
  cases h with
  | mk hx =>
    obtain ⟨_, rfl, _ | ⟨hdeclaration, _ | ⟨hfirst, _ | _⟩⟩⟩ := hR.construct (hseen _ (by decide)) hsetup
    obtain ⟨_, rfl, _ | ⟨hvariable, _⟩⟩ := hR.construct (hseen _ (by decide)) hdeclaration
    obtain ⟨_, rfl⟩ := hR.constant hfirst
    obtain ⟨_, rfl, _ | ⟨hcounter, _ | ⟨hlimit, _ | _⟩⟩⟩ := hR.construct (hseen _ (by decide)) htest
    obtain ⟨_, rfl, -⟩ := hR.construct (hseen _ (by decide)) hcounter
    obtain ⟨_, rfl⟩ := hR.constant hlimit
    obtain ⟨_, rfl, _ | ⟨hcounter, _ | _⟩⟩ := hR.construct (hseen _ (by decide)) hstep
    obtain ⟨_, rfl, -⟩ := hR.construct (hseen _ (by decide)) hcounter
    exact .mk ((hname _ _ hvariable).trans hx)

theorem countedLoop (hR : Likeness seen R) (hseen : ∀ f ∈ Pass.countedLoop.forms, seen f)
    (hname : ∀ n m, R n m → n.text = m.text) (h : R n m) (hm : Rule.countedLoop m = some k) :
    ∃ l, Rule.countedLoop n = some l := by
  obtain ⟨text, span, setup, test, step, body, loop, rfl, hhead, rfl⟩ := Rule.countedLoop_eq_some hm
  obtain ⟨_, rfl, _ | ⟨hsetup, _ | ⟨htest, _ | ⟨hstep, _ | ⟨hbody, _ | _⟩⟩⟩⟩⟩ :=
    hR.construct (hseen _ (by decide)) h
  have hhead := hR.countingHead hseen hname hsetup htest hstep (countingHead_of_countedHead? hhead)
  exact ⟨_, by rw [Rule.countedLoop, hhead.countedHead?]; rfl⟩

/-- A rule that applies to one of two trees that are alike applies to the other, with results that are alike;
a native loop keeps the loop it was made of, so the rule for these stands apart. -/
theorem rule (hR : Likeness seen R) (hpass : pass ≠ .countedLoop) (hseen : ∀ f ∈ pass.forms, seen f) (h : R n m)
    (hm : pass.rule m = some k) : ∃ l, pass.rule n = some l ∧ R l k := by
  cases pass with
  | trailingReturn => exact hR.trailingReturn hseen h hm
  | loneBlock => exact hR.loneBlock hseen h hm
  | deadBranch => exact hR.deadBranch hseen h hm
  | constantFolding => exact hR.constantFolding hseen h hm
  | countedLoop => exact absurd rfl hpass

end Likeness

end ScriptTree

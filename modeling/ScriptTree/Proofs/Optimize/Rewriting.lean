import ScriptTree.Optimize.Walk
import ScriptTree.Proofs.Optimize.Rules
import Mathlib.Data.List.Forall2
import Mathlib.Logic.Relation

/-!
A walk is a sequence of single rewritings. In each of them one pass puts another node in the place of
one, anywhere in the tree, so what holds of one rewriting, and whatever one rewriting keeps, holds of
every walk, whichever passes there are and in whichever order.
-/

namespace ScriptTree

open Relation

/-! ### Parts of a tree -/

namespace Node

mutual

/-- The node and all nodes below it. The loop that a counted node keeps does not count. -/
def parts : Node → List Node
  | .construct form text span children => .construct form text span children :: partsAll children
  | .constant value text span children => .constant value text span children :: partsAll children
  | .counted loop generic text span children =>
    .counted loop generic text span children :: partsAll children

/-- The nodes of several trees. -/
def partsAll : List Node → List Node
  | [] => []
  | n :: ns => parts n ++ partsAll ns

end

theorem parts_eq (n : Node) : n.parts = n :: partsAll n.children := by
  cases n <;> rfl

theorem mem_partsAll {a : Node} : ∀ {ns : List Node}, a ∈ partsAll ns ↔ ∃ n ∈ ns, a ∈ n.parts
  | [] => by simp [partsAll]
  | n :: ns => by
    rw [partsAll, List.mem_append, mem_partsAll]
    simp

theorem mem_parts {a n : Node} : a ∈ n.parts ↔ a = n ∨ ∃ m ∈ n.children, a ∈ m.parts := by
  rw [parts_eq, List.mem_cons, mem_partsAll]

theorem mem_parts_self (n : Node) : n ∈ n.parts := mem_parts.2 (.inl rfl)

theorem mem_parts_child {n m : Node} (h : m ∈ n.children) : m ∈ n.parts :=
  mem_parts.2 (.inr ⟨m, h, m.mem_parts_self⟩)

theorem sizeOf_child {n m : Node} (h : m ∈ n.children) : sizeOf m < sizeOf n := by
  have hlt := List.sizeOf_lt_of_mem h
  cases n <;> (simp only [children] at hlt; simp only [construct.sizeOf_spec, constant.sizeOf_spec,
    counted.sizeOf_spec]; omega)

/-- Induction over trees: what holds of a node if it holds of its children holds of every node. -/
theorem induction {P : Node → Prop} (step : ∀ n : Node, (∀ m ∈ n.children, P m) → P n) (n : Node) : P n :=
  step n fun m _ => induction step m
termination_by sizeOf n
decreasing_by exact sizeOf_child (by assumption)

/-- The parts of a part are parts. -/
theorem parts_trans {a b n : Node} (ha : a ∈ b.parts) : b ∈ n.parts → a ∈ n.parts := by
  induction n using Node.induction with
  | step n ih =>
    intro hb
    rcases mem_parts.1 hb with rfl | ⟨m, hm, hb⟩
    · exact ha
    · exact mem_parts.2 (.inr ⟨m, hm, ih m hm hb⟩)

/-- What holds of all parts holds of the node and of all parts of its children. -/
theorem forall_parts {P : Node → Prop} {n : Node} :
    (∀ a ∈ n.parts, P a) ↔ P n ∧ ∀ c ∈ n.children, ∀ a ∈ c.parts, P a := by
  constructor
  · exact fun h => ⟨h n n.mem_parts_self, fun c hc a ha => h a (mem_parts.2 (.inr ⟨c, hc, ha⟩))⟩
  · rintro ⟨hn, hc⟩ a ha
    rcases mem_parts.1 ha with rfl | ⟨c, hmem, ha⟩
    · exact hn
    · exact hc c hmem a ha

/-- A tree without native loops. -/
def Generic (n : Node) : Prop := ∀ a ∈ n.parts, a.kind ≠ .specialized

instance (n : Node) : Decidable n.Generic :=
  inferInstanceAs (Decidable (∀ a ∈ n.parts, a.kind ≠ .specialized))

theorem Generic.part {n m : Node} (h : n.Generic) (hm : m ∈ n.parts) : m.Generic :=
  fun a ha => h a (parts_trans ha hm)

@[simp] theorem children_withChildren (n : Node) (ns : List Node) : (n.withChildren ns).children = ns := by
  cases n <;> rfl

@[simp] theorem withChildren_children (n : Node) : n.withChildren n.children = n := by
  cases n <;> rfl

@[simp] theorem withChildren_withChildren (n : Node) (ns ms : List Node) :
    (n.withChildren ns).withChildren ms = n.withChildren ms := by
  cases n <;> rfl

end Node

/-! ### Single rewritings -/

/-- In one place of the tree a pass puts another node. -/
inductive Rewrites (p : Pipeline) : Node → Node → Prop
  | root {pass : Pass} {n m : Node} (hp : pass ∈ p) (h : pass.rule n = some m) : Rewrites p n m
  | child {a n m : Node} {pre post : List Node} (h : Rewrites p n m) (ha : a.children = pre ++ n :: post) :
    Rewrites p a (a.withChildren (pre ++ m :: post))

variable {p : Pipeline} {n m : Node}

/-- A node that goes through passes is rewritten by each that applies. -/
theorem rewrites_apply : ∀ (q : Pipeline), q ⊆ p → ∀ n : Node, ReflTransGen (Rewrites p) n (q.apply n).1
  | [], _, _ => .refl
  | pass :: q, hq, n => by
    have ih := rewrites_apply q fun x hx => hq (.tail _ hx)
    rw [Pipeline.apply]
    cases h : pass.rule n with
    | none => exact ih n
    | some m => exact .head (.root (hq (.head _)) h) (ih m)

/-- Rewritings of one child after another are rewritings of the node. -/
theorem rewrites_child {a : Node} {pre post : List Node} (h : ReflTransGen (Rewrites p) n m) :
    ReflTransGen (Rewrites p) (a.withChildren (pre ++ n :: post)) (a.withChildren (pre ++ m :: post)) := by
  refine h.lift (fun k => a.withChildren (pre ++ k :: post)) fun k l hkl => ?_
  have := Rewrites.child (a := a.withChildren (pre ++ k :: post)) hkl (Node.children_withChildren a _)
  rwa [Node.withChildren_withChildren] at this

mutual

/-- A walk rewrites the tree step by step. -/
theorem rewrites_walk (p : Pipeline) : ∀ n : Node, ReflTransGen (Rewrites p) n (p.walk n).tree
  | .construct form text span children =>
    (rewrites_walkAll p (.construct form text span children) [] children).trans
      (rewrites_apply p (List.Subset.refl p) _)
  | .constant value text span children =>
    (rewrites_walkAll p (.constant value text span children) [] children).trans
      (rewrites_apply p (List.Subset.refl p) _)
  | .counted loop generic text span children =>
    (rewrites_walkAll p (.counted loop generic text span children) [] children).trans
      (rewrites_apply p (List.Subset.refl p) _)

/-- The children of a node are walked one after the other. -/
theorem rewrites_walkAll (p : Pipeline) (a : Node) (pre : List Node) : ∀ ns : List Node,
    ReflTransGen (Rewrites p) (a.withChildren (pre ++ ns)) (a.withChildren (pre ++ (p.walkAll ns).1))
  | [] => .refl
  | n :: ns => by
    have hn : ReflTransGen (Rewrites p) (a.withChildren (pre ++ n :: ns))
        (a.withChildren (pre ++ (p.walk n).tree :: ns)) := rewrites_child (rewrites_walk p n)
    have hns := rewrites_walkAll p a (pre ++ [(p.walk n).tree]) ns
    rw [List.append_assoc, List.append_assoc] at hns
    exact hn.trans hns

end

/-- What every rewriting keeps a sequence of rewritings keeps. -/
theorem rewritings_keep {P : Node → Prop} (h : ∀ n m, Rewrites p n m → P n → P m)
    (hnm : ReflTransGen (Rewrites p) n m) (hn : P n) : P m := by
  induction hnm with
  | refl => exact hn
  | tail _ hstep ih => exact h _ _ hstep ih

/-- What every rewriting keeps a walk keeps. -/
theorem walk_keeps {P : Node → Prop} (h : ∀ n m, Rewrites p n m → P n → P m) (hn : P n) :
    P (p.walk n).tree :=
  rewritings_keep h (rewrites_walk p n) hn

/-! ### What the parts of a rewritten tree come from -/

/-- A node that was rewritten in one place at most. -/
abbrev Near (p : Pipeline) : Node → Node → Prop := ReflGen (Rewrites p)

/-- A part of the tree before a rewriting and what it became. -/
inductive Becomes (p : Pipeline) : Node → Node → Prop
  | below {a : Node} {ms : List Node} (h : List.Forall₂ (Near p) a.children ms) :
    Becomes p a (a.withChildren ms)
  | folded {a : Node} {v : Literal} {s : String} {span : Span} : Becomes p a (.constant v s span [])
  | definition {text s t : String} {span a b : Span} {pre init : List Node} {e : Node} :
    Becomes p (.construct .definition text span
        (pre ++ [.construct .block s a (init ++ [.construct .returned t b [e]])]))
      (.construct .definition text span (pre ++ [.construct .block s a (init ++ [e])]))
  | block {s t : String} {a b : Span} {init : List Node} {e : Node} :
    Becomes p (.construct .block s a (init ++ [.construct .returned t b [e]]))
      (.construct .block s a (init ++ [e]))
  | native {text : String} {span : Span} {setup test step body : Node} {loop : CountedLoop}
    (h : Rule.countedHead? setup test step = some loop) :
    Becomes p (.construct .forLoop text span [setup, test, step, body])
      (.counted loop (.construct .forLoop text span [setup, test, step, body]) text span [body])

theorem near_refl (ns : List Node) : List.Forall₂ (Near p) ns ns :=
  List.forall₂_same.2 fun _ _ => .refl

theorem Becomes.same (a : Node) : Becomes p a a := by
  have := Becomes.below (p := p) (near_refl a.children)
  rwa [Node.withChildren_children] at this

/-- One child that was rewritten. -/
theorem near_child {pre post : List Node} (h : Rewrites p n m) :
    List.Forall₂ (Near p) (pre ++ n :: post) (pre ++ m :: post) :=
  List.rel_append (near_refl pre) (.cons (.single h) (near_refl post))

/-- What a rule yields consists of parts of the node's children and of nodes that are new: a definition without
its return and the block in it, a constant, or a native loop. -/
theorem rule_forall_parts {pass : Pass} {P : Node → Prop} (h : pass.rule n = some m)
    (hc : ∀ c ∈ n.children, ∀ a ∈ c.parts, P a)
    (hreturns : ∀ text span pre s a init t b e, n = .construct .definition text span
        (pre ++ [.construct .block s a (init ++ [.construct .returned t b [e]])]) →
      P (.construct .definition text span (pre ++ [.construct .block s a (init ++ [e])])) ∧
        P (.construct .block s a (init ++ [e])))
    (hfolded : ∀ v s a, P (.constant v s a []))
    (hnative : ∀ text span setup test step body loop, n = .construct .forLoop text span [setup, test, step, body] →
      Rule.countedHead? setup test step = some loop → P (.counted loop n text span [body])) :
    ∀ a ∈ m.parts, P a := by
  cases pass with
  | trailingReturn =>
    obtain ⟨text, span, pre, s, a, init, t, b, e, rfl, rfl⟩ := Rule.trailingReturn_eq_some h
    obtain ⟨hdefinition, hblock⟩ := hreturns _ _ _ _ _ _ _ _ _ rfl
    obtain ⟨hpre, hbody⟩ := List.forall_mem_append.1 hc
    obtain ⟨hinit, hfinal⟩ := List.forall_mem_append.1 (Node.forall_parts.1 (List.forall_mem_singleton.1 hbody)).2
    have he := (Node.forall_parts.1 (List.forall_mem_singleton.1 hfinal)).2
    have hstatements := Node.forall_parts.2 ⟨hblock, List.forall_mem_append.2 ⟨hinit, he⟩⟩
    exact Node.forall_parts.2 ⟨hdefinition, List.forall_mem_append.2 ⟨hpre, List.forall_mem_singleton.2 hstatements⟩⟩
  | loneBlock =>
    obtain ⟨text, span, rfl, -⟩ := Rule.loneBlock_eq_some h
    exact hc m (.head _)
  | deadBranch =>
    obtain ⟨form, text, span, x, s, a, ns, first, rest, rfl, -, ⟨-, rfl⟩ | ⟨-, rfl⟩⟩ :=
      Rule.deadBranch_eq_some h
    · exact hc m (.tail _ (.head _))
    · exact hc m (.tail _ (.tail _ (.head _)))
  | constantFolding =>
    obtain ⟨v, s, a, rfl⟩ := Rule.constantFolding_constant h
    exact Node.forall_parts.2 ⟨hfolded v s a, nofun⟩
  | countedLoop =>
    obtain ⟨text, span, setup, test, step, body, loop, rfl, hhead, rfl⟩ := Rule.countedLoop_eq_some h
    have hbody := hc body (.tail _ (.tail _ (.tail _ (.head _))))
    exact Node.forall_parts.2 ⟨hnative _ _ _ _ _ _ _ rfl hhead, List.forall_mem_singleton.2 hbody⟩

/-- What a rule yields consists of parts of the node it was given and of what these became. -/
theorem rule_parts {pass : Pass} (h : pass.rule n = some m) {b : Node} (hb : b ∈ m.parts) :
    ∃ a ∈ n.parts, Becomes p a b := by
  refine rule_forall_parts h (P := fun b => ∃ a ∈ n.parts, Becomes p a b) ?_ ?_ ?_ ?_ b hb
  · exact fun c hc b hb => ⟨b, Node.mem_parts.2 (.inr ⟨c, hc, hb⟩), .same b⟩
  · rintro text span pre s a init t c e rfl
    exact ⟨⟨_, Node.mem_parts_self _, .definition⟩,
      ⟨_, Node.mem_parts_child (List.mem_append.2 (.inr (.head _))), .block⟩⟩
  · exact fun v s a => ⟨n, n.mem_parts_self, .folded⟩
  · rintro text span setup test step body loop rfl hhead
    exact ⟨_, Node.mem_parts_self _, .native hhead⟩

/-- Every part of a rewritten tree is what some part of the tree became. -/
theorem Rewrites.parts (h : Rewrites p n m) {b : Node} (hb : b ∈ m.parts) :
    ∃ a ∈ n.parts, Becomes p a b := by
  induction h with
  | root _ h => exact rule_parts h hb
  | @child a n m pre post h ha ih =>
    rcases Node.mem_parts.1 hb with rfl | ⟨k, hk, hbk⟩
    · refine ⟨a, a.mem_parts_self, .below ?_⟩
      rw [ha]
      exact near_child h
    · rw [Node.children_withChildren, List.mem_append, List.mem_cons] at hk
      have hmem : ∀ k', k' ∈ pre ++ n :: post → ∀ x ∈ k'.parts, x ∈ a.parts := fun k' hk' x hx =>
        Node.mem_parts.2 (.inr ⟨k', ha ▸ hk', hx⟩)
      rcases hk with hk | hk | hk
      · exact ⟨b, hmem k (by simp [hk]) b hbk, .same b⟩
      · obtain ⟨x, hx, hxb⟩ := ih (hk ▸ hbk)
        exact ⟨x, hmem n (by simp) x hx, hxb⟩
      · exact ⟨b, hmem k (by simp [hk]) b hbk, .same b⟩

/-- To a construct that no rule applies to, nothing happens but below it. -/
theorem Rewrites.inert {form : Form} {text : String} {span : Span} {ns : List Node}
    (h : Rewrites p (.construct form text span ns) m) (hform : form.pass? = none) :
    ∃ ms, m = .construct form text span ms ∧ List.Forall₂ (Near p) ns ms := by
  cases h with
  | root _ h =>
    obtain ⟨f, t, s, ks, he, hf⟩ := Pass.rule_eq_some h
    cases he
    rw [hform] at hf
    cases hf
  | @child _ n m pre post h ha =>
    obtain rfl : ns = pre ++ n :: post := ha
    exact ⟨_, rfl, near_child h⟩

theorem Near.inert {form : Form} {text : String} {span : Span} {ns : List Node}
    (h : Near p (.construct form text span ns) m) (hform : form.pass? = none) :
    ∃ ms, m = .construct form text span ms ∧ List.Forall₂ (Near p) ns ms := by
  cases h with
  | refl => exact ⟨ns, rfl, near_refl ns⟩
  | single h => exact h.inert hform

end ScriptTree

import ScriptTree.Proofs.Optimize.Likeness
import ScriptTree.Proofs.Optimize.Normal
import ScriptTree.Proofs.Tree.Spans

/-!
Walks and spans. No rule looks at a span: one that applies to a node applies to it with other spans as well, and
what it yields has the other spans where it had the old ones. So the spans of a tree may be changed before a
walk or after it.
-/

namespace ScriptTree

variable {φ : Span → Span} {pass : Pass} {k n m : Node} {ms : List Node} {form : Form}
  {text : String} {span : Span} {loop : CountedLoop} {setup test step : Node}

/-! ### Nodes with other spans -/

namespace Node

theorem mapSpan_construct (φ : Span → Span) (form : Form) (text : String) (span : Span) (ns : List Node) :
    (construct form text span ns).mapSpan φ = construct form text (φ span) (ns.map (mapSpan φ)) := by
  rw [mapSpan, mapSpanAll_eq]

/-- What becomes a construct with other spans is such a construct. -/
theorem mapSpan_eq_construct (h : n.mapSpan φ = construct form text span ms) :
    ∃ a ns, n = construct form text a ns ∧ List.Forall₂ (fun c d => c.mapSpan φ = d) ns ms := by
  cases n with
  | construct f t a ns =>
    rw [mapSpan_construct] at h
    cases h
    exact ⟨a, ns, rfl, List.forall₂_map_right_iff.2 (List.forall₂_same.2 fun _ _ => rfl)⟩
  | constant => cases h
  | counted => cases h

theorem mapSpan_eq_constant {value : Literal} (h : n.mapSpan φ = constant value text span ms) :
    ∃ a ns, n = constant value text a ns := by
  cases n with
  | construct => cases h
  | constant v t a ns =>
    rw [mapSpan] at h
    cases h
    exact ⟨a, ns, rfl⟩
  | counted => cases h

theorem withChildren_mapSpan (n : Node) (ns : List Node) :
    (n.withChildren ns).mapSpan φ = (n.mapSpan φ).withChildren (ns.map (mapSpan φ)) := by
  cases n <;> (rw [← mapSpanAll_eq]; rfl)

end Node

mutual

theorem declares_mapSpan : ∀ n : Node, Rule.declares (n.mapSpan φ) = Rule.declares n
  | .construct _ _ _ children => by rw [Node.mapSpan, Rule.declares, Rule.declares, declaresAny_mapSpan children]
  | .constant _ _ _ children => by rw [Node.mapSpan, Rule.declares, Rule.declares, declaresAny_mapSpan children]
  | .counted _ generic _ _ _ => by rw [Node.mapSpan, Rule.declares, Rule.declares, declares_mapSpan generic]

theorem declaresAny_mapSpan : ∀ ns : List Node, Rule.declaresAny (Node.mapSpanAll φ ns) = Rule.declaresAny ns
  | [] => rfl
  | n :: ns => by
    rw [Node.mapSpanAll, Rule.declaresAny, Rule.declaresAny, Node.isForm_mapSpan, declares_mapSpan n,
      declaresAny_mapSpan ns]

end

theorem numberOf_mapSpan (n : Node) : Rule.numberOf (n.mapSpan φ) = Rule.numberOf n := by
  cases n <;> rfl

/-! ### Rules -/

theorem CountingHead.mapSpan (h : CountingHead setup test step loop) :
    CountingHead (setup.mapSpan φ) (test.mapSpan φ) (step.mapSpan φ) loop := by
  cases h with
  | mk hx => exact .mk ((Node.text_mapSpan _).trans hx)

theorem CountingHead.of_mapSpan (h : CountingHead (setup.mapSpan φ) (test.mapSpan φ) (step.mapSpan φ) loop) :
    CountingHead setup test step loop := by
  generalize hsetup : setup.mapSpan φ = setup' at h
  generalize htest : test.mapSpan φ = test' at h
  generalize hstep : step.mapSpan φ = step' at h
  cases h with
  | mk hx =>
    obtain ⟨_, _, rfl, _ | ⟨hdeclaration, _ | ⟨hfirst, _ | _⟩⟩⟩ := Node.mapSpan_eq_construct hsetup
    obtain ⟨_, _, rfl, _ | ⟨hname, _⟩⟩ := Node.mapSpan_eq_construct hdeclaration
    obtain ⟨_, _, rfl⟩ := Node.mapSpan_eq_constant hfirst
    obtain ⟨_, _, rfl, _ | ⟨hcounter, _ | ⟨hlimit, _ | _⟩⟩⟩ := Node.mapSpan_eq_construct htest
    obtain ⟨_, _, rfl, -⟩ := Node.mapSpan_eq_construct hcounter
    obtain ⟨_, _, rfl⟩ := Node.mapSpan_eq_constant hlimit
    obtain ⟨_, _, rfl, _ | ⟨hcounter, _ | _⟩⟩ := Node.mapSpan_eq_construct hstep
    obtain ⟨_, _, rfl, -⟩ := Node.mapSpan_eq_construct hcounter
    refine .mk ?_
    rw [← hx, ← hname, Node.text_mapSpan]

theorem foldBinary_mapSpan (op : String) (span : Span) (lhs rhs : Node) :
    Rule.foldBinary op (φ span) (lhs.mapSpan φ) (rhs.mapSpan φ) =
      (Rule.foldBinary op span lhs rhs).map (Node.mapSpan φ) := by
  simp only [Rule.foldBinary, numberOf_mapSpan, Node.text_mapSpan]
  cases Rule.numberOf lhs <;> cases Rule.numberOf rhs <;> cases BinaryOperator.ofText? op
  case some.some.some l r o =>
    dsimp only [Option.bind_eq_bind, Option.bind_some]
    cases l.binary (some o) r <;> rfl
  all_goals rfl

theorem foldConversion_mapSpan (span : Span) (callee argument : Node) (t : String) (b : Span) :
    Rule.foldConversion (φ span) (callee.mapSpan φ) (.construct .argumentList t (φ b) [argument.mapSpan φ]) =
      (Rule.foldConversion span callee (.construct .argumentList t b [argument])).map (Node.mapSpan φ) := by
  simp only [Rule.foldConversion, Node.isForm_mapSpan, Node.text_mapSpan, numberOf_mapSpan]
  split
  · cases Rule.numberOf argument with
    | none => rfl
    | some d =>
      dsimp only [Option.bind_eq_bind, Option.bind_some]
      cases d.convert callee.text <;> rfl
  · rfl

/-- A rule that applies applies with other spans. -/
theorem rule_mapSpan (h : pass.rule n = some m) : pass.rule (n.mapSpan φ) = some (m.mapSpan φ) := by
  cases pass with
  | trailingReturn =>
    obtain ⟨text, span, pre, s, a, init, t, b, e, rfl, rfl⟩ := Rule.trailingReturn_eq_some h
    simp [Pass.rule, Rule.trailingReturn, Node.mapSpan_construct, Node.isForm, Node.kind, Node.last?, Node.children,
      Node.withChildren]
  | loneBlock =>
    obtain ⟨text, span, rfl, hd⟩ := Rule.loneBlock_eq_some h
    rw [← declaresAny_mapSpan (φ := φ)] at hd
    show (if Rule.declaresAny (Node.mapSpanAll φ [m]) = true then none else _) = _
    rw [hd]
    rfl
  | deadBranch =>
    obtain ⟨form, text, span, b, s, a, ns, first, rest, rfl, hform, ⟨rfl, rfl⟩ | ⟨rfl, rfl⟩⟩ :=
      Rule.deadBranch_eq_some h <;>
    simp [Pass.rule, Rule.deadBranch, Node.mapSpan, Node.mapSpanAll, hform]
  | constantFolding =>
    rcases Rule.constantFolding_eq_some h with ⟨op, span, lhs, rhs, rfl, hf⟩ | ⟨text, span, callee, list, rfl, hf⟩
    · exact (foldBinary_mapSpan op span lhs rhs).trans (congrArg _ hf)
    · obtain ⟨name, s, a, ks, t, b, argument, d, r, rfl, rfl, -⟩ := Rule.foldConversion_eq_some hf
      exact (foldConversion_mapSpan span _ argument t b).trans (congrArg _ hf)
  | countedLoop =>
    obtain ⟨text, span, setup, test, step, body, loop, rfl, hhead, rfl⟩ := Rule.countedLoop_eq_some h
    have hhead := ((countingHead_of_countedHead? hhead).mapSpan (φ := φ)).countedHead?
    simp [Pass.rule, Rule.countedLoop, Node.mapSpan, Node.mapSpanAll, hhead]

/-- A rule that applies with other spans applies. -/
theorem rule_of_mapSpan (h : pass.rule (n.mapSpan φ) = some k) : ∃ m, pass.rule n = some m := by
  generalize hn : n.mapSpan φ = n' at h
  -- The pattern is known of the tree with other spans; each piece of it must come from such a piece of the tree.
  cases pass with
  | trailingReturn =>
    obtain ⟨text, span, pre, s, a, init, t, b, e, rfl, -⟩ := Rule.trailingReturn_eq_some h
    obtain ⟨_, _, rfl, hchildren⟩ := Node.mapSpan_eq_construct hn
    obtain ⟨pre', body, rfl, -, hbody⟩ := Likeness.split_last hchildren
    obtain ⟨_, _, rfl, hstatements⟩ := Node.mapSpan_eq_construct hbody
    obtain ⟨init', final, rfl, -, hfinal⟩ := Likeness.split_last hstatements
    obtain ⟨_, _, rfl, _ | ⟨-, _ | _⟩⟩ := Node.mapSpan_eq_construct hfinal
    exact ⟨_, by simp [Pass.rule, Rule.trailingReturn, Node.isForm, Node.kind, Node.last?, Node.children]; rfl⟩
  | loneBlock =>
    obtain ⟨text, span, rfl, hd⟩ := Rule.loneBlock_eq_some h
    obtain ⟨_, _, rfl, _ | @⟨c, _, _, _, rfl, _ | _⟩⟩ := Node.mapSpan_eq_construct hn
    have hd : Rule.declaresAny [c] = false := (declaresAny_mapSpan [c]).symm.trans hd
    exact ⟨c, by rw [Pass.rule, Rule.loneBlock, hd]; rfl⟩
  | deadBranch =>
    obtain ⟨form, text, span, b, s, a, ns, first, rest, rfl, hform, hb⟩ := Rule.deadBranch_eq_some h
    obtain ⟨_, _, rfl, _ | ⟨htest, _ | @⟨first', _, _, _, -, hrest⟩⟩⟩ := Node.mapSpan_eq_construct hn
    obtain ⟨_, _, rfl⟩ := Node.mapSpan_eq_constant htest
    rcases hb with ⟨rfl, -⟩ | ⟨rfl, rfl⟩
    · exact ⟨first', by simp [Pass.rule, Rule.deadBranch, hform]⟩
    · obtain _ | @⟨second', _, _, _, -, _ | _⟩ := hrest
      exact ⟨second', by simp [Pass.rule, Rule.deadBranch, hform]⟩
  | constantFolding =>
    rcases Rule.constantFolding_eq_some h with ⟨op, span, lhs, rhs, rfl, hf⟩ | ⟨text, span, callee, list, rfl, hf⟩
    · obtain ⟨a, _, rfl, _ | @⟨l, _, _, _, rfl, _ | @⟨r, _, _, _, rfl, _ | _⟩⟩⟩ := Node.mapSpan_eq_construct hn
      cases hn
      have hf := (foldBinary_mapSpan op a l r).symm.trans hf
      exact (Option.map_eq_some_iff.1 hf).imp fun _ h => h.1
    · obtain ⟨a, _, rfl, _ | @⟨callee, _, _, _, rfl, _ | @⟨list, _, _, _, rfl, _ | _⟩⟩⟩ :=
        Node.mapSpan_eq_construct hn
      cases hn
      obtain ⟨_, _, _, _, t, _, _, _, _, -, hlist, -⟩ := Rule.foldConversion_eq_some hf
      obtain ⟨b, _, rfl, _ | @⟨argument, _, _, _, rfl, _ | _⟩⟩ := Node.mapSpan_eq_construct hlist
      have hf := (foldConversion_mapSpan a callee argument t b).symm.trans hf
      exact (Option.map_eq_some_iff.1 hf).imp fun _ h => h.1
  | countedLoop =>
    obtain ⟨text, span, setup, test, step, body, loop, rfl, hhead, rfl⟩ := Rule.countedLoop_eq_some h
    obtain ⟨_, _, rfl, _ | ⟨rfl, _ | ⟨rfl, _ | ⟨rfl, _ | ⟨-, _ | _⟩⟩⟩⟩⟩ := Node.mapSpan_eq_construct hn
    have hhead := (countingHead_of_countedHead? hhead).of_mapSpan.countedHead?
    exact ⟨_, by rw [Pass.rule, Rule.countedLoop, hhead]; rfl⟩

/-- A rule makes of a node with other spans what it makes of the node, with other spans. -/
theorem rule_mapSpan_eq (pass : Pass) (n : Node) : pass.rule (n.mapSpan φ) = (pass.rule n).map (Node.mapSpan φ) := by
  cases h : pass.rule n with
  | some m => exact rule_mapSpan h
  | none =>
    by_contra hne
    obtain ⟨k, hk⟩ := Option.ne_none_iff_exists'.1 hne
    obtain ⟨m, hm⟩ := rule_of_mapSpan hk
    rw [h] at hm
    cases hm

/-! ### Walks -/

def Step.mapSpan (φ : Span → Span) (s : Step) : Step := ⟨s.pass, s.before.mapSpan φ, s.after.mapSpan φ⟩

theorem apply_mapSpan : ∀ (p : Pipeline) (n : Node),
    p.apply (n.mapSpan φ) = ((p.apply n).1.mapSpan φ, (p.apply n).2.map (Step.mapSpan φ))
  | [], _ => rfl
  | pass :: p, n => by
    rw [Pipeline.apply, Pipeline.apply, rule_mapSpan_eq]
    cases pass.rule n with
    | none => exact apply_mapSpan p n
    | some m =>
      simp only [Option.map_some, apply_mapSpan p m]
      rfl

/-- A walk of a tree with other spans is the walk of the tree, with other spans. -/
theorem walk_mapSpan (p : Pipeline) (n : Node) : p.walk (n.mapSpan φ) =
    ⟨(p.walk n).tree.mapSpan φ, (p.walk n).visited, (p.walk n).steps.map (Step.mapSpan φ)⟩ := by
  induction n using Node.induction with
  | step n ih =>
    have htrees : n.children.map (fun c => (p.walk (c.mapSpan φ)).tree) =
        (n.children.map fun c => (p.walk c).tree).map (Node.mapSpan φ) := by
      rw [List.map_map]
      exact List.map_congr_left fun c hc => congrArg Walked.tree (ih c hc)
    have hvisited : n.children.map (fun c => (p.walk (c.mapSpan φ)).visited) =
        n.children.map fun c => (p.walk c).visited :=
      List.map_congr_left fun c hc => by rw [ih c hc]
    have hsteps : n.children.flatMap (fun c => (p.walk (c.mapSpan φ)).steps) =
        (n.children.flatMap fun c => (p.walk c).steps).map (Step.mapSpan φ) := by
      rw [List.map_flatMap]
      exact List.flatMap_congr fun c hc => congrArg Walked.steps (ih c hc)
    have hbelow : p.below (n.mapSpan φ) = (p.below n).mapSpan φ := by
      rw [Pipeline.below, Pipeline.below, Node.withChildren_mapSpan, ← htrees, Node.children_mapSpan, List.map_map]
      rfl
    rw [Pipeline.walk_eq, Pipeline.walk_eq, hbelow, apply_mapSpan, Node.children_mapSpan]
    simp only [List.map_map, List.flatMap_map, List.map_append, Function.comp_def, hvisited, hsteps]

end ScriptTree

import ScriptTree.Optimize.Tally
import ScriptTree.Proofs.Optimize.Normal
import ScriptTree.Proofs.Optimize.Preservation

/-!
The order of the passes. Where no return stands inside of another, what a rule makes of a node over walked
children is normal, and to a node the rule of one pass at most applies. So each node is rewritten once at
most, by the one pass that applies to it, wherever this pass stands in the pipeline and however often.
-/

namespace ScriptTree

variable {p q : Pipeline} {pass : Pass} {n m : Node}

/-- To a node the rule of one pass at most applies. -/
theorem Pass.rule_unique {r : Pass} {k : Node} (h : pass.rule n = some m) (hr : r.rule n = some k) : r = pass := by
  obtain ⟨_, _, _, _, rfl, hform⟩ := Pass.rule_eq_some h
  obtain ⟨_, _, _, _, he, hform'⟩ := Pass.rule_eq_some hr
  cases he
  exact Option.some.inj (hform'.symm.trans hform)

/-- A node that a rule makes normal goes through the passes in one step. -/
theorem apply_eq_step (h : pass.rule n = some m) (hm : ∀ r ∈ p, r.rule m = none) :
    pass ∈ p → p.apply n = (m, [⟨pass, n, m⟩]) := by
  induction p with
  | nil => exact nofun
  | cons r p ih =>
    intro hp
    rw [Pipeline.apply]
    cases hr : r.rule n with
    | some k =>
      obtain rfl := Pass.rule_unique h hr
      obtain rfl : m = k := Option.some.inj (h.symm.trans hr)
      simp only [apply_eq_self fun r hr => hm r (.tail _ hr)]
    | none =>
      refine ih (fun r hr => hm r (.tail _ hr)) ?_
      rcases List.mem_cons.1 hp with rfl | hp
      · rw [h] at hr
        cases hr
      · exact hp

/-- A node over normal trees goes through the passes in one step at most. -/
theorem apply_once (hc : ∀ c ∈ n.children, c.Normal p) (hn : n.ReturnsApart) :
    (∀ r ∈ p, r.rule n = none) ∧ p.apply n = (n, []) ∨
      ∃ pass ∈ p, ∃ m, pass.rule n = some m ∧ m.Normal p ∧ p.apply n = (m, [⟨pass, n, m⟩]) := by
  by_cases hrule : ∀ r ∈ p, r.rule n = none
  · exact .inl ⟨hrule, apply_eq_self hrule⟩
  · push Not at hrule
    obtain ⟨pass, hp, hm⟩ := hrule
    obtain ⟨m, hm⟩ := Option.ne_none_iff_exists'.1 hm
    have hnormal := normal_rule hc (fun _ => hn) hm
    exact .inr ⟨pass, hp, m, hm, hnormal, apply_eq_step hm (Node.normal_iff.1 hnormal).1 hp⟩

/-- A node over normal trees comes out alike of pipelines of the same passes. -/
theorem apply_congr (hc : ∀ c ∈ n.children, c.Normal p) (hn : n.ReturnsApart) (h : ∀ r, r ∈ p ↔ r ∈ q) :
    p.apply n = q.apply n := by
  rcases apply_once hc hn with ⟨hrule, happly⟩ | ⟨pass, hp, m, hm, hnormal, happly⟩
  · rw [happly, apply_eq_self fun r hr => hrule r ((h r).2 hr)]
  · rw [happly, apply_eq_step hm (fun r hr => (Node.normal_iff.1 hnormal).1 r ((h r).2 hr)) ((h pass).1 hp)]

/-- Where no return stands inside of another, the order of the passes and their repetition do not matter: walks
with the same passes lead to the same tree in the same steps, so they have the same statistics. -/
theorem walk_order (hn : n.ReturnsApart) (h : ∀ r, r ∈ p ↔ r ∈ q) :
    p.walk n = q.walk n ∧ Tally.ofWalked (p.walk n) = Tally.ofWalked (q.walk n) := by
  have key : p.walk n = q.walk n := by
    induction n using Node.induction with
    | step n ih =>
      have ih : ∀ c ∈ n.children, p.walk c = q.walk c := fun c hc => ih c hc (hn.part (Node.mem_parts_child hc))
      have hbelow : p.below n = q.below n := by
        rw [Pipeline.below, Pipeline.below, List.map_congr_left fun c hc => congrArg Walked.tree (ih c hc)]
      have happly : p.apply (p.below n) = q.apply (p.below n) := by
        refine apply_congr (fun c hc => ?_) (below_keeps (fun _ _ => Rewrites.returnsApart) hn) h
        rw [Pipeline.children_below] at hc
        obtain ⟨k, hk, rfl⟩ := List.mem_map.1 hc
        exact normal_walk (List.Subset.refl p) k fun _ => hn.part (Node.mem_parts_child hk)
      rw [Pipeline.walk_eq, Pipeline.walk_eq, ← hbelow, happly,
        List.map_congr_left fun c hc => congrArg Walked.visited (ih c hc),
        List.flatMap_congr fun c hc => congrArg Walked.steps (ih c hc)]
  exact ⟨key, congrArg Tally.ofWalked key⟩

/-- A function of a loop and a return is walked alike by the passes in their order and by them in the reverse
order and once more. -/
theorem walk_order_reverse :
    let n : Node := .construct .definition "" .unknown [.ofName "f", .construct .block "" .unknown
      [.countTo "i" 3 (.callOn "emit" (.ofName "i")),
        .construct .returned "" .unknown [.construct .binary "+" .unknown [.ofInt 1, .ofInt 2]]]]
    let p := Pipeline.standard
    let q : Pipeline := p.reverse ++ p
    n.ReturnsApart ∧ (∀ r, r ∈ p ↔ r ∈ q) ∧
      p.walk n = q.walk n ∧ Tally.ofWalked (p.walk n) = Tally.ofWalked (q.walk n) := by
  have hn : (Node.construct .definition "" .unknown [.ofName "f", .construct .block "" .unknown
      [.countTo "i" 3 (.callOn "emit" (.ofName "i")),
        .construct .returned "" .unknown [.construct .binary "+" .unknown [.ofInt 1, .ofInt 2]]]]).ReturnsApart := by
    decide
  have hpasses : ∀ r, r ∈ Pipeline.standard ↔ r ∈ Pipeline.standard.reverse ++ Pipeline.standard := by
    intro r
    cases r <;> decide
  exact ⟨hn, hpasses, walk_order hn hpasses⟩

end ScriptTree

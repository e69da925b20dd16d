import ScriptTree.Proofs.Optimize.Order
import ScriptTree.Proofs.Optimize.Spans
import ScriptTree.Proofs.Tree.RoundTrip

/-!
Trees that are walked, written, read back and walked again. A native loop is written as the loop it stands for,
which has been walked already, head and body. So the second walk finds a tree in which no rule applies, but for
the one that makes loops native: it applies to every loop that was written for a native one, and to no other.
This holds of the loops inside of a native loop as well, since it keeps the loop with the very body that it
retains, until it is walked once more.
-/

namespace ScriptTree

variable {p : Pipeline} {pass : Pass} {n m w : Node}

namespace Node

/-! ### Finished trees -/

/-- A tree that a walk with these passes is done with. No rule applies to its constructs; native loops are as their
pass makes them, of loops over finished trees. -/
inductive Finished (p : Pipeline) : Node → Prop
  | construct {form : Form} {text : String} {span : Span} {ns : List Node}
    (hrule : ∀ r ∈ p, r.rule (.construct form text span ns) = none) (hns : ∀ c ∈ ns, Finished p c) :
    Finished p (.construct form text span ns)
  | constant {value : Literal} {text : String} {span : Span} {ns : List Node} (hns : ∀ c ∈ ns, Finished p c) :
    Finished p (.constant value text span ns)
  | native {setup test step body : Node} {loop : CountedLoop} {text : String} {span : Span} (hp : .countedLoop ∈ p)
    (hhead : Rule.countedHead? setup test step = some loop)
    (hns : ∀ c ∈ [setup, test, step, body], Finished p c) :
    Finished p (.counted loop (.construct .forLoop text span [setup, test, step, body]) text span [body])

theorem Finished.child (h : n.Finished p) (hm : m ∈ n.children) : m.Finished p := by
  cases h with
  | construct _ hns => exact hns m hm
  | constant hns => exact hns m hm
  | native _ _ hns => exact hns m (by simp_all [children])

/-- Only to constructs a rule may apply. -/
theorem Finished.rule (h : n.Finished p) : ∀ r ∈ p, r.rule n = none := by
  intro r hr
  cases h with
  | construct hrule => exact hrule r hr
  | constant => cases r <;> rfl
  | native => cases r <;> rfl

theorem Finished.normal (h : n.Finished p) : n.Normal p := by
  induction n using Node.induction with
  | step n ih => exact normal_iff.2 ⟨h.rule, fun c hc => ih c hc (h.child hc)⟩

end Node

/-! ### Walks finish trees -/

/-- What a rule makes of a node over finished trees is finished, if it is normal. -/
theorem finished_rule (hc : ∀ c ∈ n.children, c.Finished p) (hm : m.Normal p) (hp : pass ∈ p)
    (h : pass.rule n = some m) : m.Finished p := by
  cases pass with
  | trailingReturn =>
    obtain ⟨text, span, pre, s, a, init, t, b, e, rfl, rfl⟩ := Rule.trailingReturn_eq_some h
    obtain ⟨hpre, hbody⟩ := List.forall_mem_append.1 hc
    have hstatements := fun c => (hbody _ (.head _)).child (m := c)
    obtain ⟨hinit, hfinal⟩ := List.forall_mem_append.1 hstatements
    have he : e.Finished p := (hfinal _ (.head _)).child (.head _)
    obtain ⟨hdefinition, hparts⟩ := Node.normal_iff.1 hm
    have hblock := (Node.normal_iff.1 (hparts _ (List.mem_append.2 (.inr (.head _))))).1
    have hbody : (Node.construct .block s a (init ++ [e])).Finished p :=
      .construct hblock (List.forall_mem_append.2 ⟨hinit, List.forall_mem_singleton.2 he⟩)
    exact .construct hdefinition (List.forall_mem_append.2 ⟨hpre, List.forall_mem_singleton.2 hbody⟩)
  | loneBlock =>
    obtain ⟨text, span, rfl, -⟩ := Rule.loneBlock_eq_some h
    exact hc m (.head _)
  | deadBranch =>
    obtain ⟨form, text, span, x, s, a, ns, first, rest, rfl, -, ⟨-, rfl⟩ | ⟨-, rfl⟩⟩ := Rule.deadBranch_eq_some h
    · exact hc m (.tail _ (.head _))
    · exact hc m (.tail _ (.tail _ (.head _)))
  | constantFolding =>
    obtain ⟨v, s, a, rfl⟩ := Rule.constantFolding_constant h
    exact .constant nofun
  | countedLoop =>
    obtain ⟨text, span, setup, test, step, body, loop, rfl, hhead, rfl⟩ := Rule.countedLoop_eq_some h
    exact .native hp hhead hc

theorem finished_apply (hc : ∀ c ∈ n.children, c.Finished p) (hn : n.ReturnsApart) (hkind : n.kind ≠ .specialized) :
    (p.apply n).1.Finished p := by
  rcases apply_once (fun c hmem => (hc c hmem).normal) hn with ⟨hrule, happly⟩ | ⟨pass, hp, m, hm, hnormal, happly⟩
  · rw [happly]
    cases n with
    | construct => exact .construct hrule hc
    | constant => exact .constant hc
    | counted => exact absurd rfl hkind
  · rw [happly]
    exact finished_rule hc hnormal hp hm

/-- A walk finishes a tree without native loops in which no return stands inside of another. -/
theorem finished_walk (n : Node) (hn : n.Generic) (hapart : n.ReturnsApart) : (p.walk n).tree.Finished p := by
  induction n using Node.induction with
  | step n ih =>
    rw [Pipeline.walk_eq]
    refine finished_apply (fun c hc => ?_) (below_keeps (fun _ _ => Rewrites.returnsApart) hapart) ?_
    · rw [Pipeline.children_below] at hc
      obtain ⟨k, hk, rfl⟩ := List.mem_map.1 hc
      exact ih k hk (hn.part (Node.mem_parts_child hk)) (hapart.part (Node.mem_parts_child hk))
    · have hkind := hn n n.mem_parts_self
      cases n with
      | construct => exact nofun
      | constant => exact nofun
      | counted => exact absurd rfl hkind

/-! ### Walking what was written -/

namespace Node

mutual

/-- The native loops that lie in a tree as it is written: in the place of a native loop the loop is written that it
stands for. -/
def writtenLoops : Node → List Node
  | .construct _ _ _ children => writtenLoopsAll children
  | .constant _ _ _ children => writtenLoopsAll children
  | .counted loop generic text span children =>
    writtenLoops generic ++ [.counted loop generic text span children]

/-- The native loops that lie in several trees as they are written. -/
def writtenLoopsAll : List Node → List Node
  | [] => []
  | n :: ns => writtenLoops n ++ writtenLoopsAll ns

end

theorem writtenLoopsAll_eq (ns : List Node) : writtenLoopsAll ns = ns.flatMap writtenLoops := by
  induction ns with
  | nil => rfl
  | cons n ns ih => rw [writtenLoopsAll, ih, List.flatMap_cons]

end Node

/-- The step that makes a loop native. -/
def Step.specialized (a : Node) : Step := ⟨.countedLoop, a.generic?.getD a, a⟩

/-- Restored children that come out of their walks as they were. -/
theorem walk_over_restored {ns : List Node} (hm : m.children = Node.restoredAll ns)
    (ih : ∀ c ∈ ns, (p.walk c.restored).tree = c ∧ (p.walk c.restored).steps = c.writtenLoops.map .specialized) :
    (p.walk m).tree = (p.apply (m.withChildren ns)).1 ∧
      (p.walk m).steps = (Node.writtenLoopsAll ns).map .specialized ++ (p.apply (m.withChildren ns)).2 := by
  rw [Node.restoredAll_eq] at hm
  have htrees : m.children.map (fun c => (p.walk c).tree) = ns := by
    rw [hm, List.map_map]
    exact (List.map_congr_left fun c hc => (ih c hc).1).trans (List.map_id' ns)
  have hsteps : m.children.flatMap (fun c => (p.walk c).steps) = (Node.writtenLoopsAll ns).map .specialized := by
    rw [hm, List.flatMap_map, Node.writtenLoopsAll_eq, List.map_flatMap]
    exact List.flatMap_congr fun c hc => (ih c hc).2
  rw [Pipeline.walk_eq, Pipeline.below, htrees, hsteps]
  exact ⟨rfl, rfl⟩

/-- A walk of a finished tree with its native loops restored makes these native again and does nothing else. -/
theorem walk_restored (h : w.Finished p) :
    (p.walk w.restored).tree = w ∧ (p.walk w.restored).steps = w.writtenLoops.map .specialized := by
  induction h with
  | @construct form text span ns hrule hns ih =>
    rw [Node.restored, Node.writtenLoops]
    have hwalk := walk_over_restored (m := .construct form text span (Node.restoredAll ns)) rfl ih
    rw [Node.withChildren, apply_eq_self hrule, List.append_nil] at hwalk
    exact hwalk
  | @constant value text span ns hns ih =>
    rw [Node.restored, Node.writtenLoops]
    have hwalk := walk_over_restored (m := .constant value text span (Node.restoredAll ns)) rfl ih
    rw [Node.withChildren, apply_eq_self fun r _ => by cases r <;> rfl, List.append_nil] at hwalk
    exact hwalk
  | @native setup test step body loop text span hp hhead hns ih =>
    -- What is walked is the loop that was kept. Its body comes out as the body that was retained.
    rw [Node.restored, Node.restored, Node.writtenLoops, Node.writtenLoops, List.map_append]
    have hwalk := walk_over_restored
      (m := .construct .forLoop text span (Node.restoredAll [setup, test, step, body])) rfl ih
    have hnative : Pass.countedLoop.rule (.construct .forLoop text span [setup, test, step, body]) =
        some (.counted loop (.construct .forLoop text span [setup, test, step, body]) text span [body]) := by
      rw [Pass.rule, Rule.countedLoop, hhead, Option.map_some]
    rw [Node.withChildren, apply_eq_step hnative (fun r _ => by cases r <;> rfl) hp] at hwalk
    exact hwalk

/-- What a walk made of a tree that was read is written, read back and walked again: the tree comes out as it was,
but for the spans that name no place, and the steps are those that make native again, one by one, the loops that
were written for native ones. -/
theorem reoptimized (h : n.Decoded) (hapart : n.ReturnsApart) (p : Pipeline) :
    let w := (p.walk n).tree
    ∃ m, Node.decode w.encode = .ok m ∧ (p.walk m).tree = w.mapSpan Span.reread ∧
      (p.walk m).steps.map (fun s => (s.pass, s.after)) =
        w.writtenLoops.map fun a => (.countedLoop, a.mapSpan Span.reread) := by
  intro w
  have hwritable : w.Writable Json.nestingLimit := walk_keeps (fun _ _ h => h.writable) h.writable.1
  have hfinished : w.Finished p := finished_walk n h.writable.2 hapart
  obtain ⟨htree, hsteps⟩ := walk_restored hfinished
  refine ⟨_, decode_encode hwritable, ?_⟩
  rw [walk_mapSpan, htree, hsteps, List.map_map, List.map_map]
  exact ⟨rfl, rfl⟩

/-- A loop whose body is folded and that becomes native is written, read back and made native once more. -/
theorem reoptimized_sumInLoop :
    let n := Node.sumInLoop
    let p := Pipeline.standard
    let w := (p.walk n).tree
    n.Decoded ∧ n.ReturnsApart ∧ w.writtenLoops = [w] ∧
      ∃ m, Node.decode w.encode = .ok m ∧ (p.walk m).tree = w.mapSpan Span.reread ∧
        (p.walk m).steps.map (fun s => (s.pass, s.after)) =
          w.writtenLoops.map fun a => (.countedLoop, a.mapSpan Span.reread) := by
  have hapart : Node.sumInLoop.ReturnsApart := by decide
  exact ⟨Node.decoded_sumInLoop, hapart, rfl, reoptimized Node.decoded_sumInLoop hapart .standard⟩

end ScriptTree

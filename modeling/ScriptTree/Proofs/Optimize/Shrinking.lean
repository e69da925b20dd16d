import ScriptTree.Optimize.Tally
import ScriptTree.Proofs.Optimize.Normal
import Mathlib.Algebra.Order.BigOperators.Group.List
import Mathlib.Algebra.Order.Group.Nat

/-!
How a walk uses up the tree. Every step leaves at least one node less than there was, also where the step
throws away a branch in which steps were taken before. So the nodes of the walked tree and the steps are not
more than the nodes there were at first, each of which is visited once. A walk that takes no step gives back
the tree, and no other walk does.
-/

namespace ScriptTree

variable {p : Pipeline} {pass : Pass} {n m : Node}

/-! ### Counting nodes -/

namespace Node

theorem countAll_eq (ns : List Node) : countAll ns = (ns.map count).sum := by
  induction ns with
  | nil => rfl
  | cons n ns ih => rw [countAll, ih, List.map_cons, List.sum_cons]

theorem count_eq (n : Node) : n.count = 1 + (n.children.map count).sum := by
  rw [← countAll_eq]
  cases n <;> rfl

theorem count_construct (form : Form) (text : String) (span : Span) (ns : List Node) :
    (construct form text span ns).count = 1 + (ns.map count).sum := count_eq _

theorem count_pos (n : Node) : 0 < n.count := by
  rw [count_eq]
  omega

end Node

/-! ### Steps -/

/-- What a rule yields has fewer nodes. -/
theorem rule_count (h : pass.rule n = some m) : m.count < n.count := by
  cases pass with
  | trailingReturn =>
    obtain ⟨text, span, pre, s, a, init, t, b, e, rfl, rfl⟩ := Rule.trailingReturn_eq_some h
    simp only [Node.count_construct, List.map_append, List.sum_append, List.map_cons, List.map_nil, List.sum_cons,
      List.sum_nil]
    omega
  | loneBlock =>
    obtain ⟨text, span, rfl, -⟩ := Rule.loneBlock_eq_some h
    simp only [Node.count_construct, List.map_cons, List.map_nil, List.sum_cons, List.sum_nil]
    omega
  | deadBranch =>
    obtain ⟨form, text, span, b, s, a, ns, first, rest, rfl, -, ⟨-, rfl⟩ | ⟨-, rfl⟩⟩ := Rule.deadBranch_eq_some h <;>
    · simp only [Node.count_construct, List.map_cons, List.map_nil, List.sum_cons, List.sum_nil]
      omega
  | constantFolding =>
    obtain ⟨v, s, a, rfl⟩ := Rule.constantFolding_constant h
    rcases Rule.constantFolding_eq_some h with ⟨op, span, lhs, rhs, rfl, -⟩ | ⟨text, span, callee, list, rfl, -⟩
    · have := lhs.count_pos
      simp only [Node.count_eq, Node.children, List.map_cons, List.map_nil, List.sum_cons, List.sum_nil] at this ⊢
      omega
    · have := callee.count_pos
      simp only [Node.count_eq, Node.children, List.map_cons, List.map_nil, List.sum_cons, List.sum_nil] at this ⊢
      omega
  | countedLoop =>
    obtain ⟨text, span, setup, test, step, body, loop, rfl, -, rfl⟩ := Rule.countedLoop_eq_some h
    have := setup.count_pos
    simp only [Node.count_eq, Node.children, List.map_cons, List.map_nil, List.sum_cons, List.sum_nil] at this ⊢
    omega

/-- Each step is one of the rule of its pass. -/
theorem apply_steps : ∀ (p : Pipeline) (n : Node), ∀ s ∈ (p.apply n).2, s.pass.rule s.before = some s.after
  | [], _ => nofun
  | pass :: p, n => by
    rw [Pipeline.apply]
    cases h : pass.rule n with
    | none => exact apply_steps p n
    | some m =>
      intro s hs
      rcases List.mem_cons.1 hs with rfl | hs
      · exact h
      · exact apply_steps p m s hs

/-- What a node becomes and the steps it takes are not more than its nodes. -/
theorem apply_count : ∀ (p : Pipeline) (n : Node), (p.apply n).1.count + (p.apply n).2.length ≤ n.count
  | [], _ => Nat.le_refl _
  | pass :: p, n => by
    rw [Pipeline.apply]
    cases h : pass.rule n with
    | none => exact apply_count p n
    | some m =>
      have hm := apply_count p m
      have hlt := rule_count h
      simp only [List.length_cons]
      omega

/-! ### Walks -/

theorem walk_steps (n : Node) : ∀ s ∈ (p.walk n).steps, s.pass.rule s.before = some s.after := by
  induction n using Node.induction with
  | step n ih =>
    rw [Pipeline.walk_eq]
    intro s hs
    rcases List.mem_append.1 hs with hs | hs
    · obtain ⟨c, hc, hs⟩ := List.mem_flatMap.1 hs
      exact ih c hc s hs
    · exact apply_steps p _ s hs

theorem walk_visited (n : Node) : (p.walk n).visited = n.count := by
  induction n using Node.induction with
  | step n ih =>
    rw [Pipeline.walk_eq, Node.count_eq, Nat.add_comm]
    dsimp only
    rw [List.map_congr_left ih]

/-- The nodes of the walked tree and the steps taken are not more than the nodes of the tree. -/
theorem walk_count (n : Node) : (p.walk n).tree.count + (p.walk n).steps.length ≤ n.count := by
  induction n using Node.induction with
  | step n ih =>
    have hbelow : ((n.children.map fun c => (p.walk c).tree.count).sum +
        (n.children.map fun c => (p.walk c).steps.length).sum) ≤ (n.children.map Node.count).sum := by
      rw [← List.sum_map_add]
      exact List.sum_le_sum ih
    -- The node is offered over its walked children, so what it loses comes on top of what these have lost.
    have happly := apply_count p (p.below n)
    rw [Node.count_eq (p.below n), Pipeline.children_below, List.map_map, Function.comp_def] at happly
    rw [Pipeline.walk_eq, Node.count_eq n]
    simp only [List.length_append, List.length_flatMap]
    omega

theorem walk_steps_eq_nil (n : Node) : (p.walk n).steps = [] ↔ (p.walk n).tree = n := by
  constructor
  · exact fun h => (walk_of_normal n ((walk_steps_eq_nil_iff n).1 h)).1
  · intro h
    have hcount := walk_count (p := p) n
    rw [h] at hcount
    exact List.eq_nil_of_length_eq_zero (by omega)

/-! ### Totals -/

namespace Tally

variable {counts : List (String × Int64)} {name : String}

/-- The sum of the counts and of what there is already. -/
def sumFrom (a : Int64) (counts : List (String × Int64)) : Int64 := counts.foldl (fun n (_, k) => n + k) a

theorem sumFrom_add (a n : Int64) : sumFrom (a + n) counts = sumFrom a counts + n := by
  induction counts generalizing a with
  | nil => rfl
  | cons c counts ih =>
    show sumFrom (a + n + c.2) counts = sumFrom (a + c.2) counts + n
    rw [← ih, Int64.add_assoc, Int64.add_comm n, Int64.add_assoc]

theorem sumFrom_addCount (a n : Int64) : sumFrom a (addCount name n counts) = sumFrom a counts + n := by
  induction counts generalizing a with
  | nil => rfl
  | cons c counts ih =>
    obtain ⟨m, k⟩ := c
    rw [addCount]
    split
    · show sumFrom (a + (k + n)) counts = sumFrom (a + k) counts + n
      rw [← Int64.add_assoc, sumFrom_add]
    split
    · show sumFrom (a + n + k) counts = sumFrom (a + k) counts + n
      rw [← sumFrom_add, Int64.add_assoc, Int64.add_comm n, Int64.add_assoc]
    · exact ih (a + k)

/-- The total of a walk is the number of its steps. -/
theorem total_ofWalked (w : Walked) : (ofWalked w).total = .ofNat w.steps.length := by
  suffices h : ∀ (steps : List Step) (counts : List (String × Int64)),
      sumFrom 0 (steps.foldl (fun counts s => addCount s.pass.name 1 counts) counts) =
        sumFrom 0 counts + .ofNat steps.length by
    exact (h w.steps []).trans (Int64.zero_add _)
  intro steps
  induction steps with
  | nil => simp
  | cons s steps ih =>
    intro counts
    rw [List.foldl_cons, ih, sumFrom_addCount, List.length_cons, Nat.add_comm, Int64.ofNat_add, Int64.add_assoc]
    rfl

end Tally

/-- A walk visits each node once, each of its steps takes nodes away, the nodes that are left and the steps are not
more than the nodes there were, and a walk without steps, and no other, gives back the tree. -/
theorem walk_shrinks (p : Pipeline) (n : Node) :
    let w := p.walk n
    w.visited = n.count ∧ (∀ s ∈ w.steps, s.after.count < s.before.count) ∧
      w.tree.count + w.steps.length ≤ n.count ∧ (w.steps = [] ↔ w.tree = n) ∧
      (Tally.ofWalked w).visited = .ofNat n.count ∧ (Tally.ofWalked w).total = .ofNat w.steps.length :=
  ⟨walk_visited n, fun s hs => rule_count (walk_steps n s hs), walk_count n, walk_steps_eq_nil n,
    congrArg Int64.ofNat (walk_visited n), Tally.total_ofWalked _⟩

end ScriptTree

import ScriptTree.Proofs.Optimize.Coherence
import ScriptTree.Proofs.Optimize.Indexing
import ScriptTree.Proofs.Run.Conduct

/-!
No child that is asked for is missing. Evaluation asks for children by index and does not look first
whether they are there: an operator has its operands, a loop its head and its body. That every construct
of a tree has these is kept by all rewritings, for a rule drops children only of nodes it does away with.
Native loops come from rewriting alone, and have their body from then on. What a run evaluates is the tree
or the body of a function, and the functions it defines have parts of these as bodies.
-/

namespace ScriptTree

variable {p : Pipeline} {n m a b : Node}

/-! ### Rewritings -/

theorem Becomes.hasOperands (h : Becomes p a b) (ha : a.hasOperands = true) : b.hasOperands = true := by
  cases h with
  | @below _ ms h =>
    cases a with
    | construct form text span ns =>
      simpa only [Node.withChildren, Node.hasOperands, ← show ns.length = ms.length from h.length_eq] using ha
    | constant => rfl
    | counted => rfl
  | folded | definition | block | native => rfl

theorem Becomes.hasBody (h : Becomes p a b) (ha : a.hasBody = true) : b.hasBody = true := by
  cases h with
  | @below _ ms h =>
    cases a with
    | construct => rfl
    | constant => rfl
    | counted loop generic text span ns =>
      cases h with
      | nil => exact ha
      | cons => rfl
  | folded | definition | block | native => rfl

theorem Rewrites.complete (h : Rewrites p n m) (hn : n.Complete) : m.Complete := by
  intro b hb
  obtain ⟨a, ha, hab⟩ := h.parts hb
  exact hab.hasOperands (hn a ha)

theorem Rewrites.bodied (h : Rewrites p n m) (hn : n.Bodied) : m.Bodied := by
  intro b hb
  obtain ⟨a, ha, hab⟩ := h.parts hb
  exact hab.hasBody (hn a ha)

theorem Node.Generic.bodied (h : n.Generic) : n.Bodied := by
  intro a ha
  cases a with
  | construct => rfl
  | constant => rfl
  | counted => exact absurd rfl (h _ ha)

/-- After any number of walks the native loops have their bodies. -/
theorem Node.Bodied.walks (h : n.Bodied) : ∀ ps : List Pipeline, (Pipeline.walks ps n).Bodied := by
  intro ps
  induction ps generalizing n with
  | nil => exact h
  | cons p ps ih => exact ih (walk_keeps (fun _ _ => Rewrites.bodied) h)

/-! ### Runs -/

/-- The conduct of runs that find all children. -/
def Conduct.furnished : Conduct where
  Change _ _ _ := True
  strict := true
  refl _ _ := trivial
  trans _ _ := trivial
  bind _ _ _ := trivial
  assign _ := trivial
  setCell _ _ _ _ := trivial
  define _ _ _ := trivial
  call _ _ _ := trivial
  scope _ := trivial
  loop _ := trivial

/-- Whatever the tree, a walk asks for no child that is missing: every rule makes sure of a child before it
asks for it. If the constructs of a tree have the children that evaluation may ask for, so have those of
what a walk makes of it, and the native loops that walks put into a tree that had none have their bodies.
A tree with all these children is evaluated without asking for one that is missing, in any context whose
functions have such bodies, and leaves one behind. -/
theorem children_present :
    (∀ (p : Pipeline) (n : Node), p.walkIndexed n = .ok (p.walk n)) ∧
    (∀ (p : Pipeline) (n : Node), n.Complete → (p.walk n).tree.Complete) ∧
    (∀ (ps : List Pipeline) (n : Node), n.Generic → (Pipeline.walks ps n).Bodied) ∧
    (∀ (p : Pipeline) (n : Node), n.Bodied → (p.walk n).tree.Bodied) ∧
    (∀ (host : Host) (fuel : Nat) (n : Node) (c : Context), n.Complete → n.Bodied →
      (∀ f ∈ c.functions.toList, f.body.Complete ∧ f.body.Bodied) →
      (∀ i count, (n.eval host fuel c).1 ≠ .error (.missingChild i count)) ∧
        ∀ f ∈ (n.eval host fuel c).2.functions.toList, f.body.Complete ∧ f.body.Bodied) := by
  refine ⟨Pipeline.walk_indexed, fun p n => walk_keeps fun _ _ => Rewrites.complete,
    fun ps n h => h.bodied.walks ps, fun p n => walk_keeps fun _ _ => Rewrites.bodied, ?_⟩
  intro host fuel n c hcomplete hbodied hfunctions
  have hkeeps : Keeps .furnished true (n.eval host fuel) c :=
    Conduct.eval_keeps .furnished host fuel n true ⟨fun _ => ⟨hcomplete, hbodied⟩, nofun⟩ c
      fun f hf _ => hfunctions f hf
  exact ⟨hkeeps.complete rfl, fun f hf => hkeeps.sound f hf rfl⟩

/-- A loop is walked twice and run in a context without functions. -/
theorem children_present_sumInLoop :
    let n := Pipeline.walks [.standard, [.constantFolding]] .sumInLoop
    Node.sumInLoop.Complete ∧ Node.sumInLoop.Generic ∧ n.Complete ∧ n.Bodied ∧
      ∀ i count, (n.eval .silent 20 (.withHost "emit")).1 ≠ .error (.missingChild i count) := by
  intro n
  obtain ⟨-, hwalk, hwalks, -, hrun⟩ := children_present
  have hsum : Node.sumInLoop.Complete := by decide
  have hgeneric : Node.sumInLoop.Generic := by decide
  have hcomplete : n.Complete := hwalk [.constantFolding] _ (hwalk .standard _ hsum)
  have hbodied : n.Bodied := hwalks _ _ hgeneric
  have hfunctions : ∀ f ∈ (Context.withHost "emit").functions.toList, f.body.Complete ∧ f.body.Bodied :=
    List.forall_mem_nil _
  exact ⟨hsum, hgeneric, hcomplete, hbodied, (hrun .silent 20 n _ hcomplete hbodied hfunctions).1⟩

end ScriptTree

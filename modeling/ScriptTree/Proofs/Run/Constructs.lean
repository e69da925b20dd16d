import ScriptTree.Proofs.Run.Simulation

/-!
The constructs of the language keep contexts in agreement if what is below them does. There is one
lemma for each construct; nothing is said here about how the nodes below are related.
-/

namespace ScriptTree

open Eval

variable {st : Setting} {w : World} {mode : Mode} {run : Node.Evaluator} {runs : Nat → Node.Evaluator}
  {n m : Node} {ns ms : List Node} {name op : String}

/-- The second node, evaluated by the family, simulates the first one. -/
abbrev NodeSim (st : Setting) (w : World) (mode : Mode) (run : Node.Evaluator)
    (runs : Nat → Node.Evaluator) (n m : Node) : Prop :=
  Sim st w (Finish w mode) (run n) fun j => runs j m

/-- Statements that correspond one by one; the last one may be compared in another mode. -/
inductive Statements (S : Mode → Node → Node → Prop) (mode : Mode) : List Node → List Node → Prop
  | nil : Statements S mode [] []
  | last {n m : Node} (h : S mode n m) : Statements S mode [n] [m]
  | cons {n m : Node} {ns ms : List Node} (h : S .exact n m) (hs : Statements S mode ns ms) :
    Statements S mode (n :: ns) (m :: ms)

/-- Two nodes are the same to a construct that wants the name of a variable. -/
structure SameName (n m : Node) : Prop where
  isIdentifier : n.isForm .identifier = m.isForm .identifier
  text : n.isForm .identifier = true → n.text = m.text

/-- A name may be bound in the innermost scope on both sides. -/
def Binds (st : Setting) (w : World) (form : Form) (name : String) : Prop :=
  ¬st.reserved name ∧
    ∃ L, w.layers = .shared :: L ∧ (form = .definition → ¬w.Pins L.length name)

/-- Two nodes are the same to an assignment to them. -/
structure SameTarget (n m : Node) : Prop where
  kind : n.kind = m.kind
  text : n.isForm .identifier = true → n.text = m.text
  declaredName : n.isForm .declaration = true → n.declaredName = m.declaredName

namespace Sim

/-! ### Operands and statements -/

/-- An operand and what is done with its value. -/
theorem operandOf {V : Context → Context → Value → Value → Prop} {next : Value → Eval Completion}
    {nexts : Nat → Value → Eval Completion}
    (hn : Sim st w (fun c d => Completes (V c d)) (run n) fun j => runs j m)
    (hV : ∀ {c d u v}, V c d u v → Alike w c d u v)
    (hnext : ∀ c d u v, Agree st w c d → V c d u v →
      Follows (Ends (Agree st w) (Finish w mode)) (next u) (fun j => nexts j v) c d) :
    Sim st w (Finish w mode) (Node.operand run n next) fun j => Node.operand (runs j) m (nexts j) := by
  refine hn.bind fun r r' c d hA h => ?_
  have hexact : Finish w mode c d r r' := .of_exact hA (h.imp hV)
  have hflow := h.flow
  cases hr : r.flow with
  | normal =>
    rw [hr] at hflow
    simp only [← hflow]
    exact hnext c d _ _ hA h.value
  | _ =>
    rw [hr] at hflow
    simp only [← hflow]
    exact .pure hA hexact

theorem operand {next : Value → Eval Completion} {nexts : Nat → Value → Eval Completion}
    (hn : NodeSim st w .exact run runs n m)
    (hnext : ∀ c d u v, Agree st w c d → Alike w c d u v →
      Follows (Ends (Agree st w) (Finish w mode)) (next u) (fun j => nexts j v) c d) :
    Sim st w (Finish w mode) (Node.operand run n next) fun j => Node.operand (runs j) m (nexts j) :=
  operandOf (V := Alike w) hn id hnext

/-- Alike values are read as the same datum, and nothing else changes. -/
theorem readAt {α β : Type} {P : Outcome α → Outcome β → Prop} {c d : Context} {u v : Value}
    {f : Datum → Eval α} {F : Nat → Datum → Eval β} (hA : Agree st w c d) (h : Alike w c d u v)
    (hf : ∀ x, Follows P (f x) (fun j => F j x) c d) :
    Follows P (Eval.read u >>= f) (fun j => Eval.read v >>= F j) c d := by
  intro hne
  obtain ⟨o, ⟨k, hk⟩, hP⟩ := hf (c.read u) hne
  refine ⟨o, ⟨k, fun j hj => ?_⟩, hP⟩
  rw [← hk j hj, h.read hA]
  rfl

/-- A datum is read from alike values and something is done with it. -/
theorem readThen {α β : Type} {U : Context → Context → α → β → Prop} {c d : Context} {u v : Value}
    {f : Datum → Eval α} {F : Nat → Datum → Eval β} (hA : Agree st w c d) (h : Alike w c d u v)
    (hf : ∀ x, Sim st w U (f x) fun j => F j x) :
    Follows (Ends (Agree st w) U) (Eval.read u >>= f) (fun j => Eval.read v >>= F j) c d :=
  readAt hA h fun x => hf x c d hA

/-- A variable is looked up on both sides, and nothing changes. -/
theorem getAt {α β : Type} {U : Context → Context → α → β → Prop} {c d : Context}
    {f : Value → Eval α} {F : Nat → Value → Eval β} (hA : Agree st w c d)
    (hf : ∀ u v, Alike w c d u v → Follows (Ends (Agree st w) U) (f u) (fun j => F j v) c d) :
    Follows (Ends (Agree st w) U) (Eval.get name >>= f) (fun j => Eval.get name >>= F j) c d := by
  rcases hA.get name with ⟨u, v, h₁, h₂, h⟩ | ⟨h₁, h₂⟩
  · have hc : Eval.get name c = (.ok u, c) := by simp [Eval.get, h₁]
    have hd : Eval.get name d = (.ok v, d) := by simp [Eval.get, h₂]
    intro hne
    have hcf : (Eval.get name >>= f) c = f u c := by
      show Eval.bind (Eval.get name) f c = f u c
      rw [Eval.bind, hc]
    rw [hcf] at hne ⊢
    obtain ⟨o, hs, hP⟩ := hf u v h hne
    exact ⟨o, Settles.bind ⟨0, fun _ _ => hd⟩ hs, hP⟩
  · have hc : Eval.get name c = (.error (.fault (.undefinedVariable name)), c) := by simp [Eval.get, h₁]
    have hd : Eval.get name d = (.error (.fault (.undefinedVariable name)), d) := by simp [Eval.get, h₂]
    intro _
    refine ⟨_, Settles.bind_error ⟨0, fun _ _ => hd⟩, ?_⟩
    show Ends _ _ (Eval.bind (Eval.get name) f c) _
    rw [Eval.bind, hc]
    exact .error hA

/-- A result that may be a fault and something done with it. -/
theorem okThen {α β γ : Type} {U : Context → Context → β → γ → Prop} {e : Except Fault α}
    {f : α → Eval β} {F : Nat → α → Eval γ} (hf : ∀ x, Sim st w U (f x) fun j => F j x) :
    Sim st w U (Eval.ofExcept e >>= f) fun j => Eval.ofExcept e >>= F j :=
  Sim.ofExcept.andThen fun a b hab => by
    obtain rfl : a = b := hab
    exact hf a

/-- A datum that is yielded on both sides. -/
theorem yield {x : Datum} : Sim st w (Finish w mode) (return .ofDatum x) (fun _ => return .ofDatum x) :=
  .pure fun hA => .of_exact hA (.ofDatum (.held .plain) .normal)

theorem yieldValue {c d : Context} {u v : Value} (hA : Agree st w c d) (h : Alike w c d u v) :
    Follows (Ends (Agree st w) (Finish w mode)) (return .ofValue u) (fun _ => return .ofValue v) c d :=
  .pure hA (.of_exact hA (.ofValue h))

/-- A condition holds on both sides or on none. -/
theorem condition (hn : NodeSim st w .exact run runs n m) :
    Sim st w Same (Node.condition run n) fun j => Node.condition (runs j) m :=
  hn.bind fun _ _ _ _ hA h => readThen hA (Completes.value h) fun _ => Sim.ofExcept

theorem sequence_singleton (run : Node.Evaluator) (n : Node) (last : Completion) :
    Node.sequence run [n] last = run n := by
  funext c
  show Eval.bind (run n) _ c = run n c
  rw [Eval.bind]
  rcases run n c with ⟨r | ⟨v, flow⟩, c'⟩
  · rfl
  · cases flow <;> rfl

theorem sequence (h : Statements (fun mode => NodeSim st w mode run runs) mode ns ms) :
    ∀ last last' c d, Agree st w c d → Finish w mode c d last last' →
      Follows (Ends (Agree st w) (Finish w mode)) (Node.sequence run ns last)
        (fun j => Node.sequence (runs j) ms last') c d := by
  induction h with
  | nil => exact fun last last' c d hA hF => .pure hA hF
  | last h =>
    intro last last' c d hA _
    rw [sequence_singleton]
    simp only [sequence_singleton]
    exact h c d hA
  | cons h _ ih =>
    intro last last' c d hA _
    refine (h c d hA).bind fun r r' c d hA hr => ?_
    have hexact : Finish w mode c d r r' := .of_exact hA hr
    have hflow := Completes.flow hr
    cases hf : r.flow with
    | normal =>
      rw [hf] at hflow
      simp only [← hflow]
      exact ih r r' c d hA hexact
    | _ =>
      rw [hf] at hflow
      simp only [← hflow]
      exact .pure hA hexact

/-- A block. -/
theorem block (h : Statements (fun mode => NodeSim st (w.under .shared) mode run runs) mode ns ms) :
    Sim st w (Finish w mode) (Eval.withScope (Node.sequence run ns .done))
      fun j => Eval.withScope (Node.sequence (runs j) ms .done) :=
  Sim.withScope (fun c d hA => sequence h _ _ c d hA (.of_exact hA (.ofDatum (.held .plain) .normal)))
    fun _ h => Finish.pop h

/-! ### Loops -/

/-- The rounds of a loop. The family may have more fuel for what is below than for the rounds. -/
theorem roundsFrom {test : Eval Bool} {tests : Nat → Eval Bool} {step : Eval Unit}
    {steps : Nat → Eval Unit} (htest : Sim st w Same test tests)
    (hbody : NodeSim st w .exact run runs n m) (hstep : Sim st w Same step steps) :
    ∀ fuel k, Sim st w (fun _ _ => Settled) (Node.rounds run test n step fuel)
      fun j => Node.rounds (runs (j + k)) (tests (j + k)) m (steps (j + k)) j
  | 0, _ => .outOfFuel
  | fuel + 1, k => by
    refine of_succ (X := fun j =>
      Node.rounds (runs (j + (k + 1))) (tests (j + (k + 1))) m (steps (j + (k + 1))) (j + 1)) (fun j => ?_) ?_
    · rw [Nat.add_right_comm j 1 k, Nat.add_assoc j k 1]
    · refine (htest.shift (k + 1)).andThen fun a b hab => ?_
      obtain rfl : a = b := hab
      cases a with
      | false => exact .pure fun _ => ⟨rfl, .void, rfl⟩
      | true =>
        refine (hbody.shift (k + 1)).bind fun r r' c d hA hr => ?_
        have hflow := Completes.flow hr
        have hnext : Sim st w (fun _ _ => Settled)
            (do step; Node.rounds run test n step fuel) (fun j => do
              steps (j + (k + 1))
              Node.rounds (runs (j + (k + 1))) (tests (j + (k + 1))) m (steps (j + (k + 1))) j) :=
          (hstep.shift (k + 1)).andThen fun _ _ _ => roundsFrom htest hbody hstep fuel (k + 1)
        cases hf : r.flow with
        | broken =>
          rw [hf] at hflow
          simp only [← hflow]
          exact .pure hA ⟨rfl, .void, rfl⟩
        | returned =>
          obtain ⟨x, hx, hx'⟩ := Completes.returned hr hf
          rw [hf] at hflow
          simp only [← hflow]
          refine .pure hA ⟨?_, x, hx⟩
          obtain ⟨u, f⟩ := r
          obtain ⟨v, f'⟩ := r'
          simp_all
        | _ =>
          rw [hf] at hflow
          simp only [← hflow]
          exact hnext c d hA

theorem rounds {test : Eval Bool} {tests : Nat → Eval Bool} {step : Eval Unit} {steps : Nat → Eval Unit}
    (htest : Sim st w Same test tests) (hbody : NodeSim st w .exact run runs n m)
    (hstep : Sim st w Same step steps) (fuel : Nat) :
    Sim st w (fun _ _ => Settled) (Node.rounds run test n step fuel)
      fun j => Node.rounds (runs j) (tests j) m (steps j) j :=
  roundsFrom htest hbody hstep fuel 0

/-- The effect of a node whose result is not looked at. -/
theorem effect (hn : NodeSim st w .exact run runs n m) :
    Sim st w Same (do let _ ← run n; return ()) fun j => do let _ ← runs j m; return () :=
  hn.bind fun _ _ _ _ hA _ => .pure hA rfl

theorem forLoop (h : Aligned (fun _ => NodeSim st (w.under .shared) .exact run runs) ns ms) (fuel : Nat) :
    Sim st w (Finish w mode) (Node.evalFor run fuel ns) fun j => Node.evalFor (runs j) j ms := by
  refine (Sim.child h 0).andThen fun n₀ m₀ h₀ => ?_
  refine (Sim.child h 1).andThen fun n₁ m₁ h₁ => ?_
  refine (Sim.child h 2).andThen fun n₂ m₂ h₂ => ?_
  refine (Sim.child h 3).andThen fun n₃ m₃ h₃ => ?_
  refine (Sim.withScope (V := fun _ _ => Settled) (Q := fun _ _ => Settled) ?_ fun _ h => h).imp
    fun hA h => h.finish hA
  exact h₀.bind fun _ _ c d hA _ => rounds (condition h₁) h₃ (effect h₂) fuel c d hA

theorem whileLoop (h : Aligned (fun _ => NodeSim st w .exact run runs) ns ms) (fuel : Nat) :
    Sim st w (Finish w mode) (Node.evalWhile run fuel ns) fun j => Node.evalWhile (runs j) j ms := by
  refine (Sim.child h 0).andThen fun n₀ m₀ h₀ => ?_
  refine (Sim.child h 1).andThen fun n₁ m₁ h₁ => ?_
  exact (rounds (condition h₀) h₁ (.pure fun _ => rfl) fuel).imp fun hA h => h.finish hA

/-! ### Operators -/

theorem conditional (h : Aligned (fun _ => NodeSim st w .exact run runs) ns ms) :
    Sim st w (Finish w mode) (Node.evalConditional run ns) fun j => Node.evalConditional (runs j) ms := by
  refine (Sim.child h 0).andThen fun n₀ m₀ h₀ => ?_
  refine operand h₀ fun c d u v hA hv => ?_
  refine readThen hA hv fun x => okThen fun b => ?_
  cases b with
  | true =>
    exact (Sim.child h 1).andThen fun n₁ m₁ h₁ => Sim.imp h₁ fun hA h => .of_exact hA h
  | false =>
    rcases h.cases 2 with ⟨h₁, h₂⟩ | ⟨n₂, m₂, h₁, h₂, hR⟩
    · simp only [Bool.false_eq_true, if_false, h₁, h₂]
      exact yield
    · simp only [Bool.false_eq_true, if_false, h₁, h₂]
      exact Sim.imp hR fun hA h => .of_exact hA h

/-- Early reading makes views of counters into data. -/
theorem reading (hn : NodeSim st w .exact run runs n m) :
    Sim st w (fun _ _ => Completes (Held w)) (Node.reading st.earlyLeft run n)
      fun j => Node.reading st.earlyRight (runs j) m := by
  refine hn.bind fun r r' c d hA h => ?_
  obtain ⟨u, f⟩ := r
  obtain ⟨v, f'⟩ := r'
  obtain ⟨hv, hf, hret⟩ := h
  obtain rfl : f = f' := hf
  cases hv with
  | held hv =>
    cases hv with
    | plain => exact .pure hA (.ofDatum .plain f)
    | @twins l a b hab =>
      have he := hA.sound.twin_early l a b hab
      cases ha : st.earlyLeft a with
      | false =>
        simp only [ha, he ▸ ha, Bool.false_eq_true, if_false]
        exact .pure hA ⟨.twins hab, rfl, hret⟩
      | true =>
        simp only [ha, he ▸ ha, if_true]
        exact readThen hA (.held (.twins hab)) (fun x => .pure fun _ => .ofDatum .plain f) 
  | @right b level name hb =>
    have he := hA.sound.early_right b level name hb
    intro _
    refine ⟨_, .const, ?_⟩
    simp only [he, if_true]
    exact .ok hA (.ofDatum .plain f)
  | @left a level name ha =>
    have he := hA.sound.early_left a level name ha
    intro _
    refine ⟨_, .const, ?_⟩
    simp only [he, if_true]
    exact .ok hA (.ofDatum .plain f)

/-- A binary operator whose operands are read early. -/
theorem binary (h : Aligned (fun _ => NodeSim st w .exact run runs) ns ms) :
    Sim st w (Finish w mode) (Node.evalBinary (Node.reading st.earlyLeft run) op ns)
      fun j => Node.evalBinary (Node.reading st.earlyRight (runs j)) op ms := by
  refine (Sim.child h 0).andThen fun n₀ m₀ h₀ => ?_
  refine operandOf (V := fun _ _ => Held w) (reading h₀) .held fun c d u v hA huv => ?_
  by_cases hop : op = "&&" ∨ op = "||"
  · simp only [if_pos hop]
    refine readThen hA (.held huv) fun x => okThen fun left => ?_
    by_cases hl : left = decide (op = "||")
    · simp only [if_pos hl]
      exact yield
    · simp only [if_neg hl]
      refine (Sim.child h 1).andThen fun n₁ m₁ h₁ => ?_
      refine operandOf (V := fun _ _ => Held w) (reading h₁) .held fun c d u v hA huv => ?_
      exact readThen hA (.held huv) fun x => okThen fun right => yield
  · simp only [if_neg hop]
    refine (Sim.child h 1).andThen (fun n₁ m₁ h₁ => ?_) c d hA
    refine operandOf (V := fun _ _ => Held w) (reading h₁) .held fun c d u' v' hA huv' => ?_
    -- the left operand is still what it was when it was evaluated
    refine (Sim.read hA (.held huv)).bind fun a a' c d hA ha => ?_
    obtain rfl : a = a' := ha
    exact readThen hA (.held huv') (fun b => okThen fun x => yield)

/-- Adding to or subtracting from a variable. -/
theorem stepVariable (o : Arithmetic) (name : String) :
    Sim st w (Finish w mode) (Node.stepVariable o name) fun _ => Node.stepVariable o name := by
  refine (Sim.get name).bind fun u v c d hA huv => readThen hA huv fun x => okThen fun y => ?_
  refine (Sim.change fun c d hA => hA.assign name y).andThen fun _ _ _ => ?_
  exact (Sim.get name).bind fun u v c d hA huv => readThen hA huv fun z => yield

theorem prefixed (h : Aligned (fun i n m => NodeSim st w .exact run runs n m ∧
      (op = "++" ∨ op = "--" → i = 0 → SameName n m)) ns ms) :
    Sim st w (Finish w mode) (Node.evalPrefixed run op ns)
      fun j => Node.evalPrefixed (runs j) op ms := by
  refine (Sim.child h 0).andThen fun n₀ m₀ ⟨h₀, hname⟩ => ?_
  by_cases hop : op = "++" ∨ op = "--"
  · obtain ⟨hid, ht⟩ := hname hop rfl
    simp only [if_pos hop, ← hid]
    cases hn : n₀.isForm .identifier with
    | true =>
      simp only [if_true, ← ht hn]
      exact stepVariable _ _
    | false => exact raise
  · simp only [if_neg hop]
    refine operand h₀ fun c d u v hA huv => readThen hA huv fun x => ?_
    by_cases hnot : op = "!"
    · simp only [if_pos hnot]
      exact okThen fun b => yield
    · simp only [if_neg hnot]
      exact okThen fun y => yield

end Sim

/-- An assigned int that is what a cell holds leaves the cell so. -/
theorem Context.cellAt_assign_self {c c' : Context} {a : Nat}
    (h : c.assign name (.number (.int (c.cellAt a))) = .ok c') : c'.cellAt a = c.cellAt a := by
  unfold Context.assign at h
  split at h
  · cases h
  · rename_i b _
    rw [Except.ok.injEq] at h
    rw [← h]
    show ((c.cells.setIfInBounds b (c.cellAt a))[a]?).getD 0 = c.cellAt a
    by_cases hb : b = a
    · subst hb
      by_cases hlt : b < c.cells.size
      · simp [hlt]
      · simp [Context.cellAt, Array.getElem?_eq_none (Nat.not_lt.1 hlt)]
    · rw [Array.getElem?_setIfInBounds_ne hb]
      rfl
  · rw [Except.ok.injEq] at h
    rw [← h, Context.cellAt_replace]
  · rw [Except.ok.injEq] at h
    rw [← h, Context.cellAt_replace]

theorem Context.cellAt_declare {c c' : Context} (h : c.declare name = .ok c') (a : Nat) :
    c'.cellAt a = c.cellAt a := by
  unfold Context.declare at h
  split at h
  · cases h
  · rw [Except.ok.injEq] at h
    rw [← h]
    rfl

/-- A value that was assigned is alike afterwards. -/
theorem Alike.assign {c d c' d' : Context} {u v : Value} (h : Alike w c d u v)
    (hc : c.assign name (c.read u) = .ok c') (hd : d.assign name (d.read v) = .ok d') :
    Alike w c' d' u v := by
  cases h with
  | held h => exact .held h
  | right hb =>
    rw [← Context.cellAt_assign_self hd]
    exact .right hb
  | left ha =>
    rw [← Context.cellAt_assign_self hc]
    exact .left ha

namespace Sim

/-- The value that was assigned, after the assignment. -/
theorem assignValue {c d : Context} {u v : Value} (hA : Agree st w c d) (h : Alike w c d u v) :
    Follows (Ends (Agree st w) (Finish w mode))
      (do
        let x ← Eval.read u
        Eval.change (·.assign name x)
        return .ofValue u)
      (fun _ => do
        let x ← Eval.read v
        Eval.change (·.assign name x)
        return .ofValue v) c d := by
  intro _
  refine ⟨_, .const, ?_⟩
  have hc : Changed st w (c.assign name (c.read u)) (d.assign name (d.read v)) :=
    h.read hA ▸ hA.assign name (c.read u)
  show Ends _ _ (Eval.bind (Eval.read u) _ c) (Eval.bind (Eval.read v) _ d)
  simp only [Eval.bind, Eval.read, Eval.look, Bind.bind, Eval.change]
  generalize hcr : c.assign name (c.read u) = r at hc
  generalize hdr : d.assign name (d.read v) = r' at hc
  cases hc with
  | done hA' => exact .ok hA' (.of_exact hA' (.ofValue (h.assign hcr hdr)))
  | refused => exact .error hA

theorem store {c d : Context} {u v : Value} (hA : Agree st w c d) (h : Alike w c d u v) :
    Follows (Ends (Agree st w) (Finish w mode)) (Node.evalStore op name u)
      (fun _ => Node.evalStore op name v) c d := by
  unfold Node.evalStore
  by_cases hop : op = "="
  · simp only [if_pos hop]
    exact assignValue hA h
  · simp only [if_neg hop]
    refine getAt hA fun u' v' h' => readAt hA h' fun a => readAt hA h fun b => ?_
    refine okThen (fun x c d hA => ?_) c d hA
    exact assignValue hA (.held .plain)

/-- A new variable with a value. -/
theorem declareValue {c d : Context} {u v : Value} (hA : Agree st w c d) (h : Alike w c d u v)
    (hb : Binds st w .declaration name) :
    Follows (Ends (Agree st w) (Finish w mode))
      (do
        Eval.change (·.declare name)
        let x ← Eval.read u
        Eval.update (·.bind name x)
        return .ofValue u)
      (fun _ => do
        Eval.change (·.declare name)
        let x ← Eval.read v
        Eval.update (·.bind name x)
        return .ofValue v) c d := by
  intro _
  refine ⟨_, .const, ?_⟩
  obtain ⟨hr, L, hL, -⟩ := hb
  obtain ⟨hch, hp⟩ := hA.declare hL hr
  simp only [Eval.bind, Eval.read, Eval.look, Bind.bind, Eval.change, Eval.update]
  generalize hcr : c.declare name = r at hch hp
  generalize hdr : d.declare name = r' at hch
  cases hch with
  | done hA' =>
    rename_i c' d'
    have h' : Alike w c' d' u v := h.congr rfl rfl (fun a => Context.cellAt_declare hcr a)
      fun b => Context.cellAt_declare hdr b
    have hp : ¬w.Pins L.length name := hp.resolve_left (by rintro ⟨e, he⟩; cases he)
    show Ends _ _ (.ok (Completion.ofValue u), c'.bind name (c'.read u))
      (.ok (Completion.ofValue v), d'.bind name (d'.read v))
    rw [← h'.read hA']
    have hA'' := hA'.bind (x := c'.read u) hL hp hr
    exact .ok hA'' (.of_exact hA'' (.ofValue (h'.congr rfl rfl (fun _ => rfl) fun _ => rfl)))
  | refused => exact .error hA

/-- An assignment to a variable or to a new variable. -/
theorem equation (h : Aligned (fun i n m => (i = 0 → SameTarget n m ∧
      (n.isForm .declaration = true → Binds st w .declaration n.declaredName)) ∧
      (i = 1 → NodeSim st w .exact run runs n m)) ns ms) :
    Sim st w (Finish w mode) (Node.evalEquation run op ns)
      fun j => Node.evalEquation (runs j) op ms := by
  refine (Sim.child h 0).andThen fun n₀ m₀ ⟨ht, _⟩ => ?_
  refine (Sim.child h 1).andThen fun n₁ m₁ ⟨_, h₁⟩ => ?_
  refine operand (h₁ rfl) fun c d u v hA huv => ?_
  obtain ⟨⟨hkind, htext, hdecl⟩, hbinds⟩ := ht rfl
  have hd : m₀.isForm .declaration = n₀.isForm .declaration := by rw [Node.isForm, Node.isForm, hkind]
  have hi : m₀.isForm .identifier = n₀.isForm .identifier := by rw [Node.isForm, Node.isForm, hkind]
  simp only [hd, hi]
  cases hform : n₀.isForm .declaration with
  | true =>
    simp only [if_true, ← hdecl hform]
    exact declareValue hA huv (hbinds hform)
  | false =>
    simp only [Bool.false_eq_true, if_false]
    cases hform : n₀.isForm .identifier with
    | true =>
      simp only [if_true, ← htext hform]
      exact store hA huv
    | false =>
      simp only [Bool.false_eq_true, if_false, ← hkind]
      exact raise c d hA

/-- A return with or without a value. -/
theorem returned (h : Aligned (fun _ => NodeSim st w .exact run runs) ns ms) :
    Sim st w (Finish w mode) (Node.evalReturn run ns) fun j => Node.evalReturn (runs j) ms := by
  have hlen := h.length
  match ns, ms with
  | [], [] => exact .pure fun hA => .of_exact hA (.ofDatum (.held .plain) .returned)
  | [], _ :: _ => cases hlen
  | _ :: _, [] => cases hlen
  | n :: ns, m :: ms =>
    unfold Node.evalReturn
    refine operand (h.get 0 n m rfl rfl) fun c d u v hA huv => readThen hA huv fun x => ?_
    exact .pure fun hA => .of_exact hA (.ofDatum (.held .plain) .returned)

end Sim

/-- The rounds of a native loop with its cell at this address. -/
def Node.countedRounds (run : Node.Evaluator) (fuel : Nat) (limit : Int32) (body : Node) (address : Nat) :
    Eval Completion :=
  Node.rounds run (Eval.look fun c => c.cellAt address < limit) body
    (Eval.update fun c => c.setCell address (c.cellAt address + 1)) fuel

/-- A native loop enters its scope, makes its rounds and gives up scope and cell. -/
theorem Node.evalCounted_cons (run : Node.Evaluator) (fuel : Nat) (loop : CountedLoop) (body : Node)
    (rest : List Node) (c : Context) :
    Node.evalCounted run fuel loop (body :: rest) c =
      let p := Node.countedRounds run fuel loop.limit body c.cells.size (c.enterLoop loop.counter loop.first)
      (p.1, p.2.leaveLoop c.cells.size) := rfl

namespace Sim

/-- A native loop on both sides. -/
theorem counted {loop : CountedLoop} (hearly : st.earlyLeft w.left.length = st.earlyRight w.right.length)
    (hname : ¬st.reserved loop.counter)
    (h : Aligned (fun _ => NodeSim st w.withTwins .exact run runs) ns ms) (fuel : Nat) :
    Sim st w (Finish w mode) (Node.evalCounted run fuel loop ns)
      fun j => Node.evalCounted (runs j) j loop ms := by
  have hlen := h.length
  match ns, ms with
  | [], [] => exact halt
  | [], _ :: _ => cases hlen
  | _ :: _, [] => cases hlen
  | n :: ns, m :: ms =>
    have hab : w.withTwins.Twins w.layers.length w.left.length w.right.length :=
      ⟨World.getElem?_concat.2 (.inr ⟨rfl, rfl⟩), World.getElem?_concat.2 (.inr ⟨rfl, rfl⟩)⟩
    have hrounds : Sim st w.withTwins (fun _ _ => Settled)
        (Node.countedRounds run fuel loop.limit n w.left.length)
        fun j => Node.countedRounds (runs j) j loop.limit m w.right.length := by
      refine rounds (fun c d hA => .look hA ?_) (h.get 0 n m rfl rfl) (update fun c d hA => ?_) fuel
      · rw [hA.twins _ _ _ hab]
      · rw [hA.twins _ _ _ hab]
        exact hA.store_twins _ hab
    refine (mapContext (Q := fun _ _ => Settled) ?_ ?_ hrounds
      (fun c d hA => hA.enterTwins (n := loop.first) hearly hname) (fun _ _ _ _ h₀ h => h₀.leaveTwins h)
      fun _ h => h).imp fun hA h => h.finish hA
    · intro c d hA
      rw [Node.evalCounted_cons, hA.sizeLeft]
    · intro c d hA j
      rw [Node.evalCounted_cons, hA.sizeRight]

end Sim

end ScriptTree

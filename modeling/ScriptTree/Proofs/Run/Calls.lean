import ScriptTree.Proofs.Run.Constructs
import Mathlib.Data.Option.Basic

/-!
Definitions and calls keep contexts in agreement. A function that is stored on one side goes with one
that is stored on the other at the same place, so a reference means both; calling them needs no more
than that their bodies do the same in a new scope.
-/

namespace ScriptTree

open Eval

variable {st : Setting} {w : World} {mode : Mode} {run : Node.Evaluator} {runs : Nat → Node.Evaluator}
  {n m : Node} {ns ms : List Node} {name op : String} {L : List Layer} {host : Host}

/-- The function that a definition with these children binds. -/
def Node.functionOf? : List Node → Option ScriptFunction
  | first :: second :: rest =>
    some ⟨first.text, Node.parametersOf (first :: second :: rest),
      (second :: rest).getLast (List.cons_ne_nil _ _)⟩
  | _ => none

theorem Node.evalDefinition_some {f : ScriptFunction} (h : Node.functionOf? ns = some f) (c : Context) :
    Node.evalDefinition ns c =
      (.ok (.ofDatum (.script (c.define f).1)), (c.define f).2.bind f.name (.script (c.define f).1)) := by
  match ns with
  | [] => cases h
  | [_] => cases h
  | _ :: _ :: _ =>
    cases h
    rfl

theorem Node.functionOf?_body {f : ScriptFunction} (h : Node.functionOf? ns = some f) : f.body ∈ ns := by
  match ns with
  | [] => cases h
  | [_] => cases h
  | _ :: _ :: _ =>
    cases h
    exact .tail _ (List.getLast_mem _)

theorem Node.evalDefinition_none (h : Node.functionOf? ns = none) :
    Node.evalDefinition ns = Eval.raise TreeDefect.definitionWithoutBody.fault := by
  match ns with
  | [] => rfl
  | [_] => rfl
  | _ :: _ :: _ => cases h

/-- Data bound to names in new innermost scopes. -/
theorem Agree.bindAll (hL : w.layers = .shared :: L) (hp : ∀ x, ¬w.Pins L.length x) :
    ∀ (bs : List (String × Datum)) (c d : Context), (∀ b ∈ bs, ¬st.reserved b.1) → Agree st w c d →
      Agree st w (bs.foldl (fun c (x, d) => c.bind x d) c) (bs.foldl (fun c (x, d) => c.bind x d) d)
  | [], _, _, _, h => h
  | (x, _) :: bs, _, _, hr, h =>
    Agree.bindAll hL hp bs _ _ (fun b hb => hr b (.tail _ hb))
      (h.bind hL (hp x) (hr _ (.head _)))

namespace Sim

/-- A definition. -/
theorem definition (h : Option.Rel (fun f g => st.known f g ∧ f.name = g.name ∧
      Binds st w .definition f.name) (Node.functionOf? ns) (Node.functionOf? ms)) :
    Sim st w (Finish w mode) (Node.evalDefinition ns) fun _ => Node.evalDefinition ms := by
  generalize hn : Node.functionOf? ns = f? at h
  generalize hm : Node.functionOf? ms = g? at h
  cases h with
  | none =>
    rw [Node.evalDefinition_none hn, Node.evalDefinition_none hm]
    exact raise
  | @some f g h =>
    obtain ⟨hfg, hname, hr, L, hL, hp⟩ := h
    intro c d hA _
    refine ⟨_, .const, ?_⟩
    obtain ⟨href, hA'⟩ := hA.define hfg hname
    rw [Node.evalDefinition_some hn, Node.evalDefinition_some hm, ← href, ← hname]
    have hA'' := hA'.bind (x := .script (c.define f).1) hL (hp rfl) hr
    exact .ok hA'' (.of_exact hA'' (.ofDatum (.held .plain) .normal))

/-- A call to the host is answered alike. -/
theorem callHost (f : HostFunction) (arguments : List Datum) :
    Sim st w Same (Node.callHost host f arguments) fun _ => Node.callHost host f arguments := by
  intro c d hA _
  refine ⟨_, .const, ?_⟩
  unfold Node.callHost
  rw [hA.calls]
  have hA' := hA.call ⟨f, arguments⟩
  rw [hA.calls] at hA'
  dsimp only
  generalize host.answer d.calls ⟨f, arguments⟩ = answer
  cases answer with
  | ok x => exact .ok hA' rfl
  | error e => exact .error hA'

/-- What is needed of functions that go together to call them. -/
structure Callable (st : Setting) (w : World) (run : Node.Evaluator) (runs : Nat → Node.Evaluator)
    (f g : ScriptFunction) : Prop where
  name : f.name = g.name
  parameters : f.parameters = g.parameters
  unreserved : ∀ x ∈ f.parameters, ¬st.reserved x
  body : NodeSim st (w.under .shared) .tail run runs f.body g.body

theorem callScript {f g : ScriptFunction} (hw : w.Sound st) (h : Callable st w run runs f g)
    (arguments : List Datum) :
    Sim st w Same (Node.callScript run f arguments) fun j => Node.callScript (runs j) g arguments := by
  unfold Node.callScript
  simp only [← h.name, ← h.parameters]
  by_cases hlen : arguments.length ≠ f.parameters.length
  · simp only [if_pos hlen]
    exact raise
  · simp only [if_neg hlen]
    refine Sim.withScope (V := Same) ?_ fun _ h => h
    refine andThen (update fun c d hA => ?_) fun _ _ _ => ?_
    · have hp : ∀ x, ¬(w.under .shared).Pins w.layers.length x :=
        fun x hx => Nat.lt_irrefl _ (hw.level_lt _ _ hx)
      exact hA.bindAll rfl hp _ _ _ fun b hb => h.unreserved _ (List.of_mem_zip hb).1
    · exact h.body.bind fun r r' c d hA hr => .look hA hr

/-- A call of what a datum refers to. -/
theorem callDatum (hw : w.Sound st) (hknown : ∀ f g, st.known f g → Callable st w run runs f g)
    (target : Datum) (arguments : List Datum) :
    Sim st w Same (Node.callDatum host run target arguments)
      fun j => Node.callDatum host (runs j) target arguments := by
  cases target with
  | host f => exact callHost f arguments
  | script reference =>
    intro c d hA
    rcases hA.function? reference.index with ⟨h₁, h₂⟩ | ⟨f, g, h₁, h₂, hfg⟩
    · refine Follows.bind (V := fun _ _ a b => a = none ∧ b = none) (.look hA ⟨h₁, h₂⟩) ?_
      rintro _ _ c d hA ⟨rfl, rfl⟩
      exact raise c d hA
    · refine Follows.bind (V := fun _ _ a b => a = some f ∧ b = some g) (.look hA ⟨h₁, h₂⟩) ?_
      rintro _ _ c d hA ⟨rfl, rfl⟩
      exact callScript hw (hknown f g hfg) arguments c d hA
  | _ => exact raise

/-- A call of what a value refers to, which yields what the function yields. -/
theorem callValue (hw : w.Sound st) (hknown : ∀ f g, st.known f g → Callable st w run runs f g)
    {c d : Context} {u v : Value} (hA : Agree st w c d) (huv : Alike w c d u v)
    (arguments : List Datum) :
    Follows (Ends (Agree st w) (Finish w mode))
      (do
        let target ← Eval.read u
        let x ← Node.callDatum host run target arguments
        return .ofDatum x)
      (fun j => do
        let target ← Eval.read v
        let x ← Node.callDatum host (runs j) target arguments
        return .ofDatum x) c d :=
  readThen hA huv fun target => (callDatum hw hknown target arguments).andThen fun x y hxy => by
    obtain rfl : x = y := hxy
    exact yield

/-- A call of a name. -/
theorem callName (hw : w.Sound st) (hknown : ∀ f g, st.known f g → Callable st w run runs f g)
    (name : String) (arguments : List Datum) :
    Sim st w (Finish w mode) (Node.callName host run name arguments)
      fun j => Node.callName host (runs j) name arguments := by
  intro c d hA
  rcases hA.get name with ⟨u, v, h₁, h₂, huv⟩ | ⟨h₁, h₂⟩
  · intro hne
    have hc : Node.callName host run name arguments c = (do
        let target ← Eval.read u
        let x ← Node.callDatum host run target arguments
        return .ofDatum x : Eval Completion) c := by
      unfold Node.callName
      show Eval.bind (Eval.look (·.get name)) _ c = _
      rw [Eval.bind, Eval.look, h₁]
    rw [hc] at hne ⊢
    obtain ⟨o, ⟨k, hk⟩, hE⟩ := callValue hw hknown hA huv arguments hne
    refine ⟨o, ⟨k, fun j hj => ?_⟩, hE⟩
    rw [← hk j hj]
    unfold Node.callName
    show Eval.bind (Eval.look (·.get name)) _ d = _
    rw [Eval.bind, Eval.look, h₂]
  · refine Follows.bind (V := fun _ _ a b => a = .error (.undefinedVariable name) ∧
      b = .error (.undefinedVariable name)) (.look hA ⟨h₁, h₂⟩) ?_
    rintro _ _ c d hA ⟨rfl, rfl⟩
    cases NumericType.ofName? name with
    | none => exact raise c d hA
    | some t =>
      cases arguments with
      | nil => exact raise c d hA
      | cons x rest => cases rest with
        | nil => exact okThen (fun y => yield) c d hA
        | cons => exact raise c d hA

/-- Arguments, one after the other, and what is done with them. -/
theorem arguments {next : List Datum → Eval Completion} {nexts : Nat → List Datum → Eval Completion}
    (hnext : ∀ xs, Sim st w (Finish w mode) (next xs) fun j => nexts j xs)
    (h : List.Forall₂ (NodeSim st w .exact run runs) ns ms) :
    ∀ done, Sim st w (Finish w mode) (Node.evalArguments run next ns done)
      fun j => Node.evalArguments (runs j) (nexts j) ms done := by
  induction h with
  | nil => exact fun done => hnext done.reverse
  | cons h _ ih =>
    exact fun done => operand h fun c d u v hA huv => readThen hA huv fun x => ih (x :: done)

/-- A call. A callee that is a name is not evaluated. -/
theorem call (hw : w.Sound st) (hknown : ∀ f g, st.known f g → Callable st w run runs f g)
    (h : Aligned (fun i n m =>
      (i = 0 → SameName n m ∧ (n.isForm .identifier = false → NodeSim st w .exact run runs n m)) ∧
      (i = 1 → List.Forall₂ (NodeSim st w .exact run runs) n.children m.children)) ns ms) :
    Sim st w (Finish w mode) (Node.evalCall host run ns) fun j => Node.evalCall host (runs j) ms := by
  refine (Sim.child h 0).andThen fun n m ⟨hcallee, _⟩ => ?_
  obtain ⟨⟨hid, htext⟩, hn⟩ := hcallee rfl
  refine arguments (fun xs => ?_) ?_ []
  · cases hform : n.isForm .identifier with
    | true =>
      simp only [← hid, hform, if_true, ← htext hform]
      exact callName hw hknown _ xs
    | false =>
      simp only [← hid, hform, Bool.false_eq_true, if_false]
      exact operand (hn hform) fun c d u v hA huv => callValue hw hknown hA huv xs
  · rcases h.cases 1 with ⟨h₁, h₂⟩ | ⟨l, l', h₁, h₂, hl⟩
    · rw [h₁, h₂]
      exact .nil
    · rw [h₁, h₂]
      exact hl.2 rfl

end Sim

end ScriptTree

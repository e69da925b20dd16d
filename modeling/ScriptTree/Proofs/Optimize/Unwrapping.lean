import ScriptTree.Proofs.Optimize.Preservation
import ScriptTree.Proofs.Run.Padding

/-!
The two rules that take a wrapping off. A block gives way to the statement in it, and at the end of a
function's body a return gives way to its operand.

A block that holds a single statement opens a scope in which nothing is ever bound, so the statement may as
well run without it. A return reads the value that it passes on before the scopes of the body are closed; the
operand alone leaves the value to be read by the call. No scope of a body gives up a cell, so both read the
same datum, and a call does not ask for the flow that its body ended with.
-/

namespace ScriptTree

open Eval

variable {α : Type} {slack : Prop} {L : List Layer} {c : Context} {run run' : Node.Evaluator} {host : Host}
  {n m d d' e x y : Node} {init : List Node} {text : String} {span : Span} {j k : Nat}

/-! ### Blocks -/

theorem loneBlock_modest (h : Rule.loneBlock n = some m) (hlist : ∀ a ∈ m.parts, a.ListsArguments) : m.Modest := by
  obtain ⟨_, _, -, hdeclares⟩ := Rule.loneBlock_eq_some h
  exact ⟨declaresAny_eq_false hdeclares m (.head _), hlist⟩

/-- A block and the statement that takes its place come to the same in every context: the same value and flow or
the same reason to stop, the same calls to the host, and the same variables afterwards. -/
theorem loneBlock_sound (h : Pass.loneBlock.rule n = some m) (hlist : ∀ a ∈ m.parts, a.ListsArguments)
    (host : Host) (c : Context) : n.SameRuns host m c := by
  have hmodest := loneBlock_modest h hlist
  obtain ⟨text, span, rfl, -⟩ := Rule.loneBlock_eq_some h
  exact fun o => Settles.succ_iff fun fuel => hmodest.eval_block fuel c

/-- A call of the host in a block. -/
theorem loneBlock_sound_call :
    let n := Node.callOn "emit" (.ofInt 1)
    Pass.loneBlock.rule (.construct .block "" .unknown [n]) = some n ∧ (∀ a ∈ n.parts, a.ListsArguments) ∧
      (Node.construct .block "" .unknown [n]).SameRuns .silent n (.withHost "emit") := by
  have hrule : Pass.loneBlock.rule (.construct .block "" .unknown [Node.callOn "emit" (.ofInt 1)]) =
      some (Node.callOn "emit" (.ofInt 1)) := rfl
  have hlist : ∀ a ∈ (Node.callOn "emit" (.ofInt 1)).parts, a.ListsArguments := by decide
  exact ⟨hrule, hlist, loneBlock_sound hrule hlist .silent (.withHost "emit")⟩

/-! ### The datum of a completion -/

/-- Runs a computation and reads the value it yields, whatever its flow. -/
def Eval.datum (x : Eval Completion) : Eval Datum := do
  let r ← x
  Eval.read r.value

theorem datum_bind (x : Eval α) (f : α → Eval Completion) : (x >>= f).datum = x >>= fun a => (f a).datum := by
  funext c
  show Eval.bind (Eval.bind x f) _ c = Eval.bind x _ c
  simp only [Eval.bind]
  rcases x c with ⟨_ | _, _⟩ <;> rfl

/-- A value may be read before a scope is closed or after. -/
theorem datum_withScope (x : Eval Completion) : (Eval.withScope x).datum = Eval.withScope x.datum := by
  funext c
  show Eval.bind (Eval.withScope x) _ c = ((Eval.bind x _ c.push).1, (Eval.bind x _ c.push).2.pop)
  rw [Eval.bind, Eval.bind, Eval.withScope]
  rcases x c.push with ⟨_ | r, c'⟩
  · rfl
  · have hread : c'.pop.read r.value = c'.read r.value :=
      Context.read_congr (Context.cellAt_congr (Context.cells_pop c')) r.value
    exact Prod.ext (congrArg Except.ok hread) rfl

/-- A return comes to the datum that its operand comes to. -/
theorem datum_returned (run : Node.Evaluator) (e : Node) : (Node.evalReturn run [e]).datum = (run e).datum := by
  funext c
  show Eval.bind (Node.evalReturn run [e]) _ c = Eval.bind (run e) _ c
  rw [Eval.bind, Eval.bind, evalReturn_singleton]
  rcases run e c with ⟨r | r, c'⟩
  · rfl
  · obtain ⟨r', hr', hread⟩ := read_returnOf r c'
    rw [hr']
    exact Prod.ext (congrArg Except.ok hread) rfl

namespace Tracks

theorem datum {x y : Eval Completion} (h : Tracks slack L x y) : Tracks slack L x.datum y.datum :=
  h.bind fun r => read r.value

/-- Without fuel at first, and with slack. -/
theorem exhausted (n : Node) (x : Eval Datum) : Tracks True L (Node.eval host 0 n).datum x :=
  fun _ _ _ => .inl ⟨trivial, rfl⟩

/-- Statements of which the last ones come to the same datum. -/
theorem datum_sequence (hlast : Tracks slack L (run x).datum (run' y).datum) :
    ∀ (init : List Node) (last : Completion), (∀ n ∈ init, Tracks slack L (run n) (run' n)) →
      Tracks slack L (Node.sequence run (init ++ [x]) last).datum (Node.sequence run' (init ++ [y]) last).datum
  | [], _, _ => by
    rw [List.nil_append, List.nil_append, Sim.sequence_singleton, Sim.sequence_singleton]
    exact hlast
  | n :: init, _, hinit => by
    show Tracks slack L ((run n) >>= _).datum ((run' n) >>= _).datum
    rw [datum_bind, datum_bind]
    refine (hinit n (.head _)).bind fun r => ?_
    cases r.flow with
    | normal => exact datum_sequence hlast init r fun m hm => hinit m (.tail _ hm)
    | _ => exact (pure r).datum

/-- Blocks of which the last statements come to the same datum. -/
theorem datum_block {s t : String} {a b : Span} (hfuel : Fuels slack j k)
    (hlast : Tracks slack (.shared :: L) (Node.eval host j x).datum (Node.eval host k y).datum) :
    Tracks slack L (Node.eval host (j + 1) (.construct .block s a (init ++ [x]))).datum
      (Node.eval host (k + 1) (.construct .block t b (init ++ [y]))).datum := by
  show Tracks slack L (Eval.withScope (Node.sequence (Node.eval host j) (init ++ [x]) .done)).datum
    (Eval.withScope (Node.sequence (Node.eval host k) (init ++ [y]) .done)).datum
  rw [datum_withScope, datum_withScope]
  exact withScope (datum_sequence hlast init .done fun n _ => Node.eval_tracks host n _ hfuel (.inl rfl))

end Tracks

/-! ### Returns -/

section Returned

variable (host : Host) (s t u : String) (a b f : Span) (init : List Node) (e : Node)

/-- The body that ends with the operand may have as much fuel as the one that ends with a return. -/
theorem returned_tracks (j : Nat) :
    Tracks True L (Node.eval host j (.construct .block s a (init ++ [.construct .returned u f [e]]))).datum
      (Node.eval host j (.construct .block t b (init ++ [e]))).datum := by
  match j with
  | 0 => exact .exhausted _ _
  -- The return is evaluated and its operand is not.
  | 1 => exact .datum_block (Fuels.of_le (Nat.le_refl _)) (.exhausted _ _)
  | j + 2 =>
    refine .datum_block (Fuels.of_le (Nat.le_refl _)) ?_
    show Tracks True (.shared :: L) (Node.evalReturn (Node.eval host j) [e]).datum _
    rw [datum_returned]
    exact (Node.eval_tracks host e _ (Fuels.of_le (Nat.le_succ j)) (.inl rfl)).datum

/-- The body that ends with a return may need one unit of fuel more than the one that ends with its operand. -/
theorem tracks_returned (j : Nat) :
    Tracks True L (Node.eval host j (.construct .block t b (init ++ [e]))).datum
      (Node.eval host (j + 1) (.construct .block s a (init ++ [.construct .returned u f [e]]))).datum := by
  match j with
  | 0 => exact .exhausted _ _
  | j + 1 =>
    refine .datum_block (Fuels.of_le (Nat.le_succ j)) ?_
    show Tracks True (.shared :: L) _ (Node.evalReturn (Node.eval host j) [e]).datum
    rw [datum_returned]
    exact (Node.eval_tracks host e _ (Fuels.of_le (Nat.le_refl _)) (.inl rfl)).datum

end Returned

/-- What one family of computations settles on another one does that is not behind it in fuel. -/
theorem Settles.tracked {X Y : Nat → Eval α} {o : Outcome α} {i : Nat}
    (h : ∀ j, Tracks True (List.replicate c.scopes.length .shared) (X j) (Y (j + i)))
    (ho : o.1 ≠ .error .outOfFuel) (hX : Settles X c o) : Settles Y c o := by
  obtain ⟨k, hk⟩ := hX
  refine ⟨k + i, fun j hj => ?_⟩
  obtain ⟨l, rfl⟩ : ∃ l, j = l + i := ⟨j - i, by omega⟩
  have hl : X l c = o := hk l (by omega)
  rw [(h l).same (hl ▸ ho), hl]

/-- Whether calls of two functions, on whatever arguments and in whatever context, come to the same: the same
datum or the same fault, the same calls to the host, and the same variables afterwards. -/
def ScriptFunction.SameCalls (f g : ScriptFunction) : Prop :=
  ∀ (host : Host) (arguments : List Datum) (c : Context) (o : Outcome Datum), o.1 ≠ .error .outOfFuel →
    (Settles (fun j => Node.callScript (Node.eval host j) f arguments) c o ↔
      Settles (fun j => Node.callScript (Node.eval host j) g arguments) c o)

/-- A function whose body ends with a return, and the one whose body ends with the operand. -/
theorem sameCalls_returned {f g : ScriptFunction} {s t u : String} {a b r : Span} (hname : g.name = f.name)
    (hparameters : g.parameters = f.parameters)
    (hf : f.body = .construct .block s a (init ++ [.construct .returned u r [e]]))
    (hg : g.body = .construct .block t b (init ++ [e])) : f.SameCalls g := by
  intro host arguments c o ho
  refine ⟨Settles.tracked (i := 0) (fun j => ?_) ho, Settles.tracked (i := 1) (fun j => ?_) ho⟩
  · refine .callScript hname hparameters ?_ arguments
    rw [hf, hg]
    exact returned_tracks host s t u a b r init e j
  · refine .callScript hname.symm hparameters.symm ?_ arguments
    rw [hf, hg]
    exact tracks_returned host s t u a b r init e j

namespace Node

/-- Evaluating the definition binds this function. -/
def Builds (d : Node) (f : ScriptFunction) : Prop :=
  ∀ host fuel c, eval host (fuel + 1) d c =
    (.ok (.ofDatum (.script (c.define f).1)), (c.define f).2.bind f.name (.script (c.define f).1))

/-- Evaluating the definition is at fault, for it has no body. -/
def Bodiless (d : Node) : Prop :=
  ∀ host fuel c, eval host (fuel + 1) d c = (.error (.fault TreeDefect.definitionWithoutBody.fault), c)

theorem builds_concat {name body : Node} {pre : List Node} :
    (construct .definition text span (name :: (pre ++ [body]))).Builds
      ⟨name.text, parametersOf (name :: (pre ++ [body])), body⟩ :=
  fun _ _ c => evalDefinition_some functionOf?_concat c

end Node

/-- A definition that loses the return at its end binds a function whose calls come to the same, whatever comes of
the operand; neither of the two definitions binds one if there is but a name. -/
theorem trailingReturn_sound (h : Pass.trailingReturn.rule d = some d') :
    d.Bodiless ∧ d'.Bodiless ∨ ∃ f f', d.Builds f ∧ d'.Builds f' ∧ f.SameCalls f' := by
  obtain ⟨text, span, pre, s, a, init, t, b, e, rfl, rfl⟩ := Rule.trailingReturn_eq_some h
  match pre with
  | [] => exact .inl ⟨fun _ _ _ => rfl, fun _ _ _ => rfl⟩
  | name :: pre =>
    exact .inr ⟨_, _, Node.builds_concat, Node.builds_concat, sameCalls_returned rfl parametersOf_concat rfl rfl⟩

/-- A function that returns its argument. -/
theorem trailingReturn_sound_identity :
    let d := fun e => Node.construct .definition "" .unknown [.ofName "f",
      .construct .argumentList "" .unknown [.ofName "x"], .construct .block "" .unknown [e]]
    let e := Node.ofName "x"
    let r := Node.construct .returned "" .unknown [e]
    Pass.trailingReturn.rule (d r) = some (d e) ∧
      ((d r).Bodiless ∧ (d e).Bodiless ∨ ∃ f f', (d r).Builds f ∧ (d e).Builds f' ∧ f.SameCalls f') :=
  ⟨rfl, trailingReturn_sound rfl⟩

end ScriptTree

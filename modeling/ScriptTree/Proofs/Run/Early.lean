import ScriptTree.Eval.Basic

/-!
Evaluation with early reading. A binary operator keeps the value of its left operand while it
evaluates the right one; if that value is a view of a cell, it shows what is written in the meantime.
Here the operands that are views of certain cells are read as soon as they are evaluated. Nothing else
differs, and if there are no such cells nothing differs at all.
-/

namespace ScriptTree

namespace Node

/-- Evaluates a node and, if its value is a view of one of these cells, reads it at once. -/
def reading (early : Nat → Bool) (run : Evaluator) (n : Node) : Eval Completion := do
  let r ← run n
  match r.value with
  | .plain _ => return r
  | .cell address =>
    if early address then do
      let d ← Eval.read r.value
      return ⟨.plain d, r.flow⟩
    else return r

/-- One node, with early reading of these cells by binary operators. -/
def evalNodeEarly (early : Nat → Bool) (host : Host) (run : Evaluator) (fuel : Nat) :
    Node → Eval Completion
  | .constant value .. => return .ofDatum value.datum
  | .counted loop _ _ _ children => evalCounted run fuel loop children
  | .construct .binary text _ children => evalBinary (reading early run) text children
  | .construct form text span children =>
    evalForm host run fuel form text (.construct form text span children)

/-- Evaluates a tree with early reading of these cells by binary operators. -/
def evalEarly (early : Nat → Bool) (host : Host) : Nat → Node → Eval Completion
  | 0, _ => Eval.halt .outOfFuel
  | fuel + 1, n => evalNodeEarly early host (evalEarly early host fuel) fuel n

/-- In this context the first node does the same as the second one, with one more unit of fuel. -/
def RunsAs (n m : Node) (c : Context) : Prop :=
  ∀ (early : Nat → Bool) (host : Host), (evalEarly early host 1 n c).1 = .error .outOfFuel ∧
    ∀ fuel, evalEarly early host (fuel + 2) n c = evalEarly early host (fuel + 1) m c

theorem reading_false (run : Evaluator) : reading (fun _ => false) run = run := by
  funext n c
  show Eval.bind (run n) _ c = run n c
  rw [Eval.bind]
  rcases run n c with ⟨r | r, c'⟩
  · rfl
  · rcases r with ⟨⟨⟩ | ⟨⟩, flow⟩ <;> rfl

/-- Without cells to be read early, evaluation is as always. -/
theorem evalEarly_false (host : Host) :
    ∀ (fuel : Nat) (n : Node), evalEarly (fun _ => false) host fuel n = eval host fuel n
  | 0, _ => rfl
  | fuel + 1, n => by
    have ih : evalEarly (fun _ => false) host fuel = eval host fuel :=
      funext fun m => evalEarly_false host fuel m
    rw [evalEarly, ih]
    cases n with
    | constant => rfl
    | counted => rfl
    | construct form text span children =>
      cases form with
      | binary =>
        rw [evalNodeEarly, reading_false]
        rfl
      | _ => rfl

theorem evalEarly_never (host : Host) : evalEarly (fun _ => false) host = eval host := by
  funext fuel n
  exact evalEarly_false host fuel n

end Node

end ScriptTree

import ScriptTree.Eval.Context
import ScriptTree.Tree.Defect

/-!
Evaluation of trees.

Evaluating a node yields a value and a flow: loop control and returns travel upwards as flows, never
as faults. A node with too few children stops the evaluation at the moment the missing child is
needed. Every scope that is opened is closed again, however the work inside ends.

`Node.eval` is driven by fuel, which bounds both the nesting of evaluations and the rounds of each
loop; running out of it is a result of its own, so that it cannot be taken for an answer. The parts
for each construct take the evaluator for child nodes as an argument.
-/

namespace ScriptTree

/-- How evaluation left a node. -/
inductive Flow where
  | normal
  | broken
  | continued
  | returned
deriving DecidableEq, Repr

def Flow.name : Flow → String
  | .normal => "normal"
  | .broken => "break"
  | .continued => "continue"
  | .returned => "return"

def Flow.all : List Flow := [.normal, .broken, .continued, .returned]

/-- What an evaluated node yields. -/
structure Completion where
  value : Value
  flow : Flow
deriving DecidableEq

/-- Why an evaluation stopped without yielding anything. A child is missing if a node with `count`
children has none at the index that is needed. -/
inductive Halt where
  | fault (f : Fault)
  | missingChild (index count : Nat)
  | outOfFuel
deriving DecidableEq

/-- The host's functions. What the host answers to a call may depend on the calls before it, and never
on the variables of the script. -/
structure Host where
  answer : Array HostCall → HostCall → Except Fault Datum

/-- A host whose functions answer nothing. -/
def Host.silent : Host := ⟨fun _ _ => .ok .void⟩

/-- A computation on a context: a result or the reason it stopped, and the context afterwards. -/
def Eval (α : Type) : Type := Context → Except Halt α × Context

namespace Eval

@[always_inline, inline]
def pure {α : Type} (a : α) : Eval α := fun c => (.ok a, c)

/-- One computation after another. -/
@[always_inline, inline]
def bind {α β : Type} (x : Eval α) (next : α → Eval β) : Eval β := fun c =>
  match x c with
  | (.ok a, c) => next a c
  | (.error h, c) => (.error h, c)

instance : Monad Eval where
  pure := Eval.pure
  bind := Eval.bind

def halt {α : Type} (h : Halt) : Eval α := fun c => (.error h, c)

/-- Stops with a fault. -/
def raise {α : Type} (f : Fault) : Eval α := halt (.fault f)

/-- Continues with a result, or stops with the fault in its place. -/
def ofExcept {α : Type} : Except Fault α → Eval α
  | .ok a => fun c => (.ok a, c)
  | .error f => raise f

def look {α : Type} (view : Context → α) : Eval α := fun c => (.ok (view c), c)

def update (change : Context → Context) : Eval Unit := fun c => (.ok (), change c)

/-- Changes the context unless the change is at fault. -/
def change (f : Context → Except Fault Context) : Eval Unit := fun c =>
  match f c with
  | .ok c => (.ok (), c)
  | .error e => (.error (.fault e), c)

/-- The datum that a value stands for now. -/
def read (v : Value) : Eval Datum := look (·.read v)

def get (name : String) : Eval Value := fun c =>
  match c.get name with
  | .ok v => (.ok v, c)
  | .error e => (.error (.fault e), c)

/-- Runs a computation inside a new scope and closes the scope, however the computation ends. -/
def withScope {α : Type} (x : Eval α) : Eval α := fun c =>
  match x c.push with
  | (r, c) => (r, c.pop)

/-- Runs a computation with a new cell, which is given up afterwards together with any made since. -/
def withCell {α : Type} (n : Int32) (x : Nat → Eval α) : Eval α := fun c =>
  let (address, c) := c.newCell n
  match x address c with
  | (r, c) => (r, { c with cells := c.cells.take address })

def child (children : List Node) (i : Nat) : Eval Node :=
  match children[i]? with
  | some n => pure n
  | none => halt (.missingChild i children.length)

end Eval

namespace Completion

/-- A value, after which the next statement follows. -/
def ofValue (v : Value) : Completion := ⟨v, .normal⟩

/-- A datum, after which the next statement follows. -/
def ofDatum (d : Datum) : Completion := ⟨.plain d, .normal⟩

/-- No value, after which the next statement follows. -/
def done : Completion := ofDatum .void

end Completion

namespace Node

/-- The evaluator for the nodes below. -/
abbrev Evaluator := Node → Eval Completion

/-- Evaluates an operand and goes on with its value; any other flow than the normal one is passed on
in its place. -/
def operand (run : Evaluator) (n : Node) (next : Value → Eval Completion) : Eval Completion := do
  let r ← run n
  match r.flow with
  | .normal => next r.value
  | _ => return r

/-- Evaluates statements in order and yields what the last one does. -/
def sequence (run : Evaluator) : List Node → Completion → Eval Completion
  | [], last => return last
  | n :: rest, _ => do
    let r ← run n
    match r.flow with
    | .normal => sequence run rest r
    | _ => return r

/-- Evaluates a condition, whatever its flow. -/
def condition (run : Evaluator) (n : Node) : Eval Bool := do
  let r ← run n
  let d ← Eval.read r.value
  Eval.ofExcept d.asBool

/-- The rounds of a loop: while the test holds, the body and then the step. A break ends the loop and
a return passes through it. -/
def rounds (run : Evaluator) (test : Eval Bool) (body : Node) (step : Eval Unit) :
    Nat → Eval Completion
  | 0 => Eval.halt .outOfFuel
  | fuel + 1 => do
    if ← test then
      let r ← run body
      match r.flow with
      | .broken => return .done
      | .returned => return r
      | _ => do
        step
        rounds run test body step fuel
    else return .done

/-- A loop with a setup, a condition, a step and a body. -/
def evalFor (run : Evaluator) (fuel : Nat) (children : List Node) : Eval Completion := do
  let setup ← Eval.child children 0
  let test ← Eval.child children 1
  let step ← Eval.child children 2
  let body ← Eval.child children 3
  Eval.withScope do
    let _ ← run setup
    let next : Eval Unit := do
      let _ ← run step
      return ()
    rounds run (condition run test) body next fuel

/-- A loop with a condition and a body. -/
def evalWhile (run : Evaluator) (fuel : Nat) (children : List Node) : Eval Completion := do
  let test ← Eval.child children 0
  let body ← Eval.child children 1
  rounds run (condition run test) body (return ()) fuel

/-- A counted loop: the counter lives in a cell, which the loop tests and steps directly. -/
def evalCounted (run : Evaluator) (fuel : Nat) (loop : CountedLoop) (children : List Node) :
    Eval Completion := do
  let body ← Eval.child children 0
  Eval.withScope (Eval.withCell loop.first fun address => do
    Eval.update (·.bindCell loop.counter address)
    rounds run (Eval.look fun c => c.cellAt address < loop.limit) body
      (Eval.update fun c => c.setCell address (c.cellAt address + 1)) fuel)

/-- A choice between two branches; the second may be missing. -/
def evalConditional (run : Evaluator) (children : List Node) : Eval Completion := do
  let test ← Eval.child children 0
  operand run test fun v => do
    let d ← Eval.read v
    if ← Eval.ofExcept d.asBool then
      let branch ← Eval.child children 1
      run branch
    else match children[2]? with
      | some branch => run branch
      | none => return .done

/-- An operator between two data that are not both numbers: equality of any two, and joining of
texts. -/
def mixedBinary (op : String) (l r : Datum) : Except Fault Datum :=
  match op, l, r with
  | "==", l, r => .ok (.bool (l.same r))
  | "!=", l, r => .ok (.bool (!l.same r))
  | "+", .string s, .string t => .ok (.string (s ++ t))
  | op, l, r => .error (.undefinedOperator op l.typeName r.typeName)

/-- An operator between two data. -/
def applyBinary (op : String) (l r : Datum) : Except Fault Datum :=
  match l, r with
  | .number _, .number _ => l.binary (BinaryOperator.ofText? op) r
  | _, _ => mixedBinary op l r

/-- A binary operator. The logical ones evaluate their right operand only if the left one does not
decide. -/
def evalBinary (run : Evaluator) (op : String) (children : List Node) : Eval Completion := do
  let lhs ← Eval.child children 0
  operand run lhs fun l => do
    if op = "&&" ∨ op = "||" then
      let left ← Eval.ofExcept (← Eval.read l).asBool
      if left = decide (op = "||") then return .ofDatum (.bool left)
      else
        let rhs ← Eval.child children 1
        operand run rhs fun r => do
          let right ← Eval.ofExcept (← Eval.read r).asBool
          return .ofDatum (.bool right)
    else
      let rhs ← Eval.child children 1
      operand run rhs fun r => do
        let a ← Eval.read l
        let b ← Eval.read r
        let d ← Eval.ofExcept (applyBinary op a b)
        return .ofDatum d

/-- Adds to or subtracts from a variable and yields what it holds then. -/
def stepVariable (op : Arithmetic) (name : String) : Eval Completion := do
  let current ← Eval.read (← Eval.get name)
  let next ← Eval.ofExcept (current.binary (some (.arithmetic op)) (.number (.int 1)))
  Eval.change (·.assign name next)
  let d ← Eval.read (← Eval.get name)
  return .ofDatum d

/-- An operator in front of its operand. -/
def evalPrefixed (run : Evaluator) (op : String) (children : List Node) : Eval Completion := do
  let target ← Eval.child children 0
  if op = "++" ∨ op = "--" then
    if target.isForm .identifier then
      stepVariable (if op = "--" then .difference else .sum) target.text
    else Eval.raise (TreeDefect.notIdentifier op).fault
  else
    operand run target fun v => do
      let d ← Eval.read v
      if op = "!" then
        let b ← Eval.ofExcept d.asBool
        return .ofDatum (.bool (!b))
      else
        let r ← Eval.ofExcept (d.unary (UnaryOperator.ofText? op))
        return .ofDatum r

/-- The operator of a compound assignment: its text without the equals sign at the end. -/
def compoundOperator (text : String) : String :=
  match text.toList.reverse with
  | '=' :: rest => String.ofList rest.reverse
  | _ => text

/-- Stores a value in a variable, combined with what the variable holds if the operator says so, and
yields the value stored. -/
def evalStore (op name : String) (v : Value) : Eval Completion := do
  let result : Value ←
    if op = "=" then pure v
    else do
      let current ← Eval.get name
      let a ← Eval.read current
      let b ← Eval.read v
      let d ← Eval.ofExcept (a.binary (BinaryOperator.ofText? (compoundOperator op)) b)
      pure (.plain d)
  let d ← Eval.read result
  Eval.change (·.assign name d)
  return .ofValue result

/-- An assignment to a variable or to a new variable; the right side is evaluated first. -/
def evalEquation (run : Evaluator) (op : String) (children : List Node) : Eval Completion := do
  let lhs ← Eval.child children 0
  let rhs ← Eval.child children 1
  operand run rhs fun v => do
    if lhs.isForm .declaration then
      Eval.change (·.declare lhs.declaredName)
      let d ← Eval.read v
      Eval.update (·.bind lhs.declaredName d)
      return .ofValue v
    else if lhs.isForm .identifier then evalStore op lhs.text v
    else Eval.raise (TreeDefect.notAssignable lhs.kind).fault

/-- A return with or without a value. -/
def evalReturn (run : Evaluator) : List Node → Eval Completion
  | [] => return ⟨.plain .void, .returned⟩
  | n :: _ => operand run n fun v => do
    let d ← Eval.read v
    return ⟨.plain d, .returned⟩

/-- The parameters of a definition: the names in the list between its name and its body. -/
def parametersOf : List Node → List String
  | _ :: list :: _ :: _ => if list.isForm .argumentList then list.children.map declaredName else []
  | _ => []

/-- Binds a function: the first child names it, the last one is its body. -/
def evalDefinition (children : List Node) : Eval Completion :=
  match children with
  | first :: second :: rest => do
    let function : ScriptFunction :=
      ⟨first.text, parametersOf children, (second :: rest).getLast (List.cons_ne_nil _ _)⟩
    fun c =>
      let (reference, c) := c.define function
      (.ok (.ofDatum (.script reference)), c.bind function.name (.script reference))
  | _ => Eval.raise TreeDefect.definitionWithoutBody.fault

/-- Calls a function of the host: the call is noted, and the host answers it. -/
def callHost (host : Host) (f : HostFunction) (arguments : List Datum) : Eval Datum := fun c =>
  let call : HostCall := ⟨f, arguments⟩
  let answer := host.answer c.calls call
  let c := { c with calls := c.calls.push call }
  match answer with
  | .ok d => (.ok d, c)
  | .error e => (.error (.fault e), c)

/-- Calls a function of the script: its body runs in a scope that holds the arguments. -/
def callScript (run : Evaluator) (f : ScriptFunction) (arguments : List Datum) : Eval Datum :=
  if arguments.length ≠ f.parameters.length then
    Eval.raise (.arityMismatch f.name f.parameters.length arguments.length)
  else
    Eval.withScope do
      Eval.update fun c => (f.parameters.zip arguments).foldl (fun c (name, d) => c.bind name d) c
      let r ← run f.body
      Eval.read r.value

/-- Calls what a datum refers to, which must be a function. -/
def callDatum (host : Host) (run : Evaluator) (target : Datum) (arguments : List Datum) : Eval Datum :=
  match target with
  | .host f => callHost host f arguments
  | .script reference => do
    match ← Eval.look (·.functions[reference.index]?) with
    | some f => callScript run f arguments
    | none => Eval.raise (.notCallable target.toText)
  | d => Eval.raise (.notCallable d.toText)

/-- Evaluates arguments in order and goes on with what they are. -/
def evalArguments (run : Evaluator) (next : List Datum → Eval Completion) :
    List Node → List Datum → Eval Completion
  | [], done => next done.reverse
  | n :: rest, done => operand run n fun v => do
    let d ← Eval.read v
    evalArguments run next rest (d :: done)

/-- Calls a name: the function it is bound to or, if it is not bound, the conversion of that name. -/
def callName (host : Host) (run : Evaluator) (name : String) (arguments : List Datum) :
    Eval Completion := do
  match ← Eval.look (·.get name) with
  | .ok v => do
    let target ← Eval.read v
    let d ← callDatum host run target arguments
    return .ofDatum d
  | .error e =>
    match NumericType.ofName? name, arguments with
    | some _, [d] => do
      let r ← Eval.ofExcept (d.convert name)
      return .ofDatum r
    | _, _ => Eval.raise e

/-- A call: the arguments first, then the function. -/
def evalCall (host : Host) (run : Evaluator) (children : List Node) : Eval Completion := do
  let callee ← Eval.child children 0
  let arguments := match children[1]? with
    | some list => list.children
    | none => []
  evalArguments run (fun arguments => do
    if callee.isForm .identifier then callName host run callee.text arguments
    else
      operand run callee fun v => do
        let target ← Eval.read v
        let d ← callDatum host run target arguments
        return .ofDatum d) arguments []

/-- One construct, with the evaluator for what is below it. -/
def evalForm (host : Host) (run : Evaluator) (fuel : Nat) (form : Form) (text : String)
    (n : Node) : Eval Completion :=
  match form with
  | .identifier => do return .ofValue (← Eval.get text)
  | .declaration => do
    Eval.change (·.declare n.declaredName)
    return .done
  | .equation => evalEquation run text n.children
  | .binary => evalBinary run text n.children
  | .prefixed => evalPrefixed run text n.children
  | .conditional | .ternary => evalConditional run n.children
  | .block => Eval.withScope (sequence run n.children .done)
  | .forLoop => evalFor run fuel n.children
  | .whileLoop => evalWhile run fuel n.children
  | .returned => evalReturn run n.children
  | .breakLoop => return ⟨.plain .void, .broken⟩
  | .continueLoop => return ⟨.plain .void, .continued⟩
  | .noop | .argumentList => return .done
  | .definition => evalDefinition n.children
  | .call => evalCall host run n.children

def eval (host : Host) : Nat → Node → Eval Completion
  | 0, _ => Eval.halt .outOfFuel
  | fuel + 1, n =>
    match n with
    | .constant value .. => return .ofDatum value.datum
    | .counted loop _ _ _ children => evalCounted (eval host fuel) fuel loop children
    | .construct form text _ _ => evalForm host (eval host fuel) fuel form text n

end Node

end ScriptTree

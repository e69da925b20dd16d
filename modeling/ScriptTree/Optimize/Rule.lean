import ScriptTree.Tree.Node
import ScriptTree.Value.Operator

/-!
Local simplifications. Each rule looks at one node, without going down the tree, and gives the node to
put in its place, or nothing where it does not apply.

Arithmetic on constants is computed by the very operators that evaluation uses, so whatever those
refuse is left in the tree and fails when the script runs.
-/

namespace ScriptTree.Rule

/-- A `return` with a value at the end of a function's body gives way to the value itself. -/
def trailingReturn (n : Node) : Option Node :=
  if !n.isForm .definition then none
  else do
    let body ← n.last?
    if !body.isForm .block then none
    else
      let final ← body.last?
      match final with
      | .construct .returned _ _ [e] =>
        some (n.withChildren (n.children.dropLast ++ [body.withChildren (body.children.dropLast ++ [e])]))
      | _ => none

mutual

/-- Whether evaluating the node binds a name in the scope around it: it declares a variable or defines
a function, or something below it does. Blocks keep their declarations to themselves. Of a counted
node, the loop it stands for is searched. Where that is itself counted, the search goes on to the loop behind it and
not through what it retains; the two differ on such trees alone, and no walk makes one. -/
def declares : Node → Bool
  | .construct form _ _ children => form == .declaration || form == .definition || declaresAny children
  | .constant _ _ _ children => declaresAny children
  | .counted _ generic _ _ _ => declares generic

/-- Whether one of several nodes, blocks apart, binds a name. -/
def declaresAny : List Node → Bool
  | [] => false
  | n :: ns => (!n.isForm .block && declares n) || declaresAny ns

end

/-- A block around a single statement gives way to the statement if its scope has nothing to hold. -/
def loneBlock : Node → Option Node
  | .construct .block _ _ [c] => if declaresAny [c] then none else some c
  | _ => none

/-- A choice with a literal condition gives way to the branch chosen, unless that branch is missing. -/
def deadBranch : Node → Option Node
  | .construct form _ _ (.constant (.plain (.bool b)) _ _ _ :: first :: rest) =>
    if form = .conditional ∨ form = .ternary then
      if b then some first
      else match rest with
        | [second] => some second
        | _ => none
    else none
  | _ => none

/-- The datum of a constant that holds a number. -/
def numberOf (n : Node) : Option Datum :=
  match n.value? with
  | some v => if v.isArithmetic then some v.datum else none
  | none => none

/-- A binary operator on two constant numbers gives way to its result. -/
def foldBinary (op : String) (span : Span) (lhs rhs : Node) : Option Node := do
  let l ← numberOf lhs
  let r ← numberOf rhs
  let o ← BinaryOperator.ofText? op
  match l.binary (some o) r with
  | .ok d => some (.ofLiteral (lhs.text ++ " " ++ op ++ " " ++ rhs.text) span (.plain d))
  | .error _ => none

/-- A call of a conversion with one constant number gives way to its result. -/
def foldConversion (span : Span) (callee arguments : Node) : Option Node :=
  match arguments with
  | .construct .argumentList _ _ [argument] =>
    if callee.isForm .identifier ∧ (NumericType.ofName? callee.text).isSome then do
      let d ← numberOf argument
      match d.convert callee.text with
      | .ok r => some (.ofLiteral (callee.text ++ "(" ++ argument.text ++ ")") span (.plain r))
      | .error _ => none
    else none
  | _ => none

/-- Arithmetic on constants gives way to its result. -/
def constantFolding : Node → Option Node
  | .construct .binary op span [lhs, rhs] => foldBinary op span lhs rhs
  | .construct .call _ span [callee, arguments] => foldConversion span callee arguments
  | _ => none

/-- The int of a constant that holds one itself, not by reference. -/
def intLiteral? : Node → Option Int32
  | .constant (.plain (.number (.int n))) .. => some n
  | _ => none

/-- Matches the setup `var x = a` of a counting loop. -/
def counterSetup? : Node → Option (String × Int32)
  | .construct .equation "=" _ [.construct .declaration _ _ (name :: _), value] =>
    (intLiteral? value).map (name.text, ·)
  | _ => none

/-- Matches the condition `x < b` of a counting loop. -/
def counterLimit? (counter : String) : Node → Option Int32
  | .construct .binary "<" _ [.construct .identifier name _ _, value] =>
    if name = counter then intLiteral? value else none
  | _ => none

/-- Matches the step `++x` of a counting loop. -/
def isIncrement (counter : String) : Node → Bool
  | .construct .prefixed "++" _ [.construct .identifier name _ _] => name == counter
  | _ => false

/-- The counting loop that the head of a loop describes. -/
def countedHead? (setup test step : Node) : Option CountedLoop := do
  let (counter, first) ← counterSetup? setup
  let limit ← counterLimit? counter test
  if isIncrement counter step then some ⟨counter, first, limit⟩ else none

/-- A loop that counts an int up to a literal gives way to a counted node, which keeps the loop. -/
def countedLoop : Node → Option Node
  | .construct .forLoop text span [setup, test, step, body] =>
    (countedHead? setup test step).map fun loop =>
      .counted loop (.construct .forLoop text span [setup, test, step, body]) text span [body]
  | _ => none

end ScriptTree.Rule

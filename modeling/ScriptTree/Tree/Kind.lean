/-!
The kinds of nodes that a script tree is built of. All but two are constructs of the language; a
constant holds a value, and a specialized node stands in for a loop.
-/

namespace ScriptTree

/-- The constructs of the language. -/
inductive Form where
  | definition
  | block
  | conditional
  | ternary
  | binary
  | call
  | argumentList
  | identifier
  | declaration
  | equation
  | prefixed
  | forLoop
  | whileLoop
  | returned
  | breakLoop
  | continueLoop
  | noop
deriving DecidableEq, Repr

/-- What a node is. -/
inductive Kind where
  | form (f : Form)
  | constant
  | specialized
deriving DecidableEq, Repr

namespace Kind

/-- The kinds in their customary order. -/
def all : List Kind :=
  [.form .definition, .form .block, .form .conditional, .form .ternary, .form .binary, .form .call,
    .form .argumentList, .form .identifier, .constant, .form .declaration, .form .equation,
    .form .prefixed, .form .forLoop, .form .whileLoop, .form .returned, .form .breakLoop,
    .form .continueLoop, .form .noop, .specialized]

def name : Kind → String
  | .form .definition => "Def"
  | .form .block => "Block"
  | .form .conditional => "If"
  | .form .ternary => "TernaryCond"
  | .form .binary => "Binary"
  | .form .call => "FunCall"
  | .form .argumentList => "ArgList"
  | .form .identifier => "Id"
  | .constant => "Constant"
  | .form .declaration => "VarDecl"
  | .form .equation => "Equation"
  | .form .prefixed => "Prefix"
  | .form .forLoop => "For"
  | .form .whileLoop => "While"
  | .form .returned => "Return"
  | .form .breakLoop => "Break"
  | .form .continueLoop => "Continue"
  | .form .noop => "Noop"
  | .specialized => "Specialized"

def ofName? (name : String) : Option Kind := all.find? (·.name == name)

end Kind

end ScriptTree

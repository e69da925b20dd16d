import ScriptTree.Source.Span
import ScriptTree.Tree.Kind
import ScriptTree.Text.Quoted
import ScriptTree.Fault

/-!
What can be wrong with a tree, at the moment it is read or at the moment it is evaluated.
-/

namespace ScriptTree

/-- A flaw of a tree. Of data that a type does not take, `badConstant` keeps the type: in what way the JSON reader
could not take them is left out. -/
inductive TreeDefect where
  | nullNode
  | unknownKind (name : String)
  | missingValue (text : String) (span : Span)
  | unsupportedType (type : String)
  | badConstant (type : String)
  | notInfinite (type text : String)
  | definitionWithoutBody
  | notAssignable (kind : Kind)
  | notIdentifier (operator : String)
deriving DecidableEq, Repr

namespace TreeDefect

def describe : TreeDefect → String
  | .nullNode => "null node"
  | .unknownKind name => "unknown node kind " ++ Text.quote name
  | .missingValue text span => "constant " ++ Text.quote text ++ " at " ++ span.toText ++ " has no value"
  | .unsupportedType type => "unsupported constant type " ++ Text.quote type
  | .badConstant type => "bad " ++ type ++ " constant"
  | .notInfinite type text =>
    "bad " ++ type ++ " constant: " ++ Text.quote text ++ " is not NaN or an infinity"
  | .definitionWithoutBody => "function definition without a body"
  | .notAssignable kind => "cannot assign to " ++ kind.name
  | .notIdentifier operator => operator ++ " needs an identifier"

def fault (d : TreeDefect) : Fault := .malformedTree d.describe

end TreeDefect

end ScriptTree

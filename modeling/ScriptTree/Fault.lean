/-!
What can go wrong while a script, a tree or a settings file is processed. A fault is a cause; its
category, its code and its wording follow from it.
-/

namespace ScriptTree

/-- The cause of a failure. What the JSON reader found wrong with settings is left out of `unreadableSettings`. -/
inductive Fault where
  | divisionByZero (operation : String)
  | undefinedOperator (operator lhs rhs : String)
  | badConversion (source target : String)
  | undefinedVariable (name : String)
  | redeclared (name : String)
  | typeMismatch (expected got : String)
  | notCallable (what : String)
  | arityMismatch (name : String) (want got : Int)
  | malformedTree (details : String)
  | invalidSetting (field details : String)
  | unreadableSettings
  | custom (category code detail : String)
deriving DecidableEq, Repr

namespace Fault

/-- The part of the work in which the fault arises. -/
def category : Fault → String
  | .divisionByZero .. | .undefinedOperator .. | .badConversion .. => "ARITHMETIC"
  | .undefinedVariable .. | .redeclared .. | .typeMismatch .. | .notCallable ..
  | .arityMismatch .. => "RUNTIME"
  | .malformedTree .. => "DECODE"
  | .invalidSetting .. | .unreadableSettings => "CONFIG"
  | .custom category _ _ => category

/-- The kind of the fault within its category. -/
def code : Fault → String
  | .divisionByZero .. => "DIVISION_BY_ZERO"
  | .undefinedOperator .. => "UNDEFINED_OPERATOR"
  | .badConversion .. => "BAD_CONVERSION"
  | .undefinedVariable .. => "UNDEFINED_VARIABLE"
  | .redeclared .. => "REDECLARED"
  | .typeMismatch .. => "TYPE_MISMATCH"
  | .notCallable .. => "NOT_CALLABLE"
  | .arityMismatch .. => "ARITY_MISMATCH"
  | .malformedTree .. => "MALFORMED_TREE"
  | .invalidSetting .. | .unreadableSettings => "INVALID_CONFIG"
  | .custom _ code _ => code

/-- What happened, in words. -/
def detail : Fault → String
  | .divisionByZero operation => "Division by zero in " ++ operation ++ " operation"
  | .undefinedOperator operator lhs rhs =>
    "Operator " ++ operator ++ " is not defined for " ++ lhs ++ " and " ++ rhs
  | .badConversion source target => "Cannot convert " ++ source ++ " to " ++ target
  | .undefinedVariable name => "Can not find object: " ++ name
  | .redeclared name => "Variable redefined '" ++ name ++ "'"
  | .typeMismatch expected got => "Expected " ++ expected ++ ", got " ++ got
  | .notCallable what => what ++ " is not a function"
  | .arityMismatch name want got =>
    "Function " ++ name ++ " expects " ++ toString want ++ " arguments, got " ++ toString got
  | .malformedTree details => "Malformed syntax tree: " ++ details
  | .invalidSetting field details => "Invalid configuration " ++ field ++ ": " ++ details
  | .unreadableSettings => "Invalid configuration json"
  | .custom _ _ detail => detail

/-- The named particulars of the fault. -/
def particulars : Fault → List (String × String)
  | .divisionByZero operation => [("operation", operation)]
  | .undefinedOperator operator lhs rhs => [("operator", operator), ("lhs", lhs), ("rhs", rhs)]
  | .badConversion source target => [("from", source), ("to", target)]
  | .undefinedVariable name => [("name", name)]
  | .redeclared name => [("name", name)]
  | .typeMismatch expected got => [("expected", expected), ("got", got)]
  | .notCallable what => [("value", what)]
  | .arityMismatch name want got =>
    [("function", name), ("want", toString want), ("got", toString got)]
  | .malformedTree details => [("details", details)]
  | .invalidSetting field details => [("field", field), ("details", details)]
  | .unreadableSettings => [("field", "json")]
  | .custom .. => []

def message (f : Fault) : String := "[" ++ f.category ++ ":" ++ f.code ++ "] " ++ f.detail

/-- Faults of the same kind: category and code agree, whatever the particulars. -/
def sameKind (f g : Fault) : Bool := f.category == g.category && f.code == g.code

def hasCode (f : Fault) (code : String) : Bool := f.code == code

end Fault

end ScriptTree

/-!
The data format that trees and settings are exchanged in: JSON values as text holds them. Members
keep their order and their repetitions, and a number keeps its spelling, because `1`, `1.0` and `1e0`
are different literals to a reader of whole numbers.
-/

namespace ScriptTree

/-- A JSON value. -/
inductive Json where
  | null
  | bool (value : Bool)
  | num (literal : String)
  | str (text : String)
  | arr (items : List Json)
  | obj (members : List (String × Json))
deriving Inhabited

namespace Json

/-- White space between the parts of a value. -/
def isSpace (c : Char) : Bool := c == ' ' || c == '\t' || c == '\n' || c == '\r'

/-- How deep arrays and objects may be nested in one text. -/
def nestingLimit : Nat := 10000

end Json

end ScriptTree

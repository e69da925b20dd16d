import ScriptTree.Json.Printer
import ScriptTree.Tree.Node

/-!
Writing trees in their interchange form. Members that would say nothing are left out: an empty text, a
span that names no place, an empty list of children. A counted node is written as the loop it stands
for, with a mark.
-/

namespace ScriptTree

/-- How the data of floating point constants are written: with an exponent below a millionth and from
`10 ^ 21` on. -/
def Node.dataLayout : DecimalLayout := ⟨-6, 21, 1⟩

/-- The data of a floating point constant; what is no number is written as a word. -/
def Floating.toJson {f : FloatFormat} (x : Floating f) : Json :=
  match x with
  | .finite .. => .num (x.toText Node.dataLayout)
  | _ => .str (x.toText Node.dataLayout)

def Number.toJson : Number → Json
  | .int n => .num (toString n.toInt)
  | .long n => .num (toString n.toInt)
  | .float x => x.toJson
  | .double x => x.toJson

/-- The value of a constant; a function has no written form and is written as void. -/
def Datum.toJson (d : Datum) : Json :=
  let typed (data : Json) : Json := .obj [("type", .str d.typeName), ("data", data)]
  match d with
  | .bool b => typed (.bool b)
  | .number n => typed n.toJson
  | .string s => typed (.str s)
  | .undefined | .void | .host _ | .script _ => .obj [("type", .str "void")]

/-- A position; the file is left out if it has no name. -/
def Position.toJson (p : Position) : Json :=
  let file := if p.file = "" then [] else [("file", Json.str p.file)]
  .obj (file ++ [("line", .num (toString p.line)), ("column", .num (toString p.column))])

def Span.toJson (s : Span) : Json := .obj [("start", s.start.toJson), ("end", s.stop.toJson)]

namespace Node

/-- The members that describe a node itself. -/
def ownMembers (kind : Kind) (text : String) (span : Span) : List (String × Json) :=
  [("kind", .str kind.name)] ++ (if text = "" then [] else [("text", .str text)]) ++
    (if span.start.isValid then [("span", span.toJson)] else [])

/-- The member for children, if there are any. -/
def childMember : List Json → List (String × Json)
  | [] => []
  | vs => [("children", .arr vs)]

mutual

def members : Node → List (String × Json)
  | .construct form text span children =>
    ownMembers (.form form) text span ++ childMember (jsonAll children)
  | .constant value text span children =>
    ownMembers .constant text span ++ [("value", value.datum.toJson)] ++ childMember (jsonAll children)
  | .counted _ generic _ _ _ => members generic ++ [("specialized", .bool true)]

def jsonAll : List Node → List Json
  | [] => []
  | n :: ns => .obj (members n) :: jsonAll ns

end

def toJson (n : Node) : Json := .obj n.members

def encode (n : Node) : String := n.toJson.pretty ++ "\n"

end Node

end ScriptTree

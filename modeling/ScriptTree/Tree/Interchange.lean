import ScriptTree.Json.Field
import ScriptTree.Json.Reader
import ScriptTree.Tree.Defect
import ScriptTree.Tree.Node

/-!
Reading trees from their interchange form.

A tree is read in two steps. First the text becomes an `Outer` node, which has the members of the
form and nothing checked but their JSON types. Then the kinds and constants are checked, in the order
parent before children, and the tree is built; the first flaw is the one reported. Nothing below a
constant is looked at.
-/

namespace ScriptTree

/-- The value of a constant in interchange form. -/
structure OuterValue where
  type : String
  data : Option Json

/-- A node in interchange form. -/
inductive OuterNode where
  | mk (kind text : String) (span : Option Span) (value : Option OuterValue)
    (children hidden : List (Option OuterNode))

/-- Why a text is not read as a tree: it is no JSON text of the right shape, where what the JSON reader found wrong is
left out, or the tree has a flaw. -/
inductive DecodeError where
  | unreadable
  | malformed (defect : TreeDefect)
deriving DecidableEq, Repr

def DecodeError.message : DecodeError → String
  | .unreadable => "decoding syntax tree"
  | .malformed d => d.fault.message

namespace OuterNode

/-- A node of which nothing is known yet. -/
def blank : OuterNode := .mk "" "" none none [] []

instance : Inhabited OuterNode := ⟨blank⟩

end OuterNode

namespace Json

def intoPosition (old : Position) : Json → Option Position
  | .null => some old
  | .obj members => members.foldlM (fun p (key, v) =>
      if names "file" key then (intoText p.file v).map ({ p with file := · })
      else if names "line" key then (intoInt 64 p.line v).map ({ p with line := · })
      else if names "column" key then (intoInt 64 p.column v).map ({ p with column := · })
      else some p) old
  | _ => none

def intoSpan (old : Span) : Json → Option Span
  | .null => some old
  | .obj members => members.foldlM (fun s (key, v) =>
      if names "start" key then (intoPosition s.start v).map ({ s with start := · })
      else if names "end" key then (intoPosition s.stop v).map ({ s with stop := · })
      else some s) old
  | _ => none

/-- Takes a span that may be absent. -/
def intoSpan? (old : Option Span) : Json → Option (Option Span)
  | .null => some none
  | v => (intoSpan (old.getD .unknown) v).map some

/-- Takes the members of a constant's value. -/
def intoValue (old : OuterValue) : Json → Option OuterValue
  | .obj members => members.foldlM (fun x (key, v) =>
      if names "type" key then (intoText x.type v).map ({ x with type := · })
      else if names "data" key then some { x with data := some v }
      else some x) old
  | _ => none

/-- Takes a value that may be absent. -/
def intoValue? (old : Option OuterValue) : Json → Option (Option OuterValue)
  | .null => some none
  | v => (intoValue (old.getD ⟨"", none⟩) v).map some

/-- Takes one member, a list of children by `takeChildren`; a member of another name says nothing. -/
def intoMember (takeChildren : Slots (Option OuterNode) → Option (Slots (Option OuterNode)))
    (key : String) (v : Json) : OuterNode → Option OuterNode
  | .mk kind text span value children hidden =>
    if names "kind" key then
      (intoText kind v).map fun kind => .mk kind text span value children hidden
    else if names "text" key then
      (intoText text v).map fun text => .mk kind text span value children hidden
    else if names "span" key then
      (intoSpan? span v).map fun span => .mk kind text span value children hidden
    else if names "value" key then
      (intoValue? value v).map fun value => .mk kind text span value children hidden
    else if names "children" key then
      (takeChildren ⟨children, hidden⟩).map fun slots =>
        .mk kind text span value slots.items slots.hidden
    else if names "specialized" key then
      (intoBool false v).map fun _ => .mk kind text span value children hidden
    else some (.mk kind text span value children hidden)

mutual

/-- Takes members one after another. -/
def intoMembers : List (String × Json) → OuterNode → Option OuterNode
  | [], n => some n
  | (key, v) :: members, n =>
    match intoMember (fun old => intoChildList v old) key v n with
    | some n => intoMembers members n
    | none => none

/-- Takes a list of children. -/
def intoChildList : Json → Slots (Option OuterNode) → Option (Slots (Option OuterNode))
  | .null, _ => some .empty
  | .arr vs, old =>
    if vs.isEmpty then some .empty
    else (intoChildren vs (old.items ++ old.hidden)).map (Slots.cut vs.length)
  | _, _ => none

/-- Takes a child over what was in its place; `null` leaves the place empty. -/
def intoChild : Json → Option OuterNode → Option (Option OuterNode)
  | .null, _ => some none
  | .obj members, old => (intoMembers members (old.getD .blank)).map some
  | _, _ => none

/-- Takes children one by one over a list of children. -/
def intoChildren : List Json → List (Option OuterNode) → Option (List (Option OuterNode))
  | [], old => some old
  | v :: vs, old => do
    let first ← intoChild v (old.headD none)
    let others ← intoChildren vs (old.drop 1)
    return first :: others

end

def intoNode (n : OuterNode) : Json → Option OuterNode
  | .null => some n
  | .obj members => intoMembers members n
  | _ => none

end Json

/-- The value that the data of a constant spell for a floating point type: a number, or a word for a
value that is no number. -/
def floatingOf (f : FloatFormat) (type : String) : Json → Except TreeDefect (Floating f)
  | .str word => match Floating.ofWord? word with
    | some x => .ok x
    | none => .error (.notInfinite type word)
  | v => match Json.intoFloating (Floating.zero false : Floating f) v with
    | some x => .ok x
    | none => .error (.badConstant type)

def OuterValue.datum (v : OuterValue) : Except TreeDefect Datum :=
  let required {α : Type} (read : Json → Option α) : Except TreeDefect α :=
    match v.data.bind read with
    | some x => .ok x
    | none => .error (.badConstant v.type)
  match v.type with
  | "void" => .ok .void
  | "bool" => .bool <$> required (Json.intoBool false)
  | "int" => (fun n => .number (.int (.ofInt n))) <$> required (Json.intoInt 32 0)
  | "long" => (fun n => .number (.long (.ofInt n))) <$> required (Json.intoInt 64 0)
  | "float" => do
    let data ← required some
    return .number (.float (← floatingOf .single v.type data))
  | "double" => do
    let data ← required some
    return .number (.double (← floatingOf .double v.type data))
  | "string" => .string <$> required (Json.intoText "")
  | type => .error (.unsupportedType type)

namespace OuterNode

mutual

/-- Builds the tree, or reports the first flaw. -/
def build : OuterNode → Except TreeDefect Node
  | .mk kind text span value children _ =>
    let span := span.getD .unknown
    match Kind.ofName? kind with
    | none | some .specialized => .error (.unknownKind kind)
    | some .constant => match value with
      | none => .error (.missingValue text span)
      | some v => do
        let d ← v.datum
        return .ofLiteral text span (.plain d)
    | some (.form form) => do
      let children ← buildAll children
      return .construct form text span children

def buildAll : List (Option OuterNode) → Except TreeDefect (List Node)
  | [] => .ok []
  | none :: _ => .error .nullNode
  | some n :: rest => do
    let first ← build n
    let others ← buildAll rest
    return first :: others

end

end OuterNode

namespace Node

/-- The tree of a JSON value. -/
def ofJson (v : Json) : Except DecodeError Node :=
  match Json.intoNode .blank v with
  | none => .error .unreadable
  | some outer => match outer.build with
    | .ok n => .ok n
    | .error d => .error (.malformed d)

/-- The tree that a whole text spells. -/
def decode (text : String) : Except DecodeError Node :=
  match Json.parse text with
  | none => .error .unreadable
  | some v => ofJson v

/-- The tree at the front of a text, whatever follows it. -/
def decodeFirst (text : String) : Except DecodeError Node :=
  match Json.parseFirst text with
  | none => .error .unreadable
  | some v => ofJson v

end Node

end ScriptTree

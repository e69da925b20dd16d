import ScriptTree.Source.Span
import ScriptTree.Tree.Kind
import ScriptTree.Value.Basic

/-!
Script trees.

A node has a text, a span and children, any number of them: a tree need not have the shape that a
parser gives it. A constant also holds a value. A counted node stands in for a loop that counts from
one int to another; it keeps the generic loop it stands for, and its child is the loop's body.
-/

namespace ScriptTree

/-- A loop whose counter runs from `first` while it is below `limit`. -/
structure CountedLoop where
  counter : String
  first : Int32
  limit : Int32
deriving DecidableEq

/-- A node of a script tree. -/
inductive Node where
  | construct (form : Form) (text : String) (span : Span) (children : List Node)
  | constant (value : Literal) (text : String) (span : Span) (children : List Node)
  | counted (loop : CountedLoop) (generic : Node) (text : String) (span : Span) (children : List Node)

namespace Node

/-- The constant that folding and decoding build. -/
def ofLiteral (text : String) (span : Span) (value : Literal) : Node := .constant value text span []

instance : Inhabited Node := ⟨.construct .noop "" .unknown []⟩

/-- What the node is. -/
def kind : Node → Kind
  | .construct form .. => .form form
  | .constant .. => .constant
  | .counted .. => .specialized

/-- The node's text: an operator, a name, or how a constant was written. -/
def text : Node → String
  | .construct _ text .. => text
  | .constant _ text .. => text
  | .counted _ _ text .. => text

def span : Node → Span
  | .construct _ _ span _ => span
  | .constant _ _ span _ => span
  | .counted _ _ _ span _ => span

def children : Node → List Node
  | .construct _ _ _ children => children
  | .constant _ _ _ children => children
  | .counted _ _ _ _ children => children

def isForm (n : Node) (form : Form) : Bool := n.kind == .form form

def value? : Node → Option Literal
  | .constant value .. => some value
  | _ => none

/-- The generic loop that a counted node stands for. -/
def generic? : Node → Option Node
  | .counted _ generic .. => some generic
  | _ => none

/-- The node with other children; all else is kept. -/
def withChildren (n : Node) (children : List Node) : Node :=
  match n with
  | .construct form text span _ => .construct form text span children
  | .constant value text span _ => .constant value text span children
  | .counted loop generic text span _ => .counted loop generic text span children

/-- The node with child `i` replaced; there is none such without that child. -/
def withChild? (n : Node) (i : Nat) (child : Node) : Option Node :=
  if i < n.children.length then some (n.withChildren (n.children.set i child)) else none

def last? (n : Node) : Option Node := n.children.getLast?

/-- The name that a declaration or parameter introduces: its first child's text, or its own. -/
def declaredName (n : Node) : String :=
  match n.children with
  | c :: _ => c.text
  | [] => n.text

/-- The node in one line, without its children. -/
def describe : Node → String
  | .constant value text .. => "Constant(" ++ text ++ " = " ++ value.datum.toText ++ ")"
  | .counted _ generic .. => "Specialized(" ++ generic.kind.name ++ ")"
  | .construct form text .. =>
    let name := (Kind.form form).name
    if text = "" then name else name ++ "(" ++ text ++ ")"

/-- The node that a path of child indexes leads to. -/
def follow? (n : Node) : List Nat → Option Node
  | [] => some n
  | i :: path => match n.children[i]? with
    | some c => c.follow? path
    | none => none

mutual

/-- The number of nodes, children and their children included; a loop kept by a counted node does not
count. -/
def count : Node → Nat
  | .construct _ _ _ children => 1 + countAll children
  | .constant _ _ _ children => 1 + countAll children
  | .counted _ _ _ _ children => 1 + countAll children

/-- The number of nodes of several trees. -/
def countAll : List Node → Nat
  | [] => 0
  | n :: ns => count n + countAll ns

end

mutual

/-- Structural equality: kinds, texts, values of constants and children agree, and so do the loops
that counted nodes stand for. Spans do not matter. -/
def same : Node → Node → Bool
  | .construct f s _ ms, .construct g t _ ns => f == g && s == t && sameAll ms ns
  | .constant u s _ ms, .constant v t _ ns => s == t && u.sameConstant v && sameAll ms ns
  | .counted _ a s _ ms, .counted _ b t _ ns => s == t && same a b && sameAll ms ns
  | _, _ => false

/-- Structural equality of several trees, one by one. -/
def sameAll : List Node → List Node → Bool
  | [], [] => true
  | m :: ms, n :: ns => same m n && sameAll ms ns
  | _, _ => false

end

/-- Whether a copy of the node with new children would be equal to it. A child that is kept, given as
`none`, is the very same node and so equal to itself, whatever constants it holds. -/
def sameAfter (n : Node) (replaced : List (Option Node)) : Bool :=
  let own := match n with
    | .constant value .. => value.sameConstant value
    | _ => true
  own && replaced.length == n.children.length &&
    (replaced.zip n.children).all fun (new, old) => match new with
      | some c => c.same old
      | none => true

end Node

end ScriptTree

import ScriptTree.Tree.Node

/-!
The outline of a tree: one line a node, in the order parent before children, indented by two spaces a
level, with the place of the node where it is known. A device that the outline is printed to may refuse
a line; that ends the printing.
-/

namespace ScriptTree

/-- The pieces of text that a device was offered, in order, each with whether the device took it. -/
abbrev Transcript := List (String × Bool)

/-- A device that text is written to. Whether it takes a piece of text may depend on all that it was
offered before. -/
structure Device where
  takes : Transcript → String → Bool

namespace Device

/-- The device that takes everything. -/
def unlimited : Device := ⟨fun _ _ => true⟩

/-- The device that takes a number of pieces of text and no more. -/
def limited (limit : Nat) : Device := ⟨fun before _ => before.length < limit⟩

/-- Offers a piece of text; it is an error if the device refuses it. -/
def write (d : Device) (text : String) : EStateM Unit Transcript Unit := do
  let before ← get
  let taken := d.takes before text
  set (before ++ [(text, taken)])
  if !taken then throw ()

end Device

/-- What came of printing to a device. -/
structure Printed where
  offered : Transcript
  failed : Bool
deriving DecidableEq, Repr

namespace Printed

/-- The pieces of text that the device took, in order. -/
def taken (p : Printed) : List String := (p.offered.filter (·.2)).map (·.1)

/-- The text that the device has. -/
def written (p : Printed) : String := String.join p.taken

end Printed

namespace Node

/-- The line of a node at a depth, with its line end. -/
def outlineLine (depth : Nat) (n : Node) : String :=
  let place := if n.span.start.isValid then " @" ++ n.span.start.toText else ""
  String.ofList (List.replicate (2 * depth) ' ') ++ n.describe ++ place ++ "\n"

mutual

/-- The lines of a tree. -/
def outlineFrom (depth : Nat) : Node → List String
  | .construct form text span children =>
    outlineLine depth (.construct form text span children) :: outlineAll (depth + 1) children
  | .constant value text span children =>
    outlineLine depth (.constant value text span children) :: outlineAll (depth + 1) children
  | .counted loop generic text span children =>
    outlineLine depth (.counted loop generic text span children) :: outlineAll (depth + 1) children

/-- The lines of several trees. -/
def outlineAll (depth : Nat) : List Node → List String
  | [] => []
  | n :: ns => outlineFrom depth n ++ outlineAll depth ns

end

/-- The lines of a tree, in order. -/
def outline (n : Node) : List String := n.outlineFrom 0

/-- The whole outline as one text. -/
def format (n : Node) : String := String.join n.outline

mutual

/-- Prints a tree: the line of the node, then the children. -/
def printFrom (d : Device) (depth : Nat) : Node → EStateM Unit Transcript Unit
  | .construct form text span children => do
    d.write (outlineLine depth (.construct form text span children))
    printAll d (depth + 1) children
  | .constant value text span children => do
    d.write (outlineLine depth (.constant value text span children))
    printAll d (depth + 1) children
  | .counted loop generic text span children => do
    d.write (outlineLine depth (.counted loop generic text span children))
    printAll d (depth + 1) children

/-- Prints several trees one after another. -/
def printAll (d : Device) (depth : Nat) : List Node → EStateM Unit Transcript Unit
  | [] => pure ()
  | n :: ns => do
    printFrom d depth n
    printAll d depth ns

end

/-- Prints the outline to a device. -/
def print (d : Device) (n : Node) : Printed :=
  match (n.printFrom d 0).run [] with
  | .ok _ offered => ⟨offered, false⟩
  | .error _ offered => ⟨offered, true⟩

/-- Prints the outline to a device that takes so many lines. -/
def printTo (limit : Nat) (n : Node) : Printed := n.print (.limited limit)

end Node

end ScriptTree

import ScriptTree.Optimize.Pass

/-!
Walking a tree. A pipeline works on one node at a time; the walk takes it through a whole tree,
children before their parent, and offers every node once. What a pass puts in the place of a node is
not walked again, and the loop that a counted node stands for is never visited.
-/

namespace ScriptTree

/-- A pass that put another node in the place of one. -/
structure Step where
  pass : Pass
  before : Node
  after : Node

def Step.describe (s : Step) : String :=
  s.pass.name ++ ": " ++ s.before.describe ++ " at " ++ s.before.span.toText ++ " -> " ++ s.after.describe

/-- What came of offering nodes to a pipeline: the tree, how many nodes were offered, and the steps
taken. The tree is the one given exactly if no step was taken. -/
structure Walked where
  tree : Node
  visited : Nat
  steps : List Step

namespace Pipeline

/-- Takes one node through the passes in order, each pass getting what the one before left. -/
def apply : Pipeline → Node → Node × List Step
  | [], n => (n, [])
  | p :: ps, n =>
    match p.rule n with
    | none => apply ps n
    | some m =>
      let (out, steps) := apply ps m
      (out, ⟨p, n, m⟩ :: steps)

mutual

def walk (p : Pipeline) : Node → Walked
  | .construct form text span children =>
    let (children, visited, below) := walkAll p children
    let (tree, steps) := p.apply (.construct form text span children)
    ⟨tree, visited + 1, below ++ steps⟩
  | .constant value text span children =>
    let (children, visited, below) := walkAll p children
    let (tree, steps) := p.apply (.constant value text span children)
    ⟨tree, visited + 1, below ++ steps⟩
  | .counted loop generic text span children =>
    let (children, visited, below) := walkAll p children
    let (tree, steps) := p.apply (.counted loop generic text span children)
    ⟨tree, visited + 1, below ++ steps⟩

def walkAll (p : Pipeline) : List Node → List Node × Nat × List Step
  | [] => ([], 0, [])
  | n :: ns =>
    let first := walk p n
    let (others, visited, steps) := walkAll p ns
    (first.tree :: others, first.visited + visited, first.steps ++ steps)

end

/-- The node alone taken through the pipeline, as a walk that does not go down. -/
def offer (p : Pipeline) (n : Node) : Walked :=
  let (tree, steps) := p.apply n
  ⟨tree, 1, steps⟩

end Pipeline

end ScriptTree

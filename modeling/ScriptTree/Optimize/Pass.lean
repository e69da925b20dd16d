import ScriptTree.Optimize.Rule
import ScriptTree.Text.Words

/-!
Passes and levels. A pass is a rule with a name; a level says which passes run. A pipeline is a list
of passes in the order in which a node goes through them.
-/

namespace ScriptTree

/-- How much is simplified; each level has the passes of the one before. -/
inductive Level where
  | none
  | basic
  | default
  | aggressive
deriving DecidableEq, Repr

namespace Level

/-- The levels in ascending order. -/
def all : List Level := [.none, .basic, .default, .aggressive]

/-- The name of a level. -/
def name : Level → String
  | .none => "none"
  | .basic => "basic"
  | .default => "default"
  | .aggressive => "aggressive"

/-- The position of a level in the ascending order. -/
def rank : Level → Nat
  | .none => 0
  | .basic => 1
  | .default => 2
  | .aggressive => 3

/-- The level of a name or a digit, in any case and with white space around it; the empty text is the
default level. -/
def ofText? (text : String) : Option Level :=
  match Text.lower (Text.trim text) with
  | "none" | "0" => some .none
  | "basic" | "1" => some .basic
  | "default" | "2" | "" => some .default
  | "aggressive" | "3" => some .aggressive
  | _ => Option.none

end Level

inductive Pass where
  | trailingReturn
  | loneBlock
  | deadBranch
  | constantFolding
  | countedLoop
deriving DecidableEq, Repr

/-- Passes in the order in which they are applied. -/
abbrev Pipeline := List Pass

namespace Pass

/-- The name of a pass in settings and logs. -/
def name : Pass → String
  | .trailingReturn => "return"
  | .loneBlock => "block"
  | .deadBranch => "if"
  | .constantFolding => "constant_fold"
  | .countedLoop => "for_loop"

/-- The lowest level that runs the pass. -/
def level : Pass → Level
  | .trailingReturn | .loneBlock | .constantFolding => .basic
  | .deadBranch => .default
  | .countedLoop => .aggressive

def rule : Pass → Node → Option Node
  | .trailingReturn => Rule.trailingReturn
  | .loneBlock => Rule.loneBlock
  | .deadBranch => Rule.deadBranch
  | .constantFolding => Rule.constantFolding
  | .countedLoop => Rule.countedLoop

end Pass

namespace Pipeline

/-- Every pass, in the standard order. -/
def standard : Pipeline :=
  [.trailingReturn, .loneBlock, .deadBranch, .constantFolding, .countedLoop]

/-- The passes up to a rank of levels, in the standard order. -/
def ofRank (rank : Int) : Pipeline := standard.filter fun p => p.level.rank ≤ rank

/-- The passes of a level, in the standard order. -/
def ofLevel (level : Level) : Pipeline := ofRank level.rank

def names (p : Pipeline) : List String := p.map Pass.name

end Pipeline

def Pass.ofName? (name : String) : Option Pass := Pipeline.standard.find? (·.name == name)

end ScriptTree

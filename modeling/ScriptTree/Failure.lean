import ScriptTree.Eval.Basic
import ScriptTree.Files.Basic
import ScriptTree.Tree.Interchange

/-!
Why the tool cannot do what it was asked. Labels say where a failure arose: the file it belongs to,
the activity it ended.
-/

namespace ScriptTree

/-- The reason of a failure, with labels around it. -/
inductive Failure where
  | fault (f : Fault)
  | file (e : FileError)
  | unreadableTree
  | unreadableTreeFile (e : FileError)
  | unknownLevel (text : String)
  | missingChild (index count : Nat)
  | outOfFuel
  | within (label : String) (inner : Failure)
deriving DecidableEq, Repr

namespace Failure

def message : Failure → String
  | .fault f => f.message
  | .file e => e.message
  | .unreadableTree | .unreadableTreeFile _ => DecodeError.unreadable.message
  | .unknownLevel text => "unknown optimization level " ++ Text.quote text
  | .missingChild .. => "index out of range"
  | .outOfFuel => "evaluation did not finish"
  | .within label inner => label ++ ": " ++ inner.message

/-- The failure with a label in front. A tree that lacks a child ends the whole work at once, so its
failure takes no label. -/
def labelled (label : String) : Failure → Failure
  | .missingChild index count => .missingChild index count
  | f => .within label f

/-- What the tool leaves behind when it breaks off; only a missing child makes it do so. -/
def crash? : Failure → Option String
  | .missingChild index count =>
    some ("panic: runtime error: index out of range [" ++ toString index ++ "] with length " ++
      toString count ++ "\n")
  | _ => none

theorem labelled_of_crash {label : String} {e : Failure} (h : e.crash?.isSome) : e.labelled label = e := by
  cases e with
  | missingChild => rfl
  | _ => cases h

/-- A label is put around every other failure. -/
theorem labelled_of_not_crash {label : String} {e : Failure} (h : e.crash? = none) : e.labelled label = .within label e := by
  cases e with
  | missingChild => cases h
  | _ => rfl

def root : Failure → Failure
  | .within _ inner => inner.root
  | f => f

def ofDecode : DecodeError → Failure
  | .unreadable => .unreadableTree
  | .malformed d => .fault d.fault

def ofHalt : Halt → Failure
  | .fault f => .fault f
  | .missingChild index count => .missingChild index count
  | .outOfFuel => .outOfFuel

end Failure

end ScriptTree

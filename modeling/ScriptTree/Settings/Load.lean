import ScriptTree.Files.Batch
import ScriptTree.Settings.Basic

/-!
Settings files: reading one, with a level that takes precedence over what the file says, and writing
one. A file that is not there counts as one that says nothing.
-/

namespace ScriptTree.Settings

/-- The settings in a file. -/
def load (fs : FileSystem) (path : String) : Except Failure Settings :=
  if path = "" then .ok default
  else match fs.read path with
    | .error e => match e.cause with
      | .notFound => .ok default
      | _ => .error (.within "failed to read config file" (.file e))
    | .ok text => match parse text with
      | .ok s => .ok s
      | .error e => .error (.within path (.fault e))

/-- The settings in a file, with a level in the place of theirs unless it is empty. -/
def loadWithLevel (fs : FileSystem) (path level : String) : Except Failure Settings := do
  let s ← load fs path
  if level = "" then return s
  else if (Level.ofText? level).isNone then throw (.unknownLevel level)
  else return s.withLevel level

/-- The pipeline that a settings file and a level call for. -/
def pipelineOf (fs : FileSystem) (path level : String) : Except Failure Pipeline := do
  let s ← loadWithLevel fs path level
  match s.build with
  | .ok p => return p
  | .error e => throw (.fault e)

/-- Writes settings to a file and makes the directory it is in. -/
def save (s : Settings) (fs : FileSystem) (path : String) : Except Failure FileSystem :=
  let directory := directoryOf path
  let made := if directory = "." then .ok fs else fs.makeDirectories directory
  match made with
  | .error e => .error (.file e)
  | .ok fs => match fs.write path s.encode with
    | .error e => .error (.file e)
    | .ok fs => .ok fs

end ScriptTree.Settings

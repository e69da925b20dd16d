import ScriptTree.Command.Program
import Std.Time.DateTime.Timestamp

/-!
The command: takes the files that a command line speaks of from the disk, runs the tool on them, prints
what it prints and puts the files it wrote back. While it watches, it looks at the settings file twice a
second.
-/

namespace ScriptTree.Disk

/-- The time of day, by hours, minutes and seconds. -/
def timeOfDay : IO String := do
  let now ← Std.Time.Timestamp.now
  let seconds := now.toSecondsSinceUnixEpoch.val.toNat % 86400
  let two (n : Nat) : String := String.ofList (DecimalLayout.pad 2 (Nat.toDigits 10 n))
  return two (seconds / 3600) ++ ":" ++ two (seconds / 60 % 60) ++ ":" ++ two (seconds % 60)

/-- What is at a path on the disk. -/
def probe (path : String) : IO (Option Entry) := do
  try
    let content ← IO.FS.readFile path
    return some (.file content)
  catch _ =>
    try
      let place ← IO.FS.realPath path
      return if ← place.isDir then some .directory else none
    catch _ => return none

/-- The files and directories at these paths and on the way to them. -/
def snapshot (paths : List String) : IO FileSystem := do
  let mut files := FileSystem.empty
  for path in paths.flatMap fun p => FileSystem.ancestors (cleanPath p) do
    let place := (pathComponents path).foldl enter []
    match ← probe path with
    | some (.file content) => files := files.put place content
    | some .directory => files := { files with directories := place :: files.directories }
    | none => pure ()
  return files

def pathOf : Location → String
  | "/" :: rest => "/" ++ "/".intercalate rest
  | place => "/".intercalate place

/-- Puts the files that changed back on the disk. -/
def store (before after : FileSystem) : IO Unit := do
  for (place, content) in after.files do
    if before.entry? place != some (.file content) then
      let path := pathOf place
      IO.FS.createDirAll (directoryOf path)
      IO.FS.writeFile path content

/-- Prints what was printed and stores what was written. -/
def release (before : FileSystem) (printed : Printout) : IO Unit := do
  store before printed.files
  IO.print printed.out
  IO.eprint printed.err

/-- The surroundings of a run that may touch these paths. -/
def surroundings (paths : List String) : IO Surroundings := do
  let files ← snapshot paths
  let environment ← ["SCRIPTOPT_CONFIG", "SCRIPTOPT_LEVEL"].mapM fun name => do
    return (name, (← IO.getEnv name).getD "")
  return ⟨files, environment, ⟨"none", "unknown", "unknown"⟩, ← timeOfDay, durationText 0⟩

/-- Takes up every new content of the settings file, until the tool breaks off. -/
partial def watchSettings (job : Job) (paths : List String) (last : Option Entry) : IO UInt32 := do
  IO.sleep 500
  let content ← probe job.settingsFile
  if content != last && content.isSome then
    let s ← surroundings paths
    let result := job.reload s s.files
    release s.files result.printout
    if result.exitCode ≠ 0 then return result.exitCode.toUInt32
  watchSettings job paths content

/-- Runs the tool on the disk and gives its exit code. -/
def run (commandLine : List String) : IO UInt32 := do
  let bare ← surroundings []
  let paths := match Arguments.parse commandLine with
    | .ok a => bare.paths a
    | .error _ => []
  let s ← surroundings paths
  let result := runTool s commandLine []
  release s.files result.printout
  match start s commandLine with
  | .work job _ =>
    if job.arguments.watch ∧ result.exitCode = 0 then
      return ← watchSettings job paths (← probe job.settingsFile)
  | .answer .. => pure ()
  return result.exitCode.toUInt32

end ScriptTree.Disk

def main (commandLine : List String) : IO UInt32 := ScriptTree.Disk.run commandLine

import ScriptTree.Command.Arguments
import ScriptTree.Command.VersionText
import ScriptTree.Settings.Load

/-!
The tool as a function: from its command line, its environment and the files to what it prints, its
exit code and the files afterwards. While it watches its settings, each new content of the settings
file is a further step.
-/

namespace ScriptTree

/-- What surrounds a run of the tool: its files, its environment, and the texts that depend on clock and
machine. -/
structure Surroundings where
  files : FileSystem
  environment : List (String × String)
  platform : BuildPlatform
  clock : String
  elapsed : String

namespace Surroundings

/-- The value of a variable; an empty one counts as absent. -/
def lookup (s : Surroundings) (name : String) : Option String :=
  match s.environment.lookup name with
  | some "" => none
  | v => v

/-- The settings file that a command line means. -/
def settingsFile (s : Surroundings) (a : Arguments) : String :=
  a.settingsFile.getD ((s.lookup "SCRIPTOPT_CONFIG").getD "scriptopt.json")

/-- The level that a command line asks for; empty if it asks for none. -/
def level (s : Surroundings) (a : Arguments) : String := a.level.getD ((s.lookup "SCRIPTOPT_LEVEL").getD "")

/-- The paths that a command line may read or write. -/
def paths (s : Surroundings) (a : Arguments) : List String :=
  let emitted := if a.emitDirectory = "" then [] else a.files.map fun f => joinPath a.emitDirectory (baseName f)
  s.settingsFile a :: (a.files ++ emitted)

end Surroundings

/-- What a run has printed so far, and the files as it left them. -/
structure Printout where
  out : String
  err : String
  files : FileSystem

/-- The result of a run. -/
structure RunResult where
  exitCode : Nat
  printout : Printout

/-- The text as a line: a line end follows unless the text has one. -/
def asLine (text : String) : String := if text.toList.getLast? = some '\n' then text else text ++ "\n"

def toolName : String := "scriptopt"

def usageLine : String := "Usage: " ++ toolName ++ " [OPTIONS] TREE.json..."

/-- The usage text, with the default number of jobs. -/
def usageText (jobs : Nat) : String :=
  let option (name kind text : String) : String :=
    "  -" ++ name ++ (if kind = "" then "" else " " ++ kind) ++
      (if name.length = 1 ∧ kind = "" then "\t" else "\n    \t") ++ text ++ "\n"
  usageLine ++ "\n\nOptimizes syntax trees produced by the script parser.\n\nOPTIONS:\n" ++
    option "O" "string"
      "optimization level (none, basic, default, aggressive or 0-3); overrides the config file" ++
    option "config" "string" "configuration file path (default \"scriptopt.json\")" ++
    option "emit" "string" "write optimized trees as JSON into this directory" ++
    option "j" "int" ("number of files optimized in parallel (default " ++ toString jobs ++ ")") ++
    option "json" "" "output version in JSON format" ++
    option "run" "" "execute each optimized tree and print its result" ++
    option "stats" "" "print rewrite statistics" ++
    option "v" "" "verbose output" ++
    option "version" "" "show version information" ++
    option "watch" "" "re-optimize whenever the config file changes" ++
    "\nENVIRONMENT:\n  SCRIPTOPT_CONFIG   default for -config\n  SCRIPTOPT_LEVEL    default for -O\n" ++
    "\nEXAMPLES:\n  " ++ toolName ++ " -O aggressive -run main.json     # Optimize and execute\n  " ++
    toolName ++ " -emit out -stats *.json          # Write optimized trees\n"

/-- What the tool works on: the files named, how, and with what settings. -/
structure Job where
  arguments : Arguments
  settingsFile : String
  level : String
  log : Log
  options : BatchOptions

namespace Job

/-- The names of passes in brackets. -/
def passList (p : Pipeline) : String := "[" ++ " ".intercalate p.names ++ "]"

/-- Works through the files with a pipeline: what is printed and logged, and the failure if there is
one. -/
def process (j : Job) (s : Surroundings) (fs : FileSystem) (pipeline : Pipeline) :
    Option Failure × Printout :=
  let outcome := Batch.run pipeline j.options fs j.arguments.files
  let trace := String.join (outcome.trace.map (j.log.line s.clock .debug))
  match outcome.result with
  | .ok text => (none, ⟨text, trace, outcome.files⟩)
  | .error e => (some e, ⟨outcome.spilled, trace, outcome.files⟩)

/-- What a failure does to a tool that watches: it is logged, and the tool goes on unless it breaks off.
-/
def survive (j : Job) (s : Surroundings) : Option Failure → Nat × String
  | none => (0, "")
  | some e => match e.crash? with
    | some text => (2, text)
    | none => (0, j.log.line s.clock .error e.message)

/-- What happens when the settings file has a new content. Settings that cannot be used are reported
and change nothing. The file that is watched goes by its clean path. -/
def reload (j : Job) (s : Surroundings) (fs : FileSystem) : RunResult :=
  let refuse (severity : Severity) (text : String) : RunResult :=
    ⟨0, ⟨"", j.log.line s.clock severity text, fs⟩⟩
  match Settings.pipelineOf fs (cleanPath j.settingsFile) "" with
  | .error e => refuse .warn ("config: " ++ e.message)
  | .ok reloaded =>
    let chosen := if j.level = "" then .ok reloaded else Settings.pipelineOf fs j.settingsFile j.level
    match chosen with
    | .error e => refuse .error e.message
    | .ok pipeline =>
      let note := j.log.line s.clock .info ("config reloaded, passes: " ++ passList pipeline)
      let (failure, printed) := j.process s fs pipeline
      let (code, trouble) := j.survive s failure
      ⟨code, ⟨printed.out, note ++ printed.err ++ trouble, printed.files⟩⟩

/-- The steps of watching: each content in turn is put into the settings file and taken up, unless the
tool breaks off. -/
def watchSteps (j : Job) (s : Surroundings) : RunResult → List String → RunResult
  | done, [] => done
  | done, content :: rest =>
    if done.exitCode ≠ 0 then done
    else
      let fs := done.printout.files.put ((pathComponents j.settingsFile).foldl enter []) content
      let next := j.reload s fs
      watchSteps j s ⟨next.exitCode, ⟨done.printout.out ++ next.printout.out,
        done.printout.err ++ next.printout.err, next.printout.files⟩⟩ rest

end Job

/-- What the command line comes to before any file is worked on: an answer, or a job and the pipeline
to start with. -/
inductive Start where
  | answer (exitCode : Nat) (out err : String)
  | work (job : Job) (pipeline : Pipeline)

/-- Reads the command line and the settings. -/
def start (s : Surroundings) (commandLine : List String) : Start :=
  match Arguments.parse commandLine with
  | .error .help => .answer 0 "" (usageText 1)
  | .error e => .answer 2 "" (e.message ++ "\n" ++ usageText 1)
  | .ok a =>
    if a.version then .answer 0 (s.platform.describe toolName a.json) ""
    else
      let settingsFile := s.settingsFile a
      let level := s.level a
      match validateCount a.files 1 usageLine with
      | .error _ => .answer 2 "" (usageText 1)
      | .ok _ =>
        match Settings.loadWithLevel s.files settingsFile level with
        | .error e => .answer 1 "" ("Error: " ++ e.message ++ "\n")
        | .ok settings =>
          match settings.build with
          | .error e => .answer 1 "" ("Error: " ++ e.message ++ "\n")
          | .ok pipeline =>
            let log := (Log.mk false false false).withLevel ((LogLevel.ofText? settings.logLevel).getD .warn)
            let log := if a.verbose || settings.verbose then { log with verbose := true } else log
            let options : BatchOptions := ⟨a.execute, a.emitDirectory, a.statistics, false, s.elapsed⟩
            .work ⟨a, settingsFile, level, log, options⟩ pipeline

/-- A run of the tool. When it watches its settings, it takes up each of the contents that the
settings file gets, until it is interrupted. -/
def runTool (s : Surroundings) (commandLine : List String) (contents : List String) : RunResult :=
  match start s commandLine with
  | .answer code out err => ⟨code, ⟨out, err, s.files⟩⟩
  | .work job pipeline =>
    let note := job.log.line s.clock .info ("passes: " ++ Job.passList pipeline)
    let (failure, printed) := job.process s s.files pipeline
    let err := note ++ printed.err
    if job.arguments.watch then
      let (code, trouble) := job.survive s failure
      let watching := if code = 0 then job.log.line s.clock .info ("watching " ++ job.settingsFile) else ""
      job.watchSteps s ⟨code, ⟨printed.out, err ++ trouble ++ watching, printed.files⟩⟩ contents
    else match failure with
      | none => ⟨0, ⟨printed.out, err, printed.files⟩⟩
      | some e => match e.crash? with
        | some text => ⟨2, ⟨printed.out, err ++ text, printed.files⟩⟩
        | none => ⟨1, ⟨printed.out, err ++ asLine (toolName ++ ": " ++ e.message), printed.files⟩⟩

end ScriptTree

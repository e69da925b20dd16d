import ScriptTree.Failure
import ScriptTree.Optimize.Tally
import ScriptTree.Tree.Encoding
import ScriptTree.Tree.Outline

/-!
Working through a list of tree files: each is read, walked, written out and run as asked. Results are
printed in the order of the list once all files are done; if one fails, nothing is printed. A tree that lacks
a child which its run asks for breaks off the work: its task counts as done all the same, so that printing may
begin before everything ends.
-/

namespace ScriptTree

/-- What is done with each file. -/
structure BatchOptions where
  execute : Bool
  emitDirectory : String
  statistics : Bool
  coloured : Bool
  time : String
deriving Repr

/-- The result for one file. -/
structure FileReport where
  path : String
  tree : Node
  tally : Tally
  value : Datum

/-- The fuel that a script gets. -/
def scriptFuel : Nat := 1 <<< 50

namespace Batch

def readTree (fs : FileSystem) (path : String) : Except Failure Node :=
  match fs.read path with
  | .ok content => match Node.decodeFirst content with
    | .ok n => .ok n
    | .error e => .error (.ofDecode e)
  | .error e => match e.cause with
    | .isDirectory => .error (.unreadableTreeFile e)
    | _ => .error (.file e)

/-- Writes a tree into a directory, under the name of the file it came from. -/
def emit (fs : FileSystem) (directory path : String) (tree : Node) : Except Failure FileSystem :=
  let target := joinPath directory (baseName path)
  match fs.makeDirectories (directoryOf target) with
  | .error e => .error (.file e)
  | .ok fs => match fs.write target tree.encode with
    | .error e => .error (.file e)
    | .ok fs => .ok fs

/-- Runs a tree in an empty context and gives the datum it yields. -/
def execute (tree : Node) : Except Failure Datum :=
  match tree.eval .silent scriptFuel .empty with
  | (.ok r, c) => .ok (c.read r.value)
  | (.error h, _) => .error ((Failure.ofHalt h).labelled "run")

/-- What came of one file. -/
structure FileOutcome where
  result : Except Failure FileReport
  trace : List String
  files : FileSystem

/-- Works on one file. -/
def processFile (pipeline : Pipeline) (options : BatchOptions) (fs : FileSystem) (path : String) :
    FileOutcome :=
  match readTree fs path with
  | .error e => ⟨.error e, [], fs⟩
  | .ok tree =>
    let walked := pipeline.walk tree
    let trace := walked.steps.map Step.describe
    let written := if options.emitDirectory = "" then .ok fs else emit fs options.emitDirectory path walked.tree
    match written with
    | .error e => ⟨.error e, trace, fs⟩
    | .ok fs =>
      let value := if options.execute then execute walked.tree else .ok .undefined
      match value with
      | .error e => ⟨.error e, trace, fs⟩
      | .ok d => ⟨.ok ⟨path, walked.tree, .ofWalked walked, d⟩, trace, fs⟩

/-- A heading, in bold on a terminal. -/
def heading (options : BatchOptions) (text : String) : String :=
  if options.coloured then "\x1b[1m" ++ text ++ "\x1b[0m" else text

/-- The texts printed for one file, a write each. A file whose tree broke off while it ran has no report; a blank
one is printed if there is time. -/
def reportTexts (options : BatchOptions) : Option FileReport → List String
  | some r =>
    (heading options (r.path ++ ":") ++ "\n") ::
      (if options.execute then ["  result: " ++ r.value.toText ++ "\n"]
        else if options.emitDirectory = "" then r.tree.outline
        else []) ++
      (if options.statistics then ["  " ++ r.tally.describeWith options.time ++ "\n"] else [])
  | none =>
    (heading options ":" ++ "\n") ::
      (if options.execute then ["  result: " ++ Datum.undefined.toText ++ "\n"] else []) ++
      (if options.statistics then ["  <nil>\n"] else [])

/-- The texts printed for all files. -/
def texts (options : BatchOptions) (reports : List (Option FileReport)) : List String :=
  let total := reports.reduceOption.foldl (fun t r => t.add r.tally) Tally.empty
  reports.flatMap (reportTexts options) ++
    (if options.statistics && reports.length > 1 then
      [heading options "total:" ++ " " ++ total.describeWith options.time ++ "\n"]
    else [])

/-- How far the work on a list of files has come: the files as they are now, the reports by their place
in the list, the trace, and the first failure. -/
structure Progress where
  files : FileSystem
  reports : List (Nat × FileReport)
  trace : List String
  failure : Option Failure

/-- Does the task at a place of the list. A failure after the first one changes nothing; nothing is done after one
that breaks off the work. -/
def Progress.perform (pipeline : Pipeline) (options : BatchOptions) (paths : List String) (p : Progress)
    (i : Nat) : Progress :=
  if (p.failure.bind Failure.crash?).isSome then p
  else match paths[i]? with
    | none => p
    | some path =>
      let done := processFile pipeline options p.files path
      match done.result with
      | .ok report => ⟨done.files, (i, report) :: p.reports, p.trace ++ done.trace, p.failure⟩
      | .error e => ⟨done.files, p.reports, p.trace ++ done.trace, p.failure <|> some (e.labelled path)⟩

/-- The reports in the order of the list. -/
def Progress.results (paths : List String) (p : Progress) : List (Option FileReport) :=
  (List.range paths.length).map (p.reports.lookup ·)

/-- The texts printed although there is a failure. If the work breaks off while other tasks are going on, there are
none. If all others are done, printing races with the end of everything; here one text gets out. -/
def Progress.spilled (options : BatchOptions) (paths : List String) (p : Progress) : List String :=
  if (p.failure.bind Failure.crash?).isSome ∧ p.reports.length + 1 = paths.length then
    (texts options (p.results paths)).take 1
  else []

/-- What came of a list of files: what is printed, or why not all is, and what is printed nevertheless. -/
structure Outcome where
  result : Except Failure String
  spilled : String
  trace : List String
  files : FileSystem

/-- Works through a list of files, doing the tasks in the order of the schedule. Reports are printed in
the order of the list. -/
def runScheduled (pipeline : Pipeline) (options : BatchOptions) (fs : FileSystem) (paths : List String)
    (schedule : List Nat) : Outcome :=
  let done := schedule.foldl (Progress.perform pipeline options paths) ⟨fs, [], [], none⟩
  let result := match done.failure with
    | some e => .error e
    | none => .ok (String.join (texts options (done.results paths)))
  ⟨result, String.join (done.spilled options paths), done.trace, done.files⟩

/-- Works through a list of files in its own order. -/
def run (pipeline : Pipeline) (options : BatchOptions) (fs : FileSystem) (paths : List String) : Outcome :=
  runScheduled pipeline options fs paths (List.range paths.length)

end Batch

end ScriptTree

import ScriptTree.Fault
import ScriptTree.Json.Field
import ScriptTree.Json.Printer
import ScriptTree.Json.Reader
import ScriptTree.Optimize.Pass
import ScriptTree.Settings.Log
import ScriptTree.Settings.Version

/-!
Settings: which passes run, for which version of the language, and what is logged. Settings are read
from a JSON text over the defaults, checked, and turned into a pipeline.
-/

namespace ScriptTree

/-- The settings of the tool. A list of passes takes precedence over the level; an empty one is no
list. -/
structure Settings where
  level : String
  passes : List String
  languageVersion : String
  logLevel : String
  verbose : Bool
deriving DecidableEq, Repr

/-- The first version of the language whose meaning a pass keeps, by the name of the pass. -/
def since? (pass : String) : Option Version :=
  match pass with
  | "return" | "block" | "if" => some ⟨1, 0, 0, "", ""⟩
  | "constant_fold" => some ⟨1, 1, 0, "", ""⟩
  | "for_loop" => some ⟨1, 2, 0, "", ""⟩
  | _ => none

/-- Whether a version of the language supports a pass; a pass without a first version is always
supported. -/
def Version.admits (v : Version) (pass : String) : Bool :=
  match since? pass with
  | some since => v.supports since
  | none => true

/-- Splits passes into those that a version supports and the others, in order. -/
def gate {α : Type} (name : α → String) (passes : List α) (v : Version) : List α × List α :=
  (passes.filter fun p => v.admits (name p), passes.filter fun p => !v.admits (name p))

/-- Splits passes for the version that a text spells. -/
def gateText {α : Type} (name : α → String) (passes : List α) (version : String) :
    Except Fault (List α × List α) :=
  match Version.parse version with
  | .ok v => .ok (gate name passes v)
  | .error e => .error (.invalidSetting "language_version" e.message)

namespace Settings

/-- The settings that hold where nothing is said. -/
def default : Settings := ⟨"default", [], "1.2.0", "warn", false⟩

/-- Checks every field; the first one at fault is reported. -/
def validate (s : Settings) : Except Fault Unit := do
  if (Level.ofText? s.level).isNone then
    throw (.invalidSetting "optimize_level" ("unknown level " ++ Text.quote s.level))
  if let some name := s.passes.find? fun name => (Pass.ofName? name).isNone then
    throw (.invalidSetting "passes" ("unknown pass " ++ Text.quote name))
  if let .error e := Version.parse s.languageVersion then
    throw (.invalidSetting "language_version" e.message)
  if (LogLevel.ofText? s.logLevel).isNone then
    throw (.invalidSetting "log_level" (LogLevel.unknownMessage s.logLevel))

/-- Settings while they are read, with the places of the list of passes. -/
structure Draft where
  settings : Settings
  passes : Json.Slots String

/-- Takes one member. -/
def Draft.take (d : Draft) (key : String) (v : Json) : Option Draft :=
  let s := d.settings
  if Json.names "optimize_level" key then
    (Json.intoText s.level v).map fun x => { d with settings := { s with level := x } }
  else if Json.names "passes" key then
    (Json.intoTextList d.passes v).map fun x => { d with passes := x }
  else if Json.names "language_version" key then
    (Json.intoText s.languageVersion v).map fun x =>
      { d with settings := { s with languageVersion := x } }
  else if Json.names "log_level" key then
    (Json.intoText s.logLevel v).map fun x => { d with settings := { s with logLevel := x } }
  else if Json.names "verbose" key then
    (Json.intoBool s.verbose v).map fun x => { d with settings := { s with verbose := x } }
  else some d

/-- Takes the members of settings over the defaults. -/
def ofJson : Json → Option Settings
  | .null => some default
  | .obj members => do
    let d ← members.foldlM (fun (d : Draft) (key, v) => d.take key v) ⟨default, .empty⟩
    return { d.settings with passes := d.passes.items }
  | _ => none

def parse (text : String) : Except Fault Settings :=
  match (Json.parse text).bind ofJson with
  | none => .error .unreadableSettings
  | some s => match s.validate with
    | .ok _ => .ok s
    | .error e => .error e

def toJson (s : Settings) : Json :=
  .obj ([("optimize_level", .str s.level)] ++
    (if s.passes.isEmpty then [] else [("passes", .arr (s.passes.map .str))]) ++
    [("language_version", .str s.languageVersion), ("log_level", .str s.logLevel),
      ("verbose", .bool s.verbose)])

/-- The text of a settings file. -/
def encode (s : Settings) : String := s.toJson.pretty ++ "\n"

/-- The level of the settings; none if the text names no level. -/
def parsedLevel (s : Settings) : Level := (Level.ofText? s.level).getD .none

/-- The passes that the settings ask for, whatever the version of the language. -/
def requested (s : Settings) : Pipeline :=
  if s.passes.isEmpty then .ofLevel s.parsedLevel else s.passes.filterMap Pass.ofName?

/-- The pipeline of the settings: the passes asked for, without those that are newer than the version
of the language. -/
def build (s : Settings) : Except Fault Pipeline := do
  s.validate
  let (kept, _) ← gateText Pass.name s.requested s.languageVersion
  return kept

def describe (s : Settings) : String :=
  "Optimize Level: " ++ s.level ++ "\n" ++
    (if s.passes.isEmpty then "" else "Passes: " ++ ", ".intercalate s.passes ++ "\n") ++
    "Language Version: " ++ s.languageVersion ++ "\n" ++ "Log Level: " ++ s.logLevel ++ "\n"

/-- The settings with another level in the place of their level and their list of passes. -/
def withLevel (s : Settings) (level : String) : Settings := { s with level := level, passes := [] }

end Settings

end ScriptTree

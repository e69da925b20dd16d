import ScriptTree.Text.Quoted
import ScriptTree.Text.Words

/-!
Log lines: a tag for the severity, the time of day and the message. Warnings and errors are always
written, information and traces only if the log is set to show them.
-/

namespace ScriptTree

/-- How much a log shows. -/
inductive LogLevel where
  | warn
  | info
  | debug
deriving DecidableEq, Repr

namespace LogLevel

def all : List LogLevel := [.warn, .info, .debug]

/-- The name of a level. -/
def name : LogLevel → String
  | .warn => "warn"
  | .info => "info"
  | .debug => "debug"

def ofText? (text : String) : Option LogLevel := all.find? (·.name == Text.lower text)

/-- What is said of a text that names no level. -/
def unknownMessage (text : String) : String :=
  "unknown log level " ++ Text.quote text ++ " (want one of " ++ ", ".intercalate (all.map name) ++ ")"

end LogLevel

/-- How serious a message is. -/
inductive Severity where
  | info
  | debug
  | warn
  | error
deriving DecidableEq, Repr

namespace Severity

def tag : Severity → String
  | .info => "[INFO]"
  | .debug => "[DEBUG]"
  | .warn => "[WARN]"
  | .error => "[ERROR]"

/-- The terminal code of the tag's colour. -/
def colour : Severity → String
  | .info => "\x1b[36m"
  | .debug => "\x1b[90m"
  | .warn => "\x1b[33m"
  | .error => "\x1b[31m"

end Severity

/-- A log: what it shows, and whether tags are coloured. -/
structure Log where
  verbose : Bool
  trace : Bool
  coloured : Bool
deriving DecidableEq, Repr

namespace Log

def withLevel (l : Log) : LogLevel → Log
  | .warn => { l with verbose := false, trace := false }
  | .info => { l with verbose := true, trace := false }
  | .debug => { l with verbose := true, trace := true }

/-- Whether messages of a severity are written. -/
def shows (l : Log) : Severity → Bool
  | .info => l.verbose
  | .debug => l.trace
  | .warn | .error => true

/-- What a message adds to the log at a time of day. -/
def line (l : Log) (time : String) (s : Severity) (message : String) : String :=
  if l.shows s then
    let tag := if l.coloured then s.colour ++ s.tag ++ "\x1b[0m" else s.tag
    tag ++ " " ++ time ++ ": " ++ message ++ "\n"
  else ""

end Log

end ScriptTree

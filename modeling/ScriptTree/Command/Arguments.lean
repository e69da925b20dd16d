import ScriptTree.Text.Quoted

/-!
The command line: options with one or two dashes, in the forms `-x`, `-x value` and `-x=value`, up to
the first argument that is no option or up to `--`; then the files.
-/

namespace ScriptTree

/-- What the command line asks for. A setting is absent if its option was not given. -/
structure Arguments where
  version : Bool
  json : Bool
  settingsFile : Option String
  level : Option String
  jobs : Option Int
  execute : Bool
  emitDirectory : String
  watch : Bool
  statistics : Bool
  verbose : Bool
  files : List String
deriving DecidableEq, Repr

/-- Why a command line is refused; asking for help stops the reading too. -/
inductive ArgumentError where
  | help
  | badForm (argument : String)
  | undefined (name : String)
  | missingValue (name : String)
  | badValue (value name reason : String)
  | badBool (value name : String)
deriving DecidableEq, Repr

def ArgumentError.message : ArgumentError → String
  | .help => ""
  | .badForm argument => "bad flag syntax: " ++ argument
  | .undefined name => "flag provided but not defined: -" ++ name
  | .missingValue name => "flag needs an argument: -" ++ name
  | .badValue value name reason =>
    "invalid value " ++ Text.quote value ++ " for flag -" ++ name ++ ": " ++ reason
  | .badBool value name => "invalid boolean value " ++ Text.quote value ++ " for -" ++ name ++ ": parse error"

/-- Why a text is not a whole number. -/
inductive NumberError where
  | malformed
  | outOfRange
deriving DecidableEq, Repr

def NumberError.message : NumberError → String
  | .malformed => "parse error"
  | .outOfRange => "value out of range"

namespace WholeNumber

/-- The value of a digit in some base. -/
def digit? (c : Char) : Option Nat :=
  if c.isDigit then some (c.toNat - 48)
  else if c.isLower then some (c.toNat - 87)
  else if c.isUpper then some (c.toNat - 55)
  else none

/-- The base that a text announces, and the digits after the announcement. -/
def base : List Char → Nat × List Char
  | '0' :: mark :: d :: rest =>
    match mark.toLower with
    | 'b' => (2, d :: rest)
    | 'o' => (8, d :: rest)
    | 'x' => (16, d :: rest)
    | _ => (8, mark :: d :: rest)
  | '0' :: rest => (8, rest)
  | cs => (10, cs)

/-- Reads digits of 64 bits at most; underscores are passed over. -/
def accumulate (base : Nat) : List Char → Nat → Except NumberError Nat
  | [], n => .ok n
  | c :: cs, n =>
    if c = '_' then accumulate base cs n
    else match digit? c with
      | none => .error .malformed
      | some d =>
        if base ≤ d then .error .malformed
        else if UInt64.size ≤ n * base + d then .error .outOfRange
        else accumulate base cs (n * base + d)

/-- Whether each underscore stands between digits; an announced base counts as a digit. -/
def underscoresFit (cs : List Char) : Bool :=
  let (announced, digits) := match cs with
    | '0' :: mark :: rest =>
      if mark.toLower = 'b' ∨ mark.toLower = 'o' ∨ mark.toLower = 'x' then (true, rest) else (false, cs)
    | cs => (false, cs)
  let rec fits : Bool → List Char → Bool
    | _, [] => true
    | afterDigit, '_' :: rest => afterDigit && !rest.isEmpty && rest.head? != some '_' && fits false rest
    | _, _ :: rest => fits true rest
  fits announced digits

/-- The whole number of 64 bits that a text spells, in decimal or in an announced base. -/
def parse (text : String) : Except NumberError Int := do
  let (negative, cs) : Bool × List Char := match text.toList with
    | '-' :: rest => (true, rest)
    | '+' :: rest => (false, rest)
    | cs => (false, cs)
  if cs.isEmpty then throw .malformed
  let (b, digits) := base cs
  let n ← accumulate b digits 0
  if digits.contains '_' ∧ !underscoresFit cs then throw .malformed
  let value : Int := if negative then -n else n
  if value < Int64.minValue.toInt ∨ Int64.maxValue.toInt < value then throw .outOfRange
  return value

end WholeNumber

/-- The truth value that a text spells. -/
def boolOfText? (text : String) : Option Bool :=
  if ["1", "t", "T", "TRUE", "true", "True"].contains text then some true
  else if ["0", "f", "F", "FALSE", "false", "False"].contains text then some false
  else none

namespace Arguments

/-- A command line without options and files. -/
def none : Arguments := ⟨false, false, .none, .none, .none, false, "", false, false, false, []⟩

def setSwitch? (a : Arguments) (name : String) (on : Bool) : Option Arguments :=
  match name with
  | "version" => some { a with version := on }
  | "json" => some { a with json := on }
  | "run" => some { a with execute := on }
  | "watch" => some { a with watch := on }
  | "stats" => some { a with statistics := on }
  | "v" => some { a with verbose := on }
  | _ => Option.none

def setValue? (a : Arguments) (name value : String) : Option (Except ArgumentError Arguments) :=
  match name with
  | "config" => some (.ok { a with settingsFile := some value })
  | "O" => some (.ok { a with level := some value })
  | "emit" => some (.ok { a with emitDirectory := value })
  | "j" => match WholeNumber.parse value with
    | .ok n => some (.ok { a with jobs := some n })
    | .error e => some (.error (.badValue value name e.message))
  | _ => Option.none

/-- An option as it is written: its name and the value after an equals sign. -/
def option? (argument : String) : Option (Except ArgumentError (String × Option String)) :=
  let dashed : Option (List Char) := match argument.toList with
    | '-' :: '-' :: rest => some rest
    | '-' :: c :: rest => some (c :: rest)
    | _ => Option.none
  dashed.map fun cs => match cs with
    | [] => .error (.badForm argument)
    | c :: rest =>
      if c = '-' ∨ c = '=' then .error (.badForm argument)
      else
        let name := String.ofList (c :: rest.takeWhile (· != '='))
        let value := match rest.dropWhile (· != '=') with
          | _ :: v => some (String.ofList v)
          | [] => Option.none
        .ok (name, value)

/-- Reads a command line. -/
def parseFrom (a : Arguments) : List String → Except ArgumentError Arguments
  | [] => .ok a
  | "--" :: rest => .ok { a with files := rest }
  | argument :: rest =>
    match option? argument with
    | .none => .ok { a with files := argument :: rest }
    | some (.error e) => .error e
    | some (.ok (name, value)) =>
      match a.setSwitch? name true with
      | some on => match value with
        | .none => parseFrom on rest
        | some text => match boolOfText? text with
          | some b => parseFrom ((a.setSwitch? name b).getD a) rest
          | .none => .error (.badBool text name)
      | .none =>
        if name = "help" ∨ name = "h" then .error .help
        else if (a.setValue? name "").isNone then .error (.undefined name)
        else match value, rest with
          | some text, rest => match a.setValue? name text with
            | some (.ok a) => parseFrom a rest
            | some (.error e) => .error e
            | .none => .error (.undefined name)
          | .none, text :: rest => match a.setValue? name text with
            | some (.ok a) => parseFrom a rest
            | some (.error e) => .error e
            | .none => .error (.undefined name)
          | .none, [] => .error (.missingValue name)

/-- What a command line asks for. -/
def parse (arguments : List String) : Except ArgumentError Arguments := parseFrom none arguments

end Arguments

/-- What is said when there are too few arguments. -/
def validateCount (arguments : List String) (least : Int) (usage : String) : Except String Unit :=
  if (arguments.length : Int) < least then .error ("insufficient arguments\nUsage: " ++ usage) else .ok ()

end ScriptTree

import ScriptTree.Floating.Decimal
import ScriptTree.Text.Quoted

/-!
Versions of the script language: up to three numbers, an optional pre-release part and optional build
metadata. Numbers that are left out are zero.

The tool leaves versions to a library for semantic versioning, of which it uses the parser and the constraint `>=`.
`Version.parse` and `Version.supports` stand for these two. Of the parser it is assumed that one and the same reads the
version of the settings and the first versions of the passes; of the constraint, that `>= s` holds of a version exactly
if that has no pre-release part and does not come before `s`. What is proved about settings rests on this.
-/

namespace ScriptTree

/-- A language version. A release has no pre-release part. -/
structure Version where
  major : Nat
  minor : Nat
  patch : Nat
  preRelease : String
  metadata : String
deriving DecidableEq, Repr

/-- Why a text is not a version. -/
inductive VersionError where
  | invalid
  | outOfRange (digits : String)
  | leadingZero
deriving DecidableEq, Repr

def VersionError.message : VersionError → String
  | .invalid => "Invalid Semantic Version"
  | .outOfRange digits =>
    "Error parsing version segment: strconv.ParseUint: parsing " ++ Text.quote digits ++
      ": value out of range"
  | .leadingZero => "Version segment starts with 0"

namespace Version

/-- A character of an identifier in a pre-release part or metadata. -/
def isIdentifierChar (c : Char) : Bool := c.isDigit || c.isAlpha || c == '-'

def segments (cs : List Char) : List (List Char) := cs.splitOn '.'

/-- Whether the text is a sequence of identifiers with dots between them. -/
def areIdentifiers (cs : List Char) : Bool :=
  (segments cs).all fun s => !s.isEmpty && s.all isIdentifierChar

/-- One number of a version; it must fit 64 bits. -/
def segment (ds : List Char) : Except VersionError Nat :=
  let n := Decimal.digitsValue ds
  if n < UInt64.size then .ok n else .error (.outOfRange (String.ofList ds))

/-- Whether an identifier is a number written with a leading zero. -/
def hasLeadingZero (cs : List Char) : Bool := cs.all Char.isDigit && cs.length > 1 && cs.head? == some '0'

/-- The version that a text spells, as the library's parser reads it. -/
def parse (text : String) : Except VersionError Version :=
  let cs := match text.toList with
    | 'v' :: rest => rest
    | cs => cs
  let core := cs.takeWhile fun c => c != '-' && c != '+'
  let rest := cs.dropWhile fun c => c != '-' && c != '+'
  let pre := match rest with
    | '-' :: r => some (r.takeWhile (· != '+'))
    | _ => none
  let metadata := match rest.dropWhile (· != '+') with
    | '+' :: r => some r
    | _ => none
  let numbers := segments core
  let wellFormed := numbers.length ≤ 3 && numbers.all (fun s => !s.isEmpty && s.all Char.isDigit) &&
    pre.all areIdentifiers && metadata.all areIdentifiers
  if !wellFormed then .error .invalid
  else do
    let values ← numbers.mapM segment
    let pre := pre.getD []
    if (segments pre).any hasLeadingZero then .error .leadingZero
    else
      return ⟨values.getD 0 0, values.getD 1 0, values.getD 2 0, String.ofList pre,
        String.ofList (metadata.getD [])⟩

def isRelease (v : Version) : Bool := v.preRelease == ""

/-- The order of releases: by major, minor and patch number. -/
def releaseLE (v w : Version) : Bool :=
  if v.major ≠ w.major then v.major < w.major
  else if v.minor ≠ w.minor then v.minor < w.minor
  else v.patch ≤ w.patch

/-- Whether the version is a release not before the one given, which is what the library takes the constraint `>=`
for. A pre-release supports nothing that has a first version. -/
def supports (v since : Version) : Bool := v.isRelease && since.releaseLE v

end Version

end ScriptTree

import ScriptTree.Json.Basic

/-!
Reading JSON text, strictly: no comments, no trailing commas, no control characters inside strings.

Each reader takes the characters left and gives a result with the characters after it. The nesting
limit is the measure of the recursion: an array or object reads its parts with one level less.
-/

namespace ScriptTree.Json

/-- A reader of something at the front of the text. -/
abbrev Reader (α : Type) := List Char → Option (α × List Char)

/-- The text after white space. -/
def skipSpace (cs : List Char) : List Char := cs.dropWhile isSpace

/-- A part of a string: a character, or an escaped UTF-16 unit. -/
inductive Piece where
  | char (c : Char)
  | unit (n : Nat)

def hexValue? (c : Char) : Option Nat :=
  if c.isDigit then some (c.toNat - 48)
  else if 'a' ≤ c ∧ c ≤ 'f' then some (c.toNat - 87)
  else if 'A' ≤ c ∧ c ≤ 'F' then some (c.toNat - 55)
  else none

/-- The unit that four hexadecimal digits stand for. -/
def unit? (a b c d : Char) : Option Nat := do
  let a ← hexValue? a
  let b ← hexValue? b
  let c ← hexValue? c
  let d ← hexValue? d
  return ((a * 16 + b) * 16 + c) * 16 + d

/-- The character that a one-letter escape stands for. -/
def escaped? : Char → Option Char
  | '"' => some '"'
  | '\\' => some '\\'
  | '/' => some '/'
  | 'b' => some '\x08'
  | 'f' => some '\x0c'
  | 'n' => some '\n'
  | 'r' => some '\r'
  | 't' => some '\t'
  | _ => none

/-- The pieces of a string up to its closing quote. -/
def pieces : List Char → Option (List Piece × List Char)
  | [] => none
  | '"' :: rest => some ([], rest)
  | '\\' :: 'u' :: a :: b :: c :: d :: rest => do
    let n ← unit? a b c d
    let (ps, rest) ← pieces rest
    return (.unit n :: ps, rest)
  | '\\' :: e :: rest => do
    let c ← escaped? e
    let (ps, rest) ← pieces rest
    return (.char c :: ps, rest)
  | c :: rest =>
    if c.toNat < 0x20 || c == '\\' then none
    else do
      let (ps, rest) ← pieces rest
      return (.char c :: ps, rest)

/-- Whether a unit is the first half of a pair. -/
def isHigh (n : Nat) : Bool := 0xd800 ≤ n && n < 0xdc00

/-- Whether a unit is the second half of a pair. -/
def isLow (n : Nat) : Bool := 0xdc00 ≤ n && n < 0xe000

/-- The character of a unit that stands alone; half a pair becomes the replacement character. -/
def loneUnit (n : Nat) : Char := if isHigh n || isLow n then '\ufffd' else Char.ofNat n

/-- Joins the pieces, two units to one character where they are a pair. -/
def joinPieces : List Piece → List Char
  | [] => []
  | .char c :: rest => c :: joinPieces rest
  | .unit a :: .unit b :: rest =>
    if isHigh a && isLow b then
      Char.ofNat (0x10000 + (a - 0xd800) * 0x400 + (b - 0xdc00)) :: joinPieces rest
    else loneUnit a :: joinPieces (.unit b :: rest)
  | .unit a :: rest => loneUnit a :: joinPieces rest

/-- The rest of a string, after its opening quote. -/
def stringTail : Reader String := fun cs => do
  let (ps, rest) ← pieces cs
  return (String.ofList (joinPieces ps), rest)

def digits (cs : List Char) : List Char × List Char := (cs.takeWhile Char.isDigit, cs.dropWhile Char.isDigit)

/-- The whole part of a number: no digit follows a leading zero. -/
def wholePart : Reader (List Char) := fun cs =>
  match digits cs with
  | ([], _) => none
  | ('0' :: _ :: _, _) => none
  | (ds, rest) => some (ds, rest)

def fractionPart : Reader (List Char)
  | '.' :: cs => match digits cs with
    | ([], _) => none
    | (ds, rest) => some ('.' :: ds, rest)
  | cs => some ([], cs)

def exponentPart : Reader (List Char)
  | [] => some ([], [])
  | c :: cs =>
    if c = 'e' ∨ c = 'E' then
      let (sign, cs) : List Char × List Char := match cs with
        | '+' :: r => (['+'], r)
        | '-' :: r => (['-'], r)
        | r => ([], r)
      match digits cs with
      | ([], _) => none
      | (ds, rest) => some (c :: (sign ++ ds), rest)
    else some ([], c :: cs)

/-- A number, as it is spelled. -/
def number : Reader String := fun cs => do
  let (sign, cs) : List Char × List Char := match cs with
    | '-' :: r => (['-'], r)
    | r => ([], r)
  let (whole, cs) ← wholePart cs
  let (fraction, cs) ← fractionPart cs
  let (exponent, cs) ← exponentPart cs
  return (String.ofList (sign ++ whole ++ fraction ++ exponent), cs)

/-- A value without parts. -/
def scalar : Reader Json
  | 'n' :: 'u' :: 'l' :: 'l' :: rest => some (.null, rest)
  | 't' :: 'r' :: 'u' :: 'e' :: rest => some (.bool true, rest)
  | 'f' :: 'a' :: 'l' :: 's' :: 'e' :: rest => some (.bool false, rest)
  | '"' :: rest => (stringTail rest).map fun (s, rest) => (.str s, rest)
  | cs => (number cs).map fun (n, rest) => (.num n, rest)

/-- Items up to the closing mark, separated by commas; there is at least one. -/
def separated {α : Type} (item : Reader α) (close : Char) : Nat → Reader (List α)
  | 0, _ => none
  | fuel + 1, cs => do
    let (first, rest) ← item cs
    match skipSpace rest with
    | [] => none
    | c :: rest =>
      if c = close then return ([first], rest)
      else if c = ',' then do
        let (others, rest) ← separated item close fuel rest
        return (first :: others, rest)
      else none

/-- What stands between an opening mark and its closing mark. -/
def enclosed {α : Type} (item : Reader α) (close : Char) (fuel : Nat) : Reader (List α) := fun cs =>
  match skipSpace cs with
  | [] => none
  | c :: rest => if c = close then some ([], rest) else separated item close fuel (c :: rest)

/-- A name, a colon and a value. -/
def member (value : Reader Json) : Reader (String × Json) := fun cs =>
  match skipSpace cs with
  | '"' :: rest => do
    let (name, rest) ← stringTail rest
    match skipSpace rest with
    | ':' :: rest => do
      let (v, rest) ← value rest
      return ((name, v), rest)
    | _ => none
  | _ => none

/-- A value with at most so many levels of nesting; no list in it has more than `fuel` parts. -/
def value (fuel : Nat) : Nat → Reader Json
  | 0, cs => scalar (skipSpace cs)
  | depth + 1, cs =>
    match skipSpace cs with
    | '[' :: rest => (enclosed (value fuel depth) ']' fuel rest).map fun (vs, rest) => (.arr vs, rest)
    | '\x7b' :: rest =>
      (enclosed (member (value fuel depth)) '\x7d' fuel rest).map fun (ms, rest) => (.obj ms, rest)
    | cs => scalar cs

/-- The value at the front of a text and the text after it. -/
def readFirst (cs : List Char) : Option (Json × List Char) := value cs.length nestingLimit cs

/-- The value that a whole text spells. -/
def parse (text : String) : Option Json := do
  let (v, rest) ← readFirst text.toList
  if (skipSpace rest).isEmpty then return v else none

/-- The first value of a text, whatever follows it. -/
def parseFirst (text : String) : Option Json := (readFirst text.toList).map (·.1)

end ScriptTree.Json

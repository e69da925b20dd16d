import ScriptTree.Json.Basic
import ScriptTree.Text.Quoted

/-!
Writing JSON text: one item or member a line, two spaces of indentation a level, a space after each
colon. In strings, the characters that have a meaning in a page of markup are written by their code
as well, so that the text can be embedded there.

Each writer puts its text in front of the text that follows.
-/

namespace ScriptTree.Json

def escapeChar (c : Char) : List Char :=
  match c with
  | '"' => ['\\', '"']
  | '\\' => ['\\', '\\']
  | '\x08' => ['\\', 'b']
  | '\x0c' => ['\\', 'f']
  | '\n' => ['\\', 'n']
  | '\r' => ['\\', 'r']
  | '\t' => ['\\', 't']
  | c =>
    if c.toNat < 0x20 || c == '<' || c == '>' || c == '&' || c == '\u2028' || c == '\u2029' then
      '\\' :: 'u' :: Text.hex 4 c.toNat
    else [c]

/-- A string in quotes. -/
def writeString (s : String) (tail : List Char) : List Char :=
  '"' :: (s.toList.flatMap escapeChar ++ '"' :: tail)

def newLine (level : Nat) (tail : List Char) : List Char := '\n' :: (List.replicate (2 * level) ' ' ++ tail)

mutual

/-- A value whose lines after the first are indented by `level`. -/
def write (level : Nat) : Json → List Char → List Char
  | .null, tail => "null".toList ++ tail
  | .bool b, tail => (if b then "true" else "false").toList ++ tail
  | .num literal, tail => literal.toList ++ tail
  | .str s, tail => writeString s tail
  | .arr [], tail => '[' :: ']' :: tail
  | .arr (v :: vs), tail =>
    '[' :: newLine (level + 1) (write (level + 1) v (writeItems (level + 1) vs
      (newLine level (']' :: tail))))
  | .obj [], tail => '\x7b' :: '\x7d' :: tail
  | .obj (m :: ms), tail =>
    '\x7b' :: newLine (level + 1) (writeString m.1 (':' :: ' ' :: write (level + 1) m.2
      (writeMembers (level + 1) ms (newLine level ('\x7d' :: tail)))))

/-- The items after the first. -/
def writeItems (level : Nat) : List Json → List Char → List Char
  | [], tail => tail
  | v :: vs, tail => ',' :: newLine level (write level v (writeItems level vs tail))

/-- The members after the first. -/
def writeMembers (level : Nat) : List (String × Json) → List Char → List Char
  | [], tail => tail
  | m :: ms, tail =>
    ',' :: newLine level (writeString m.1 (':' :: ' ' :: write level m.2 (writeMembers level ms tail)))

end

def pretty (v : Json) : String := String.ofList (write 0 v [])

end ScriptTree.Json

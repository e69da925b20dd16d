/-!
Places in script text. A position is a file, a line and a column, ordered in that sequence; a span
runs from one position to another. `Span.union` joins spans of one file; a span that names no place
adds nothing to a union.
-/

namespace ScriptTree

/-- The last component of a path. Slashes at the end do not count, and a path of slashes only is the
root. -/
def baseName (path : String) : String :=
  let reversed := path.toList.reverse
  let trimmed := reversed.dropWhile (· == '/')
  if reversed.isEmpty then "."
  else if trimmed.isEmpty then "/"
  else String.ofList (trimmed.takeWhile (· != '/')).reverse

/-- A point in a file; lines and columns count from one. -/
structure Position where
  file : String
  line : Int
  column : Int
deriving DecidableEq, Repr, Inhabited

namespace Position

/-- The position that names no place. -/
def unknown : Position := ⟨"", 0, 0⟩

/-- A position names a place if its line and its column are positive. -/
def isValid (p : Position) : Bool := 0 < p.line && 0 < p.column

/-- The order of positions: by file, then by line, then by column. -/
def before (p q : Position) : Bool :=
  if p.file ≠ q.file then p.file < q.file
  else if p.line ≠ q.line then p.line < q.line
  else p.column < q.column

/-- The file's own name in front of line and column, without its directories. -/
def toText (p : Position) : String :=
  let place := toString p.line ++ ":" ++ toString p.column
  if p.file = "" then place else baseName p.file ++ ":" ++ place

end Position

/-- The text between two positions, the end not included. -/
structure Span where
  start : Position
  stop : Position
deriving DecidableEq, Repr, Inhabited

namespace Span

/-- The span that names no place. -/
def unknown : Span := ⟨.unknown, .unknown⟩

/-- The empty span at a position. -/
def point (file : String) (line column : Int) : Span := ⟨⟨file, line, column⟩, ⟨file, line, column⟩⟩

/-- A span is valid if both ends are places of one file and the end does not lie before the start. -/
def isValid (s : Span) : Bool :=
  s.start.isValid && s.stop.isValid && s.start.file == s.stop.file && !s.stop.before s.start

/-- The shortest text that tells the two ends apart. -/
def toText (s : Span) : String :=
  if !s.start.isValid then "<unknown>"
  else if s.start.line = s.stop.line ∧ s.start.column = s.stop.column then s.start.toText
  else
    let file := if s.start.file = "" then "" else baseName s.start.file ++ ":"
    let first := toString s.start.line ++ ":" ++ toString s.start.column
    if s.start.line = s.stop.line then file ++ first ++ "-" ++ toString s.stop.column
    else file ++ first ++ "-" ++ toString s.stop.line ++ ":" ++ toString s.stop.column

/-- The least span that covers both. A span that is not valid adds nothing, and neither does a span
of another file. -/
def union (s t : Span) : Span :=
  if !s.isValid then t
  else if !t.isValid then s
  else if s.start.file ≠ t.start.file then s
  else
    ⟨if t.start.before s.start then t.start else s.start,
      if s.stop.before t.stop then t.stop else s.stop⟩

end Span

end ScriptTree

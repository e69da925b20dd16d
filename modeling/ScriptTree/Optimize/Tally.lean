import ScriptTree.Optimize.Walk

/-!
Statistics of walks: how many nodes were visited, how often each pass took a step, and how long it
took. Tallies are added up; the text of a tally lists the passes by name.
-/

namespace ScriptTree

/-- A length of time in nanoseconds, as text: hours, minutes and seconds, or the largest unit below a
second that fits, with the fraction that is left. -/
def durationText (nanoseconds : Int) : String :=
  let n := nanoseconds.natAbs
  let fraction (rest places : Nat) : String :=
    let ds := Nat.toDigits 10 rest
    let padded := List.replicate (places - ds.length) '0' ++ ds
    let kept := (padded.reverse.dropWhile (· == '0')).reverse
    if kept.isEmpty then "" else "." ++ String.ofList kept
  let microsecond := 1000
  let millisecond := 1000 * microsecond
  let second := 1000 * millisecond
  let minute := 60 * second
  let seconds (n : Nat) : String := toString (n / second) ++ fraction (n % second) 9 ++ "s"
  let text :=
    if n = 0 then "0s"
    else if n < microsecond then toString n ++ "ns"
    else if n < millisecond then toString (n / microsecond) ++ fraction (n % microsecond) 3 ++ "µs"
    else if n < second then toString (n / millisecond) ++ fraction (n % millisecond) 6 ++ "ms"
    else if n < minute then seconds n
    else if n < 60 * minute then toString (n / minute) ++ "m" ++ seconds (n % minute)
    else
      toString (n / (60 * minute)) ++ "h" ++ toString (n / minute % 60) ++ "m" ++ seconds (n % minute)
  if nanoseconds < 0 then "-" ++ text else text

/-- The statistics of one or more walks; counts and times are words of 64 bits. -/
structure Tally where
  visited : Int64
  steps : List (String × Int64)
  nanoseconds : Int64
deriving Repr

namespace Tally

def empty : Tally := ⟨0, [], 0⟩

/-- Adds to the count of a name; the names stay in order, and each occurs once. -/
def addCount (name : String) (n : Int64) : List (String × Int64) → List (String × Int64)
  | [] => [(name, n)]
  | (m, k) :: rest =>
    if m = name then (m, k + n) :: rest
    else if name < m then (name, n) :: (m, k) :: rest
    else (m, k) :: addCount name n rest

def add (s t : Tally) : Tally :=
  ⟨s.visited + t.visited, t.steps.foldl (fun counts (name, n) => addCount name n counts) s.steps,
    s.nanoseconds + t.nanoseconds⟩

/-- The number of steps of all passes. -/
def total (t : Tally) : Int64 := t.steps.foldl (fun n (_, k) => n + k) 0

/-- The statistics of a walk, apart from the time it took. -/
def ofWalked (w : Walked) : Tally :=
  ⟨.ofNat w.visited, w.steps.foldl (fun counts s => addCount s.pass.name 1 counts) [], 0⟩

/-- The tally as text, with the time given as text. -/
def describeWith (t : Tally) (time : String) : String :=
  let counts := t.steps.map fun (name, n) => name ++ "=" ++ toString n.toInt
  "Visited: " ++ toString t.visited.toInt ++ ", Rewritten: " ++ toString t.total.toInt ++ " [" ++
    " ".intercalate counts ++ "], Time: " ++ time

def describe (t : Tally) : String := t.describeWith (durationText t.nanoseconds.toInt)

end Tally

end ScriptTree

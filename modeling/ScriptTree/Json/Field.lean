import ScriptTree.Json.Basic
import ScriptTree.Floating.Decimal
import ScriptTree.Text.Words

/-!
Taking a JSON value into a field that already has a value.

A member that is repeated is taken again, over the value that the first one left. For a text, a
number or a bool that means that the last one counts; `null` leaves the value as it is. A list is
taken item by item over the items that are there: an item that was cut off by a shorter list comes
back under a longer one.
-/

namespace ScriptTree.Json

/-- A name of a member matches a field if it differs from it by case only. -/
def names (field key : String) : Bool := Text.sameFolded field key

def intoText (old : String) : Json → Option String
  | .null => some old
  | .str s => some s
  | _ => none

def intoBool (old : Bool) : Json → Option Bool
  | .null => some old
  | .bool b => some b
  | _ => none

/-- The whole number that a literal without fraction and exponent spells. -/
def wholeNumber? (literal : String) : Option Int :=
  match literal.toList with
  | '-' :: ds => if ds.all Char.isDigit then some (-(Decimal.digitsValue ds)) else none
  | ds => if ds.all Char.isDigit then some (Decimal.digitsValue ds) else none

/-- Takes a whole number of so many bits, sign included. -/
def intoInt (bits : Nat) (old : Int) : Json → Option Int
  | .null => some old
  | .num literal => match wholeNumber? literal with
    | some n =>
      let bound : Int := (1 <<< (bits - 1) : Nat)
      if -bound ≤ n ∧ n < bound then some n else none
    | none => none
  | _ => none

/-- Takes a floating point number; one above the format's range is refused. -/
def intoFloating {f : FloatFormat} (old : Floating f) : Json → Option (Floating f)
  | .null => some old
  | .num literal => match Floating.parse? f literal with
    | some (.finite s n h) => some (.finite s n h)
    | _ => none
  | _ => none

/-- A list with the items that lie hidden behind its end. -/
structure Slots (α : Type) where
  items : List α
  hidden : List α

def Slots.empty {α : Type} : Slots α := ⟨[], []⟩

/-- The slots after a list of `n` items was taken, given all items then. -/
def Slots.cut {α : Type} (n : Nat) (all : List α) : Slots α := ⟨all.take n, all.drop n⟩

/-- Takes texts one by one over a list of texts; a new place holds the empty text. -/
def intoTexts : List Json → List String → Option (List String)
  | [], old => some old
  | v :: vs, old => do
    let first ← intoText (old.headD "") v
    let others ← intoTexts vs (old.drop 1)
    return first :: others

def intoTextList (old : Slots String) : Json → Option (Slots String)
  | .null => some .empty
  | .arr [] => some .empty
  | .arr vs => (intoTexts vs (old.items ++ old.hidden)).map (Slots.cut vs.length)
  | _ => none

end ScriptTree.Json

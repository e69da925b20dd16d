/-!
Binary floating point by exact arithmetic.

Every finite number of a format is a whole multiple of the format's least positive number, its
unit. A finite number is therefore a sign and a count of units, and one count stands for one
number: equality of numbers is equality of counts. Every operation computes its exact result as a
quotient of two natural numbers of units and rounds it once, to the nearest number of the format,
a tie going to the even one (`Floating.round`).
-/

namespace ScriptTree

/-- A binary format: how many bits a significand has, the unit `2 ^ -unitExp`, and by how many bits
the significand of the largest numbers is shifted. -/
structure FloatFormat where
  precision : Nat
  unitExp : Nat
  topShift : Nat
deriving DecidableEq, Repr

namespace FloatFormat

def single : FloatFormat := ⟨24, 149, 253⟩

def double : FloatFormat := ⟨53, 1074, 2045⟩

/-- The largest finite magnitude, in units. -/
def largest (f : FloatFormat) : Nat := ((1 <<< f.precision) - 1) <<< f.topShift

/-- How many units make one. -/
def unitsInOne (f : FloatFormat) : Nat := 1 <<< f.unitExp

/-- How many low bits of a magnitude do not fit the significand. -/
def excess (f : FloatFormat) (units : Nat) : Nat := units.log2 + 1 - f.precision

/-- A magnitude of the format: not above the largest, and zero in the bits that do not fit. -/
def Representable (f : FloatFormat) (units : Nat) : Prop :=
  units ≤ f.largest ∧ units % (1 <<< f.excess units) = 0

instance (f : FloatFormat) (units : Nat) : Decidable (f.Representable units) :=
  inferInstanceAs (Decidable (_ ∧ _))

theorem representable_zero (f : FloatFormat) : f.Representable 0 :=
  ⟨Nat.zero_le _, Nat.zero_mod _⟩

end FloatFormat

/-- The whole number nearest to `num / den`; of two equally near ones, the even one. -/
def nearestEven (num den : Nat) : Nat :=
  let q := num / den
  let r := num % den
  if 2 * r < den ∨ (2 * r = den ∧ q % 2 = 0) then q else q + 1

/-- A number of the format, or one of the values that are none. -/
inductive Floating (f : FloatFormat) where
  | nan
  | infinite (negative : Bool)
  | finite (negative : Bool) (units : Nat) (representable : f.Representable units)
deriving DecidableEq

abbrev Single := Floating .single

abbrev Double := Floating .double

namespace Floating

variable {f : FloatFormat}

def zero (negative : Bool) : Floating f := .finite negative 0 f.representable_zero

instance : Inhabited (Floating f) := ⟨zero false⟩

/-- The number nearest to `num / den` units, as a number of this sign. What rounds above the largest
finite number is infinite. -/
def round (f : FloatFormat) (negative : Bool) (num den : Nat) : Floating f :=
  let shift := f.excess (num / den)
  let units := nearestEven num (den <<< shift) <<< shift
  if h : f.Representable units then .finite negative units h else .infinite negative

/-- The number nearest to a whole number of units; zero has the sign asked for. -/
def roundInt (f : FloatFormat) (zeroNegative : Bool) (units : Int) : Floating f :=
  if units = 0 then zero zeroNegative else round f (units < 0) units.natAbs 1

/-- A sign and a magnitude as one whole number. -/
def signed (negative : Bool) (units : Nat) : Int := if negative then -units else units

def isNaN : Floating f → Bool
  | .nan => true
  | _ => false

/-- The number with the other sign. -/
def neg : Floating f → Floating f
  | .nan => .nan
  | .infinite s => .infinite (!s)
  | .finite s n h => .finite (!s) n h

/-- The rounded sum. A sum that is exactly zero is negative only if both terms are. -/
def add : Floating f → Floating f → Floating f
  | .nan, _ => .nan
  | _, .nan => .nan
  | .infinite s, .infinite t => if s = t then .infinite s else .nan
  | .infinite s, .finite .. => .infinite s
  | .finite .., .infinite t => .infinite t
  | .finite s m _, .finite t n _ => roundInt f (s && t) (signed s m + signed t n)

def sub (x y : Floating f) : Floating f := x.add y.neg

def mul : Floating f → Floating f → Floating f
  | .nan, _ => .nan
  | _, .nan => .nan
  | .infinite s, .infinite t => .infinite (s != t)
  | .infinite s, .finite t n _ => if n = 0 then .nan else .infinite (s != t)
  | .finite s m _, .infinite t => if m = 0 then .nan else .infinite (s != t)
  | .finite s m _, .finite t n _ => round f (s != t) (m * n) f.unitsInOne

def div : Floating f → Floating f → Floating f
  | .nan, _ => .nan
  | _, .nan => .nan
  | .infinite _, .infinite _ => .nan
  | .infinite s, .finite t _ _ => .infinite (s != t)
  | .finite s _ _, .infinite t => zero (s != t)
  | .finite s m _, .finite t n _ =>
    if n = 0 then
      if m = 0 then .nan else .infinite (s != t)
    else round f (s != t) (m * f.unitsInOne) n

/-- How two values compare; nothing compares with a NaN, and the two zeros are equal. -/
def compare? : Floating f → Floating f → Option Ordering
  | .nan, _ => none
  | _, .nan => none
  | .infinite s, .infinite t => some (Ord.compare t s)
  | .infinite s, .finite .. => some (if s then .lt else .gt)
  | .finite .., .infinite t => some (if t then .gt else .lt)
  | .finite s m _, .finite t n _ => some (Ord.compare (signed s m) (signed t n))

/-- Equality of numbers: a NaN differs from everything, itself included. -/
def same (x y : Floating f) : Bool := x.compare? y == some .eq

/-- The number of the format nearest to a whole number. -/
def ofInt (f : FloatFormat) (n : Int) : Floating f := roundInt f false (n * f.unitsInOne)

/-- The whole part of a finite number, dropping the fraction. -/
def truncate? : Floating f → Option Int
  | .finite s n _ => some (signed s (n / f.unitsInOne))
  | _ => none

/-- The nearest number of another format. -/
def cast (g : FloatFormat) : Floating f → Floating g
  | .nan => .nan
  | .infinite s => .infinite s
  | .finite s n _ => round g s (n * g.unitsInOne) f.unitsInOne

end Floating

end ScriptTree

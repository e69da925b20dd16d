import ScriptTree.Floating.Basic

/-!
Decimal text of floating point numbers.

Reading rounds the exact decimal once. Writing chooses the fewest digits that read back as the same
number and, of several such decimals, the nearest (`Floating.shortest`); where the point stands and
when an exponent is written is left to a `DecimalLayout`.
-/

namespace ScriptTree

/-- The magnitude `digits * 10 ^ exponent`. -/
structure Decimal where
  digits : Nat
  exponent : Int
deriving DecidableEq, Repr

namespace Decimal

def tenTo (n : Nat) : Nat := Nat.pow 10 n

/-- Divides out at most `fuel` factors of ten. -/
def dropZeros : Nat → Decimal → Decimal
  | 0, d => d
  | fuel + 1, d =>
    if d.digits ≠ 0 ∧ d.digits % 10 = 0 then dropZeros fuel ⟨d.digits / 10, d.exponent + 1⟩ else d

/-- The same magnitude without trailing zeros among its digits. -/
def normalize (d : Decimal) : Decimal := dropZeros d.digits.log2 d

/-- The magnitude as a quotient of natural numbers. -/
def ratio (d : Decimal) : Nat × Nat :=
  if 0 ≤ d.exponent then (d.digits * tenTo d.exponent.toNat, 1)
  else (d.digits, tenTo (-d.exponent).toNat)

def digitsValue (cs : List Char) : Nat := cs.foldl (fun n c => 10 * n + (c.toNat - 48)) 0

/-- Reads what may follow the significant digits: nothing, or a mark and a signed exponent. -/
def exponent? : List Char → Option Int
  | [] => some 0
  | mark :: rest =>
    if mark ≠ 'e' ∧ mark ≠ 'E' then none
    else
      let (negative, ds) : Bool × List Char := match rest with
        | '-' :: r => (true, r)
        | '+' :: r => (false, r)
        | r => (false, r)
      if ds.isEmpty ∨ !ds.all Char.isDigit then none
      else some (if negative then -(digitsValue ds) else digitsValue ds)

/-- Reads digits with an optional point and an optional exponent. -/
def parse? (cs : List Char) : Option Decimal :=
  let whole := cs.takeWhile Char.isDigit
  let rest := cs.dropWhile Char.isDigit
  let (fraction, rest) : List Char × List Char := match rest with
    | '.' :: r => (r.takeWhile Char.isDigit, r.dropWhile Char.isDigit)
    | r => ([], r)
  if whole.isEmpty ∧ fraction.isEmpty then none
  else (exponent? rest).map fun e => ⟨digitsValue (whole ++ fraction), e - fraction.length⟩

/-- Reads a sign, if there is one, and the magnitude after it. -/
def parseSigned? : List Char → Option (Bool × Decimal)
  | '-' :: cs => (parse? cs).map (true, ·)
  | '+' :: cs => (parse? cs).map (false, ·)
  | cs => (parse? cs).map (false, ·)

end Decimal

namespace Floating

variable {f : FloatFormat}

/-- The number nearest to a decimal. The two outer cases decide magnitudes that are far outside the
format by their size alone, so that no power of ten of that size is ever computed. -/
def ofDecimal (f : FloatFormat) (negative : Bool) (d : Decimal) : Floating f :=
  let size : Int := 3 * d.exponent + d.digits.log2
  if d.digits = 0 then zero negative
  else if 0 ≤ d.exponent ∧ (f.precision + f.topShift : Int) - f.unitExp ≤ size then .infinite negative
  else if d.exponent < 0 ∧ size + 2 < -f.unitExp then zero negative
  else
    let (num, den) := d.ratio
    round f negative (num * f.unitsInOne) den

/-- The two decimals with the last digit at `10 ^ scale` that enclose `num / den`, the nearer one
first and, of two equally near ones, the even one. -/
def neighbours (num den : Nat) (scale : Int) : List Decimal :=
  let (n, d) :=
    if 0 ≤ scale then (num, den * Decimal.tenTo scale.toNat)
    else (num * Decimal.tenTo (-scale).toNat, den)
  let low := n / d
  if nearestEven n d = low then [⟨low, scale⟩, ⟨low + 1, scale⟩] else [⟨low + 1, scale⟩, ⟨low, scale⟩]

/-- The exponent of the leading decimal digit of `num / den`. -/
def leadingExponent (num den : Nat) : Int :=
  let guess := ((num.log2 : Int) - den.log2) * 30103 / 100000
  let reaches (k : Int) : Bool :=
    if 0 ≤ k then den * Decimal.tenTo k.toNat ≤ num else den ≤ num * Decimal.tenTo (-k).toNat
  if reaches (guess + 1) then guess + 1 else if reaches guess then guess else guess - 1

/-- Whether a decimal reads as the number of so many units. -/
def readsAs (f : FloatFormat) (units : Nat) (d : Decimal) : Bool :=
  match ofDecimal f false d with
  | .finite _ n _ => n == units
  | _ => false

/-- The exact decimal of a magnitude. -/
def exactDecimal (f : FloatFormat) (units : Nat) : Decimal := ⟨units * Nat.pow 5 f.unitExp, -f.unitExp⟩

/-- The fewest digits that read back as the magnitude; seventeen suffice for either format. -/
def shortest (f : FloatFormat) (units : Nat) : Decimal :=
  let top := leadingExponent units f.unitsInOne
  let candidates := (List.range 17).flatMap fun n : Nat => neighbours units f.unitsInOne (top - n)
  ((candidates.find? (readsAs f units)).getD (exactDecimal f units)).normalize

end Floating

/-- Where a decimal is written with an exponent: below `leastPlain`, and from `leastScientific`, in
terms of the exponent of its leading digit. `exponentWidth` digits of exponent are written at
least. -/
structure DecimalLayout where
  leastPlain : Int
  leastScientific : Int
  exponentWidth : Nat
deriving Repr

namespace DecimalLayout

/-- Puts zeros in front until the text has the width. -/
def pad (width : Nat) (cs : List Char) : List Char := List.replicate (width - cs.length) '0' ++ cs

/-- One digit, the others after a point, and the exponent with its sign. -/
def scientific (layout : DecimalLayout) (ds : List Char) (lead : Int) : List Char :=
  let fraction := ds.drop 1
  let point := if fraction.isEmpty then [] else ['.']
  let sign := if lead < 0 then '-' else '+'
  ds.take 1 ++ point ++ fraction ++ 'e' :: sign :: pad layout.exponentWidth (Nat.toDigits 10 lead.natAbs)

/-- All digits in their places. -/
def plain (ds : List Char) (exponent lead : Int) : List Char :=
  if 0 ≤ exponent then ds ++ List.replicate exponent.toNat '0'
  else if 0 ≤ lead then ds.take (lead.toNat + 1) ++ '.' :: ds.drop (lead.toNat + 1)
  else '0' :: '.' :: (List.replicate (-lead - 1).toNat '0' ++ ds)

def write (layout : DecimalLayout) (d : Decimal) : List Char :=
  if d.digits = 0 then ['0']
  else
    let ds := Nat.toDigits 10 d.digits
    let lead : Int := d.exponent + ds.length - 1
    if lead < layout.leastPlain ∨ layout.leastScientific ≤ lead then layout.scientific ds lead
    else plain ds d.exponent lead

end DecimalLayout

namespace Floating

variable {f : FloatFormat}

/-- The text of a value in a layout. -/
def toText (layout : DecimalLayout) : Floating f → String
  | .nan => "NaN"
  | .infinite s => if s then "-Inf" else "+Inf"
  | .finite s n _ =>
    let text := layout.write (shortest f n)
    String.ofList (if s then '-' :: text else text)

/-- The values that are spelled as words, in either case; an infinity may have a sign. -/
def ofWord? (text : String) : Option (Floating f) :=
  let word := text.toList.map Char.toLower
  let infinity (w : List Char) : Bool := w == "inf".toList || w == "infinity".toList
  match word with
  | '-' :: w => if infinity w then some (.infinite true) else none
  | '+' :: w => if infinity w then some (.infinite false) else none
  | w => if w == "nan".toList then some .nan else if infinity w then some (.infinite false) else none

/-- The nearest number of a decimal text, or the value of a word. -/
def parse? (f : FloatFormat) (text : String) : Option (Floating f) :=
  match ofWord? text with
  | some x => some x
  | none => (Decimal.parseSigned? text.toList).map fun (s, d) => ofDecimal f s d

end Floating

end ScriptTree

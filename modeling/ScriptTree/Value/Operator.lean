import ScriptTree.Value.Basic

/-!
Numeric operators. Both operands of a binary operator are taken to the higher of their two types.
Integers are two's complement words of 32 or 64 bits, floating point numbers round once per
operation. A comparison gives a bool.
-/

namespace ScriptTree

/-- Operators that compare. -/
inductive Comparison where
  | equal
  | less
  | greater
  | lessEqual
  | greaterEqual
  | notEqual
deriving DecidableEq, Repr

/-- Operators that compute. -/
inductive Arithmetic where
  | sum
  | difference
  | product
  | quotient
  | remainder
  | bitAnd
  | bitOr
  | bitXor
  | shiftLeft
  | shiftRight
deriving DecidableEq, Repr

/-- Operators between two numbers. -/
inductive BinaryOperator where
  | comparison (c : Comparison)
  | arithmetic (a : Arithmetic)
deriving DecidableEq, Repr

/-- Operators in front of a number. -/
inductive UnaryOperator where
  | minus
  | plus
  | complement
deriving DecidableEq, Repr

namespace Comparison

def text : Comparison → String
  | .equal => "=="
  | .less => "<"
  | .greater => ">"
  | .lessEqual => "<="
  | .greaterEqual => ">="
  | .notEqual => "!="

/-- Whether the comparison holds of two values that compare so; values that do not compare are
different and nothing else. -/
def holds : Comparison → Option Ordering → Bool
  | .notEqual, none => true
  | _, none => false
  | .equal, some o => o == .eq
  | .less, some o => o == .lt
  | .greater, some o => o == .gt
  | .lessEqual, some o => o != .gt
  | .greaterEqual, some o => o != .lt
  | .notEqual, some o => o != .eq

end Comparison

namespace Arithmetic

def text : Arithmetic → String
  | .sum => "+"
  | .difference => "-"
  | .product => "*"
  | .quotient => "/"
  | .remainder => "%"
  | .bitAnd => "&"
  | .bitOr => "|"
  | .bitXor => "^"
  | .shiftLeft => "<<"
  | .shiftRight => ">>"

/-- The operator on words. Division truncates toward zero, and a shift by the width or more moves
every bit out. -/
def onWords {w : Nat} (op : Arithmetic) (a b : BitVec w) : Except Fault (BitVec w) :=
  match op with
  | .sum => .ok (a + b)
  | .difference => .ok (a - b)
  | .product => .ok (a * b)
  | .quotient => if b = 0 then .error (.divisionByZero op.text) else .ok (a.sdiv b)
  | .remainder => if b = 0 then .error (.divisionByZero op.text) else .ok (a.srem b)
  | .bitAnd => .ok (a &&& b)
  | .bitOr => .ok (a ||| b)
  | .bitXor => .ok (a ^^^ b)
  | .shiftLeft =>
    if b.msb then .error (.undefinedOperator op.text "negative shift" "")
    else .ok (if b.toNat < w then a <<< b.toNat else 0)
  | .shiftRight =>
    if b.msb then .error (.undefinedOperator op.text "negative shift" "")
    else .ok (a.sshiftRight (min b.toNat w))

/-- The operator on floating point numbers, where it is defined. -/
def onFloating? {f : FloatFormat} (op : Arithmetic) (x y : Floating f) : Option (Floating f) :=
  match op with
  | .sum => some (x.add y)
  | .difference => some (x.sub y)
  | .product => some (x.mul y)
  | .quotient => some (x.div y)
  | _ => none

end Arithmetic

namespace BinaryOperator

def text : BinaryOperator → String
  | .comparison c => c.text
  | .arithmetic a => a.text

/-- Whether the operator gives a bool. -/
def isComparison : BinaryOperator → Bool
  | .comparison _ => true
  | .arithmetic _ => false

def all : List BinaryOperator :=
  [Comparison.equal, .less, .greater, .lessEqual, .greaterEqual, .notEqual].map .comparison ++
    [Arithmetic.sum, .difference, .product, .quotient, .remainder, .bitAnd, .bitOr, .bitXor, .shiftLeft,
      .shiftRight].map .arithmetic

def ofText? (text : String) : Option BinaryOperator := all.find? (·.text == text)

end BinaryOperator

namespace UnaryOperator

def text : UnaryOperator → String
  | .minus => "-"
  | .plus => "+"
  | .complement => "~"

def all : List UnaryOperator := [.minus, .plus, .complement]

def ofText? (text : String) : Option UnaryOperator := all.find? (·.text == text)

/-- The operator on words. -/
def onWord {w : Nat} (op : UnaryOperator) (a : BitVec w) : BitVec w :=
  match op with
  | .minus => -a
  | .plus => a
  | .complement => ~~~a

/-- The operator on floating point numbers, where it is defined. -/
def onFloating? {f : FloatFormat} (op : UnaryOperator) (x : Floating f) : Option (Floating f) :=
  match op with
  | .minus => some x.neg
  | .plus => some x
  | .complement => none

end UnaryOperator

namespace Number

/-- The number as a 64 bit floating point number, rounded if need be. -/
def toDouble : Number → Double
  | .int n => .ofInt .double n.toInt
  | .long n => .ofInt .double n.toInt
  | .float x => x.cast .double
  | .double x => x

/-- The number as a 32 bit floating point number, by way of 64 bits. -/
def toSingle (n : Number) : Single := n.toDouble.cast .single

/-- The whole part, if there is one between the bounds; otherwise the lower bound. -/
def clampedWhole (low high : Int) (x : Double) : Int :=
  match x.truncate? with
  | some n => if low ≤ n ∧ n ≤ high then n else low
  | none => low

/-- The number as a 32 bit integer. A wider integer loses its high bits, a fraction is dropped. -/
def toInt : Number → Int32
  | .int n => n
  | .long n => n.toInt32
  | .float x => .ofInt (clampedWhole Int32.minValue.toInt Int32.maxValue.toInt (x.cast .double))
  | .double x => .ofInt (clampedWhole Int32.minValue.toInt Int32.maxValue.toInt x)

/-- The number as a 64 bit integer; a fraction is dropped. -/
def toLong : Number → Int64
  | .int n => n.toInt64
  | .long n => n
  | .float x => .ofInt (clampedWhole Int64.minValue.toInt Int64.maxValue.toInt (x.cast .double))
  | .double x => .ofInt (clampedWhole Int64.minValue.toInt Int64.maxValue.toInt x)

/-- The number converted to a type. -/
def convert (type : NumericType) (n : Number) : Number :=
  match type with
  | .int => .int n.toInt
  | .long => .long n.toLong
  | .float => .float n.toSingle
  | .double => .double n.toDouble

/-- A number that is converted is of the type it is converted to. -/
theorem type_convert (n : Number) (t : NumericType) : (n.convert t).type = t := by
  cases t <;> rfl

/-- Two numbers of one type. -/
inductive Pair where
  | int (a b : Int32)
  | long (a b : Int64)
  | float (x y : Single)
  | double (x y : Double)

/-- Takes two numbers to the higher of their types. -/
def promote (a b : Number) : Pair :=
  match a.type, b.type with
  | .double, _ | _, .double => .double a.toDouble b.toDouble
  | .float, _ | _, .float => .float a.toSingle b.toSingle
  | .long, _ | _, .long => .long a.toLong b.toLong
  | .int, .int => .int a.toInt b.toInt

/-- How two words compare as signed numbers. -/
def compareWords {w : Nat} (a b : BitVec w) : Ordering := Ord.compare a.toInt b.toInt

/-- The fault of an operator that the promoted type does not have. -/
def noOperator (op : String) (type : NumericType) : Fault := .undefinedOperator op type.name type.name

/-- The operator on the promoted operands. -/
def Pair.binary (op : BinaryOperator) (p : Pair) : Except Fault Datum :=
  match op, p with
  | .comparison c, .int a b => .ok (.bool (c.holds (some (compareWords a.toBitVec b.toBitVec))))
  | .comparison c, .long a b => .ok (.bool (c.holds (some (compareWords a.toBitVec b.toBitVec))))
  | .comparison c, .float x y => .ok (.bool (c.holds (x.compare? y)))
  | .comparison c, .double x y => .ok (.bool (c.holds (x.compare? y)))
  | .arithmetic o, .int a b => do
    let r ← o.onWords a.toBitVec b.toBitVec
    return .number (.int (.ofBitVec r))
  | .arithmetic o, .long a b => do
    let r ← o.onWords a.toBitVec b.toBitVec
    return .number (.long (.ofBitVec r))
  | .arithmetic o, .float x y => match o.onFloating? x y with
    | some r => .ok (.number (.float r))
    | none => .error (noOperator o.text .float)
  | .arithmetic o, .double x y => match o.onFloating? x y with
    | some r => .ok (.number (.double r))
    | none => .error (noOperator o.text .double)

def binary (op : BinaryOperator) (a b : Number) : Except Fault Datum := (promote a b).binary op

def unary (op : UnaryOperator) (n : Number) : Except Fault Datum :=
  match n with
  | .int a => .ok (.number (.int (.ofBitVec (op.onWord a.toBitVec))))
  | .long a => .ok (.number (.long (.ofBitVec (op.onWord a.toBitVec))))
  | .float x => match op.onFloating? x with
    | some r => .ok (.number (.float r))
    | none => .error (.undefinedOperator op.text "float" "")
  | .double x => match op.onFloating? x with
    | some r => .ok (.number (.double r))
    | none => .error (.undefinedOperator op.text "double" "")

end Number

namespace Datum

/-- A binary operator, by its text, on two data; it applies to numbers only. -/
def binary (op : Option BinaryOperator) (lhs rhs : Datum) : Except Fault Datum :=
  match op, lhs, rhs with
  | some op, .number a, .number b => a.binary op b
  | op, lhs, rhs =>
    .error (.undefinedOperator ((op.map (·.text)).getD "invalid") lhs.typeName rhs.typeName)

/-- A unary operator, by its text, on a datum; it applies to numbers only. -/
def unary (op : Option UnaryOperator) (d : Datum) : Except Fault Datum :=
  match op, d with
  | some op, .number n => n.unary op
  | op, d => .error (.undefinedOperator ((op.map (·.text)).getD "invalid") d.typeName "")

/-- The conversion of a name, which is the name of a numeric type, applied to a datum. -/
def convert (name : String) (d : Datum) : Except Fault Datum :=
  match NumericType.ofName? name, d with
  | some type, .number n => .ok (.number (n.convert type))
  | _, d => .error (.badConversion d.typeName name)

end Datum

end ScriptTree

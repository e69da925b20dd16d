import ScriptTree.Floating.Decimal
import ScriptTree.Types.Registry
import ScriptTree.Fault

/-!
Script values.

A `Datum` is a value at rest: what a variable holds, what a call passes and returns. Functions are
named by a reference, to the host or to the table of script functions of one execution, so data are
plain and can be compared. A `Literal` is a value as a constant of a tree holds it and as it is shown
outside: a datum, or an int read through a native reference.
-/

namespace ScriptTree

/-- The types that have a number as value, in order of promotion. -/
inductive NumericType where
  | int
  | long
  | float
  | double
deriving DecidableEq, Repr

/-- A number of one of the numeric types. -/
inductive Number where
  | int (n : Int32)
  | long (n : Int64)
  | float (x : Single)
  | double (x : Double)
deriving DecidableEq

/-- A function of the host; two of them are the same only if their serial numbers agree. -/
structure HostFunction where
  serial : Nat
  name : String
deriving DecidableEq, Repr

/-- A function that a script defined, by its place in the table of functions. -/
structure ScriptReference where
  index : Nat
  name : String
deriving DecidableEq, Repr

/-- A value at rest. -/
inductive Datum where
  | undefined
  | void
  | bool (b : Bool)
  | number (n : Number)
  | string (s : String)
  | host (f : HostFunction)
  | script (f : ScriptReference)
deriving DecidableEq

instance : Inhabited Datum := ⟨.void⟩

/-- A value as it is written and shown. -/
inductive Literal where
  | plain (d : Datum)
  | reference (n : Int32)
deriving DecidableEq

/-- How the script language prints a floating point number: with an exponent below a ten-thousandth
and from a million on. -/
def Value.printed : DecimalLayout := ⟨-4, 6, 2⟩

namespace NumericType

/-- The name of the type, which is also the name of the conversion to it. -/
def name : NumericType → String
  | .int => "int"
  | .long => "long"
  | .float => "float"
  | .double => "double"

def all : List NumericType := [.int, .long, .float, .double]

def ofName? (name : String) : Option NumericType := all.find? (·.name == name)

end NumericType

namespace Number

def type : Number → NumericType
  | .int _ => .int
  | .long _ => .long
  | .float _ => .float
  | .double _ => .double

/-- The number as the script language prints it. -/
def toText : Number → String
  | .int n => toString n.toInt
  | .long n => toString n.toInt
  | .float x => x.toText Value.printed
  | .double x => x.toText Value.printed

/-- Equality of numbers of one type; a NaN differs from itself. -/
def same : Number → Number → Bool
  | .int a, .int b => a == b
  | .long a, .long b => a == b
  | .float x, .float y => x.same y
  | .double x, .double y => x.same y
  | _, _ => false

end Number

namespace Datum

/-- The name of the type, as messages give it. -/
def typeName : Datum → String
  | .undefined => "undefined"
  | .void => "void"
  | .bool _ => "bool"
  | .number n => n.type.name
  | .string _ => "string"
  | .host _ | .script _ => "function"

/-- The datum as the script language prints it. -/
def toText : Datum → String
  | .undefined | .void => "void"
  | .bool b => if b then "true" else "false"
  | .number n => n.toText
  | .string s => s
  | .host f => "function " ++ f.name
  | .script f => "function " ++ f.name

/-- Whether the datum carries no value. -/
def isVoid : Datum → Bool
  | .undefined | .void => true
  | _ => false

def number? : Datum → Option Number
  | .number n => some n
  | _ => none

/-- The truth value, or a fault for any other type. -/
def asBool : Datum → Except Fault Bool
  | .bool b => .ok b
  | d => .error (.typeMismatch "bool" d.typeName)

/-- The int, or a fault for any other type. -/
def asInt : Datum → Except Fault Int32
  | .number (.int n) => .ok n
  | d => .error (.typeMismatch "int" d.typeName)

/-- The name of the function, or a fault for any other type. -/
def asFunctionName : Datum → Except Fault String
  | .host f => .ok f.name
  | .script f => .ok f.name
  | d => .error (.notCallable d.toText)

/-- Same content, where the types are known to agree or the types are void. -/
def sameContent : Datum → Datum → Bool
  | .undefined, .undefined | .undefined, .void | .void, .undefined | .void, .void => true
  | .bool a, .bool b => a == b
  | .number m, .number n => m.same n
  | .string s, .string t => s == t
  | .host f, .host g => f == g
  | .script f, .script g => f == g
  | _, _ => false

/-- Equality in the script language: same type and same content. The undefined datum equals nothing,
a NaN differs from itself, and functions are equal if they are the same function. -/
def same : Datum → Datum → Bool
  | .undefined, _ => false
  | _, .undefined => false
  | a, b => a.sameContent b

end Datum

namespace Literal

/-- The datum that is read. -/
def datum : Literal → Datum
  | .plain d => d
  | .reference n => .number (.int n)

/-- The full name of the type, references included. -/
def typeText : Literal → String
  | .plain .undefined => "<undef>"
  | .plain d => d.typeName
  | .reference _ => "int&"

/-- Whether the type is one that arithmetic applies to. -/
def isArithmetic (l : Literal) : Bool := l.datum.number?.isSome

/-- Whether two constants of these values are the same: exactly the same type and the same content.
-/
def sameConstant : Literal → Literal → Bool
  | .plain .undefined, .plain .undefined => true
  | .plain a, .plain b => a.same b
  | .reference m, .reference n => m == n
  | _, _ => false

end Literal

/-- The types that the script language starts with, in the order of their keys. -/
def builtinTypes : TypeRegistry :=
  let arithmetic : Traits := ⟨false, false, false, false, true⟩
  let base : List (String × Traits) :=
    [("void", ⟨false, false, false, true, false⟩), ("bool", .none), ("int", arithmetic),
      ("long", arithmetic), ("float", arithmetic), ("double", arithmetic), ("string", .none),
      ("function", .none)]
  let r := base.foldl (fun r (name, traits) => (r.register name traits).2) TypeRegistry.empty
  (r.qualify .reference ((r.lookup "int").getD .undefined)).2

end ScriptTree

/-!
Type identities. A type has an exact key, the key of the type with its qualifiers stripped, and a
character: const, reference, pointer, void or arithmetic. Identities are compared by key alone.
-/

namespace ScriptTree

/-- The key of a registered type; zero belongs to no type. Keys do not wrap around here; `TypeIdentity.FitsWords` says
when words can stand for them. -/
abbrev TypeKey := Nat

/-- The word of 32 bits that stands for a key. -/
def TypeKey.word (k : TypeKey) : UInt32 := .ofNat k

/-- The character of a type. -/
structure Traits where
  isConst : Bool
  isReference : Bool
  isPointer : Bool
  isVoid : Bool
  isArithmetic : Bool
deriving DecidableEq, Repr

namespace Traits

def none : Traits := ⟨false, false, false, false, false⟩

/-- The traits of either. -/
def union (s t : Traits) : Traits :=
  ⟨s.isConst || t.isConst, s.isReference || t.isReference, s.isPointer || t.isPointer,
    s.isVoid || t.isVoid, s.isArithmetic || t.isArithmetic⟩

/-- The traits that a type has of itself: no const, no reference, no pointer. -/
def unqualified (t : Traits) : Traits := ⟨false, false, false, t.isVoid, t.isArithmetic⟩

end Traits

/-- What a qualifier adds to a type. -/
inductive Qualifier where
  | const
  | reference
  | pointer
deriving DecidableEq, Repr

namespace Qualifier

def traits : Qualifier → Traits
  | .const => ⟨true, false, false, false, false⟩
  | .reference => ⟨false, true, false, false, false⟩
  | .pointer => ⟨false, false, true, false, false⟩

/-- The name of the qualified type. -/
def rename : Qualifier → String → String
  | .const, name => "const " ++ name
  | .reference, name => name ++ "&"
  | .pointer, name => name ++ "*"

end Qualifier

/-- A type identity; the undefined one has no type behind it. -/
inductive TypeIdentity where
  | undefined
  | defined (exact bare : TypeKey) (traits : Traits)
deriving DecidableEq, Repr

namespace TypeIdentity

/-- The exact key; zero for the undefined identity. -/
def key : TypeIdentity → TypeKey
  | .undefined => 0
  | .defined exact _ _ => exact

/-- The key of the type without qualifiers; zero for the undefined identity. -/
def bareKey : TypeIdentity → TypeKey
  | .undefined => 0
  | .defined _ bare _ => bare

def traits : TypeIdentity → Traits
  | .undefined => .none
  | .defined _ _ traits => traits

/-- Nothing is lost of the keys when words stand for them, so comparing the words compares the keys. -/
structure FitsWords (t : TypeIdentity) : Prop where
  key : (TypeKey.word t.key).toNat = t.key
  bareKey : (TypeKey.word t.bareKey).toNat = t.bareKey

def isUndefined : TypeIdentity → Bool
  | .undefined => true
  | .defined .. => false

/-- Exactly the same type. The undefined identity is the same as itself. -/
def same (s t : TypeIdentity) : Bool := s.key == t.key

/-- Exactly the type of a key; never so for the undefined identity. -/
def hasKey (t : TypeIdentity) (k : TypeKey) : Bool := !t.isUndefined && t.key == k

/-- The same type up to qualifiers; never so for the undefined identity. -/
def sameBare (s t : TypeIdentity) : Bool :=
  !s.isUndefined && !t.isUndefined && s.bareKey == t.bareKey

/-- The type of a key up to qualifiers. -/
def hasBareKey (t : TypeIdentity) (k : TypeKey) : Bool := !t.isUndefined && t.bareKey == k

/-- The order of identities by exact key. -/
def compare (s t : TypeIdentity) : Ordering := Ord.compare s.key t.key

end TypeIdentity

end ScriptTree

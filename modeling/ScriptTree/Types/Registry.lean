import ScriptTree.Types.Identity

/-!
The registry of types. It hands out keys in sequence and remembers the name behind each; a name is
registered once and keeps its first identity. Registries are values: an operation gives the registry
after it.
-/

namespace ScriptTree

structure RegisteredType where
  name : String
  identity : TypeIdentity
deriving DecidableEq, Repr

/-- The registered types; the type at index `i` has the key `i + 1`. -/
structure TypeRegistry where
  types : List RegisteredType
deriving Repr

namespace TypeRegistry

/-- The identity registered under a name. -/
def lookup (r : TypeRegistry) (name : String) : Option TypeIdentity :=
  (r.types.find? (·.name == name)).map (·.identity)

/-- The name behind a key; empty if there is none. -/
def nameOf (r : TypeRegistry) : TypeKey → String
  | 0 => ""
  | k + 1 => (r.types[k]?.map (·.name)).getD ""

/-- The key that the next new type gets. -/
def nextKey (r : TypeRegistry) : TypeKey := r.types.length + 1

/-- The identity of a name, made by `fresh` from the next key if the name is new. -/
def intern (r : TypeRegistry) (name : String) (fresh : TypeKey → TypeIdentity) :
    TypeIdentity × TypeRegistry :=
  match r.lookup name with
  | some t => (t, r)
  | none =>
    let t := fresh r.nextKey
    (t, ⟨r.types ++ [⟨name, t⟩]⟩)

/-- Registers a type without qualifiers. A name that is known keeps its identity, whatever traits are
asked for. -/
def register (r : TypeRegistry) (name : String) (traits : Traits) : TypeIdentity × TypeRegistry :=
  r.intern name fun k => .defined k k traits.unqualified

def name (r : TypeRegistry) : TypeIdentity → String
  | .undefined => ""
  | .defined exact _ _ => r.nameOf exact

/-- The name of the type without qualifiers. -/
def bareName (r : TypeRegistry) : TypeIdentity → String
  | .undefined => ""
  | .defined _ bare _ => r.nameOf bare

/-- The name of the type, or a mark for the undefined identity. -/
def describe (r : TypeRegistry) : TypeIdentity → String
  | .undefined => "<undef>"
  | t => r.name t

/-- The qualified variant of a type, registered under the qualified name. The undefined identity has
no variants. -/
def qualify (r : TypeRegistry) (q : Qualifier) (t : TypeIdentity) : TypeIdentity × TypeRegistry :=
  match t with
  | .undefined => (.undefined, r)
  | .defined _ bare traits =>
    r.intern (q.rename (r.name t)) fun k => .defined k bare (traits.union q.traits)

def empty : TypeRegistry := ⟨[]⟩

end TypeRegistry

end ScriptTree

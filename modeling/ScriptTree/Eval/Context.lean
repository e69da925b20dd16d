import ScriptTree.Tree.Node
import ScriptTree.Value.Operator

/-!
The variable environment of an execution.

Scopes are nested; a name means its nearest binding. A variable holds a datum, except the counter of a
native loop, which is bound to a cell: reading the name gives a view of the cell, and assigning to it
writes the cell. Cells are kept apart from the scopes, so that a value that was read as a view sees
what is written to the cell later. The context also has the functions that were defined so far and
the calls that were made to the host.
-/

namespace ScriptTree

/-- What evaluation yields: a datum, or a view of a native cell. -/
inductive Value where
  | plain (d : Datum)
  | cell (address : Nat)
deriving DecidableEq

/-- What a name is bound to. -/
inductive Slot where
  | plain (d : Datum)
  | cell (address : Nat)
deriving DecidableEq

/-- The bindings of one scope; a name is bound at most once. -/
abbrev Scope := List (String × Slot)

namespace Scope

/-- The binding of a name in this scope. -/
def find? (s : Scope) (name : String) : Option Slot := s.lookup name

/-- Binds a name, in the place of its earlier binding if there is one. -/
def insert (s : Scope) (name : String) (slot : Slot) : Scope :=
  match s with
  | [] => [(name, slot)]
  | (n, old) :: rest => if n = name then (name, slot) :: rest else (n, old) :: insert rest name slot

end Scope

/-- A function that a script defined. -/
structure ScriptFunction where
  name : String
  parameters : List String
  body : Node

/-- A call that was made to the host. -/
structure HostCall where
  function : HostFunction
  arguments : List Datum
deriving DecidableEq

/-- The environment of one execution. -/
structure Context where
  innermost : Scope
  enclosing : List Scope
  cells : Array Int32
  functions : Array ScriptFunction
  calls : Array HostCall

namespace Context

/-- A context with a global scope that holds these bindings. -/
def ofBindings (bindings : Scope) : Context := ⟨bindings, [], #[], #[], #[]⟩

def empty : Context := ofBindings []

def depth (c : Context) : Nat := c.enclosing.length + 1

def push (c : Context) : Context := { c with innermost := [], enclosing := c.innermost :: c.enclosing }

/-- Closes the innermost scope; the global scope stays open. -/
def pop (c : Context) : Context :=
  match c.enclosing with
  | [] => c
  | s :: rest => { c with innermost := s, enclosing := rest }

def cellAt (c : Context) (address : Nat) : Int32 := c.cells[address]?.getD 0

def setCell (c : Context) (address : Nat) (n : Int32) : Context :=
  { c with cells := c.cells.setIfInBounds address n }

/-- Makes a new cell and gives its address. -/
def newCell (c : Context) (n : Int32) : Nat × Context :=
  (c.cells.size, { c with cells := c.cells.push n })

/-- The datum that a value stands for at this moment. -/
def read (c : Context) : Value → Datum
  | .plain d => d
  | .cell address => .number (.int (c.cellAt address))

/-- The value as it is shown outside. -/
def expose (c : Context) : Value → Literal
  | .plain d => .plain d
  | .cell address => .reference (c.cellAt address)

/-- The nearest binding of a name. -/
def find? (c : Context) (name : String) : Option Slot :=
  (c.innermost :: c.enclosing).findSome? (·.find? name)

def get (c : Context) (name : String) : Except Fault Value :=
  match c.find? name with
  | some (.plain d) => .ok (.plain d)
  | some (.cell address) => .ok (.cell address)
  | none => .error (.undefinedVariable name)

def bind (c : Context) (name : String) (d : Datum) : Context :=
  { c with innermost := c.innermost.insert name (.plain d) }

/-- Binds a name in the innermost scope to a cell. -/
def bindCell (c : Context) (name : String) (address : Nat) : Context :=
  { c with innermost := c.innermost.insert name (.cell address) }

/-- Introduces a variable without a value in the innermost scope, where its name must be new. -/
def declare (c : Context) (name : String) : Except Fault Context :=
  match c.innermost.find? name with
  | some _ => .error (.redeclared name)
  | none => .ok (c.bind name .void)

/-- Replaces the nearest binding of a name among these scopes. -/
def replaceNearest (name : String) (slot : Slot) : List Scope → List Scope
  | [] => []
  | s :: rest =>
    match s.find? name with
    | some _ => s.insert name slot :: rest
    | none => s :: replaceNearest name slot rest

def replace (c : Context) (name : String) (d : Datum) : Context :=
  match c.innermost.find? name with
  | some _ => { c with innermost := c.innermost.insert name (.plain d) }
  | none => { c with enclosing := replaceNearest name (.plain d) c.enclosing }

/-- Stores a datum in the nearest binding of a name. A binding of a number keeps its type: it takes
other numbers converted, and nothing else. -/
def assign (c : Context) (name : String) (d : Datum) : Except Fault Context :=
  match c.find? name with
  | none => .error (.undefinedVariable name)
  | some (.cell address) => match d with
    | .number n => .ok (c.setCell address n.toInt)
    | d => .error (.typeMismatch "int" d.typeName)
  | some (.plain (.number old)) => match d with
    | .number n => .ok (c.replace name (.number (n.convert old.type)))
    | d => .error (.typeMismatch old.type.name d.typeName)
  | some (.plain _) => .ok (c.replace name d)

/-- Adds a function to the table and gives the reference to it. -/
def define (c : Context) (f : ScriptFunction) : ScriptReference × Context :=
  (⟨c.functions.size, f.name⟩, { c with functions := c.functions.push f })

end Context

end ScriptTree

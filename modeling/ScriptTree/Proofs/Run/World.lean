import ScriptTree.Proofs.Run.Scope
import Mathlib.Data.List.Forall2

/-!
Two contexts that agree.

Two runs are compared by relating their contexts at every moment. The open scopes correspond one by
one, except that either side may have further scopes that hold nothing. A variable holds the same
datum on both sides, with one freedom: where one side has a plain int, the other may have a cell with
that int, if this cell serves no other variable. A `World` says which scopes correspond and what each
cell is for; `Agree` says that two contexts are as a world describes.
-/

namespace ScriptTree

/-- How two nodes are compared: their flows are the same, or the one may leave a function's body by a
`return` where the other reaches its end. -/
inductive Mode where
  | exact
  | tail
deriving DecidableEq

/-- A scope of two related stacks: open on both sides, or only on one, where it holds nothing. -/
inductive Layer where
  | shared
  | left
  | right
deriving DecidableEq

/-- What a cell of one side is for: it goes with a cell of the other side and is bound in no scope
below this level, or it is the native form of the variable of this name in the scope of this level.
Levels count from the global scope. -/
inductive CellRole where
  | twin (level other : Nat)
  | counter (level : Nat) (name : String)
deriving DecidableEq

/-- The lowest level at which a cell may be bound. -/
def CellRole.level : CellRole → Nat
  | .twin level _ => level
  | .counter level _ => level

/-- What two runs have in common: functions of both sides that go together, names that are never
bound, and for each side the cells whose views are read as soon as they are got and the number of cells
that are there at least. -/
structure Setting where
  known : ScriptFunction → ScriptFunction → Prop
  reserved : String → Prop
  earlyLeft : Nat → Bool
  earlyRight : Nat → Bool
  lowLeft : Nat
  lowRight : Nat

/-- How two contexts correspond: their scopes, the innermost first, and the cells of each side. -/
structure World where
  layers : List Layer
  left : List CellRole
  right : List CellRole

namespace World

/-- Two cells that go together from a level on. -/
def Twins (w : World) (level a b : Nat) : Prop :=
  w.left[a]? = some (.twin level b) ∧ w.right[b]? = some (.twin level a)

/-- A variable that has the form of a cell on one side. -/
def Pins (w : World) (level : Nat) (name : String) : Prop :=
  (∃ a : Nat, w.left[a]? = some (.counter level name)) ∨ ∃ b : Nat, w.right[b]? = some (.counter level name)

/-- The roles of cells fit together: twins are mutual and read alike, counters are read early and
belong to open scopes. -/
structure Sound (st : Setting) (w : World) : Prop where
  twin_right : ∀ l a b : Nat, w.left[a]? = some (.twin l b) → w.right[b]? = some (.twin l a)
  twin_left : ∀ l a b : Nat, w.right[b]? = some (.twin l a) → w.left[a]? = some (.twin l b)
  twin_early : ∀ l a b : Nat, w.Twins l a b → st.earlyLeft a = st.earlyRight b
  early_left : ∀ (a level : Nat) name, w.left[a]? = some (.counter level name) → st.earlyLeft a = true
  early_right : ∀ (b level : Nat) name, w.right[b]? = some (.counter level name) → st.earlyRight b = true
  level_lt : ∀ level name, w.Pins level name → level < w.layers.length

/-- The world under a further scope. -/
def under (w : World) (layer : Layer) : World := { w with layers := layer :: w.layers }

@[simp] theorem under_layers (w : World) (l : Layer) : (w.under l).layers = l :: w.layers := rfl
@[simp] theorem under_left (w : World) (l : Layer) : (w.under l).left = w.left := rfl
@[simp] theorem under_right (w : World) (l : Layer) : (w.under l).right = w.right := rfl

theorem Sound.under {st : Setting} {w : World} (h : w.Sound st) (l : Layer) : (w.under l).Sound st where
  twin_right := h.twin_right
  twin_left := h.twin_left
  twin_early := h.twin_early
  early_left := h.early_left
  early_right := h.early_right
  level_lt level name hp := Nat.lt_succ_of_lt (h.level_lt level name hp)

end World

/-- What a variable is bound to on both sides. -/
inductive SlotAlike (w : World) (c d : Context) (level : Nat) (name : String) :
    Option Slot → Option Slot → Prop
  | absent (h : ¬w.Pins level name) : SlotAlike w c d level name none none
  | plain {x} (h : ¬w.Pins level name) :
    SlotAlike w c d level name (some (.plain x)) (some (.plain x))
  | twins {l a b} (h : ¬w.Pins level name) (ht : w.Twins l a b) (hl : l ≤ level) :
    SlotAlike w c d level name (some (.cell a)) (some (.cell b))
  | right {b} (h : w.right[b]? = some (.counter level name)) :
    SlotAlike w c d level name (some (.plain (.number (.int (d.cellAt b))))) (some (.cell b))
  | left {a} (h : w.left[a]? = some (.counter level name)) :
    SlotAlike w c d level name (some (.cell a)) (some (.plain (.number (.int (c.cellAt a)))))

/-- Two stacks of scopes that correspond by these layers. -/
inductive ScopesAgree (st : Setting) (w : World) (c d : Context) :
    List Layer → List Scope → List Scope → Prop
  | nil : ScopesAgree st w c d [] [] []
  | shared {L s t ss ts} (hs : ∀ name, SlotAlike w c d L.length name (s.find? name) (t.find? name))
    (hr : ∀ name, st.reserved name → s.find? name = none ∧ t.find? name = none)
    (h : ScopesAgree st w c d L ss ts) : ScopesAgree st w c d (.shared :: L) (s :: ss) (t :: ts)
  | left {L s ss ts} (hs : ∀ name, s.find? name = none) (h : ScopesAgree st w c d L ss ts) :
    ScopesAgree st w c d (.left :: L) (s :: ss) ts
  | right {L t ss ts} (ht : ∀ name, t.find? name = none) (h : ScopesAgree st w c d L ss ts) :
    ScopesAgree st w c d (.right :: L) ss (t :: ts)

/-- Two contexts that are as the world says. -/
structure Agree (st : Setting) (w : World) (c d : Context) : Prop where
  sound : w.Sound st
  calls : c.calls = d.calls
  functions : List.Forall₂ st.known c.functions.toList d.functions.toList
  sizeLeft : c.cells.size = w.left.length
  sizeRight : d.cells.size = w.right.length
  twins : ∀ l a b, w.Twins l a b → c.cellAt a = d.cellAt b
  scopes : ScopesAgree st w c d w.layers c.scopes d.scopes

/-- Two values that will stay alike whatever is written to cells: the same datum, or views of cells
that go together. -/
inductive Held (w : World) : Value → Value → Prop
  | plain {x} : Held w (.plain x) (.plain x)
  | twins {l a b} (h : w.Twins l a b) : Held w (.cell a) (.cell b)

/-- Two values that stand for the same datum at this moment. -/
inductive Alike (w : World) (c d : Context) : Value → Value → Prop
  | held {u v} (h : Held w u v) : Alike w c d u v
  | right {b level name} (h : w.right[b]? = some (.counter level name)) :
    Alike w c d (.plain (.number (.int (d.cellAt b)))) (.cell b)
  | left {a level name} (h : w.left[a]? = some (.counter level name)) :
    Alike w c d (.cell a) (.plain (.number (.int (c.cellAt a))))

theorem Alike.read {st : Setting} {w : World} {c d : Context} {u v : Value} (hA : Agree st w c d)
    (h : Alike w c d u v) : c.read u = d.read v := by
  cases h with
  | held h =>
    cases h with
    | plain => rfl
    | twins h => simp [Context.read, hA.twins _ _ _ h]
  | right => rfl
  | left => rfl

/-! ### The two sides exchanged -/

def Setting.flip (st : Setting) : Setting :=
  ⟨fun f g => st.known g f, st.reserved, st.earlyRight, st.earlyLeft, st.lowRight, st.lowLeft⟩

def Layer.flip : Layer → Layer
  | .shared => .shared
  | .left => .right
  | .right => .left

def World.flip (w : World) : World := ⟨w.layers.map Layer.flip, w.right, w.left⟩

theorem Layer.flip_flip : ∀ l : Layer, l.flip.flip = l
  | .shared => rfl
  | .left => rfl
  | .right => rfl

@[simp] theorem Setting.flip_flip (st : Setting) : st.flip.flip = st := rfl

@[simp] theorem World.flip_flip (w : World) : w.flip.flip = w := by
  simp [World.flip, List.map_map, Function.comp_def, Layer.flip_flip]

@[simp] theorem World.flip_under (w : World) (l : Layer) : (w.under l).flip = w.flip.under l.flip := rfl

theorem World.Twins.flip {w : World} {l a b : Nat} (h : w.Twins l a b) : w.flip.Twins l b a :=
  ⟨h.2, h.1⟩

theorem World.pins_flip {w : World} {level : Nat} {name : String} :
    w.flip.Pins level name ↔ w.Pins level name := Or.comm

theorem World.Sound.flip {st : Setting} {w : World} (h : w.Sound st) : w.flip.Sound st.flip where
  twin_right := fun l a b hab => h.twin_left l b a hab
  twin_left := fun l a b hab => h.twin_right l b a hab
  twin_early := fun l a b hab => (h.twin_early l b a hab.flip).symm
  early_left := h.early_right
  early_right := h.early_left
  level_lt := fun level name hp => by
    simpa [World.flip] using h.level_lt level name (World.pins_flip.1 hp)

theorem SlotAlike.flip {w : World} {c d : Context} {level : Nat} {name : String} {s t : Option Slot}
    (h : SlotAlike w c d level name s t) : SlotAlike w.flip d c level name t s := by
  cases h with
  | absent h => exact .absent fun hp => h (World.pins_flip.1 hp)
  | plain h => exact .plain fun hp => h (World.pins_flip.1 hp)
  | twins h ht hl => exact .twins (fun hp => h (World.pins_flip.1 hp)) ht.flip hl
  | right h => exact .left h
  | left h => exact .right h

theorem ScopesAgree.flip {st : Setting} {w : World} {c d : Context} {L : List Layer}
    {ss ts : List Scope} (h : ScopesAgree st w c d L ss ts) :
    ScopesAgree st.flip w.flip d c (L.map Layer.flip) ts ss := by
  induction h with
  | nil => exact .nil
  | shared hs hr _ ih =>
    refine .shared (fun name => ?_) (fun name h => (hr name h).symm) ih
    rw [List.length_map]
    exact (hs name).flip
  | left hs _ ih => exact .right hs ih
  | right ht _ ih => exact .left ht ih

theorem Agree.flip {st : Setting} {w : World} {c d : Context} (h : Agree st w c d) :
    Agree st.flip w.flip d c where
  sound := h.sound.flip
  calls := h.calls.symm
  functions := h.functions.flip
  sizeLeft := h.sizeRight
  sizeRight := h.sizeLeft
  twins := fun l a b hab => (h.twins l b a hab.flip).symm
  scopes := h.scopes.flip

end ScriptTree

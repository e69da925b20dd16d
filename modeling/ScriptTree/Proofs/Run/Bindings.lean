import Mathlib.Data.Set.Basic
import ScriptTree.Proofs.Optimize.Preservation
import ScriptTree.Proofs.Run.Conduct

/-!
What runs do to bindings. A run leaves the scopes below the innermost one with the names they had; a
number bound there keeps its type, and a cell is bound nowhere where it was not bound before. The
innermost scope loses no name, and it gains none where the tree declares nothing.

Each is a fact of single scopes: `Scope.Grows` is what may become of the innermost one, `Scope.Retains`
of all others. Together they are the measure of a conduct, to which every run keeps.
-/

namespace ScriptTree

/-! ### Numeric types -/

/-- The type of the number that a slot holds; a cell holds an int. -/
def Slot.numericType? : Slot → Option NumericType
  | .plain d => d.number?.map Number.type
  | .cell _ => some .int

/-- Data at rest are never shown as references. -/
theorem Literal.typeText_plain_ne (x : Datum) : (Literal.plain x).typeText ≠ "int&" := by
  cases x with
  | number n => cases n <;> simp [Literal.typeText, Datum.typeName, Number.type, NumericType.name]
  | _ => simp [Literal.typeText, Datum.typeName]

/-! ### Single scopes -/

namespace Scope

variable {r s t : Scope} {name : String} {x y : Datum}

def names (s : Scope) : Set String := {name | (s.find? name).isSome}

/-- The type of the number that a name is bound to. -/
def numericType? (s : Scope) (name : String) : Option NumericType := (s.find? name).bind Slot.numericType?

/-- No name is lost, and no cell is bound anew. -/
structure Grows (s t : Scope) : Prop where
  bound : s.names ⊆ t.names
  cells : ∀ name address, t.find? name = some (.cell address) → s.find? name = some (.cell address)

/-- No name is gained either, the numbers keep their types, and the cells stay where they are. -/
structure Retains (s t : Scope) : Prop extends s.Grows t where
  unbound : t.names ⊆ s.names
  types : ∀ name type, s.numericType? name = some type → t.numericType? name = some type
  held : ∀ name address, s.find? name = some (.cell address) → t.find? name = some (.cell address)

theorem Grows.refl (s : Scope) : s.Grows s := ⟨subset_rfl, fun _ _ h => h⟩

theorem Grows.trans (h : r.Grows s) (h' : s.Grows t) : r.Grows t :=
  ⟨h.bound.trans h'.bound, fun x a ha => h.cells x a (h'.cells x a ha)⟩

theorem Retains.refl (s : Scope) : s.Retains s := ⟨.refl s, subset_rfl, fun _ _ h => h, fun _ _ h => h⟩

theorem Retains.trans (h : r.Retains s) (h' : s.Retains t) : r.Retains t :=
  ⟨h.toGrows.trans h'.toGrows, h'.unbound.trans h.unbound, fun x T hT => h'.types x T (h.types x T hT),
    fun x a ha => h'.held x a (h.held x a ha)⟩

theorem Retains.names_eq (h : s.Retains t) : t.names = s.names := subset_antisymm h.unbound h.bound

/-- Data may be bound to any name. -/
theorem Grows.insert (s : Scope) (name : String) (x : Datum) : s.Grows (s.insert name (.plain x)) where
  bound other hother := by
    by_cases h : other = name
    · simp [names, h]
    · simpa [names, find?_insert_ne h] using hother
  cells other a hother := by
    by_cases h : other = name
    · rw [h, find?_insert_self] at hother
      cases hother
    · rwa [find?_insert_ne h] at hother

/-- Data that are bound may give way to data of the same numeric type. -/
theorem Retains.insert (h : s.find? name = some (.plain y))
    (hx : ∀ type, y.number?.map Number.type = some type → x.number?.map Number.type = some type) :
    s.Retains (s.insert name (.plain x)) where
  toGrows := .insert s name x
  unbound other hother := by
    by_cases hn : other = name
    · simp [names, hn, h]
    · simpa [names, find?_insert_ne hn] using hother
  types other T hT := by
    unfold numericType? at hT ⊢
    by_cases hn : other = name
    · rw [hn, h] at hT
      rw [hn, find?_insert_self]
      exact hx T hT
    · rwa [find?_insert_ne hn]
  held other a ha := by
    by_cases hn : other = name
    · rw [hn, h] at ha
      cases ha
    · rwa [find?_insert_ne hn]

end Scope

/-! ### Stacks of scopes -/

/-- Relations that compose do so along lists. -/
theorem forall₂_comp {α β γ : Type} {R : α → β → Prop} {S : β → γ → Prop} {T : α → γ → Prop}
    (h : ∀ {a b c}, R a b → S b c → T a c) : ∀ {as : List α} {bs : List β} {cs : List γ},
    List.Forall₂ R as bs → List.Forall₂ S bs cs → List.Forall₂ T as cs
  | _, _, _, .nil, .nil => .nil
  | _, _, _, .cons hr hrs, .cons hs hss => .cons (h hr hs) (forall₂_comp @h hrs hss)

namespace Context

variable {b : Bool} {c d e : Context} {ss : List Scope} {name : String} {x y : Datum}

theorem retains_refl (ss : List Scope) : List.Forall₂ Scope.Retains ss ss :=
  List.forall₂_same.2 fun s _ => .refl s

/-- If data are what is nearest bound to a name, they may give way to data of the same numeric type. -/
theorem retains_replaceNearest
    (hx : ∀ type, y.number?.map Number.type = some type → x.number?.map Number.type = some type) :
    ∀ {ss : List Scope}, lookup name ss = some (.plain y) →
      List.Forall₂ Scope.Retains ss (replaceNearest name (.plain x) ss)
  | [], _ => .nil
  | s :: ss, h => by
    rw [lookup_cons] at h
    rw [replaceNearest_cons]
    cases hs : s.find? name with
    | some slot =>
      rw [hs, Option.some_or] at h
      exact .cons (.insert (hs.trans h) hx) (retains_refl ss)
    | none =>
      rw [hs, Option.none_or] at h
      exact .cons (.refl s) (retains_replaceNearest hx h)

/-! ### Contexts -/

/-- How the scopes of a context may change: the innermost one may be bound to more names if it is free
to, and all others retain what they have. -/
structure Evolves (free : Bool) (c d : Context) : Prop where
  innermost : c.innermost.Grows d.innermost
  settled : free = false → c.innermost.Retains d.innermost
  enclosing : List.Forall₂ Scope.Retains c.enclosing d.enclosing

theorem Evolves.of_retains (h : List.Forall₂ Scope.Retains c.scopes d.scopes) : c.Evolves b d := by
  cases h with
  | cons hi he => exact ⟨hi.toGrows, fun _ => hi, he⟩

theorem Evolves.refl (b : Bool) (c : Context) : c.Evolves b c := .of_retains (retains_refl c.scopes)

theorem Evolves.trans (h : c.Evolves b d) (h' : d.Evolves b e) : c.Evolves b e where
  innermost := h.innermost.trans h'.innermost
  settled hb := (h.settled hb).trans (h'.settled hb)
  enclosing := forall₂_comp @Scope.Retains.trans h.enclosing h'.enclosing

theorem Evolves.bind (c : Context) (name : String) (x : Datum) : c.Evolves true (c.bind name x) :=
  ⟨.insert _ name x, nofun, retains_refl c.enclosing⟩

/-- An assignment retains every scope: a number gives way only to numbers, converted to its type. -/
theorem Evolves.assign (h : c.assign name x = .ok d) : c.Evolves b d := by
  apply of_retains
  unfold Context.assign at h
  split at h
  · cases h
  · split at h
    · cases h
      exact retains_refl c.scopes
    · cases h
  · rename_i old hold
    split at h
    · rename_i n
      cases h
      rw [scopes_replace]
      refine retains_replaceNearest (fun T hT => ?_) hold
      rw [← hT]
      exact congrArg some (n.type_convert old.type)
    · cases h
  · rename_i y hnumber hold
    cases h
    rw [scopes_replace]
    refine retains_replaceNearest (fun T hT => ?_) hold
    cases y with
    | number n => exact absurd rfl (hnumber n)
    | _ => cases hT

/-- What the scopes around the innermost one are like all scopes are when that is closed. -/
theorem forall₂_scopes_pop {α : Type} {R : α → Scope → Prop} {as : List α} (h : List.Forall₂ R as d.enclosing)
    (hne : as ≠ []) : List.Forall₂ R as d.pop.scopes := by
  have hopen : d.enclosing ≠ [] := fun he => hne (List.forall₂_nil_right_iff.1 (he ▸ h))
  rwa [scopes_pop (c := d) rfl hopen]

/-- A scope is closed: those around it retain what they had when it was opened. -/
theorem Evolves.pop (h : List.Forall₂ Scope.Retains c.scopes d.enclosing) : c.Evolves b d.pop :=
  .of_retains (forall₂_scopes_pop h (List.cons_ne_nil _ _))

end Context

/-- The conduct of runs toward bindings. -/
def Conduct.bindings : Conduct where
  Change := Context.Evolves
  strict := false
  refl := Context.Evolves.refl
  trans := Context.Evolves.trans
  bind := Context.Evolves.bind
  assign := Context.Evolves.assign
  setCell _ c _ _ := .of_retains (Context.retains_refl c.scopes)
  define _ c _ := .of_retains (Context.retains_refl c.scopes)
  call _ c _ := .of_retains (Context.retains_refl c.scopes)
  scope h := .pop h.enclosing
  loop h := .pop h.enclosing

theorem Conduct.fits_bindings (n : Node) : Conduct.bindings.Fits n := nofun

/-- Every run changes the scopes only as they may change; a node that binds no name leaves the innermost
one settled. -/
theorem Node.eval_evolves (host : Host) (fuel : Nat) (c : Context) {b : Bool} {n : Node}
    (h : b = false → n.Modest) : c.Evolves b (n.eval host fuel c).2 :=
  (Conduct.eval_keeps .bindings host fuel n b ⟨Conduct.fits_bindings n, h⟩ c
    fun f _ => Conduct.fits_bindings f.body).changes

/-! ### The names in scope -/

/-- Every run, however it ends, closes the scopes that it opened. The scopes below the innermost one have
the names they had; the innermost one has lost none, and it has gained none if the tree declares none. -/
theorem scopes_disciplined (host : Host) (fuel : Nat) (n : Node) (c : Context) :
    let d := (n.eval host fuel c).2
    d.depth = c.depth ∧ List.Forall₂ (fun s t => t.names = s.names) c.enclosing d.enclosing ∧
      c.innermost.names ⊆ d.innermost.names ∧
      (Rule.declares n = false → (∀ a ∈ n.parts, a.ListsArguments) → d.innermost.names = c.innermost.names) := by
  intro d
  have hloose : c.Evolves true d := n.eval_evolves host fuel c nofun
  refine ⟨?_, hloose.enclosing.imp fun _ _ h => h.names_eq, hloose.innermost.bound, fun hdeclares hlists => ?_⟩
  · unfold Context.depth
    rw [hloose.enclosing.length_eq]
  · have hstrict : c.Evolves false d := n.eval_evolves host fuel c fun _ => ⟨.inr hdeclares, hlists⟩
    exact (hstrict.settled rfl).names_eq

/-- A choice between a block that holds a loop and a call declares nothing around it, though the loop runs and calls
three times. -/
theorem scopes_disciplined_countTo :
    let n := Node.construct .conditional "" .unknown
      [.ofName "flag", .construct .block "" .unknown [.countTo "i" 3 (.callOn "emit" (.ofName "i"))],
        .callOn "emit" (.ofInt 1)]
    let c := (Context.withHost "emit").bind "flag" (.bool true)
    Rule.declares n = false ∧ (∀ a ∈ n.parts, a.ListsArguments) ∧ (n.eval .silent 20 c).2.calls.size = 3 ∧
      (n.eval .silent 20 c).2.innermost.names = c.innermost.names := by
  intro n c
  have hdeclares : Rule.declares n = false := by decide
  have hlists : ∀ a ∈ n.parts, a.ListsArguments := by decide
  have hcalls : (n.eval .silent 20 c).2.calls.size = 3 := rfl
  exact ⟨hdeclares, hlists, hcalls, (scopes_disciplined .silent 20 n c).2.2.2 hdeclares hlists⟩

/-! ### The data that are bound -/

/-- A cell is bound in the scope only if a native loop opened it, and to the name of its counter. -/
def Scope.HoldsCounter (loop : Option String) (s : Scope) : Prop :=
  ∀ name address, s.find? name = some (.cell address) → loop = some name

theorem Scope.HoldsCounter.grows {loop : Option String} {s t : Scope} (h : s.HoldsCounter loop) (hst : s.Grows t) :
    t.HoldsCounter loop :=
  fun x a ha => h x a (hst.cells x a ha)

namespace Context

/-- The contexts that come about, starting from an empty one, by the operations that runs are made of. Those
in the middle of a run are among them: for each scope that has been opened since, the list has the counter of
the native loop that opened it, or nothing if a block, another loop or a call did. -/
inductive Arises : List (Option String) → Context → Prop
  | empty : Arises [] .empty
  | bind {loops c} (h : Arises loops c) (name : String) (x : Datum) : Arises loops (c.bind name x)
  | assign {loops c d name x} (h : Arises loops c) (hd : Context.assign c name x = .ok d) : Arises loops d
  | setCell {loops c} (h : Arises loops c) (address : Nat) (n : Int32) : Arises loops (c.setCell address n)
  | define {loops c} (h : Arises loops c) (f : ScriptFunction) : Arises loops (c.define f).2
  | call {loops c} (h : Arises loops c) (call : HostCall) : Arises loops { c with calls := c.calls.push call }
  | push {loops c} (h : Arises loops c) : Arises (none :: loops) c.push
  | pop {loops c} (h : Arises (none :: loops) c) : Arises loops c.pop
  | enterLoop {loops c} (h : Arises loops c) (counter : String) (first : Int32) :
    Arises (some counter :: loops) (c.enterLoop counter first)
  | leaveLoop {loops c counter} (h : Arises (some counter :: loops) c) (size : Nat) : Arises loops (c.leaveLoop size)

theorem Evolves.holdsCounter {b : Bool} {c d : Context} {loops : List (Option String)} (h : c.Evolves b d)
    (hc : List.Forall₂ Scope.HoldsCounter loops c.scopes) : List.Forall₂ Scope.HoldsCounter loops d.scopes := by
  have hgrows : List.Forall₂ Scope.Grows c.scopes d.scopes :=
    .cons h.innermost (h.enclosing.imp fun _ _ h => h.toGrows)
  exact forall₂_comp @Scope.HoldsCounter.grows hc hgrows

/-- By induction on how the context came about: only where a native loop begins a cell is bound. -/
theorem Arises.holdsCounter {loops : List (Option String)} {c : Context} (h : Arises loops c) :
    List.Forall₂ Scope.HoldsCounter (loops ++ [none]) c.scopes := by
  induction h with
  | empty => exact .cons nofun .nil
  | bind _ name x ih => exact (Evolves.bind _ name x).holdsCounter ih
  | assign _ hd ih => exact (Evolves.assign (b := true) hd).holdsCounter ih
  | setCell _ _ _ ih => exact ih
  | define _ _ ih => exact ih
  | call _ _ ih => exact ih
  | push _ ih => exact .cons nofun ih
  | enterLoop _ counter first ih =>
    rw [scopes_enterLoop]
    refine .cons (fun name a ha => ?_) ih
    rw [find?_singleton] at ha
    split at ha
    · rename_i hname
      rw [hname]
    · cases ha
  | pop _ ih | leaveLoop _ _ ih =>
    cases ih with
    | cons _ hrest => exact forall₂_scopes_pop hrest (by simp)

end Context

/-- The conduct of runs that start in a context that came about by such operations. -/
def Conduct.arising : Conduct where
  Change _ c d := ∀ loops, c.Arises loops → d.Arises loops
  strict := false
  refl _ _ _ h := h
  trans h h' loops hc := h' loops (h loops hc)
  bind _ name x _ h := h.bind name x
  assign hd _ h := h.assign hd
  setCell _ _ address n _ h := h.setCell address n
  define _ _ f _ h := h.define f
  call _ _ call _ h := h.call call
  scope h loops hc := (h (none :: loops) hc.push).pop
  loop h _ hc := (h _ (hc.enterLoop _ _)).leaveLoop _

theorem Context.Arises.eval {loops : List (Option String)} {c : Context} (h : c.Arises loops) (host : Host)
    (fuel : Nat) (n : Node) : (n.eval host fuel c).2.Arises loops :=
  (Conduct.eval_keeps .arising host fuel n true ⟨nofun, nofun⟩ c fun _ _ => nofun).changes loops h

/-- Runs lead from contexts that came about to such contexts. In these, cells are bound to the counters of
native loops that are running, in the scopes these opened, and to nothing else; so when no loop is running no
binding holds a reference. And every run, however it ends, leaves the numbers below the innermost scope with
the types they had, and the counters there in their cells. -/
theorem bindings_typed :
    (∀ loops c host fuel n, Context.Arises loops c → Context.Arises loops (Node.eval host fuel n c).2) ∧
    (∀ loops c, Context.Arises loops c → List.Forall₂ Scope.HoldsCounter (loops ++ [none]) c.scopes) ∧
    (∀ c, Context.Arises [] c → ∀ s ∈ c.scopes, ∀ name slot, s.find? name = some slot →
      ∃ x, slot = .plain x ∧ (Literal.plain x).typeText ≠ "int&") ∧
    (∀ host fuel n c, List.Forall₂
      (fun s t : Scope =>
        (∀ name type, s.numericType? name = some type → t.numericType? name = some type) ∧
        ∀ name address, s.find? name = some (.cell address) → t.find? name = some (.cell address))
      c.enclosing (Node.eval host fuel n c).2.enclosing) := by
  refine ⟨fun _ _ host fuel n h => h.eval host fuel n, fun _ _ h => h.holdsCounter,
    fun c h s hs name slot hslot => ?_, fun host fuel n c => ?_⟩
  · have hscopes : List.Forall₂ Scope.HoldsCounter [none] c.scopes := h.holdsCounter
    generalize c.scopes = ss at hs hscopes
    obtain ⟨global, _, hglobal, hrest, rfl⟩ := List.forall₂_cons_left_iff.1 hscopes
    obtain rfl := List.forall₂_nil_left_iff.1 hrest
    obtain rfl := List.mem_singleton.1 hs
    cases slot with
    | plain x => exact ⟨x, rfl, Literal.typeText_plain_ne x⟩
    | cell address => cases hglobal name address hslot
  · have hevolves : c.Evolves true (n.eval host fuel c).2 := n.eval_evolves host fuel c nofun
    exact hevolves.enclosing.imp fun _ _ h => ⟨h.types, h.held⟩

/-- Inside a native loop its counter is bound to a cell, and after the run nothing is. -/
theorem bindings_typed_countTo :
    let n := (Pipeline.standard.walk (.countTo "i" 3 (.callOn "emit" (.ofName "i")))).tree
    let c := Context.empty.bind "emit" (.host ⟨0, "emit"⟩)
    let d := (n.eval .silent 20 c).2
    List.Forall₂ Scope.HoldsCounter [some "i", none] (c.enterLoop "i" 0).scopes ∧ d.Arises [] ∧
      ∀ s ∈ d.scopes, ∀ name slot, s.find? name = some slot →
        ∃ x, slot = .plain x ∧ (Literal.plain x).typeText ≠ "int&" := by
  intro n c d
  have hc : Context.Arises [] c := .bind .empty "emit" _
  have hd : Context.Arises [] d := bindings_typed.1 [] c .silent 20 n hc
  exact ⟨bindings_typed.2.1 [some "i"] _ (hc.enterLoop "i" 0), hd, bindings_typed.2.2.1 d hd⟩

end ScriptTree

import ScriptTree.Proofs.Run.Follow
import ScriptTree.Proofs.Run.Scope
import Mathlib.Data.List.Basic

/-!
What an assignment does. Every operation that changes a variable looks before it writes: a declaration looks
whether the name is new, an assignment whether the nearest binding takes the datum. So an assignment whose
right side is a constant or a variable either fails and has changed nothing at all, or it succeeds and has
changed one binding, which is told by the level of its scope and its name.
-/

namespace ScriptTree

open Eval

/-! ### Bindings by level -/

/-- What a name is bound to in the scope of a level; levels count from the front. -/
def bindingAt (ss : List Scope) (level : Nat) (name : String) : Option Slot := ss[level]?.bind (·.find? name)

/-- The scope of this level is the first one that binds the name, and it binds it to this. -/
structure Nearest (ss : List Scope) (name : String) (level : Nat) (slot : Slot) : Prop where
  bound : bindingAt ss level name = some slot
  unbound : ∀ j < level, bindingAt ss j name = none

section Bindings

variable {s : Scope} {ss : List Scope} {name : String} {level : Nat} {old slot : Slot}

@[simp] theorem bindingAt_zero (s : Scope) (ss : List Scope) (name : String) :
    bindingAt (s :: ss) 0 name = s.find? name := rfl

@[simp] theorem bindingAt_succ (s : Scope) (ss : List Scope) (level : Nat) (name : String) :
    bindingAt (s :: ss) (level + 1) name = bindingAt ss level name := by
  simp [bindingAt]

theorem find?_insert (s : Scope) (name : String) (slot : Slot) (y : String) :
    (s.insert name slot).find? y = if y = name then some slot else s.find? y := by
  by_cases h : y = name
  · simp [h]
  · rw [if_neg h, Scope.find?_insert_ne h]

/-- A name that is bound at all has a nearest binding. -/
theorem exists_nearest : ∀ {ss : List Scope}, Context.lookup name ss = some old → ∃ level, Nearest ss name level old
  | [], h => nomatch h
  | s :: ss, h => by
    rw [Context.lookup_cons] at h
    cases hs : s.find? name with
    | some slot =>
      rw [hs, Option.some_or] at h
      exact ⟨0, hs.trans h, nofun⟩
    | none =>
      rw [hs, Option.none_or] at h
      obtain ⟨level, hbound, hunbound⟩ := exists_nearest h
      refine ⟨level + 1, (bindingAt_succ ..).trans hbound, fun j hj => ?_⟩
      cases j with
      | zero => exact hs
      | succ j => exact (bindingAt_succ ..).trans (hunbound j (by omega))

/-- A name that some scope binds is bound to something. -/
theorem exists_lookup : ∀ {ss : List Scope} {level : Nat}, bindingAt ss level name = some slot →
    ∃ found, Context.lookup name ss = some found
  | [], _, h => nomatch h
  | s :: ss, 0, h => by
    rw [bindingAt_zero] at h
    exact ⟨slot, by rw [Context.lookup_cons, h, Option.some_or]⟩
  | s :: ss, level + 1, h => by
    obtain ⟨found, hfound⟩ := exists_lookup ((bindingAt_succ ..).symm.trans h)
    rw [Context.lookup_cons, hfound]
    cases s.find? name with
    | none => exact ⟨found, rfl⟩
    | some other => exact ⟨other, rfl⟩

/-- To replace the nearest binding of a name is to change one binding. -/
theorem Nearest.replace {j : Nat} {y : String} : ∀ {ss : List Scope} {level : Nat}, Nearest ss name level old →
    bindingAt (Context.replaceNearest name slot ss) j y =
      if j = level ∧ y = name then some slot else bindingAt ss j y
  | [], level, h => nomatch h.bound
  | s :: ss, level, h => by
    rw [Context.replaceNearest_cons]
    cases level with
    | zero =>
      have hs : s.find? name = some old := h.bound
      rw [hs, Option.isSome_some, if_pos rfl]
      cases j with
      | zero => simp [find?_insert]
      | succ j => simp
    | succ level =>
      have hs : s.find? name = none := h.unbound 0 (by omega)
      have hrest : Nearest ss name level old :=
        ⟨(bindingAt_succ ..).symm.trans h.bound, fun j hj =>
          (bindingAt_succ ..).symm.trans (h.unbound (j + 1) (by omega))⟩
      rw [hs, Option.isSome_none, if_neg Bool.false_ne_true]
      cases j with
      | zero => simp
      | succ j => simp [hrest.replace (j := j) (y := y)]

theorem length_replaceNearest (name : String) (slot : Slot) :
    ∀ ss : List Scope, (Context.replaceNearest name slot ss).length = ss.length
  | [] => rfl
  | s :: ss => by
    rw [Context.replaceNearest_cons]
    split
    · rfl
    · simp [length_replaceNearest name slot ss]

end Bindings

/-! ### Changes of one binding -/

/-- In a context that becomes another one a binding takes a datum. A number takes another number, converted to
its type, which it keeps, and the cell of a counter takes a number converted to an int; anything else gives way to
the datum. No cell changes but the one that takes the number. -/
inductive Takes (c d : Context) (x : Datum) : Slot → Slot → Prop
  | number {old n stored : Number} (hx : x = .number n) (hstored : stored = n.convert old.type)
    (htype : stored.type = old.type) (hcells : d.cells = c.cells) :
    Takes c d x (.plain (.number old)) (.plain (.number stored))
  | cell {a : Nat} {n : Number} (hx : x = .number n) (ha : a < c.cells.size → d.cellAt a = n.toInt)
    (hcells : ∀ b, b ≠ a → d.cellAt b = c.cellAt b) (hsize : d.cells.size = c.cells.size) :
    Takes c d x (.cell a) (.cell a)
  | other {y : Datum} (hy : ∀ n, y ≠ .number n) (hcells : d.cells = c.cells) : Takes c d x (.plain y) (.plain x)

namespace Context

/-- The contexts differ in nothing but what is bound: they have as many scopes, the same functions and the
same calls. -/
structure SameFrame (c d : Context) : Prop where
  depth : d.depth = c.depth
  functions : d.functions = c.functions
  calls : d.calls = c.calls

/-- The second context is the first one with a datum stored in the nearest binding of a name. -/
structure Stored (c d : Context) (name : String) (x : Datum) : Prop extends SameFrame c d where
  target : ∃ level old new, Nearest c.scopes name level old ∧ Takes c d x old new ∧
    ∀ j y, bindingAt d.scopes j y = if j = level ∧ y = name then some new else bindingAt c.scopes j y

/-- The second context is the first one with a datum bound to a new name in the innermost scope. -/
structure Introduced (c d : Context) (name : String) (x : Datum) : Prop extends SameFrame c d where
  fresh : bindingAt c.scopes 0 name = none
  bindings : ∀ j y, bindingAt d.scopes j y = if j = 0 ∧ y = name then some (.plain x) else bindingAt c.scopes j y
  cells : d.cells = c.cells

variable {c d : Context} {name : String} {x : Datum} {old : Slot} {level : Nat}

theorem depth_replace (c : Context) (name : String) (x : Datum) : (c.replace name x).depth = c.depth := by
  have h : (c.replace name x).scopes.length = c.scopes.length := by
    rw [scopes_replace, length_replaceNearest]
  simpa [depth, scopes] using h

/-- What is nearest bound to a name gives way to a datum. -/
theorem Stored.of_replace {y : Datum} (hold : c.find? name = some old)
    (htakes : Takes c (c.replace name y) x old (.plain y)) : c.Stored (c.replace name y) name x := by
  obtain ⟨level, hlevel⟩ := exists_nearest (c.find?_eq_lookup name ▸ hold)
  refine ⟨⟨c.depth_replace .., c.functions_replace .., c.calls_replace ..⟩, level, old, _, hlevel, htakes, fun j z => ?_⟩
  rw [scopes_replace]
  exact hlevel.replace

/-- The cell that is nearest bound to a name takes a number. -/
theorem Stored.of_setCell {a : Nat} {n : Number} (hold : c.find? name = some (.cell a)) :
    c.Stored (c.setCell a n.toInt) name (.number n) := by
  obtain ⟨level, hlevel⟩ := exists_nearest (c.find?_eq_lookup name ▸ hold)
  have htakes : Takes c (c.setCell a n.toInt) (.number n) (.cell a) (.cell a) := by
    refine .cell rfl (fun ha => ?_) (fun b hb => c.cellAt_setCell_ne _ hb) (c.size_setCell a _)
    exact c.cellAt_setCell_self _ ha
  refine ⟨⟨rfl, rfl, rfl⟩, level, _, _, hlevel, htakes, fun j y => ?_⟩
  split
  · rename_i hjy
    rw [hjy.1, hjy.2]
    exact hlevel.bound
  · rfl

/-- A successful assignment stores the datum. -/
theorem Stored.of_assign (h : c.assign name x = .ok d) : c.Stored d name x := by
  unfold Context.assign at h
  split at h
  · cases h
  · rename_i hold
    split at h
    · cases h
      exact .of_setCell hold
    · cases h
  · rename_i hold
    split at h
    · cases h
      exact .of_replace hold (.number rfl rfl (Number.type_convert ..) (c.cells_replace ..))
    · cases h
  · rename_i y hnumber hold
    cases h
    exact .of_replace hold (.other (fun n hn => hnumber n (hn ▸ rfl)) (c.cells_replace ..))

/-- A successful declaration, and then a datum bound to the name. -/
theorem Introduced.of_declare (h : c.declare name = .ok d) (x : Datum) : c.Introduced (d.bind name x) name x := by
  unfold Context.declare at h
  split at h
  · cases h
  · rename_i hfresh
    cases h
    refine ⟨⟨rfl, rfl, rfl⟩, hfresh, fun j y => ?_, rfl⟩
    rw [scopes_bind]
    cases j with
    | zero =>
      by_cases hy : y = name
      · simp [hy]
      · simp [bind, find?_insert, hy, scopes]
    | succ j => simp [bind, scopes]

/-- A declaration leaves the cells alone, so a value reads as before. -/
theorem read_of_declare (h : c.declare name = .ok d) (v : Value) : d.read v = c.read v := by
  unfold Context.declare at h
  split at h
  · cases h
  · cases h
    cases v <;> rfl

/-- A variable in which a datum was stored has a value. -/
theorem Stored.get (h : c.Stored d name x) : ∃ v, d.get name = .ok v := by
  obtain ⟨level, old, new, -, -, hbindings⟩ := h.target
  have hbound : bindingAt d.scopes level name = some new := by rw [hbindings, if_pos ⟨rfl, rfl⟩]
  obtain ⟨slot, hslot⟩ := exists_lookup hbound
  unfold Context.get
  rw [d.find?_eq_lookup, hslot]
  cases slot <;> exact ⟨_, rfl⟩

end Context

/-! ### Assignments -/

/-- The computation fails and leaves the context as it was, or it succeeds and leaves one that is as said. -/
inductive Atomic {α : Type} (S : α → Context → Prop) (x : Eval α) (c : Context) : Prop
  | failed {e : Halt} (h : x c = (.error e, c))
  | done {a : α} {d : Context} (h : x c = (.ok a, d)) (hS : S a d)

/-- The computation fails or succeeds, and leaves the context as it was in either case. -/
abbrev Unchanging {α : Type} (S : α → Prop) (x : Eval α) (c : Context) : Prop :=
  Atomic (fun a d => d = c ∧ S a) x c

namespace Atomic

variable {α β : Type} {S : α → Prop} {T : α → Context → Prop} {U : β → Context → Prop} {x : Eval α}
  {f : α → Eval β} {c : Context}

/-- A part that changes nothing, and what follows. -/
theorem bind (hx : Unchanging S x c) (hf : ∀ a, S a → Atomic U (f a) c) : Atomic U (x >>= f) c := by
  cases hx with
  | failed h => exact .failed (bind_of_error h)
  | done h hS =>
    obtain ⟨rfl, hS⟩ := hS
    cases hf _ hS with
    | failed hfa => exact .failed ((bind_of_ok h).trans hfa)
    | done hfa hU => exact .done ((bind_of_ok h).trans hfa) hU

/-- A part that may change something, and what follows and cannot fail. -/
theorem andThen (hx : Atomic T x c) (hf : ∀ a d, T a d → ∃ b e, f a d = (.ok b, e) ∧ U b e) :
    Atomic U (x >>= f) c := by
  cases hx with
  | failed h => exact .failed (bind_of_error h)
  | done h hT =>
    obtain ⟨b, e, hfa, hU⟩ := hf _ _ hT
    exact .done ((bind_of_ok h).trans hfa) hU

theorem imp {T' : α → Context → Prop} (hx : Atomic T x c) (h : ∀ a d, T a d → T' a d) : Atomic T' x c := by
  cases hx with
  | failed hx => exact .failed hx
  | done hx hT => exact .done hx (h _ _ hT)

theorem raise {e : Fault} : Atomic T (Eval.raise e) c := .failed rfl

theorem ofExcept (r : Except Fault α) : Unchanging (fun a => r = .ok a) (Eval.ofExcept r) c := by
  cases r with
  | ok a => exact .done rfl ⟨rfl, rfl⟩
  | error e => exact .failed rfl

theorem get (name : String) : Unchanging (fun v => c.get name = .ok v) (Eval.get name) c := by
  cases h : c.get name with
  | ok v => exact .done (by rw [Eval.get, h]) ⟨rfl, rfl⟩
  | error e => exact .failed (by rw [Eval.get, h])

theorem read (v : Value) : Unchanging (fun x => x = c.read v) (Eval.read v) c := .done rfl ⟨rfl, rfl⟩

theorem child (ns : List Node) (i : Nat) : Unchanging (fun n => ns[i]? = some n) (Eval.child ns i) c := by
  unfold Eval.child
  cases h : ns[i]? with
  | none => exact .failed rfl
  | some n => exact .done rfl ⟨rfl, rfl⟩

theorem change (g : Context → Except Fault Context) : Atomic (fun _ d => g c = .ok d) (Eval.change g) c := by
  cases h : g c with
  | ok d => exact .done (by rw [Eval.change, h]) rfl
  | error e => exact .failed (by rw [Eval.change, h])

end Atomic

namespace Node

/-- The value of a constant or a variable. -/
def valueIn (c : Context) : Node → Except Fault Value
  | .constant value .. => .ok (.plain value.datum)
  | n => c.get n.text

/-- The node is a constant or a variable. -/
def IsSimple (n : Node) : Prop := n.kind = .constant ∨ n.isForm .identifier = true

/-- The node is an assignment with a constant or a variable on its right side, if it has one, or it is a step
of a variable up or down. -/
inductive Assigns : Node → Prop
  | equation {op : String} {span : Span} {ns : List Node} (h : ∀ rhs, ns[1]? = some rhs → rhs.IsSimple) :
    Assigns (.construct .equation op span ns)
  | step {op : String} {span : Span} {ns : List Node} (h : op = "++" ∨ op = "--") :
    Assigns (.construct .prefixed op span ns)

/-- In this context the node is to bind a datum to a new variable. -/
inductive Introduces (c : Context) : Node → String → Datum → Prop
  | mk {op : String} {span : Span} {target rhs : Node} {rest : List Node} {v : Value}
    (htarget : target.isForm .declaration = true) (hv : rhs.valueIn c = .ok v) :
    Introduces c (.construct .equation op span (target :: rhs :: rest)) target.declaredName (c.read v)

/-- In this context the node is to store a datum in a variable: the value of the right side, or what an
operator makes of it and the value of the variable. -/
inductive Stores (c : Context) : Node → String → Datum → Prop
  | plain {span : Span} {target rhs : Node} {rest : List Node} {v : Value}
    (htarget : target.isForm .identifier = true) (hv : rhs.valueIn c = .ok v) :
    Stores c (.construct .equation "=" span (target :: rhs :: rest)) target.text (c.read v)
  | compound {op : String} {span : Span} {target rhs : Node} {rest : List Node} {u v : Value} {x : Datum}
    (htarget : target.isForm .identifier = true) (hop : op ≠ "=") (hv : rhs.valueIn c = .ok v)
    (hu : c.get target.text = .ok u)
    (hx : (c.read u).binary (BinaryOperator.ofText? (compoundOperator op)) (c.read v) = .ok x) :
    Stores c (.construct .equation op span (target :: rhs :: rest)) target.text x
  | up {span : Span} {target : Node} {rest : List Node} {u : Value} {x : Datum}
    (htarget : target.isForm .identifier = true) (hu : c.get target.text = .ok u)
    (hx : (c.read u).binary (some (.arithmetic .sum)) (.number (.int 1)) = .ok x) :
    Stores c (.construct .prefixed "++" span (target :: rest)) target.text x
  | down {span : Span} {target : Node} {rest : List Node} {u : Value} {x : Datum}
    (htarget : target.isForm .identifier = true) (hu : c.get target.text = .ok u)
    (hx : (c.read u).binary (some (.arithmetic .difference)) (.number (.int 1)) = .ok x) :
    Stores c (.construct .prefixed "--" span (target :: rest)) target.text x

/-- What the node is to do to the first context has become of it in the second one. -/
def Achieved (n : Node) (c d : Context) : Prop :=
  (∃ name x, n.Introduces c name x ∧ c.Introduced d name x) ∨ ∃ name x, n.Stores c name x ∧ c.Stored d name x

variable {host : Host} {fuel : Nat} {n target rhs : Node} {rest : List Node} {c : Context} {op name : String}
  {span : Span} {u v : Value}

/-- Evaluating a constant or a variable changes nothing. -/
theorem IsSimple.eval (h : n.IsSimple) :
    Unchanging (fun r => ∃ v, n.valueIn c = .ok v ∧ r = .ofValue v) (n.eval host fuel) c := by
  cases fuel with
  | zero => exact .failed rfl
  | succ fuel =>
    cases n with
    | constant value text span ns => exact .done rfl ⟨rfl, _, rfl, rfl⟩
    | counted loop generic text span ns => rcases h with h | h <;> cases h
    | construct form text span ns =>
      rcases h with h | h
      · cases h
      · obtain rfl : form = .identifier := by simpa [isForm, kind] using h
        refine .bind (.get text) fun v hv => ?_
        exact .done rfl ⟨rfl, v, hv, rfl⟩

theorem operand_simple {U : Completion → Context → Prop} {next : Value → Eval Completion} (hn : n.IsSimple)
    (hnext : ∀ v, n.valueIn c = .ok v → Atomic U (next v) c) :
    Atomic U (Node.operand (Node.eval host fuel) n next) c := by
  refine .bind hn.eval fun r hr => ?_
  obtain ⟨v, hv, rfl⟩ := hr
  exact hnext v hv

/-- A datum is stored in a variable. -/
theorem assign_atomic (name : String) (x : Datum) :
    Atomic (fun _ d => c.Stored d name x) (Eval.change (·.assign name x)) c :=
  (Atomic.change _).imp fun _ _ h => .of_assign h

theorem assignValue_atomic {n : Node} {w : Value} (hw : n.Stores c name (c.read w)) :
    Atomic (fun _ d => n.Achieved c d)
      (do
        let x ← Eval.read w
        Eval.change (·.assign name x)
        return .ofValue w : Eval Completion) c := by
  refine .bind (.read w) fun x hx => ?_
  subst hx
  exact (assign_atomic _ _).andThen fun _ d hd => ⟨_, d, rfl, .inr ⟨_, _, hw, hd⟩⟩

theorem store_atomic (htarget : target.isForm .identifier = true) (hv : rhs.valueIn c = .ok v) :
    Atomic (fun _ d => Achieved (.construct .equation op span (target :: rhs :: rest)) c d)
      (Node.evalStore op target.text v) c := by
  unfold Node.evalStore
  split
  · rename_i hop
    subst hop
    exact assignValue_atomic (.plain htarget hv)
  · rename_i hop
    refine .bind (.get _) fun u hu => .bind (.read u) fun x hx => .bind (.read v) fun y hy => ?_
    subst hx hy
    refine .bind (.ofExcept _) fun z hz => assignValue_atomic (w := .plain z) ?_
    exact .compound htarget hop hv hu hz

theorem declare_atomic (htarget : target.isForm .declaration = true) (hv : rhs.valueIn c = .ok v) :
    Atomic (fun _ d => Achieved (.construct .equation op span (target :: rhs :: rest)) c d)
      (do
        Eval.change (·.declare target.declaredName)
        let x ← Eval.read v
        Eval.update (·.bind target.declaredName x)
        return .ofValue v : Eval Completion) c := by
  refine (Atomic.change _).andThen fun _ d hd => ?_
  have hbound : c.Introduced (d.bind target.declaredName (d.read v)) target.declaredName (c.read v) := by
    rw [Context.read_of_declare hd v]
    exact .of_declare hd _
  exact ⟨_, _, rfl, .inl ⟨_, _, .mk htarget hv, hbound⟩⟩

theorem equation_atomic {ns : List Node} (h : ∀ rhs, ns[1]? = some rhs → rhs.IsSimple) :
    Atomic (fun _ d => Achieved (.construct .equation op span ns) c d)
      (Node.evalEquation (Node.eval host fuel) op ns) c := by
  refine .bind (.child ns 0) fun target ht => .bind (.child ns 1) fun rhs hr => ?_
  obtain ⟨rest, rfl⟩ : ∃ rest, ns = target :: rhs :: rest := by
    match ns, ht, hr with
    | a :: b :: rest, ht, hr =>
      cases ht
      cases hr
      exact ⟨rest, rfl⟩
  refine operand_simple (h rhs hr) fun v hv => ?_
  split
  · rename_i hform
    exact declare_atomic hform hv
  · split
    · rename_i hform
      exact store_atomic hform hv
    · exact .raise

theorem stepVariable_atomic {o : Arithmetic} {S : Datum → Prop}
    (hS : ∀ u x, c.get name = .ok u → (c.read u).binary (some (.arithmetic o)) (.number (.int 1)) = .ok x → S x) :
    Atomic (fun _ d => ∃ x, S x ∧ c.Stored d name x) (Node.stepVariable o name) c := by
  refine .bind (.get name) fun u hu => .bind (.read u) fun y hy => .bind (.ofExcept _) fun x hx => ?_
  subst hy
  refine (assign_atomic name x).andThen fun _ d hd => ?_
  obtain ⟨w, hw⟩ := hd.get
  refine ⟨.ofDatum (d.read w), d, ?_, x, hS u x hu hx, hd⟩
  exact bind_of_ok (by rw [Eval.get, hw])

theorem prefixed_atomic {ns : List Node} (hop : op = "++" ∨ op = "--") :
    Atomic (fun _ d => Achieved (.construct .prefixed op span ns) c d)
      (Node.evalPrefixed (Node.eval host fuel) op ns) c := by
  refine .bind (.child ns 0) fun target ht => ?_
  obtain ⟨rest, rfl⟩ : ∃ rest, ns = target :: rest := by
    match ns, ht with
    | a :: rest, ht =>
      cases ht
      exact ⟨rest, rfl⟩
  rw [if_pos hop]
  split
  · rename_i hform
    refine (stepVariable_atomic (S := Stores c (.construct .prefixed op span (target :: rest)) target.text) ?_).imp
      fun _ d ⟨x, hx, hd⟩ => .inr ⟨_, x, hx, hd⟩
    rintro u x hu hx
    rcases hop with rfl | rfl
    · exact .up hform hu hx
    · exact .down hform hu hx
  · exact .raise

/-- Assignments are atomic and local: one that fails leaves the context as it was, and one that succeeds has
either bound the value of its right side to a new name in the innermost scope, or stored a datum in the
nearest binding of its target, and has changed nothing else. -/
theorem assignments_atomic (host : Host) (fuel : Nat) (n : Node) (c : Context) (hn : n.Assigns) :
    (∀ e, (n.eval host fuel c).1 = .error e → (n.eval host fuel c).2 = c) ∧
      ∀ r, (n.eval host fuel c).1 = .ok r → n.Achieved c (n.eval host fuel c).2 := by
  have hatomic : Atomic (fun _ d => n.Achieved c d) (n.eval host fuel) c := by
    cases fuel with
    | zero => exact .failed rfl
    | succ fuel =>
      cases hn with
      | equation h => exact equation_atomic h
      | step hop => exact prefixed_atomic hop
  cases hatomic with
  | failed h => simp [h]
  | done h hd => simp [h, hd]

/-- A loop counts in y and a long is in x. Adding y to x changes x alone, and adding a variable that is not
there fails and changes nothing. -/
theorem assignments_atomic_counter :
    let c : Context := ⟨[("y", .cell 0)], [[("x", .plain (.number (.long 5)))]], #[7], #[], #[]⟩
    let d : Context := ⟨[("y", .cell 0)], [[("x", .plain (.number (.long 12)))]], #[7], #[], #[]⟩
    let add (y : String) : Node :=
      .construct .equation "+=" .unknown [.construct .identifier "x" .unknown [], .construct .identifier y .unknown []]
    (∀ y, (add y).Assigns) ∧ ((add "y").eval .silent 2 c).2 = d ∧ (add "y").Achieved c d ∧
      ((add "z").eval .silent 2 c).2 = c := by
  intro c d add
  have hadd : ∀ y, (add y).Assigns := by
    intro y
    refine .equation ?_
    rintro rhs ⟨⟩
    exact .inr rfl
  refine ⟨hadd, rfl, ?_, ?_⟩
  · exact (assignments_atomic .silent 2 (add "y") c (hadd "y")).2 (.ofDatum (.number (.long 12))) rfl
  · exact (assignments_atomic .silent 2 (add "z") c (hadd "z")).1 (.fault (.undefinedVariable "z")) rfl

end Node
end ScriptTree

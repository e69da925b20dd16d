import ScriptTree.Proofs.Run.Conduct

/-!
What a run does not notice: fuel that it does not need, and open scopes that hold nothing.

Two runs of a tree are followed side by side. The second one may have more fuel and further scopes, all of
them empty. As long as the first one does not run out of fuel, both come to the same result, and their
contexts differ afterwards just as they did before. A name that is bound goes into the innermost scope, so
where that one is open on one side only, the tree must be one that binds no name there.

There is one lemma for each construct and an induction on fuel at the end. Without further scopes it says
that more fuel never changes an outcome; with one further scope on top it says that a block around a
statement that binds no name might as well not be there.
-/

namespace ScriptTree

open Eval

variable {α β : Type} {slack : Prop} {L : List Layer} {c d c₀ d₀ : Context} {ss ts : List Scope} {name op : String}
  {run run' : Node.Evaluator} {n m : Node} {ns : List Node} {host : Host}

/-! ### Contexts -/

/-- Two stacks of scopes that are the same, but for the scopes on the right that hold nothing where the layers say
so. -/
inductive Padded : List Layer → List Scope → List Scope → Prop
  | nil : Padded [] [] []
  | shared {layers : List Layer} {s : Scope} {ss ts : List Scope} (h : Padded layers ss ts) :
    Padded (.shared :: layers) (s :: ss) (s :: ts)
  | right {layers : List Layer} {ss ts : List Scope} (h : Padded layers ss ts) :
    Padded (.right :: layers) ss ([] :: ts)

namespace Padded

theorem refl : ∀ ss : List Scope, Padded (List.replicate ss.length .shared) ss ss
  | [] => .nil
  | _ :: ss => .shared (refl ss)

theorem eq (h : Padded L ss ts) (hL : ∀ l ∈ L, l = .shared) : ts = ss := by
  induction h with
  | nil => rfl
  | shared _ ih => rw [ih fun l hl => hL l (.tail _ hl)]
  | right => exact nomatch hL .right (.head _)

/-- Whether a stack has scopes can be told from the layers. -/
theorem left_eq_nil_iff (h : Padded L ss ts) : ss = [] ↔ .shared ∉ L := by
  induction h with
  | nil => simp
  | shared => simp
  | right _ ih => simp [ih]

theorem right_eq_nil_iff (h : Padded L ss ts) : ts = [] ↔ L = [] := by
  cases h <;> simp

theorem lookup (h : Padded L ss ts) : Context.lookup name ts = Context.lookup name ss := by
  induction h with
  | nil => rfl
  | shared _ ih => rw [Context.lookup_cons, Context.lookup_cons, ih]
  | right _ ih => rw [Context.lookup_cons, ih, Scope.find?_nil, Option.none_or]

theorem replaceNearest {slot : Slot} (h : Padded L ss ts) :
    Padded L (Context.replaceNearest name slot ss) (Context.replaceNearest name slot ts) := by
  induction h with
  | nil => exact .nil
  | @shared L s ss ts h ih =>
    rw [Context.replaceNearest_cons, Context.replaceNearest_cons]
    split
    · exact .shared h
    · exact .shared ih
  | right _ ih =>
    rw [Context.replaceNearest_cons, Scope.find?_nil]
    exact .right ih

end Padded

/-- Two contexts that are the same, but for scopes on the right that hold nothing. -/
structure Context.Pads (L : List Layer) (c d : Context) : Prop where
  scopes : Padded L c.scopes d.scopes
  cells : d.cells = c.cells
  functions : d.functions = c.functions
  calls : d.calls = c.calls

namespace Context.Pads

theorem refl (c : Context) : c.Pads (List.replicate c.scopes.length .shared) c := ⟨.refl _, rfl, rfl, rfl⟩

theorem eq (h : c.Pads L d) (hL : ∀ l ∈ L, l = .shared) : d = c := by
  obtain ⟨hscopes, hcells, hfunctions, hcalls⟩ := h
  obtain ⟨s, ss, _, _, _⟩ := c
  obtain ⟨t, ts, _, _, _⟩ := d
  obtain ⟨rfl, rfl⟩ : t = s ∧ ts = ss := List.cons.inj (hscopes.eq hL)
  simp_all

theorem get (h : c.Pads L d) : d.get name = c.get name := by
  unfold Context.get
  rw [find?_eq_lookup, find?_eq_lookup, h.scopes.lookup]

theorem cellAt (h : c.Pads L d) (a : Nat) : d.cellAt a = c.cellAt a := cellAt_congr h.cells a

theorem read (h : c.Pads L d) (v : Value) : d.read v = c.read v := read_congr h.cellAt v

/-- The innermost scope, if it is open on both sides, may be changed on both. -/
theorem innermost (h : c.Pads (.shared :: L) d) :
    d.innermost = c.innermost ∧ ∀ s, ({ c with innermost := s }).Pads (.shared :: L) { d with innermost := s } := by
  obtain ⟨hscopes, hcells, hfunctions, hcalls⟩ := h
  obtain ⟨s, ss, _, _, _⟩ := c
  obtain ⟨t, ts, _, _, _⟩ := d
  cases hscopes with
  | shared h => exact ⟨rfl, fun _ => ⟨.shared h, hcells, hfunctions, hcalls⟩⟩

theorem bind (h : c.Pads (.shared :: L) d) (name : String) (x : Datum) :
    (c.bind name x).Pads (.shared :: L) (d.bind name x) := by
  unfold Context.bind
  rw [h.innermost.1]
  exact h.innermost.2 _

theorem bindAll : ∀ (bs : List (String × Datum)) {c d : Context}, c.Pads (.shared :: L) d →
    (bs.foldl (fun c (x, a) => c.bind x a) c).Pads (.shared :: L) (bs.foldl (fun c (x, a) => c.bind x a) d)
  | [], _, _, h => h
  | (x, a) :: bs, _, _, h => bindAll bs (h.bind x a)

theorem setCell (h : c.Pads L d) (a : Nat) (n : Int32) : (c.setCell a n).Pads L (d.setCell a n) :=
  ⟨h.scopes, by rw [Context.setCell, Context.setCell, h.cells], h.functions, h.calls⟩

theorem replace (h : c.Pads L d) (name : String) (x : Datum) : (c.replace name x).Pads L (d.replace name x) where
  scopes := by
    rw [scopes_replace, scopes_replace]
    exact h.scopes.replaceNearest
  cells := by simpa using h.cells
  functions := by simpa using h.functions
  calls := by simpa using h.calls

theorem push (h : c.Pads L d) : c.push.Pads (.shared :: L) d.push :=
  ⟨.shared h.scopes, h.cells, h.functions, h.calls⟩

/-- Closing a scope; `h₀` says that scopes are left. -/
theorem pop (h₀ : c₀.Pads L d₀) (h : c.Pads (.shared :: L) d) : c.pop.Pads L d.pop where
  scopes := by
    have hleft : .shared ∈ L := by
      by_contra hL
      cases h₀.scopes.left_eq_nil_iff.2 hL
    have hscopes := h.scopes
    generalize hc : c.scopes = ss at hscopes
    generalize hd : d.scopes = ts at hscopes
    cases hscopes with
    | shared hrest =>
      have hss := mt hrest.left_eq_nil_iff.1 (not_not.2 hleft)
      have hts := mt hrest.right_eq_nil_iff.1 (List.ne_nil_of_mem hleft)
      rwa [scopes_pop hc hss, scopes_pop hd hts]
  cells := by simpa using h.cells
  functions := by simpa using h.functions
  calls := by simpa using h.calls

/-- The rounds of a native loop begin. -/
theorem enterLoop (h : c.Pads L d) (name : String) (n : Int32) :
    (c.enterLoop name n).Pads (.shared :: L) (d.enterLoop name n) where
  scopes := by
    rw [scopes_enterLoop, scopes_enterLoop, h.cells]
    exact .shared h.scopes
  cells := by rw [cells_enterLoop, cells_enterLoop, h.cells]
  functions := h.functions
  calls := h.calls

/-- The end of a native loop. -/
theorem leaveLoop (h₀ : c₀.Pads L d₀) (h : c.Pads (.shared :: L) d) (size : Nat) :
    (c.leaveLoop size).Pads L (d.leaveLoop size) :=
  h₀.pop ⟨h.scopes, by rw [h.cells], h.functions, h.calls⟩

theorem define (h : c.Pads L d) (f : ScriptFunction) :
    (c.define f).1 = (d.define f).1 ∧ (c.define f).2.Pads L (d.define f).2 := by
  unfold Context.define
  rw [h.functions]
  exact ⟨rfl, h.scopes, h.cells, rfl, h.calls⟩

theorem call (h : c.Pads L d) (call : HostCall) :
    ({ c with calls := c.calls.push call }).Pads L { d with calls := d.calls.push call } :=
  ⟨h.scopes, h.cells, h.functions, by rw [h.calls]⟩

theorem push_right (c : Context) : c.Pads (.right :: List.replicate c.scopes.length .shared) c.push :=
  ⟨.right (.refl c.scopes), rfl, rfl, rfl⟩

/-- Closing the one scope that is open on the right only. -/
theorem pop_right (h : c.Pads (.right :: L) d) (hL : ∀ l ∈ L, l = .shared) : d.pop = c := by
  obtain ⟨hscopes, hcells, hfunctions, hcalls⟩ := h
  obtain ⟨s, ss, _, _, _⟩ := c
  obtain ⟨t, ts, _, _, _⟩ := d
  cases hscopes with
  | right hrest =>
    obtain rfl := hrest.eq hL
    simp_all [Context.pop, Context.scopes]

end Context.Pads

/-- A change that both contexts refuse for the same fault, or that leads to two such contexts again. -/
inductive Alters (L : List Layer) : Except Fault Context → Except Fault Context → Prop
  | refused {e : Fault} : Alters L (.error e) (.error e)
  | done {c' d' : Context} (h : c'.Pads L d') : Alters L (.ok c') (.ok d')

theorem Context.Pads.assign (h : c.Pads L d) (name : String) (x : Datum) :
    Alters L (c.assign name x) (d.assign name x) := by
  unfold Context.assign
  rw [show d.find? name = c.find? name from h.scopes.lookup]
  split
  · exact .refused
  · split
    · exact .done (h.setCell _ _)
    · exact .refused
  · split
    · exact .done (h.replace _ _)
    · exact .refused
  · exact .done (h.replace _ _)

theorem Context.Pads.declare (h : c.Pads (.shared :: L) d) (name : String) :
    Alters (.shared :: L) (c.declare name) (d.declare name) := by
  unfold Context.declare
  rw [h.innermost.1]
  split
  · exact .refused
  · exact .done (h.bind name .void)

/-! ### Computations -/

/-- From contexts that differ in scopes that hold nothing the second computation comes to the same as the first
one, in contexts that differ likewise. If there is slack, the first one may run out of fuel instead. -/
def Tracks (slack : Prop) (L : List Layer) (x y : Eval α) : Prop :=
  ∀ c d, c.Pads L d → slack ∧ (x c).1 = .error .outOfFuel ∨ (y d).1 = (x c).1 ∧ (x c).2.Pads L (y d).2

/-- Fuel of two runs: the same, or as much at least for the second one if there is slack. -/
def Fuels (slack : Prop) (j k : Nat) : Prop := j = k ∨ slack ∧ j ≤ k

theorem Fuels.refl (j : Nat) : Fuels False j j := .inl rfl

theorem Fuels.of_le {j k : Nat} (h : j ≤ k) : Fuels True j k := .inr ⟨trivial, h⟩

theorem Fuels.pred {j k : Nat} (h : Fuels slack (j + 1) k) : ∃ i, k = i + 1 ∧ Fuels slack j i := by
  rcases h with rfl | ⟨hs, hle⟩
  · exact ⟨j, rfl, .inl rfl⟩
  · exact ⟨k - 1, by omega, .inr ⟨hs, by omega⟩⟩

namespace Tracks

theorem of_eq {x y : Eval α}
    (h : ∀ c d, c.Pads L d → (y d).1 = (x c).1 ∧ (x c).2.Pads L (y d).2) : Tracks slack L x y :=
  fun c d hcd => .inr (h c d hcd)

theorem pure (a : α) : Tracks slack L (Pure.pure a) (Pure.pure a) := of_eq fun _ _ h => ⟨rfl, h⟩

theorem halt (r : Halt) : Tracks slack L (α := α) (Eval.halt r) (Eval.halt r) := of_eq fun _ _ h => ⟨rfl, h⟩

theorem raise (f : Fault) : Tracks slack L (α := α) (Eval.raise f) (Eval.raise f) := halt _

/-- Without fuel at first. -/
theorem outOfFuel {j : Nat} {y : Nat → Eval α} (h : Fuels slack 0 j) (h₀ : y 0 = Eval.halt .outOfFuel) :
    Tracks slack L (Eval.halt .outOfFuel) (y j) := by
  rcases h with rfl | ⟨hs, -⟩
  · rw [h₀]
    exact halt _
  · exact fun c d _ => .inl ⟨hs, rfl⟩

theorem ofExcept (e : Except Fault α) : Tracks slack L (Eval.ofExcept e) (Eval.ofExcept e) := by
  cases e with
  | ok a => exact pure a
  | error f => exact raise f

theorem look {f g : Context → α} (h : ∀ c d, c.Pads L d → g d = f c) :
    Tracks slack L (Eval.look f) (Eval.look g) :=
  of_eq fun c d hcd => ⟨congrArg Except.ok (h c d hcd), hcd⟩

theorem read (v : Value) : Tracks slack L (Eval.read v) (Eval.read v) := look fun _ _ h => h.read v

theorem get (name : String) : Tracks slack L (Eval.get name) (Eval.get name) := by
  refine of_eq fun c d h => ?_
  unfold Eval.get
  rw [h.get]
  split <;> exact ⟨rfl, h⟩

theorem update {f g : Context → Context} (h : ∀ c d, c.Pads L d → (f c).Pads L (g d)) :
    Tracks slack L (Eval.update f) (Eval.update g) :=
  of_eq fun c d hcd => ⟨rfl, h c d hcd⟩

theorem change {f g : Context → Except Fault Context} (h : ∀ c d, c.Pads L d → Alters L (f c) (g d)) :
    Tracks slack L (Eval.change f) (Eval.change g) := by
  refine of_eq fun c d hcd => ?_
  have hfg := h c d hcd
  unfold Eval.change
  generalize f c = r at hfg
  generalize g d = r' at hfg
  cases hfg with
  | refused => exact ⟨rfl, hcd⟩
  | done h => exact ⟨rfl, h⟩

/-- One computation after another. -/
theorem bind {x y : Eval α} {f g : α → Eval β} (hx : Tracks slack L x y)
    (hf : ∀ a, Tracks slack L (f a) (g a)) : Tracks slack L (x >>= f) (y >>= g) := by
  intro c d h
  have hxy := hx c d h
  show slack ∧ (Eval.bind x f c).1 = _ ∨
    (Eval.bind y g d).1 = (Eval.bind x f c).1 ∧ (Eval.bind x f c).2.Pads L (Eval.bind y g d).2
  unfold Eval.bind
  generalize x c = p at hxy ⊢
  generalize y d = q at hxy ⊢
  obtain ⟨r, c'⟩ := p
  obtain ⟨r', d'⟩ := q
  rcases hxy with ⟨hs, hr⟩ | ⟨hr, h'⟩
  · cases hr
    exact .inl ⟨hs, rfl⟩
  · cases hr
    cases r with
    | ok a => exact hf a c' d' h'
    | error e => exact .inr ⟨rfl, h'⟩

/-- A value is read. -/
theorem readThen {v : Value} {f g : Datum → Eval β} (h : ∀ x, Tracks slack L (f x) (g x)) :
    Tracks slack L (Eval.read v >>= f) (Eval.read v >>= g) := (read v).bind h

/-- A result, or a fault in its place. -/
theorem okThen {e : Except Fault α} {f g : α → Eval β} (h : ∀ a, Tracks slack L (f a) (g a)) :
    Tracks slack L (Eval.ofExcept e >>= f) (Eval.ofExcept e >>= g) := (ofExcept e).bind h

/-- Data are stored in the nearest binding of a name. -/
theorem assign (name : String) (x : Datum) :
    Tracks slack L (Eval.change (·.assign name x)) (Eval.change (·.assign name x)) :=
  change fun _ _ h => h.assign name x

/-- One of the children. -/
theorem child {i : Nat} {f g : Node → Eval β} (h : ∀ n ∈ ns, Tracks slack L (f n) (g n)) :
    Tracks slack L (Eval.child ns i >>= f) (Eval.child ns i >>= g) := by
  unfold Eval.child
  cases hn : ns[i]? with
  | none => exact halt (.missingChild i ns.length)
  | some n => exact h n (List.mem_of_getElem? hn)

/-- Inside a scope. -/
theorem withScope {x y : Eval α} (h : Tracks slack (.shared :: L) x y) :
    Tracks slack L (Eval.withScope x) (Eval.withScope y) := by
  intro c d hcd
  rcases h c.push d.push hcd.push with hfuel | ⟨hr, h'⟩
  · exact .inl hfuel
  · exact .inr ⟨hr, hcd.pop h'⟩

/-- Without further scopes the second computation does the same, unless the first one runs out of fuel. -/
theorem same {x y : Eval α} (h : Tracks slack (List.replicate c.scopes.length .shared) x y)
    (hx : (x c).1 ≠ .error .outOfFuel) : y c = x c := by
  obtain ⟨hr, hpads⟩ := (h c c (.refl c)).resolve_left fun hout => hx hout.2
  exact Prod.ext hr (hpads.eq fun l hl => (List.mem_replicate.1 hl).2)

/-! ### Operands and statements -/

theorem operand {next next' : Value → Eval Completion} (hn : Tracks slack L (run n) (run' n))
    (hnext : ∀ v, Tracks slack L (next v) (next' v)) :
    Tracks slack L (Node.operand run n next) (Node.operand run' n next') := by
  refine hn.bind fun r => ?_
  cases r.flow with
  | normal => exact hnext r.value
  | _ => exact pure r

theorem condition (hn : Tracks slack L (run n) (run' n)) :
    Tracks slack L (Node.condition run n) (Node.condition run' n) :=
  hn.bind fun _ => readThen fun _ => ofExcept _

theorem sequence : ∀ (ns : List Node) (last : Completion), (∀ n ∈ ns, Tracks slack L (run n) (run' n)) →
    Tracks slack L (Node.sequence run ns last) (Node.sequence run' ns last)
  | [], last, _ => pure last
  | n :: ns, _, hns => by
    refine (hns n (.head _)).bind fun r => ?_
    cases r.flow with
    | normal => exact sequence ns r fun m hm => hns m (.tail _ hm)
    | _ => exact pure r

/-! ### Loops -/

theorem rounds {test test' : Eval Bool} {step step' : Eval Unit} (htest : Tracks slack L test test')
    (hbody : Tracks slack L (run n) (run' n)) (hstep : Tracks slack L step step') :
    ∀ {j k : Nat}, Fuels slack j k →
      Tracks slack L (Node.rounds run test n step j) (Node.rounds run' test' n step' k)
  | 0, _, hfuel => outOfFuel (y := Node.rounds run' test' n step') hfuel rfl
  | j + 1, _, h => by
    obtain ⟨k, rfl, hfuel⟩ := h.pred
    refine htest.bind fun holds => ?_
    cases holds with
    | false => exact pure _
    | true =>
      refine hbody.bind fun r => ?_
      have hnext : Tracks slack L (do step; Node.rounds run test n step j)
          (do step'; Node.rounds run' test' n step' k) :=
        hstep.bind fun _ => rounds htest hbody hstep hfuel
      cases r.flow with
      | broken => exact pure _
      | returned => exact pure r
      | _ => exact hnext

variable {j k : Nat}

theorem whileLoop (hns : ∀ n ∈ ns, Tracks slack L (run n) (run' n)) (hfuel : Fuels slack j k) :
    Tracks slack L (Node.evalWhile run j ns) (Node.evalWhile run' k ns) :=
  child fun test ht => child fun body hb => rounds (condition (hns test ht)) (hns body hb) (pure ()) hfuel

theorem forLoop (hns : ∀ n ∈ ns, Tracks slack (.shared :: L) (run n) (run' n)) (hfuel : Fuels slack j k) :
    Tracks slack L (Node.evalFor run j ns) (Node.evalFor run' k ns) := by
  refine child fun setup hsetup => child fun test htest => child fun step hstep => child fun body hbody => ?_
  refine withScope ((hns setup hsetup).bind fun _ => ?_)
  exact rounds (condition (hns test htest)) (hns body hbody) ((hns step hstep).bind fun _ => pure ()) hfuel

/-- A native loop: its rounds run in a scope of their own, with the counter in a cell. -/
theorem counted {loop : CountedLoop} (hns : ∀ n ∈ ns, Tracks slack (.shared :: L) (run n) (run' n))
    (hfuel : Fuels slack j k) :
    Tracks slack L (Node.evalCounted run j loop ns) (Node.evalCounted run' k loop ns) := by
  match ns with
  | [] => exact of_eq fun _ _ h => ⟨rfl, h⟩
  | body :: rest =>
    -- The address of the cell is the number of cells there are, so it is the same on both sides.
    intro c d h
    rw [Node.evalCounted_cons, Node.evalCounted_cons, h.cells]
    have hrounds : Tracks slack (.shared :: L) (Node.countedRounds run j loop.limit body c.cells.size)
        (Node.countedRounds run' k loop.limit body c.cells.size) := by
      refine rounds (look fun c d h => ?_) (hns body (.head _)) (update fun c d h => ?_) hfuel
      · rw [h.cellAt]
      · rw [h.cellAt]
        exact h.setCell _ _
    rcases hrounds _ _ (h.enterLoop loop.counter loop.first) with hout | ⟨hr, h'⟩
    · exact .inl hout
    · exact .inr ⟨hr, h.leaveLoop h' _⟩

/-! ### Operators -/

theorem conditional (hns : ∀ n ∈ ns, Tracks slack L (run n) (run' n)) :
    Tracks slack L (Node.evalConditional run ns) (Node.evalConditional run' ns) := by
  refine child fun test ht => operand (hns test ht) fun v => readThen fun x => okThen fun holds => ?_
  cases holds with
  | true => exact child fun branch hb => hns branch hb
  | false =>
    simp only [Bool.false_eq_true, if_false]
    split
    · rename_i branch hbranch
      exact hns branch (List.mem_of_getElem? hbranch)
    · exact pure _

theorem binary (hns : ∀ n ∈ ns, Tracks slack L (run n) (run' n)) :
    Tracks slack L (Node.evalBinary run op ns) (Node.evalBinary run' op ns) := by
  refine child fun lhs hl => operand (hns lhs hl) fun u => ?_
  split
  · refine readThen fun x => okThen fun left => ?_
    split
    · exact pure _
    · refine child fun rhs hr => operand (hns rhs hr) fun v => ?_
      exact readThen fun y => okThen fun right => pure _
  · refine child fun rhs hr => operand (hns rhs hr) fun v => ?_
    exact readThen fun x => readThen fun y => okThen fun z => pure _

theorem stepVariable (o : Arithmetic) (name : String) :
    Tracks slack L (Node.stepVariable o name) (Node.stepVariable o name) :=
  (get name).bind fun _ => readThen fun _ => okThen fun _ => (assign name _).bind fun _ =>
    (get name).bind fun _ => readThen fun _ => pure _

theorem prefixed (hns : ∀ n ∈ ns, Tracks slack L (run n) (run' n)) :
    Tracks slack L (Node.evalPrefixed run op ns) (Node.evalPrefixed run' op ns) := by
  refine child fun target ht => ?_
  split
  · split
    · exact stepVariable _ _
    · exact raise _
  · refine operand (hns target ht) fun v => readThen fun x => ?_
    split <;> exact okThen fun y => pure _

theorem store (op name : String) (v : Value) :
    Tracks slack L (Node.evalStore op name v) (Node.evalStore op name v) := by
  have hassign : ∀ u : Value, Tracks slack L
      (do
        let x ← Eval.read u
        Eval.change (·.assign name x)
        return .ofValue u : Eval Completion)
      (do
        let x ← Eval.read u
        Eval.change (·.assign name x)
        return .ofValue u : Eval Completion) :=
    fun u => readThen fun x => (assign name x).bind fun _ => pure _
  unfold Node.evalStore
  split
  · exact hassign v
  · exact (get name).bind fun u => readThen fun x => readThen fun y => okThen fun z => hassign _

/-- An assignment. Its target may be a declaration where the innermost scope is open on both sides. -/
theorem equation (hns : ∀ n ∈ ns, Tracks slack L (run n) (run' n))
    (hdeclares : ∀ n ∈ ns, n.isForm .declaration = true → L.head? = some .shared) :
    Tracks slack L (Node.evalEquation run op ns) (Node.evalEquation run' op ns) := by
  refine child fun target ht => child fun rhs hr => operand (hns rhs hr) fun v => ?_
  split
  · rename_i hform
    obtain ⟨L', rfl⟩ := List.head?_eq_some_iff.1 (hdeclares target ht hform)
    refine (change fun _ _ h => h.declare _).bind fun _ => readThen fun x => ?_
    exact (update fun _ _ h => h.bind _ x).bind fun _ => pure _
  · split
    · exact store op _ v
    · exact raise _

theorem returned (hns : ∀ n ∈ ns, Tracks slack L (run n) (run' n)) :
    Tracks slack L (Node.evalReturn run ns) (Node.evalReturn run' ns) := by
  match ns with
  | [] => exact pure _
  | n :: rest =>
    unfold Node.evalReturn
    exact operand (hns n (.head _)) fun v => readThen fun x => pure _

/-! ### Functions -/

theorem definition : Tracks slack (.shared :: L) (Node.evalDefinition ns) (Node.evalDefinition ns) := by
  cases hf : Node.functionOf? ns with
  | none =>
    rw [Node.evalDefinition_none hf]
    exact raise _
  | some f =>
    refine of_eq fun c d h => ?_
    rw [Node.evalDefinition_some hf, Node.evalDefinition_some hf, ← h.define f |>.1]
    exact ⟨rfl, (h.define f).2.bind _ _⟩

theorem callHost (f : HostFunction) (arguments : List Datum) :
    Tracks slack L (Node.callHost host f arguments) (Node.callHost host f arguments) := by
  refine of_eq fun c d h => ?_
  have hcalls := h.call ⟨f, arguments⟩
  unfold Node.callHost
  rw [h.calls] at hcalls ⊢
  dsimp only
  generalize host.answer c.calls ⟨f, arguments⟩ = answer
  cases answer with
  | ok x => exact ⟨rfl, hcalls⟩
  | error e => exact ⟨rfl, hcalls⟩

/-- Two functions that take the same arguments and whose bodies come to the same datum. -/
theorem callScript {f g : ScriptFunction} (hname : g.name = f.name) (hparameters : g.parameters = f.parameters)
    (hbody : Tracks slack (.shared :: L) (do let r ← run f.body; Eval.read r.value)
      (do let r ← run' g.body; Eval.read r.value)) (arguments : List Datum) :
    Tracks slack L (Node.callScript run f arguments) (Node.callScript run' g arguments) := by
  unfold Node.callScript
  rw [hname, hparameters]
  split
  · exact raise _
  · exact withScope ((update fun c d h => h.bindAll _).bind fun _ => hbody)

theorem callDatum (hbodies : ∀ n, Tracks slack (.shared :: L) (run n) (run' n)) (target : Datum)
    (arguments : List Datum) :
    Tracks slack L (Node.callDatum host run target arguments) (Node.callDatum host run' target arguments) := by
  cases target with
  | host f => exact callHost f arguments
  | script reference =>
    refine (look fun c d h => by rw [h.functions]).bind fun f? => ?_
    cases f? with
    | some f => exact callScript rfl rfl ((hbodies f.body).bind fun r => read r.value) arguments
    | none => exact raise _
  | _ => exact raise _

theorem callName (hbodies : ∀ n, Tracks slack (.shared :: L) (run n) (run' n)) (name : String)
    (arguments : List Datum) :
    Tracks slack L (Node.callName host run name arguments) (Node.callName host run' name arguments) := by
  refine (look fun c d h => h.get).bind fun found => ?_
  cases found with
  | ok v => exact readThen fun target => (callDatum hbodies target arguments).bind fun x => pure _
  | error e =>
    dsimp only
    split
    · exact okThen fun x => pure _
    · exact raise _

theorem arguments {next next' : List Datum → Eval Completion} (hnext : ∀ xs, Tracks slack L (next xs) (next' xs)) :
    ∀ (ns : List Node) (done : List Datum), (∀ n ∈ ns, Tracks slack L (run n) (run' n)) →
      Tracks slack L (Node.evalArguments run next ns done) (Node.evalArguments run' next' ns done)
  | [], done, _ => hnext done.reverse
  | n :: ns, done, hns => operand (hns n (.head _)) fun _ => readThen fun x =>
      arguments hnext ns (x :: done) fun m hm => hns m (.tail _ hm)

/-- A call. The list of arguments is not evaluated, but what is in it. -/
theorem call (hbodies : ∀ n, Tracks slack (.shared :: L) (run n) (run' n))
    (hns : ∀ n ∈ ns, Tracks slack L (run n) (run' n))
    (hlist : ∀ list, ns[1]? = some list → ∀ n ∈ list.children, Tracks slack L (run n) (run' n)) :
    Tracks slack L (Node.evalCall host run ns) (Node.evalCall host run' ns) := by
  refine child fun callee hcallee => arguments (fun xs => ?_) _ [] fun n hn => ?_
  · split
    · exact callName hbodies callee.text xs
    · refine operand (hns callee hcallee) fun v => readThen fun target => ?_
      exact (callDatum hbodies target xs).bind fun x => pure _
  · split at hn
    · rename_i list h
      exact hlist list h n hn
    · cases hn

end Tracks

/-! ### Trees -/

namespace Node

/-- The node may be evaluated where the open scopes are these: the innermost one is open on both sides, or the
node binds no name there. -/
def Suits (n : Node) (L : List Layer) : Prop := L.head? = some .shared ∨ n.Modest

variable {form : Form} {text : String} {span : Span}

theorem Suits.child (h : (construct form text span ns).Suits L) (hform : form ≠ .block) (hm : m ∈ ns) : m.Suits L :=
  h.imp_right fun hmodest => hmodest.child hform hm

/-- What is in the list of arguments of a call. -/
theorem Suits.argument (h : (construct .call text span ns).Suits L) {list : Node} (hlist : ns[1]? = some list)
    (hm : m ∈ list.children) : m.Suits L :=
  h.imp_right fun hmodest => hmodest.argument hlist hm

/-- More fuel, where there is slack, and scopes that hold nothing go unnoticed. -/
theorem eval_tracks (host : Host) : ∀ {j k : Nat} (n : Node) (L : List Layer), Fuels slack j k → n.Suits L →
    Tracks slack L (eval host j n) (eval host k n)
  | 0, _, n, _, hfuel, _ => .outOfFuel (y := fun k => eval host k n) hfuel rfl
  | j + 1, _, n, L, hjk, h => by
    obtain ⟨k, rfl, hfuel⟩ := hjk.pred
    -- In a scope that the construct itself opens, on both sides, any node may be evaluated.
    have ih := fun (m : Node) L (hm : m.Suits L) => eval_tracks host m L hfuel hm
    have hopen : ∀ m, Tracks slack (.shared :: L) (eval host j m) (eval host k m) := fun m => ih m _ (.inl rfl)
    cases n with
    | constant => exact .pure _
    | counted loop g text span ns => exact .counted (fun m _ => hopen m) hfuel
    | construct form text span ns =>
      by_cases hblock : form = .block
      · subst hblock
        exact .withScope (.sequence ns .done fun m _ => hopen m)
      · have hns : ∀ m ∈ ns, Tracks slack L (eval host j m) (eval host k m) := fun m hm => ih m L (h.child hblock hm)
        cases form with
        | block => exact absurd rfl hblock
        | identifier => exact (Tracks.get text).bind fun v => .pure _
        | declaration =>
          rcases h with hL | hmodest
          · obtain ⟨L', rfl⟩ := List.head?_eq_some_iff.1 hL
            exact (Tracks.change fun _ _ h => h.declare _).bind fun _ => .pure _
          · exact absurd rfl hmodest.form_ne.1
        | equation =>
          refine .equation hns fun m hm hform => (h.child hblock hm).resolve_right fun hmodest => ?_
          rw [hmodest.not_declaration] at hform
          cases hform
        | binary => exact .binary hns
        | prefixed => exact .prefixed hns
        | conditional | ternary => exact .conditional hns
        | forLoop => exact .forLoop (fun m _ => hopen m) hfuel
        | whileLoop => exact .whileLoop hns hfuel
        | returned => exact .returned hns
        | breakLoop | continueLoop | noop | argumentList => exact .pure _
        | definition =>
          rcases h with hL | hmodest
          · obtain ⟨L', rfl⟩ := List.head?_eq_some_iff.1 hL
            exact .definition
          · exact absurd rfl hmodest.form_ne.2
        | call => exact .call hopen hns fun list hlist m hm => ih m L (h.argument hlist hm)

/-- More fuel than enough changes nothing. -/
theorem eval_mono {j k : Nat} (hjk : j ≤ k) (h : (eval host j n c).1 ≠ .error .outOfFuel) :
    eval host k n c = eval host j n c :=
  (eval_tracks host n _ (Fuels.of_le hjk) (.inl rfl)).same h

/-- With enough fuel for a run to end there is enough for good. -/
theorem settles_iff {o : Outcome Completion} (ho : o.1 ≠ .error .outOfFuel) :
    Settles (fun j => eval host j n) c o ↔ ∃ j, eval host j n c = o := by
  constructor
  · exact fun ⟨k, hk⟩ => ⟨k, hk k (Nat.le_refl k)⟩
  · rintro ⟨k, rfl⟩
    exact ⟨k, fun j hj => eval_mono hj ho⟩

/-- A node that binds no name in the scope around it does the same in a new scope. -/
theorem Modest.eval_push (h : n.Modest) (host : Host) (fuel : Nat) (c : Context) :
    (eval host fuel n c.push).1 = (eval host fuel n c).1 ∧
      (eval host fuel n c.push).2.pop = (eval host fuel n c).2 := by
  have hsame := eval_tracks host n (.right :: List.replicate c.scopes.length .shared) (Fuels.refl fuel)
    (.inr h) c c.push (.push_right c)
  obtain ⟨hr, hpads⟩ := hsame.resolve_left fun hout => hout.1
  exact ⟨hr, hpads.pop_right fun l hl => (List.mem_replicate.1 hl).2⟩

/-- A block around a single statement that binds no name does what the statement does. -/
theorem Modest.eval_block (h : n.Modest) (fuel : Nat) (c : Context) :
    eval host (fuel + 1) (construct .block text span [n]) c = eval host fuel n c := by
  obtain ⟨hr, hpop⟩ := h.eval_push host fuel c
  show Eval.withScope (sequence (eval host fuel) [n] .done) c = _
  rw [Sim.sequence_singleton]
  exact Prod.ext hr hpop

end Node

end ScriptTree

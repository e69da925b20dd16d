import Mathlib.Order.Filter.AtTopBot.Basic
import ScriptTree.Proofs.Optimize.Likeness
import ScriptTree.Proofs.Run.Bindings
import ScriptTree.Proofs.Run.Padding

/-!
Loops that count. Where the body of a counting loop leaves the counter alone and ends normally or with a
continue, the body is started once for each int from the first one to below the limit, in that order, and
then the loop is done. This holds of a loop with a variable and of the native loop with a cell.

`Node.evalNoting` evaluates loops like `Node.eval` and notes the contexts in which their bodies are started.
The induction is on the distance of the counter from the limit; an int below a limit has a successor, so it
shrinks.
-/

namespace ScriptTree

open Eval Filter

/-! ### The starts of a loop's body -/

namespace Node

/-- The rounds of a loop, with the contexts in which its body is started. -/
def roundsNoting (run : Evaluator) (test : Eval Bool) (body : Node) (step : Eval Unit) :
    Nat → Context → List Context × Outcome Completion
  | 0, c => ([], .error .outOfFuel, c)
  | fuel + 1, c =>
    match test c with
    | (.error h, d) => ([], .error h, d)
    | (.ok false, d) => ([], .ok .done, d)
    | (.ok true, d) =>
      match run body d with
      | (.error h, e) => ([d], .error h, e)
      | (.ok r, e) =>
        match r.flow with
        | .broken => ([d], .ok .done, e)
        | .returned => ([d], .ok r, e)
        | _ =>
          match step e with
          | (.error h, e') => ([d], .error h, e')
          | (.ok _, e') =>
            let (starts, o) := roundsNoting run test body step fuel e'
            (d :: starts, o)

/-- Evaluates a node and, if it is a loop with a head or a native loop, notes the contexts in which its body is
started. -/
def evalNoting (host : Host) : Nat → Node → Context → List Context × Outcome Completion
  | fuel + 1, .construct .forLoop _ _ (setup :: test :: step :: body :: _), c =>
    match eval host fuel setup c.push with
    | (.error h, d) => ([], .error h, d.pop)
    | (.ok _, d) =>
      let (starts, r, e) := roundsNoting (eval host fuel) (condition (eval host fuel) test) body
        (do let _ ← eval host fuel step; return ()) fuel d
      (starts, r, e.pop)
  | fuel + 1, .counted loop _ _ _ (body :: _), c =>
    let (starts, r, e) := roundsNoting (eval host fuel) (Eval.look fun d => d.cellAt c.cells.size < loop.limit) body
      (Eval.update fun d => d.setCell c.cells.size (d.cellAt c.cells.size + 1)) fuel
      (c.enterLoop loop.counter loop.first)
    (starts, r, e.leaveLoop c.cells.size)
  | fuel, n, c => ([], n.eval host fuel c)

variable {run : Evaluator} {test : Eval Bool} {body : Node} {step : Eval Unit} {host : Host} {fuel : Nat}
  {c d e e' : Context} {r : Completion}

/-- Noting where the body is started changes nothing. -/
theorem roundsNoting_snd (fuel : Nat) (c : Context) :
    (roundsNoting run test body step fuel c).2 = rounds run test body step fuel c := by
  induction fuel generalizing c with
  | zero => rfl
  | succ fuel ih =>
    rw [roundsNoting, rounds]
    rcases ht : test c with ⟨h | _ | _, d⟩
    · exact (bind_of_error ht).symm
    · rw [bind_of_ok ht, if_neg Bool.false_ne_true]
      rfl
    · rw [bind_of_ok ht, if_pos rfl]
      rcases hb : run body d with ⟨h | r, e⟩
      · simp only [hb, bind_of_error hb]
      · simp only [hb, bind_of_ok hb]
        cases r.flow with
        | broken => rfl
        | returned => rfl
        | normal | continued =>
          rcases hs : step e with ⟨h | _, e'⟩
          · simp only [bind_of_error hs]
          · simp only [bind_of_ok hs, ih]

/-- With the notes left out, a node does what it always does. -/
theorem evalNoting_snd (host : Host) (fuel : Nat) (n : Node) (c : Context) :
    (n.evalNoting host fuel c).2 = n.eval host fuel c := by
  unfold evalNoting
  split
  · rename_i fuel _ _ setup test step body _
    show _ = Eval.withScope (Eval.bind (Node.eval host fuel setup) _) c
    rw [Eval.withScope, Eval.bind]
    rcases eval host fuel setup c.push with ⟨h | r, d⟩
    · rfl
    · simp only [← roundsNoting_snd]
  · rename_i fuel loop _ _ _ body _
    show _ = evalCounted _ _ _ _ _
    rw [evalCounted_cons, countedRounds, ← roundsNoting_snd]
  · rfl

theorem roundsNoting_done (ht : test c = (.ok false, d)) :
    roundsNoting run test body step (fuel + 1) c = ([], .ok .done, d) := by
  rw [roundsNoting, ht]

theorem roundsNoting_round (ht : test c = (.ok true, d)) (hb : run body d = (.ok r, e))
    (hr : r.flow = .normal ∨ r.flow = .continued) (hs : step e = (.ok (), e')) :
    roundsNoting run test body step (fuel + 1) c =
      (d :: (roundsNoting run test body step fuel e').1, (roundsNoting run test body step fuel e').2) := by
  rcases hr with hr | hr <;> simp only [roundsNoting, ht, hb, hr, hs]

/-- Where the test holds the body is started. -/
theorem mem_roundsNoting (ht : test c = (.ok true, d)) : d ∈ (roundsNoting run test body step (fuel + 1) c).1 := by
  simp only [roundsNoting, ht]
  rcases run body d with ⟨h | r, e⟩
  · exact List.mem_singleton_self d
  · dsimp only
    cases r.flow with
    | broken | returned => exact List.mem_singleton_self d
    | normal | continued => rcases step e with ⟨h | _, e'⟩ <;> simp

end Node

/-! ### Counting -/

/-- An int below another one has a successor. -/
theorem toInt_succ {i limit : Int32} (h : i < limit) : (i + 1).toInt = i.toInt + 1 := by
  have hi : -2 ^ 31 ≤ i.toInt := i.le_toInt
  have hlimit : limit.toInt < 2 ^ 31 := limit.toInt_lt
  rw [Int32.lt_iff_toInt_lt] at h
  have hone : (1 : Int32).toInt = 1 := rfl
  rw [Int32.toInt_add, hone, Int.bmod_eq_of_le]
  · omega
  · omega

/-- These contexts hold the ints from the first one to below the limit, one after the other, and each of these
ints has a successor. -/
structure Counted (holds : Int32 → Context → Prop) (first limit : Int32) (starts : List Context) : Prop where
  length : starts.length = (limit.toInt - first.toInt).toNat
  each : ∀ (j : Nat) (hj : j < starts.length), ∃ i : Int32, i.toInt = first.toInt + j ∧
    (i + 1).toInt = i.toInt + 1 ∧ holds i starts[j]

section Counting

variable {holds : Int32 → Context → Prop} {next : Int32 → Context → Context} {first limit : Int32}
  {starts : List Context} {d : Context}

theorem Counted.imp {holds' : Int32 → Context → Prop} (h : Counted holds first limit starts)
    (himp : ∀ i d, holds i d → holds' i d) : Counted holds' first limit starts where
  length := h.length
  each j hj := by
    obtain ⟨i, hi, hsucc, hholds⟩ := h.each j hj
    exact ⟨i, hi, hsucc, himp i _ hholds⟩

theorem Counted.nil (h : ¬first < limit) : Counted holds first limit [] where
  length := by
    rw [Int32.lt_iff_toInt_lt] at h
    simp
    omega
  each j hj := absurd hj (Nat.not_lt_zero j)

theorem Counted.cons (h : first < limit) (hd : holds first d) (hstarts : Counted holds (first + 1) limit starts) :
    Counted holds first limit (d :: starts) where
  length := by
    have hsucc := toInt_succ h
    rw [Int32.lt_iff_toInt_lt] at h
    rw [List.length_cons, hstarts.length]
    omega
  each j hj := by
    cases j with
    | zero => exact ⟨first, by simp, toInt_succ h, hd⟩
    | succ j =>
      obtain ⟨i, hi, hsucc, hholds⟩ := hstarts.each j (Nat.lt_of_succ_lt_succ hj)
      rw [toInt_succ h] at hi
      exact ⟨i, by push_cast; omega, hsucc, hholds⟩

/-- Where the counter holds an int, the test compares it with the limit, and the step moves on to a context where
it holds the next one. -/
structure Ticks (test : Eval Bool) (step : Eval Unit) (limit : Int32) (holds : Int32 → Context → Prop)
    (next : Int32 → Context → Context) : Prop where
  test : ∀ i c, holds i c → test c = (.ok (decide (i < limit)), c)
  step : ∀ i c, holds i c → step c = (.ok (), next i c)
  next : ∀ i c, holds i c → holds (i + 1) (next i c)

/-- Where the counter holds an int in the range, the body ends normally or with a continue, and the counter holds
it still. -/
def Leaves (runs : Nat → Node.Evaluator) (body : Node) (holds : Int32 → Context → Prop) (first limit : Int32)
    (d : Context) : Prop :=
  ∀ i, first ≤ i → i < limit → holds i d → ∃ r e, Settles (fun j => runs j body) d (.ok r, e) ∧
    (r.flow = .normal ∨ r.flow = .continued) ∧ holds i e

variable {runs : Nat → Node.Evaluator} {test : Nat → Eval Bool} {body : Node} {step : Nat → Eval Unit}

variable {i : Int32} {c : Context}

/-- Where the counter has reached the limit there are no more rounds. -/
theorem Ticks.stop (hticks : ∀ᶠ j in atTop, Ticks (test j) (step j) limit holds next) (hc : holds i c)
    (hlt : ¬i < limit) :
    ∀ᶠ j in atTop, ∀ fuel, Node.roundsNoting (runs j) (test j) body (step j) (fuel + 1) c = ([], .ok .done, c) := by
  filter_upwards [hticks] with j hj fuel
  refine Node.roundsNoting_done ?_
  rw [hj.test i c hc, decide_eq_false hlt]

/-- Below the limit the body is started, and all other rounds follow from a context with the next int. -/
theorem Ticks.round (hticks : ∀ᶠ j in atTop, Ticks (test j) (step j) limit holds next) (hi : first ≤ i)
    (hlt : i < limit) (hc : holds i c) (hleaves : Leaves runs body holds first limit c) :
    ∃ e, holds (i + 1) e ∧ ∀ᶠ j in atTop, ∀ fuel,
      Node.roundsNoting (runs j) (test j) body (step j) (fuel + 1) c =
        (c :: (Node.roundsNoting (runs j) (test j) body (step j) fuel e).1,
          (Node.roundsNoting (runs j) (test j) body (step j) fuel e).2) := by
  obtain ⟨r, e, hrun, hr, he⟩ := hleaves i hi hlt hc
  obtain ⟨j, hj⟩ := hticks.exists
  refine ⟨next i e, hj.next i e he, ?_⟩
  filter_upwards [hticks, eventually_atTop.2 hrun] with j hj hrun fuel
  refine Node.roundsNoting_round ?_ hrun hr (hj.step i e he)
  rw [hj.test i c hc, decide_eq_true hlt]

/-- The rounds of a loop that counts, with enough fuel, by induction on the distance of the counter from the
limit. That the body leaves the counter alone is supposed of the contexts in which it is started, and those of
the rounds that remain are among those of all rounds, with less fuel. -/
theorem Ticks.counted (hticks : ∀ᶠ j in atTop, Ticks (test j) (step j) limit holds next) (hi : first ≤ i)
    (hc : holds i c) {m : Nat}
    (hbody : ∀ᶠ j in atTop, ∀ d ∈ (Node.roundsNoting (runs j) (test j) body (step j) (j - m) c).1,
      Leaves runs body holds first limit d) :
    ∃ k starts d, (∀ᶠ j in atTop, ∀ fuel ≥ k,
      Node.roundsNoting (runs j) (test j) body (step j) fuel c = (starts, .ok .done, d)) ∧
        Counted holds i limit starts := by
  obtain ⟨distance, hdistance⟩ : ∃ w, (limit.toInt - i.toInt).toNat = w := ⟨_, rfl⟩
  induction distance generalizing i c m with
  | zero =>
    have hlt : ¬i < limit := by
      rw [Int32.lt_iff_toInt_lt]
      omega
    refine ⟨1, [], c, ?_, .nil hlt⟩
    filter_upwards [Ticks.stop hticks hc hlt] with j hstop fuel hfuel
    obtain ⟨l, rfl⟩ : ∃ l, fuel = l + 1 := ⟨fuel - 1, by omega⟩
    exact hstop l
  | succ distance ih =>
    have hlt : i < limit := by
      rw [Int32.lt_iff_toInt_lt]
      omega
    have hsucc : (i + 1).toInt = i.toInt + 1 := toInt_succ hlt
    have hstart : Leaves runs body holds first limit c := by
      obtain ⟨j, hticks, hbody, hj⟩ := (hticks.and (hbody.and (eventually_gt_atTop m))).exists
      obtain ⟨l, hl⟩ : ∃ l, j - m = l + 1 := ⟨j - (m + 1), by omega⟩
      rw [hl] at hbody
      refine hbody c (Node.mem_roundsNoting ?_)
      rw [hticks.test i c hc, decide_eq_true hlt]
    obtain ⟨e, he, hround⟩ := Ticks.round hticks hi hlt hc hstart
    have hnext : first ≤ i + 1 := by
      rw [Int32.le_iff_toInt_le] at hi ⊢
      omega
    have hrest : ∀ᶠ j in atTop, ∀ d ∈ (Node.roundsNoting (runs j) (test j) body (step j) (j - (m + 1)) e).1,
        Leaves runs body holds first limit d := by
      filter_upwards [hbody, hround, eventually_gt_atTop m] with j hbody hround hj d hd
      obtain ⟨l, hl⟩ : ∃ l, j - m = l + 1 := ⟨j - (m + 1), by omega⟩
      rw [hl, hround] at hbody
      rw [Nat.sub_add_eq, hl, Nat.add_sub_cancel] at hd
      exact hbody d (List.mem_cons_of_mem c hd)
    obtain ⟨k, starts, d, hcounts, hcounted⟩ := ih hnext he hrest (by omega)
    refine ⟨k + 1, c :: starts, d, ?_, hcounted.cons hlt hc⟩
    filter_upwards [hround, hcounts] with j hround hcounts fuel hfuel
    obtain ⟨l, rfl⟩ : ∃ l, fuel = l + 1 := ⟨fuel - 1, by omega⟩
    rw [hround, hcounts l (by omega)]

variable {host : Host} {n : Node} {c₀ : Context}

/-- A loop that makes its rounds from a context where the counter holds the first int, and then only closes what
it opened. -/
theorem Ticks.countsUp (close : Context → Context)
    (hticks : ∀ᶠ j in atTop, Ticks (test j) (step j) limit holds next)
    (hloop : ∀ᶠ j in atTop, n.evalNoting host (j + 1) c =
      let p := Node.roundsNoting (Node.eval host j) (test j) body (step j) j c₀
      (p.1, p.2.1, close p.2.2))
    (hc₀ : holds first c₀)
    (hbody : ∀ fuel, ∀ d ∈ (n.evalNoting host fuel c).1, Leaves (Node.eval host) body holds first limit d) :
    ∃ k starts d, (∀ fuel ≥ k, n.eval host fuel c = (.ok .done, d) ∧
      n.evalNoting host fuel c = (starts, .ok .done, d)) ∧ Counted holds first limit starts := by
  have hrounds : ∀ᶠ j in atTop, ∀ d ∈ (Node.roundsNoting (Node.eval host j) (test j) body (step j) (j - 0) c₀).1,
      Leaves (Node.eval host) body holds first limit d := by
    filter_upwards [hloop] with j hloop d hd
    refine hbody (j + 1) d ?_
    rw [hloop]
    exact hd
  obtain ⟨k, starts, d, hcounts, hcounted⟩ := Ticks.counted hticks (Int32.le_refl first) hc₀ hrounds
  obtain ⟨k', hk'⟩ := eventually_atTop.1 (hloop.and (hcounts.and (eventually_ge_atTop k)))
  refine ⟨k' + 1, starts, close d, fun fuel hfuel => ?_, hcounted⟩
  obtain ⟨j, rfl⟩ : ∃ j, fuel = j + 1 := ⟨fuel - 1, by omega⟩
  obtain ⟨hloop, hcounts, hj⟩ := hk' j (by omega)
  have hnoting : n.evalNoting host (j + 1) c = (starts, .ok .done, close d) := by rw [hloop, hcounts j hj]
  have heval : n.eval host (j + 1) c = (.ok .done, close d) := by rw [← Node.evalNoting_snd, hnoting]
  exact ⟨heval, hnoting⟩

end Counting

/-! ### Counters -/

namespace Context

/-- The innermost scope binds the name to a variable with this int. -/
def HoldsVariable (name : String) (i : Int32) (d : Context) : Prop :=
  d.innermost.find? name = some (.plain (.number (.int i)))

/-- The innermost scope binds the name to a cell with this int. -/
def HoldsCell (name : String) (i : Int32) (d : Context) : Prop :=
  ∃ a, d.innermost.find? name = some (.cell a) ∧ d.cellAt a = i

/-- The innermost scope binds the name to the cell at this address, which has this int. -/
structure HoldsAt (address : Nat) (name : String) (i : Int32) (d : Context) : Prop where
  bound : d.innermost.find? name = some (.cell address)
  held : d.cellAt address = i
  inside : address < d.cells.size

variable {name : String} {i n : Int32} {a : Nat} {c d e : Context} {slot : Slot}

theorem find?_of_innermost (h : d.innermost.find? name = some slot) : d.find? name = some slot := by
  rw [find?_eq_lookup, scopes, lookup_cons, h, Option.some_or]

theorem HoldsVariable.replace (h : d.HoldsVariable name i) :
    (d.replace name (.number (.int n))).HoldsVariable name n := by
  unfold HoldsVariable Context.replace at *
  simp [h]

theorem HoldsAt.setCell (h : d.HoldsAt a name i) (n : Int32) : (d.setCell a n).HoldsAt a name n where
  bound := h.bound
  held := d.cellAt_setCell_self n h.inside
  inside := by rw [size_setCell]; exact h.inside

theorem HoldsAt.enterLoop (c : Context) : (c.enterLoop name n).HoldsAt c.cells.size name n where
  bound := by simp [Context.enterLoop, bindCell]
  held := c.cellAt_enterLoop_self
  inside := by simp

end Context

/-- The conduct of runs that give up the cells they make. -/
def Conduct.cells : Conduct where
  Change _ c d := d.cells.size = c.cells.size
  strict := false
  refl _ _ := rfl
  trans h h' := h'.trans h
  bind _ _ _ := rfl
  assign h := by
    unfold Context.assign at h
    split at h
    · cases h
    · split at h
      · cases h
        simp
      · cases h
    · split at h
      · cases h
        simp
      · cases h
    · cases h
      simp
  setCell _ c _ _ := by simp
  define _ _ _ := rfl
  call _ _ _ := rfl
  scope h := by
    rw [Context.cells_pop]
    exact h
  loop h := by
    rw [Context.cells_enterLoop, Array.size_push] at h
    exact Context.size_leaveLoop _ (by omega)

theorem Node.size_cells_eval (host : Host) (fuel : Nat) (n : Node) (c : Context) :
    (n.eval host fuel c).2.cells.size = c.cells.size :=
  (Conduct.eval_keeps .cells host fuel n true ⟨nofun, nofun⟩ c fun _ _ => nofun).changes

/-- A run that leaves the counter in a cell leaves it in the cell where it was. -/
theorem Context.HoldsAt.of_eval {a : Nat} {name : String} {i : Int32} {host : Host} {fuel : Nat} {n : Node}
    {d : Context} (hd : d.HoldsAt a name i) (h : (n.eval host fuel d).2.HoldsCell name i) :
    (n.eval host fuel d).2.HoldsAt a name i := by
  obtain ⟨a', hbound, hheld⟩ := h
  have hsame : d.innermost.find? name = some (.cell a') :=
    (n.eval_evolves host fuel d (b := true) nofun).innermost.cells name a' hbound
  obtain rfl : a = a' := by simpa [hd.bound] using hsame
  exact ⟨hbound, hheld, by rw [n.size_cells_eval]; exact hd.inside⟩

/-! ### Both loops -/

namespace Node

/-- In this loop each run of the body that starts where the counter holds an int in the range ends normally or with
a continue, and leaves the counter at this int. -/
def LeavesCounter (host : Host) (n body : Node) (c : Context) (holds : Int32 → Context → Prop) (first limit : Int32) :
    Prop :=
  ∀ fuel, ∀ d ∈ (n.evalNoting host fuel c).1, ∀ i, first ≤ i → i < limit → holds i d →
    ∃ k r e, body.eval host k d = (.ok r, e) ∧ (r.flow = .normal ∨ r.flow = .continued) ∧ holds i e

/-- With enough fuel this loop ends normally and without a value, and with notes taken it ends the same way, its body
having been started once for each int in the range, in their order. -/
def CountsUp (host : Host) (n : Node) (c : Context) (holds : Int32 → Context → Prop) (first limit : Int32) : Prop :=
  ∃ k starts d, (∀ fuel ≥ k, n.eval host fuel c = (.ok .done, d) ∧
    n.evalNoting host fuel c = (starts, .ok .done, d)) ∧ Counted holds first limit starts

end Node

section Loops

variable {setup test step body : Node} {loop : CountedLoop} {host : Host} {c : Context} {text : String} {span : Span}
  {generic : Node} {rest : List Node}

/-- A head that counts does so with enough fuel. -/
theorem CountingHead.ticks (h : CountingHead setup test step loop) (host : Host) :
    ∀ᶠ j in atTop, Counts (Node.eval host j) setup test step loop ∧
      Ticks (Node.condition (Node.eval host j) test) (do let _ ← Node.eval host j step; return ()) loop.limit
        (Context.HoldsVariable loop.counter) fun i d => d.replace loop.counter (.number (.int (i + 1))) := by
  filter_upwards [eventually_ge_atTop 2] with j hj
  obtain ⟨l, rfl⟩ : ∃ l, j = l + 2 := ⟨j - 2, by omega⟩
  have hcounts : Counts (Node.eval host (l + 2)) setup test step loop := by
    rw [← Node.evalEarly_never]
    exact h.counts _ host l
  refine ⟨hcounts, fun i d hd => ?_, fun i d hd => ?_, fun i d hd => hd.replace⟩
  · exact hcounts.test d i (Context.find?_of_innermost hd)
  · exact hcounts.step d i (Context.find?_of_innermost hd)

/-- The loop with a variable counts up. -/
theorem CountingHead.countsUp (h : CountingHead setup test step loop)
    (hbody : (Node.construct .forLoop text span [setup, test, step, body]).LeavesCounter host body c
      (Context.HoldsVariable loop.counter) loop.first loop.limit) :
    (Node.construct .forLoop text span [setup, test, step, body]).CountsUp host c
      (Context.HoldsVariable loop.counter) loop.first loop.limit := by
  have hticks := h.ticks host
  have hkept : ∀ fuel, ∀ d ∈ ((Node.construct .forLoop text span [setup, test, step, body]).evalNoting host fuel c).1,
      Leaves (Node.eval host) body (Context.HoldsVariable loop.counter) loop.first loop.limit d := by
    intro fuel d hd i hi hlt hholds
    obtain ⟨k, r, e, hrun, hr, he⟩ := hbody fuel d hd i hi hlt hholds
    exact ⟨r, e, (Node.settles_iff (o := (.ok r, e)) nofun).2 ⟨k, hrun⟩, hr, he⟩
  have hsetup : (c.push.bind loop.counter (.number (.int loop.first))).HoldsVariable loop.counter loop.first :=
    Scope.find?_insert_self ..
  refine Ticks.countsUp Context.pop (hticks.mono fun _ h => h.2) ?_ hsetup hkept
  filter_upwards [hticks] with j hj
  obtain ⟨r, hr⟩ := hj.1.setup c
  rw [Node.evalNoting, hr]

/-- The test and the step of a native loop. -/
theorem ticks_native (address : Nat) (name : String) (limit : Int32) :
    Ticks (Eval.look fun d => d.cellAt address < limit)
      (Eval.update fun d => d.setCell address (d.cellAt address + 1)) limit (Context.HoldsAt address name)
      fun i d => d.setCell address (i + 1) where
  test i d hd := by rw [Eval.look, hd.held]
  step i d hd := by rw [Eval.update, hd.held]
  next i d hd := hd.setCell (i + 1)

/-- The native loop counts up. -/
theorem countsUp_native
    (hbody : (Node.counted loop generic text span (body :: rest)).LeavesCounter host body c
      (Context.HoldsCell loop.counter) loop.first loop.limit) :
    (Node.counted loop generic text span (body :: rest)).CountsUp host c
      (Context.HoldsCell loop.counter) loop.first loop.limit := by
  have hkept : ∀ fuel, ∀ d ∈ ((Node.counted loop generic text span (body :: rest)).evalNoting host fuel c).1,
      Leaves (Node.eval host) body (Context.HoldsAt c.cells.size loop.counter) loop.first loop.limit d := by
    intro fuel d hd i hi hlt hholds
    obtain ⟨k, r, e, hrun, hr, he⟩ := hbody fuel d hd i hi hlt ⟨_, hholds.bound, hholds.held⟩
    obtain rfl : (body.eval host k d).2 = e := by rw [hrun]
    exact ⟨r, _, (Node.settles_iff (o := (.ok r, _)) nofun).2 ⟨k, hrun⟩, hr, hholds.of_eval he⟩
  obtain ⟨k, starts, d, hruns, hcounted⟩ := Ticks.countsUp (·.leaveLoop c.cells.size)
    (.of_forall fun _ => ticks_native c.cells.size loop.counter loop.limit) (.of_forall fun j => rfl) (.enterLoop c) hkept
  exact ⟨k, starts, d, hruns, hcounted.imp fun _ _ h => ⟨_, h.bound, h.held⟩⟩

end Loops

/-- A loop that counts from an int to below another one becomes native, and both run the body as often as there
are ints in this range: if in a loop each run of the body ends normally or with a continue and leaves the counter
alone, the loop ends, and it has run the body with the ints of the range in their order and with no others. -/
theorem counting_loops_count {setup test step body : Node} {name : String} {first limit : Int32}
    (hhead : CountingHead setup test step ⟨name, first, limit⟩) (text : String) (span : Span) (host : Host)
    (c : Context) :
    let generic := Node.construct .forLoop text span [setup, test, step, body]
    ∃ native, Rule.countedLoop generic = some native ∧
      (generic.LeavesCounter host body c (Context.HoldsVariable name) first limit →
        generic.CountsUp host c (Context.HoldsVariable name) first limit) ∧
      (native.LeavesCounter host body c (Context.HoldsCell name) first limit →
        native.CountsUp host c (Context.HoldsCell name) first limit) := by
  intro generic
  refine ⟨.counted ⟨name, first, limit⟩ generic text span [body], ?_, hhead.countsUp, countsUp_native⟩
  simp [generic, Rule.countedLoop, hhead.countedHead?]

/-- A loop from the third last int to the last one, whose body is a block that only continues. -/
theorem counting_loops_count_last :
    let body := Node.construct .block "" .unknown [.construct .continueLoop "" .unknown []]
    let generic := Node.construct .forLoop "" .unknown
      [.construct .equation "=" .unknown [.construct .declaration "" .unknown [.ofName "i"], .ofInt (Int32.maxValue - 2)],
        .construct .binary "<" .unknown [.ofName "i", .ofInt Int32.maxValue],
        .construct .prefixed "++" .unknown [.ofName "i"], body]
    ∃ native, Rule.countedLoop generic = some native ∧
      generic.CountsUp .silent .empty (Context.HoldsVariable "i") (Int32.maxValue - 2) Int32.maxValue ∧
      native.CountsUp .silent .empty (Context.HoldsCell "i") (Int32.maxValue - 2) Int32.maxValue ∧
      (generic.evalNoting .silent 9 .empty).1.length = 2 := by
  intro body generic
  have hruns : ∀ d, body.eval .silent 2 d = (.ok ⟨.plain .void, .continued⟩, d) := fun d => rfl
  have hleaves : ∀ (n : Node) holds, n.LeavesCounter .silent body .empty holds (Int32.maxValue - 2) Int32.maxValue :=
    fun n holds fuel d hd i hi hlt hholds => ⟨2, _, d, hruns d, .inr rfl, hholds⟩
  obtain ⟨native, hnative, hvariable, hcell⟩ := counting_loops_count (.mk rfl) "" .unknown .silent .empty
  exact ⟨native, hnative, hvariable (hleaves _ _), hcell (hleaves _ _), by decide⟩

end ScriptTree

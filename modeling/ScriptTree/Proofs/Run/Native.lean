import ScriptTree.Proofs.Run.Constructs
import ScriptTree.Proofs.Optimize.Rules

/-!
A loop whose head counts an int up to a literal, against the native loop made of it. With enough fuel
the parts of such a head do exactly what the native loop does to its cell: the setup makes the
variable, the test compares it with the limit and the step adds one to it.
-/

namespace ScriptTree

open Eval

variable {st : Setting} {w : World} {mode : Mode} {run : Node.Evaluator} {runs : Nat → Node.Evaluator}
  {setup test step body body' : Node} {loop : CountedLoop} {name : String}

/-! ### Ints -/

theorem decide_lt_eq_holds (a b : Int32) :
    Comparison.less.holds (some (Number.compareWords a.toBitVec b.toBitVec)) = decide (a < b) := by
  rw [Bool.eq_iff_iff, decide_eq_true_iff, Int32.lt_iff_toInt_lt]
  unfold Comparison.holds Number.compareWords
  rw [beq_iff_eq]
  exact Std.compare_eq_lt

theorem binary_less (a b : Int32) :
    Node.applyBinary "<" (.number (.int a)) (.number (.int b)) = .ok (.bool (decide (a < b))) := by
  rw [← decide_lt_eq_holds]
  rfl

/-! ### The head of a counting loop -/

/-- What the parts of a loop's head do if they count. -/
structure Counts (run : Node.Evaluator) (setup test step : Node) (loop : CountedLoop) : Prop where
  setup : ∀ c : Context, ∃ r, run setup c.push = (.ok r, c.push.bind loop.counter (.number (.int loop.first)))
  test : ∀ (c : Context) n, c.find? loop.counter = some (.plain (.number (.int n))) →
    Node.condition run test c = (.ok (decide (n < loop.limit)), c)
  step : ∀ (c : Context) n, c.find? loop.counter = some (.plain (.number (.int n))) →
    (do let _ ← run step; return () : Eval Unit) c =
      (.ok (), c.replace loop.counter (.number (.int (n + 1))))

/-- A variable is looked up and has a datum. -/
theorem Context.get_plain {c : Context} {x : Datum} (h : c.find? name = some (.plain x)) :
    c.get name = .ok (.plain x) := by
  unfold Context.get
  rw [h]

theorem reading_constant (early : Nat → Bool) (host : Host) (k : Nat) (v : Literal) (t : String) (s : Span)
    (ns : List Node) (c : Context) :
    Node.reading early (Node.evalEarly early host (k + 1)) (.constant v t s ns) c =
      (.ok (.ofDatum v.datum), c) := rfl

theorem reading_identifier (early : Nat → Bool) (host : Host) (k : Nat) (s : Span) (ns : List Node)
    {c : Context} {x : Datum} (h : c.find? name = some (.plain x)) :
    Node.reading early (Node.evalEarly early host (k + 1)) (.construct .identifier name s ns) c =
      (.ok (.ofDatum x), c) := by
  have hget : Eval.get name c = (.ok (.plain x), c) := by
    unfold Eval.get
    rw [Context.get_plain h]
  show Eval.bind (Eval.bind (Eval.get name) fun v => Pure.pure (Completion.ofValue v)) _ c = _
  rw [Eval.bind, Eval.bind, hget]
  rfl

/-- A binary operator that is not a logical one, on operands that come to values. -/
theorem evalBinary_values {op : String} {l r : Node} {u v : Value} {c : Context}
    (hl : run l c = (.ok (.ofValue u), c)) (hr : run r c = (.ok (.ofValue v), c))
    (hop : ¬(op = "&&" ∨ op = "||")) :
    Node.evalBinary run op [l, r] c = (do
      let d ← Eval.ofExcept (Node.applyBinary op (c.read u) (c.read v))
      return .ofDatum d : Eval Completion) c := by
  refine (Eval.bind_of_ok hl).trans ?_
  show (if op = "&&" ∨ op = "||" then _ else _ : Eval Completion) c = _
  rw [if_neg hop]
  exact Eval.bind_of_ok hr

/-- A binary operator that is not a logical one, on operands that are data. -/
theorem evalBinary_data {op : String} {l r : Node} {a b : Datum} {c : Context}
    (hl : run l c = (.ok (.ofDatum a), c)) (hr : run r c = (.ok (.ofDatum b), c))
    (hop : ¬(op = "&&" ∨ op = "||")) :
    Node.evalBinary run op [l, r] c =
      (do let d ← Eval.ofExcept (Node.applyBinary op a b); return .ofDatum d : Eval Completion) c :=
  evalBinary_values (u := .plain a) (v := .plain b) hl hr hop

/-- The variable of a loop is set up in the loop's new scope. -/
theorem evalEarly_setup (early : Nat → Bool) (host : Host) (k : Nat) {s t : String} {a b e : Span}
    {ns ms : List Node} {name : Node} {x : Datum} (c : Context) :
    Node.evalEarly early host (k + 2) (.construct .equation "=" a
      [.construct .declaration s b (name :: ns), .constant (.plain x) t e ms]) c.push =
      (.ok (.ofDatum x), c.push.bind name.text x) := by
  have hbind : (c.push.bind name.text .void).bind name.text x = c.push.bind name.text x := by
    simp [Context.bind, Context.push, Scope.insert]
  rw [← hbind]
  rfl

theorem condition_less (early : Nat → Bool) (host : Host) (k : Nat) {t : String} {a b e : Span}
    {ns ms : List Node} {limit n : Int32} {c : Context} (hn : c.find? name = some (.plain (.number (.int n)))) :
    Node.condition (Node.evalEarly early host (k + 2)) (.construct .binary "<" a
      [.construct .identifier name b ns, .constant (.plain (.number (.int limit))) t e ms]) c =
      (.ok (decide (n < limit)), c) := by
  have hop : ¬("<" = "&&" ∨ "<" = "||") := by decide
  show Eval.bind (Node.evalBinary (Node.reading early (Node.evalEarly early host (k + 1))) "<" _) _ c = _
  rw [Eval.bind, evalBinary_data (reading_identifier early host k b ns hn)
    (reading_constant early host k _ t e ms c) hop, Literal.datum, binary_less]
  rfl

theorem effect_increment (early : Nat → Bool) (host : Host) (k : Nat) {a b : Span} {ns : List Node}
    {n : Int32} {c : Context} (hn : c.find? name = some (.plain (.number (.int n)))) :
    (do let _ ← Node.evalEarly early host (k + 2) (.construct .prefixed "++" a
      [.construct .identifier name b ns]); return () : Eval Unit) c =
      (.ok (), c.replace name (.number (.int (n + 1)))) := by
  have hc : Eval.get name c = (.ok (.plain (.number (.int n))), c) := by
    unfold Eval.get
    rw [Context.get_plain hn]
  have hassign : c.assign name (.number (.int (n + 1))) =
      .ok (c.replace name (.number (.int (n + 1)))) := by
    unfold Context.assign
    rw [hn]
    rfl
  have hd : Eval.get name (c.replace name (.number (.int (n + 1)))) =
      (.ok (.plain (.number (.int (n + 1)))), c.replace name (.number (.int (n + 1)))) := by
    unfold Eval.get
    rw [Context.get_plain (Context.find?_replace_self _ hn)]
  show Eval.bind (Node.stepVariable .sum name) _ c = _
  have hstep : Node.stepVariable .sum name c =
      (.ok (.ofDatum (.number (.int (n + 1)))), c.replace name (.number (.int (n + 1)))) := by
    show Eval.bind (Eval.get name) _ c = _
    rw [Eval.bind, hc]
    show Eval.bind (Eval.change (·.assign name (.number (.int (n + 1))))) _ c = _
    rw [Eval.bind, Eval.change, hassign]
    show Eval.bind (Eval.get name) _ _ = _
    rw [Eval.bind, hd]
    rfl
  rw [Eval.bind, hstep]
  rfl

/-- With two units of fuel a counting head does what it says. -/
theorem CountingHead.counts (h : CountingHead setup test step loop) (early : Nat → Bool) (host : Host)
    (k : Nat) : Counts (Node.evalEarly early host (k + 2)) setup test step loop := by
  cases h with
  | mk hx =>
    subst hx
    exact ⟨fun c => ⟨_, evalEarly_setup early host k c⟩, fun c n hn => condition_less early host k hn,
      fun c n hn => effect_increment early host k hn⟩

/-- Without that much fuel the loop does not begin. -/
theorem CountingHead.outOfFuel (h : CountingHead setup test step loop) (early : Nat → Bool) (host : Host)
    (fuel : Nat) (c : Context) {k : Nat} (hk : k < 2) :
    (Node.evalFor (Node.evalEarly early host k) fuel [setup, test, step, body] c).1 = .error .outOfFuel := by
  cases h with
  | mk hx =>
    match k with
    | 0 => rfl
    | 1 => rfl

/-- The loop sets its variable up and makes its rounds. -/
theorem Counts.evalFor (h : Counts run setup test step loop) (fuel : Nat) (c : Context) :
    Node.evalFor run fuel [setup, test, step, body] c =
      let p := Node.rounds run (Node.condition run test) body (do let _ ← run step; return ()) fuel
        (c.push.bind loop.counter (.number (.int loop.first)))
      (p.1, p.2.pop) := by
  obtain ⟨r, hr⟩ := h.setup c
  show Eval.withScope (Eval.bind (run setup) _) c = _
  rw [Eval.withScope, Eval.bind, hr]

/-! ### The rounds of both loops -/

/-- The step adds one to the variable on the left and to the cell on the right. -/
theorem Agree.stepCounter {c d : Context} (hw : w.Sound st) (h : Agree st (w.withCounter name) c d) :
    Agree st (w.withCounter name)
      (c.replace name (.number (.int (d.cellAt w.right.length + 1))))
      (d.setCell w.right.length (d.cellAt w.right.length + 1)) := by
  obtain ⟨hc, hd⟩ := h.counter hw
  exact h.store_right _ hc hd (World.getElem?_concat.2 (.inr ⟨rfl, rfl⟩))

namespace Sim

theorem countsRounds (h : Counts run setup test step loop) (hw : w.Sound st)
    (hbody : NodeSim st (w.withCounter loop.counter) .exact run runs body body') (fuel : Nat) :
    Sim st (w.withCounter loop.counter) (fun _ _ => Settled)
      (Node.rounds run (Node.condition run test) body (do let _ ← run step; return ()) fuel)
      fun j => Node.countedRounds (runs j) j loop.limit body' w.right.length := by
  refine rounds (of_eq fun c d hA => ?_) hbody (of_eq fun c d hA => ?_) fuel
  · exact ⟨_, _, _, _, h.test c _ (hA.counter hw).1, fun _ => rfl, hA, rfl⟩
  · exact ⟨_, _, _, _, h.step c _ (hA.counter hw).1, fun _ => rfl, hA.stepCounter hw, rfl⟩

theorem countedRounds (h : ∀ j, Counts (runs j) setup test step loop) (hw : w.Sound st)
    (hbody : NodeSim st.flip (w.withCounter loop.counter).flip .exact run runs body' body) (fuel : Nat) :
    Sim st.flip (w.withCounter loop.counter).flip (fun _ _ => Settled)
      (Node.countedRounds run fuel loop.limit body' w.right.length)
      fun j => Node.rounds (runs j) (Node.condition (runs j) test) body
        (do let _ ← runs j step; return ()) j := by
  have back : ∀ {c d}, Agree st.flip (w.withCounter loop.counter).flip d c →
      Agree st (w.withCounter loop.counter) c d := fun hA => by simpa using hA.flip
  refine rounds (of_eq fun d c hA => ?_) hbody (of_eq fun d c hA => ?_) fuel
  · exact ⟨_, _, _, _, rfl, fun j => (h j).test c _ ((back hA).counter hw).1, hA, rfl⟩
  · exact ⟨_, _, _, _, rfl, fun j => (h j).step c _ ((back hA).counter hw).1,
      ((back hA).stepCounter hw).flip, rfl⟩

/-- A counting loop is simulated by the native loop. -/
theorem native (h : Counts run setup test step loop) (he : st.earlyRight w.right.length = true)
    (hr : ¬st.reserved loop.counter)
    (hbody : NodeSim st (w.withCounter loop.counter) .exact run runs body body') (fuel : Nat) :
    Sim st w (Finish w mode) (Node.evalFor run fuel [setup, test, step, body])
      fun j => Node.evalCounted (runs j) j loop [body'] := by
  intro c d hA
  refine (mapContext (Q := fun _ _ => Settled) (fun c d _ => h.evalFor fuel c) (fun c d hA j => ?_)
    (countsRounds h hA.sound hbody fuel) (fun c d hA => hA.enterCounter (n := loop.first) he hr)
    (fun _ _ _ _ h₀ h => h₀.leaveCounter h) fun _ h => h).imp (fun hA h => h.finish hA) c d hA
  rw [Node.evalCounted_cons, hA.sizeRight]

/-- A native loop is simulated by the counting loop it was made of. -/
theorem native_back (h : ∀ j, Counts (runs j) setup test step loop)
    (he : st.earlyRight w.right.length = true) (hr : ¬st.reserved loop.counter)
    (hbody : NodeSim st.flip (w.withCounter loop.counter).flip .exact run runs body' body) (fuel : Nat) :
    Sim st.flip w.flip (Finish w.flip mode) (Node.evalCounted run fuel loop [body'])
      fun j => Node.evalFor (runs j) j [setup, test, step, body] := by
  have back : ∀ {v : World} {c d}, Agree st.flip v.flip d c → Agree st v c d :=
    fun hA => by simpa using hA.flip
  intro d c hA
  refine (mapContext (Q := fun _ _ => Settled) (fun d c hA => ?_) (fun _ c _ j => (h j).evalFor j c)
    (countedRounds h (back hA).sound hbody fuel)
    (fun d c hA => ((back hA).enterCounter (n := loop.first) he hr).flip)
    (fun _ _ _ _ h₀ h => ((back h₀).leaveCounter (back h)).flip) fun _ h => h).imp
    (fun hA h => h.finish hA) d c hA
  rw [Node.evalCounted_cons, (back hA).sizeRight]

end Sim

end ScriptTree

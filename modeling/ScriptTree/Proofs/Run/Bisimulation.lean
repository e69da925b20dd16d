import ScriptTree.Proofs.Run.Congruence
import ScriptTree.Proofs.Run.Native

/-!
Relations of trees that evaluation does not tell apart.

A relation is a similarity if related nodes are congruent over it, or the left one turns into the right
one by a step of a few kinds: a block around one node goes, a node gives way to one that does the same
with less fuel, a return at the end of a function's body gives way to its value, or a counting loop
becomes a native one. Of two nodes in a similarity each simulates the other. Both halves are inductions
on the fuel of the one that is run.
-/

namespace ScriptTree

open Eval

variable {st : Setting} {w : World} {mode : Mode} {S : Mode → Node → Node → Prop} {n m : Node}
  {host : Host}

/-! ### Worlds in which a node may run -/

/-- A world in which a node that may bind these names can run: it has the cells that are always there,
and the names may be bound in its innermost scope. -/
structure World.Admits (st : Setting) (w : World) (names : List (Form × String)) : Prop where
  lowLeft : st.lowLeft ≤ w.left.length
  lowRight : st.lowRight ≤ w.right.length
  binds : ∀ form x, (form, x) ∈ names →
    ∃ L, w.layers = .shared :: L ∧ (form = .definition → ¬w.Pins L.length x)

namespace World.Admits

variable {names names' : List (Form × String)}

theorem mono (h : w.Admits st names) (hsub : names' ⊆ names) : w.Admits st names' :=
  ⟨h.lowLeft, h.lowRight, fun form x hx => h.binds form x (hsub hx)⟩

/-- In a new scope any name may be bound. -/
theorem under (h : w.Admits st names) (hw : w.Sound st) : (w.under .shared).Admits st names' :=
  ⟨h.lowLeft, h.lowRight, fun _ _ _ => ⟨_, rfl, fun _ hp => Nat.lt_irrefl _ (hw.level_lt _ _ hp)⟩⟩

theorem underLeft (h : w.Admits st names) : (w.under .left).Admits st [] :=
  ⟨h.lowLeft, h.lowRight, fun _ _ h => nomatch h⟩

theorem withTwins (h : w.Admits st names) (hw : w.Sound st) : w.withTwins.Admits st names' where
  lowLeft := by
    have := h.lowLeft
    simp only [World.withTwins, List.length_append, List.length_singleton]
    omega
  lowRight := by
    have := h.lowRight
    simp only [World.withTwins, List.length_append, List.length_singleton]
    omega
  binds form x _ := ⟨_, rfl, fun _ hp => World.not_pins_withTwins hw hp⟩

/-- In the scope of a counter any name but the counter's may be bound to a function. -/
theorem withCounter {x : String} (h : w.Admits st names) (hw : w.Sound st)
    (hx : (.definition, x) ∉ names') : (w.withCounter x).Admits st names' where
  lowLeft := h.lowLeft
  lowRight := by
    have := h.lowRight
    simp only [World.withCounter, List.length_append, List.length_singleton]
    omega
  binds form y hy := ⟨_, rfl, fun hform hp => by
    rw [(World.pins_withCounter hw).1 hp, hform] at hy
    exact hx hy⟩

end World.Admits

/-! ### Similarities -/

/-- How related nodes are built. -/
inductive Linked (st : Setting) (S : Mode → Node → Node → Prop) : Mode → Node → Node → Prop
  | congruent {mode : Mode} {n m : Node} (h : Congruent st S mode n m) : Linked st S mode n m
  | lone {mode : Mode} {text : String} {span : Span} {c m : Node} (h : S mode c m)
    (hc : Congruent st S mode c m) (hi : m.introduces = []) :
    Linked st S mode (.construct .block text span [c]) m
  | shortcut {mode : Mode} {n k m : Node} (h : S mode k m) (hc : Congruent st S mode k m)
    (hk : ∀ c, (∀ x, st.reserved x → c.get x = .error (.undefinedVariable x)) → n.RunsAs k c) :
    Linked st S mode n m
  | returned {text : String} {span : Span} {e m : Node} (h : S .exact e m)
    (hc : Congruent st S .exact e m) : Linked st S .tail (.construct .returned text span [e]) m
  | native {mode : Mode} {text s : String} {a b : Span} {setup test step body body' g : Node}
    {loop : CountedLoop} (hhead : CountingHead setup test step loop) (h : S .exact body body')
    (hr : ¬st.reserved loop.counter) (hdef : (.definition, loop.counter) ∉ body'.introduces)
    (hearly : ∀ b : Nat, st.lowRight ≤ b → st.earlyRight b = true) :
    Linked st S mode (.construct .forLoop text a [setup, test, step, body]) (.counted loop g s b [body'])

/-- A relation of nodes that are built alike or turn into one another, and of functions that go
together. -/
structure Similarity (st : Setting) (S : Mode → Node → Node → Prop) : Prop where
  step : ∀ mode n m, S mode n m → Linked st S mode n m
  name : ∀ f g, st.known f g → f.name = g.name
  parameters : ∀ f g, st.known f g → f.parameters = g.parameters
  unreserved : ∀ f g, st.known f g → ∀ x ∈ f.parameters, ¬st.reserved x
  body : ∀ f g, st.known f g → S .tail f.body g.body

/-- What a return does after its operand. -/
def returnOf : Outcome Completion → Outcome Completion
  | (.ok r, c) => (.ok (if r.flow = .normal then ⟨.plain (c.read r.value), .returned⟩ else r), c)
  | o => o

theorem evalReturn_singleton (run : Node.Evaluator) (e : Node) (c : Context) :
    Node.evalReturn run [e] c = returnOf (run e c) := by
  show Eval.bind (run e) _ c = _
  rw [Eval.bind]
  rcases run e c with ⟨r | ⟨v, flow⟩, c'⟩
  · rfl
  · cases flow <;> rfl

theorem read_returnOf (r : Completion) (c : Context) :
    ∃ r', returnOf (.ok r, c) = (.ok r', c) ∧ c.read r'.value = c.read r.value := by
  unfold returnOf
  by_cases h : r.flow = .normal
  · exact ⟨_, rfl, by rw [if_pos h]; rfl⟩
  · exact ⟨_, rfl, by rw [if_neg h]⟩

/-- A return, where only the datum matters, against its operand. -/
theorem Sim.returned_left {run : Node.Evaluator} {runs : Nat → Node.Evaluator} {e : Node}
    (h : NodeSim st w .exact run runs e m) :
    Sim st w (Finish w .tail) (Node.evalReturn run [e]) fun j => runs j m := by
  intro c d hA hne
  rw [evalReturn_singleton] at hne ⊢
  have he := h c d hA
  unfold Follows at he
  generalize run e c = p at hne he ⊢
  rcases p with ⟨r | r, c'⟩
  · exact he hne |>.imp fun o ⟨hs, hE⟩ => ⟨hs, by cases hE with | error hA' => exact .error hA'⟩
  · obtain ⟨o, hs, hE⟩ := he nofun
    refine ⟨o, hs, ?_⟩
    obtain ⟨r', hr', hread⟩ := read_returnOf r c'
    rw [hr']
    cases hE with
    | ok hA' hV => exact .ok hA' (hread.trans (Finish.read hA' hV))

theorem Sim.returned_right {run : Node.Evaluator} {runs : Nat → Node.Evaluator} {e : Node}
    (h : NodeSim st w .exact run runs m e) :
    Sim st w (Finish w .tail) (run m) fun j => Node.evalReturn (runs j) [e] := by
  intro c d hA hne
  obtain ⟨o, hs, hE⟩ := h c d hA hne
  refine ⟨returnOf o, hs.map fun j => evalReturn_singleton (runs j) e d, ?_⟩
  generalize run m c = p at hE
  cases hE with
  | @ok c' d' r r' hA' hV =>
    obtain ⟨r'', hr', hread⟩ := read_returnOf r' d'
    rw [hr']
    exact .ok hA' ((Finish.read hA' hV).trans hread.symm)
  | error hA' => exact .error hA'

theorem Sim.unbound {c d : Context} (hA : Agree st w c d) :
    ∀ x, st.reserved x → c.get x = .error (.undefinedVariable x) :=
  fun _ hx => (hA.get_reserved hx).1

namespace Similarity

/-- The left evaluator. -/
abbrev runLeft (st : Setting) (host : Host) (fuel : Nat) : Node.Evaluator :=
  Node.evalEarly st.earlyLeft host fuel

/-- The right evaluator. -/
abbrev runRight (st : Setting) (host : Host) (fuel : Nat) : Node.Evaluator :=
  Node.evalEarly st.earlyRight host fuel

/-- The native loop simulates the loop it was made of, if the body does. -/
theorem native_forward {fuel : Nat} {setup test step body body' g : Node} {loop : CountedLoop}
    {text s : String} {a b : Span} (hhead : CountingHead setup test step loop)
    (hr : ¬st.reserved loop.counter) (he : st.earlyRight w.right.length = true)
    (hbody : NodeSim st (w.withCounter loop.counter) .exact (runLeft st host fuel) (runRight st host) body body') :
    NodeSim st w mode (runLeft st host (fuel + 1)) (runRight st host)
      (.construct .forLoop text a [setup, test, step, body]) (.counted loop g s b [body']) := by
  intro c d hA
  refine Sim.of_succ (X := fun j => Node.evalCounted (runRight st host j) j loop [body'])
    (fun _ => rfl) ?_ c d hA
  match fuel, hbody with
  | 0, _ => exact fun c d _ hne => absurd (hhead.outOfFuel _ host 0 c Nat.zero_lt_two) hne
  | 1, _ => exact fun c d _ hne => absurd (hhead.outOfFuel _ host 1 c Nat.one_lt_two) hne
  | fuel + 2, hbody => exact Sim.native (hhead.counts _ host fuel) he hr hbody (fuel + 2)

/-- The loop simulates the native loop that was made of it, if the body does. -/
theorem native_backward {fuel : Nat} {setup test step body body' g : Node} {loop : CountedLoop}
    {text s : String} {a b : Span} (hhead : CountingHead setup test step loop)
    (hr : ¬st.reserved loop.counter) (he : st.earlyRight w.right.length = true)
    (hbody : NodeSim st.flip (w.withCounter loop.counter).flip .exact (runRight st host fuel)
      (runLeft st host) body' body) :
    NodeSim st.flip w.flip mode (runRight st host (fuel + 1)) (runLeft st host)
      (.counted loop g s b [body']) (.construct .forLoop text a [setup, test, step, body]) := by
  intro d c hA
  refine Sim.of_succ (X := fun j => Node.evalFor (runLeft st host j) j [setup, test, step, body])
    (fun _ => rfl) (fun d c hA => ?_) d c hA
  -- the head of the loop has what it needs from two units of fuel on
  have hbody : NodeSim st.flip (w.withCounter loop.counter).flip .exact (runRight st host fuel)
      (fun j => runLeft st host (max j 2)) body' body := fun d c hA =>
    Follows.of_eventually 2 (fun j hj => by simp only [Nat.max_eq_left hj]) (hbody d c hA)
  have hcounts : ∀ j, Counts (runLeft st host (max j 2)) setup test step loop := by
    intro j
    obtain ⟨i, hi⟩ : ∃ i, max j 2 = i + 2 := ⟨max j 2 - 2, by omega⟩
    rw [hi]
    exact hhead.counts _ host i
  refine Follows.of_eventually 2 (fun j hj => ?_) (Sim.native_back hcounts he hr hbody fuel d c hA)
  simp only [Nat.max_eq_left hj]

variable (hS : Similarity st S)
include hS

theorem callable {run : Node.Evaluator} {runs : Nat → Node.Evaluator}
    (ih : ∀ mode n m, S mode n m → NodeSim st (w.under .shared) mode run runs n m)
    (f g : ScriptFunction) (h : st.known f g) : Sim.Callable st w run runs f g :=
  ⟨hS.name f g h, hS.parameters f g h, hS.unreserved f g h, ih _ _ _ (hS.body f g h)⟩

/-- Congruent nodes, with one more unit of fuel than related ones. -/
theorem forward_congruent {fuel : Nat}
    (ih : ∀ (w : World) mode n m, S mode n m → w.Admits st m.introduces →
      NodeSim st w mode (runLeft st host fuel) (runRight st host) n m)
    (h : Congruent st S mode n m) (hadm : w.Admits st m.introduces) :
    NodeSim st w mode (runLeft st host (fuel + 1)) (runRight st host) n m := by
  intro c d hA
  refine Sim.of_succ (X := fun j => Node.evalNodeEarly st.earlyRight host (runRight st host j) j m)
    (fun _ => rfl) ?_ c d hA
  refine h.sim hA.sound (fun n' m' hS' _ hm => ih w _ n' m' hS' (hadm.mono hm)) ?_ ?_
    hadm.lowLeft hadm.lowRight
    (hS.callable fun mode n' m' hS' => ih _ mode n' m' hS' (hadm.under hA.sound)) fuel
  · rintro v (rfl | rfl) mode n' m' hS'
    · exact ih _ mode n' m' hS' (hadm.under hA.sound)
    · exact ih _ mode n' m' hS' (hadm.withTwins hA.sound)
  · exact fun form x _ hm hr => ⟨hr, hadm.binds form x hm⟩

/-- The right one of related nodes simulates the left one. -/
theorem forward (host : Host) : ∀ (fuel : Nat) (w : World) (mode : Mode) (n m : Node), S mode n m →
    w.Admits st m.introduces → NodeSim st w mode (runLeft st host fuel) (runRight st host) n m
  | 0, _, _, _, _, _, _ => .outOfFuel
  | fuel + 1, w, mode, n, m, h, hadm => by
    have ih := forward host fuel
    cases hS.step mode n m h with
    | congruent h => exact hS.forward_congruent ih h hadm
    | @lone _ text span k _ h _ hi =>
      show Sim st w (Finish w mode) (Eval.withScope (Node.sequence (runLeft st host fuel) [k] .done)) _
      rw [Sim.sequence_singleton]
      rw [hi] at hadm
      exact Sim.withScope_left (ih _ mode k m h (hi ▸ hadm.underLeft)) fun _ h => h.pop_left
    | shortcut h _ hk =>
      intro c d hA
      obtain ⟨hlow, hk⟩ := hk c (Sim.unbound hA) st.earlyLeft host
      cases fuel with
      | zero => exact fun hne => absurd hlow hne
      | succ fuel => exact Follows.congr_left (hk fuel) (ih w mode _ m h hadm c d hA)
    | returned h _ => exact Sim.returned_left (ih w .exact _ m h hadm)
    | native hhead hbody hr hdef hearly =>
      intro c d hA
      refine native_forward hhead hr (hearly _ hadm.lowRight) ?_ c d hA
      exact ih _ .exact _ _ hbody (hadm.withCounter hA.sound hdef)

/-- Congruent nodes, the right one in front, with one more unit of fuel than related ones. -/
theorem backward_congruent {fuel : Nat}
    (ih : ∀ (w : World) mode n m, S mode n m → w.Admits st m.introduces →
      NodeSim st.flip w.flip mode (runRight st host fuel) (runLeft st host) m n)
    (h : Congruent st S mode n m) (hadm : w.Admits st m.introduces) :
    NodeSim st.flip w.flip mode (runRight st host (fuel + 1)) (runLeft st host) m n := by
  intro d c hA
  have hw : w.Sound st := by simpa using hA.sound.flip
  refine Sim.of_succ (X := fun j => Node.evalNodeEarly st.earlyLeft host (runLeft st host j) j n)
    (fun _ => rfl) ?_ d c hA
  refine h.flip.sim hA.sound (fun m' n' hS' hm _ => ih w _ n' m' hS' (hadm.mono hm)) ?_ ?_
    hadm.lowRight hadm.lowLeft ?_ fuel
  · rintro v (rfl | rfl) mode m' n' hS'
    · exact ih (w.under .shared) mode n' m' hS' (hadm.under hw)
    · rw [← World.flip_withTwins]
      exact ih w.withTwins mode n' m' hS' (hadm.withTwins hw)
  · intro form x hm _ hr
    obtain ⟨L, hL, hp⟩ := hadm.binds form x hm
    refine ⟨hr, L.map Layer.flip, by rw [World.flip, hL]; rfl, fun hform hx => hp hform ?_⟩
    rwa [List.length_map, World.pins_flip] at hx
  · intro g f hfg
    refine ⟨(hS.name f g hfg).symm, (hS.parameters f g hfg).symm, ?_, ?_⟩
    · rw [← hS.parameters f g hfg]
      exact hS.unreserved f g hfg
    · exact ih (w.under .shared) _ _ _ (hS.body f g hfg) (hadm.under hw)

/-- The left one of related nodes simulates the right one. -/
theorem backward (host : Host) : ∀ (fuel : Nat) (w : World) (mode : Mode) (n m : Node), S mode n m →
    w.Admits st m.introduces → NodeSim st.flip w.flip mode (runRight st host fuel) (runLeft st host) m n
  | 0, _, _, _, _, _, _ => .outOfFuel
  | fuel + 1, w, mode, n, m, h, hadm => by
    have ih := backward host fuel
    cases hS.step mode n m h with
    | congruent h => exact hS.backward_congruent ih h hadm
    | @lone _ text span k _ _ h hi =>
      rw [hi] at hadm
      have hk : NodeSim st.flip (w.flip.under .right) mode (runRight st host (fuel + 1)) (runLeft st host) m k :=
        hS.backward_congruent (w := w.under .left) ih h (hi ▸ hadm.underLeft)
      have hblock := hk.withScope_right (Q := Finish w.flip mode) fun _ h => h.pop_right
      refine Sim.of_succ (fun j => ?_) hblock
      show Eval.withScope (Node.sequence (runLeft st host j) [k] .done) = _
      rw [Sim.sequence_singleton]
    | @shortcut _ _ k _ _ h hk =>
      intro d c hA
      have hA' : Agree st w c d := by simpa using hA.flip
      have hc := Sim.unbound hA'
      refine Follows.of_succ (fun _ => rfl)
        (Follows.of_eventually 1 (fun j hj => ?_) (hS.backward_congruent ih h hadm d c hA))
      obtain ⟨i, rfl⟩ : ∃ i, j = i + 1 := ⟨j - 1, by omega⟩
      exact (hk c hc _ host).2 i
    | @returned text span e _ _ h =>
      exact Sim.of_succ (fun _ => rfl) (Sim.returned_right (hS.backward_congruent ih h hadm))
    | native hhead hbody hr hdef hearly =>
      intro d c hA
      have hw : w.Sound st := by simpa using hA.sound.flip
      refine native_backward hhead hr (hearly _ hadm.lowRight) ?_ d c hA
      exact ih _ .exact _ _ hbody (hadm.withCounter hw hdef)

end Similarity

end ScriptTree

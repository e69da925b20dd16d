import ScriptTree.Proofs.Run.Bisimulation

/-!
What can be seen of an evaluation from outside: the flow and the datum it yields or why it stopped, the
calls to the host and the variables of every open scope. Cells are seen as the ints they hold.
Evaluations of nodes in a similarity end together and then show the same.
-/

namespace ScriptTree

open Eval

/-- What is seen of an evaluation that ended. -/
structure Sight where
  ending : Except Halt (Flow × Datum)
  calls : Array HostCall
  bindings : List (String → Option Datum)

def Context.slotDatum (c : Context) : Slot → Datum
  | .plain d => d
  | .cell address => .number (.int (c.cellAt address))

/-- The variables of every open scope, the innermost first. -/
def Context.bindings (c : Context) : List (String → Option Datum) :=
  c.scopes.map fun s name => (s.find? name).map c.slotDatum

/-- What is seen of an outcome. -/
def sight : Outcome Completion → Sight
  | (.ok r, c) => ⟨.ok (r.flow, c.read r.value), c.calls, c.bindings⟩
  | (.error h, c) => ⟨.error h, c.calls, c.bindings⟩

/-- With enough fuel the evaluation of the node ends and shows this. -/
def Node.Shows (run : Nat → Node.Evaluator) (n : Node) (c : Context) (s : Sight) : Prop :=
  ∃ o, Settles (fun j => run j n) c o ∧ o.1 ≠ .error .outOfFuel ∧ sight o = s

/-- Two nodes, each with its evaluator, end together and then show the same. -/
def Node.Equivalent (run run' : Nat → Node.Evaluator) (n m : Node) (c : Context) : Prop :=
  ∀ s, n.Shows run c s ↔ m.Shows run' c s

variable {st : Setting} {w : World} {mode : Mode} {S : Mode → Node → Node → Prop} {n m : Node}
  {host : Host} {c d : Context} {L : List Layer} {ss ts : List Scope}

/-- An evaluation shows one thing at most. -/
theorem Node.Shows.unique {run : Nat → Node.Evaluator} {s t : Sight} (hs : n.Shows run c s)
    (ht : n.Shows run c t) : s = t := by
  obtain ⟨o, ho, -, rfl⟩ := hs
  obtain ⟨o', ho', -, rfl⟩ := ht
  rw [ho.unique ho']

theorem Node.Equivalent.trans {run run' run'' : Nat → Node.Evaluator} {k : Node}
    (h : n.Equivalent run run' m c) (h' : m.Equivalent run' run'' k c) : n.Equivalent run run'' k c :=
  fun s => (h s).trans (h' s)

theorem Node.Equivalent.symm {run run' : Nat → Node.Evaluator} (h : n.Equivalent run run' m c) :
    m.Equivalent run' run n c :=
  fun s => (h s).symm

/-- Slots that are alike show the same datum. -/
theorem SlotAlike.shows {level : Nat} {name : String} {s t : Option Slot} (hA : Agree st w c d)
    (h : SlotAlike w c d level name s t) : s.map c.slotDatum = t.map d.slotDatum := by
  cases h with
  | absent => rfl
  | plain => rfl
  | twins _ ht _ => simp [Context.slotDatum, hA.twins _ _ _ ht]
  | right => rfl
  | left => rfl

theorem ScopesAgree.shows (hA : Agree st w c d) (h : ScopesAgree st w c d L ss ts)
    (hL : ∀ l ∈ L, l = .shared) :
    (ss.map fun s name => (s.find? name).map c.slotDatum) =
      ts.map fun s name => (s.find? name).map d.slotDatum := by
  induction h with
  | nil => rfl
  | shared hst _ _ ih =>
    rw [List.map_cons, List.map_cons, ih fun l hl => hL l (.tail _ hl)]
    congr 1
    funext name
    exact (hst name).shows hA
  | left => exact nomatch hL .left (.head _)
  | right => exact nomatch hL .right (.head _)

/-- Outcomes that are related show the same if no scope is open on one side only. -/
theorem sight_eq {o o' : Outcome Completion} (h : Ends (Agree st w) (Finish w .exact) o o')
    (hL : ∀ l ∈ w.layers, l = .shared) : sight o = sight o' := by
  cases h with
  | @ok c d r r' hA hF =>
    have hb : c.bindings = d.bindings := hA.scopes.shows hA hL
    show Sight.mk (.ok (r.flow, c.read r.value)) c.calls c.bindings = _
    rw [hA.calls, hb, Completes.flow hF, Finish.read hA hF]
    rfl
  | @error c d h hA =>
    have hb : c.bindings = d.bindings := hA.scopes.shows hA hL
    show Sight.mk (.error h) c.calls c.bindings = _
    rw [hA.calls, hb]
    rfl

/-- A node that is followed shows what its follower shows. -/
theorem Node.Shows.follow {run run' : Nat → Node.Evaluator} {s : Sight}
    {P : Outcome Completion → Outcome Completion → Prop}
    (h : ∀ fuel, Follows P (run fuel n) (fun j => run' j m) c d)
    (hP : ∀ {o o'}, P o o' → sight o = sight o' ∧ (o.1 ≠ .error .outOfFuel → o'.1 ≠ .error .outOfFuel))
    (hs : n.Shows run c s) : m.Shows run' d s := by
  obtain ⟨o, ⟨k, hk⟩, hne, rfl⟩ := hs
  obtain rfl : run k n c = o := hk k (Nat.le_refl k)
  obtain ⟨o', hs', hP'⟩ := h k hne
  exact ⟨o', hs', (hP hP').2 hne, (hP hP').1.symm⟩

theorem Ends.not_outOfFuel {W : Context → Context → Prop} {V : Context → Context → Completion → Completion → Prop}
    {o o' : Outcome Completion} (h : Ends W V o o') (ho : o.1 ≠ .error .outOfFuel) :
    o'.1 ≠ .error .outOfFuel := by
  cases h with
  | ok => nofun
  | error => exact ho

/-- Nodes that simulate each other end together, from contexts that agree, and show the same. -/
theorem shows_iff_of_sim {run run' : Nat → Node.Evaluator}
    (hforward : ∀ fuel, NodeSim st w .exact (run fuel) run' n m)
    (hbackward : ∀ fuel, NodeSim st.flip w.flip .exact (run' fuel) run m n)
    (hA : Agree st w c d) (hL : ∀ l ∈ w.layers, l = .shared) (s : Sight) :
    n.Shows run c s ↔ m.Shows run' d s := by
  have hL' : ∀ l ∈ w.flip.layers, l = .shared := by
    intro l hl
    obtain ⟨k, hk, rfl⟩ := List.mem_map.1 hl
    rw [hL k hk]
    rfl
  constructor
  · exact Node.Shows.follow (fun fuel => hforward fuel c d hA) fun hE => ⟨sight_eq hE hL, Ends.not_outOfFuel hE⟩
  · exact Node.Shows.follow (fun fuel => hbackward fuel d c hA.flip)
      fun hE => ⟨sight_eq hE hL', Ends.not_outOfFuel hE⟩

/-- Nodes in a similarity end together and show the same. -/
theorem Similarity.shows_iff (hS : Similarity st S) (host : Host) (h : S .exact n m)
    (hA : Agree st w c d) (hadm : w.Admits st m.introduces) (hL : ∀ l ∈ w.layers, l = .shared) (s : Sight) :
    n.Shows (Node.evalEarly st.earlyLeft host) c s ↔ m.Shows (Node.evalEarly st.earlyRight host) d s :=
  shows_iff_of_sim (fun fuel => hS.forward host fuel w .exact n m h hadm)
    (fun fuel => hS.backward host fuel w .exact n m h hadm) hA hL s

end ScriptTree

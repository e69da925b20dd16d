import ScriptTree.Proofs.Optimize.Preservation
import ScriptTree.Proofs.Run.Conduct

/-!
Where flows come from. A run that does not end normally ends with the flow of a `break`, a `continue` or a
`return` in the tree, and one that no node on the way holds back: loops keep breaks and continues to
themselves, and a definition runs nothing. The functions that are called matter as little as the context, for
a call drops the flow of the body. So what a run may end with is read off the tree.
-/

namespace ScriptTree

open Eval

/-! ### Nodes that a flow passes -/

/-- The construct that ends with this flow. -/
def Flow.source? : Flow → Option Form
  | .normal => none
  | .broken => some .breakLoop
  | .continued => some .continueLoop
  | .returned => some .returned

namespace Node

def isDefinition (n : Node) : Bool := n.isForm .definition

/-- The node is a loop, generic or native, or a definition. -/
def isLoopOrDefinition (n : Node) : Bool :=
  n.isForm .forLoop || n.isForm .whileLoop || n.kind == .specialized || n.isDefinition

mutual

/-- The nodes that are reached from a node through children without passing a node with this property. -/
def exposed (held : Node → Bool) : Node → List Node
  | .construct form text span children =>
    let n : Node := .construct form text span children
    n :: if held n then [] else exposedAll held children
  | .constant value text span children =>
    let n : Node := .constant value text span children
    n :: if held n then [] else exposedAll held children
  | .counted loop generic text span children =>
    let n : Node := .counted loop generic text span children
    n :: if held n then [] else exposedAll held children

/-- The nodes that are reached from several nodes. -/
def exposedAll (held : Node → Bool) : List Node → List Node
  | [] => []
  | n :: ns => exposed held n ++ exposedAll held ns

end

theorem exposed_eq (held : Node → Bool) (n : Node) :
    n.exposed held = n :: if held n then [] else exposedAll held n.children := by
  cases n <;> rfl

theorem mem_exposedAll {held : Node → Bool} {k : Node} {ns : List Node} :
    k ∈ exposedAll held ns ↔ ∃ n ∈ ns, k ∈ n.exposed held := by
  induction ns with
  | nil => simp [exposedAll]
  | cons n ns ih =>
    rw [exposedAll, List.mem_append, ih]
    simp

theorem mem_exposed {held : Node → Bool} {k n : Node} :
    k ∈ n.exposed held ↔ k = n ∨ held n = false ∧ ∃ m ∈ n.children, k ∈ m.exposed held := by
  rw [exposed_eq]
  cases h : held n <;> simp [mem_exposedAll]

/-- The nodes that a flow does not pass. -/
def holds : Flow → Node → Bool
  | .returned => isDefinition
  | _ => isLoopOrDefinition

/-- A run of the node may end with this flow: it is the normal one or has a source that is exposed to it. -/
def MayEnd (n : Node) (f : Flow) : Prop :=
  ∀ form, f.source? = some form → ∃ m ∈ n.exposed (holds f), m.isForm form = true

variable {n m : Node} {f : Flow}

theorem mayEnd_normal (n : Node) : n.MayEnd .normal := nofun

theorem MayEnd.child (h : m.MayEnd f) (hn : holds f n = false) (hm : m ∈ n.children) : n.MayEnd f := by
  intro form hform
  obtain ⟨k, hk, hkform⟩ := h form hform
  exact ⟨k, mem_exposed.2 (.inr ⟨hn, m, hm, hk⟩), hkform⟩

end Node

/-! ### Results of computations -/

/-- Every result of the computation has this property. -/
def Yields {α : Type} (P : α → Prop) (x : Eval α) : Prop := ∀ c a d, x c = (.ok a, d) → P a

/-- The node ends with these flows only. -/
abbrev EndsWith (P : Flow → Prop) (x : Eval Completion) : Prop := Yields (fun r => P r.flow) x

variable {α β : Type} {P Q : Flow → Prop} {run : Node.Evaluator} {n m : Node} {ns : List Node} {op name : String}
  {host : Host}

namespace Yields

variable {S S' : α → Prop} {T : β → Prop}

theorem imp {x : Eval α} (hx : Yields S x) (h : ∀ a, S a → S' a) : Yields S' x :=
  fun c a d ha => h a (hx c a d ha)

theorem pure {a : α} (h : S a) : Yields S (Pure.pure a) := by
  rintro c _ _ ⟨⟩
  exact h

theorem halt {r : Halt} : Yields S (Eval.halt r) := nofun

theorem raise {f : Fault} : Yields S (Eval.raise f) := nofun

theorem bind {x : Eval α} {f : α → Eval β} (hx : Yields S x) (hf : ∀ a, S a → Yields T (f a)) :
    Yields T (x >>= f) := by
  intro c b e h
  change Eval.bind x f c = _ at h
  rw [Eval.bind] at h
  split at h
  · rename_i a d ha
    exact hf a (hx c a d ha) d b e h
  · cases h

/-- What comes first does not matter. -/
theorem after {x : Eval α} {f : α → Eval β} (hf : ∀ a, Yields T (f a)) : Yields T (x >>= f) :=
  bind (S := fun _ => True) (fun _ _ _ _ => trivial) fun a _ => hf a

theorem child {i : Nat} {f : Node → Eval β} (h : ∀ n ∈ ns, Yields T (f n)) : Yields T (Eval.child ns i >>= f) := by
  refine bind (S := (· ∈ ns)) ?_ h
  unfold Eval.child
  cases hn : ns[i]? with
  | none => exact halt
  | some n => exact pure (List.mem_of_getElem? hn)

theorem withScope {x : Eval α} (h : Yields S x) : Yields S (Eval.withScope x) := by
  intro c a e hx
  obtain ⟨hresult, -⟩ := Prod.mk.inj hx
  exact h c.push a (x c.push).2 (Prod.ext hresult rfl)

theorem withCell {k : Int32} {x : Nat → Eval α} (h : ∀ address, Yields S (x address)) :
    Yields S (Eval.withCell k x) := by
  intro c a e hx
  obtain ⟨hresult, -⟩ := Prod.mk.inj hx
  exact h c.cells.size (c.newCell k).2 a _ (Prod.ext hresult rfl)

end Yields

namespace EndsWith

open Yields

/-! ### Constructs -/

theorem operand {next : Value → Eval Completion} (hn : EndsWith P (run n)) (hnext : ∀ v, EndsWith P (next v)) :
    EndsWith P (Node.operand run n next) := by
  refine hn.bind fun r hr => ?_
  cases hflow : r.flow with
  | normal => exact hnext r.value
  | _ => exact .pure hr

theorem sequence : ∀ (ns : List Node) (last : Completion), (∀ n ∈ ns, EndsWith P (run n)) → P last.flow →
    EndsWith P (Node.sequence run ns last)
  | [], _, _, hlast => .pure hlast
  | n :: ns, _, hns, _ => by
    refine (hns n (.head _)).bind fun r hr => ?_
    cases hflow : r.flow with
    | normal => exact sequence ns r (fun m hm => hns m (.tail _ hm)) hr
    | _ => exact .pure hr

/-- Of the flows that the body of a loop ends with only a return passes the loop. -/
theorem rounds {test : Eval Bool} {step : Eval Unit} (hnormal : P .normal) (hbody : EndsWith Q (run n))
    (hreturned : Q .returned → P .returned) : ∀ fuel, EndsWith P (Node.rounds run test n step fuel)
  | 0 => .halt
  | fuel + 1 => by
    refine .after fun holds => ?_
    cases holds with
    | false => exact .pure hnormal
    | true =>
      refine hbody.bind fun r hr => ?_
      cases hflow : r.flow with
      | broken => exact .pure hnormal
      | returned => exact .pure (hflow ▸ hreturned (hflow ▸ hr))
      | _ => exact .after fun _ => rounds hnormal hbody hreturned fuel

theorem whileLoop (hnormal : P .normal) (hns : ∀ n ∈ ns, EndsWith Q (run n)) (hreturned : Q .returned → P .returned)
    (fuel : Nat) : EndsWith P (Node.evalWhile run fuel ns) :=
  .child fun _ _ => .child fun body hb => rounds hnormal (hns body hb) hreturned fuel

theorem forLoop (hnormal : P .normal) (hns : ∀ n ∈ ns, EndsWith Q (run n)) (hreturned : Q .returned → P .returned)
    (fuel : Nat) : EndsWith P (Node.evalFor run fuel ns) := by
  refine .child fun _ _ => .child fun _ _ => .child fun _ _ => .child fun body hb => ?_
  exact .withScope (.after fun _ => rounds hnormal (hns body hb) hreturned fuel)

theorem counted {loop : CountedLoop} (hnormal : P .normal) (hns : ∀ n ∈ ns, EndsWith Q (run n))
    (hreturned : Q .returned → P .returned) (fuel : Nat) : EndsWith P (Node.evalCounted run fuel loop ns) := by
  refine .child fun body hb => .withScope (.withCell fun address => .after fun _ => ?_)
  exact rounds hnormal (hns body hb) hreturned fuel

theorem conditional (hnormal : P .normal) (hns : ∀ n ∈ ns, EndsWith P (run n)) :
    EndsWith P (Node.evalConditional run ns) := by
  refine .child fun test ht => operand (hns test ht) fun v => .after fun d => .after fun holds => ?_
  cases holds with
  | true => exact .child hns
  | false =>
    simp only [Bool.false_eq_true, if_false]
    split
    · rename_i branch hbranch
      exact hns branch (List.mem_of_getElem? hbranch)
    · exact .pure hnormal

theorem binary (hnormal : P .normal) (hns : ∀ n ∈ ns, EndsWith P (run n)) : EndsWith P (Node.evalBinary run op ns) := by
  refine .child fun lhs hl => operand (hns lhs hl) fun u => ?_
  split
  · refine .after fun x => .after fun left => ?_
    split
    · exact .pure hnormal
    · refine .child fun rhs hr => operand (hns rhs hr) fun v => .after fun y => .after fun right => ?_
      exact .pure hnormal
  · refine .child fun rhs hr => operand (hns rhs hr) fun v => .after fun x => .after fun y => .after fun d => ?_
    exact .pure hnormal

theorem stepVariable {o : Arithmetic} (hnormal : P .normal) : EndsWith P (Node.stepVariable o name) :=
  .after fun _ => .after fun _ => .after fun _ => .after fun _ => .after fun _ => .after fun _ => .pure hnormal

theorem prefixed (hnormal : P .normal) (hns : ∀ n ∈ ns, EndsWith P (run n)) :
    EndsWith P (Node.evalPrefixed run op ns) := by
  refine .child fun target ht => ?_
  split
  · split
    · exact stepVariable hnormal
    · exact .raise
  · refine operand (hns target ht) fun v => .after fun x => ?_
    split
    · exact .after fun _ => .pure hnormal
    · exact .after fun _ => .pure hnormal

theorem store {v : Value} (hnormal : P .normal) : EndsWith P (Node.evalStore op name v) := by
  have hassign : ∀ u : Value, EndsWith P
      (do
        let x ← Eval.read u
        Eval.change (·.assign name x)
        return .ofValue u : Eval Completion) :=
    fun u => .after fun _ => .after fun _ => .pure hnormal
  unfold Node.evalStore
  split
  · exact hassign v
  · exact .after fun _ => .after fun _ => .after fun _ => .after fun x => hassign (.plain x)

theorem equation (hnormal : P .normal) (hns : ∀ n ∈ ns, EndsWith P (run n)) :
    EndsWith P (Node.evalEquation run op ns) := by
  refine .child fun target _ => .child fun rhs hr => operand (hns rhs hr) fun v => ?_
  split
  · exact .after fun _ => .after fun _ => .after fun _ => .pure hnormal
  · split
    · exact store hnormal
    · exact .raise

theorem returned (hreturned : P .returned) (hns : ∀ n ∈ ns, EndsWith P (run n)) :
    EndsWith P (Node.evalReturn run ns) := by
  match ns with
  | [] => exact .pure hreturned
  | n :: _ =>
    refine operand (hns n (.head _)) fun v => .after fun d => ?_
    exact .pure hreturned

theorem definition (hnormal : P .normal) : EndsWith P (Node.evalDefinition ns) := by
  cases hf : Node.functionOf? ns with
  | none =>
    rw [Node.evalDefinition_none hf]
    exact .raise
  | some f =>
    intro c r d h
    rw [Node.evalDefinition_some hf] at h
    cases h
    exact hnormal

theorem arguments {next : List Datum → Eval Completion} (hnext : ∀ xs, EndsWith P (next xs)) :
    ∀ (ns : List Node) (done : List Datum), (∀ n ∈ ns, EndsWith P (run n)) →
      EndsWith P (Node.evalArguments run next ns done)
  | [], done, _ => hnext done.reverse
  | n :: ns, done, hns => operand (hns n (.head _)) fun _ => .after fun x =>
      arguments hnext ns (x :: done) fun m hm => hns m (.tail _ hm)

/-- A call drops the flow with which the body of the function ends. -/
theorem callName (hnormal : P .normal) (xs : List Datum) : EndsWith P (Node.callName host run name xs) := by
  refine .after fun found => ?_
  split
  · exact .after fun _ => .after fun _ => .pure hnormal
  · split
    · exact .after fun _ => .pure hnormal
    · exact .raise

theorem call (hnormal : P .normal) (hns : ∀ n ∈ ns, EndsWith P (run n))
    (hlist : ∀ list, ns[1]? = some list → ∀ n ∈ list.children, EndsWith P (run n)) :
    EndsWith P (Node.evalCall host run ns) := by
  refine .child fun callee hcallee => arguments (fun xs => ?_) _ [] fun n hn => ?_
  · split
    · exact callName hnormal xs
    · exact operand (hns callee hcallee) fun v => .after fun _ => .after fun _ => .pure hnormal
  · split at hn
    · rename_i list h
      exact hlist list h n hn
    · cases hn

end EndsWith

/-! ### Trees -/

namespace Node

/-- Of the constructs only loops and definitions hold flows back. -/
theorem holds_construct {form : Form} {text : String} {span : Span} (f : Flow)
    (h : ¬(form = .forLoop ∨ form = .whileLoop ∨ form = .definition)) :
    holds f (.construct form text span ns) = false := by
  cases form with
  | forLoop => exact absurd (.inl rfl) h
  | whileLoop => exact absurd (.inr (.inl rfl)) h
  | definition => exact absurd (.inr (.inr rfl)) h
  | _ => cases f <;> rfl

/-- A call may end with any flow with which one of its arguments may end. -/
theorem MayEnd.argument {f : Flow} {text : String} {span : Span} {ns : List Node} {list m : Node}
    (h : m.MayEnd f) (hlist : ns[1]? = some list) (hform : list.isForm .argumentList = true)
    (hm : m ∈ list.children) : (construct .call text span ns).MayEnd f := by
  obtain ⟨t, s, ms, rfl⟩ := Rule.isForm_eq hform
  exact (h.child (holds_construct f (by simp)) hm).child (holds_construct f (by simp))
    (List.mem_of_getElem? hlist)

/-- Every run ends with a flow that the node may end with. -/
theorem eval_mayEnd (host : Host) : ∀ (fuel : Nat) (n : Node), (∀ a ∈ n.parts, a.ListsArguments) →
    EndsWith n.MayEnd (n.eval host fuel)
  | 0, _, _ => .halt
  | fuel + 1, n, hlists => by
    have ih : ∀ m ∈ n.children, EndsWith m.MayEnd (m.eval host fuel) :=
      fun m hm => eval_mayEnd host fuel m fun a ha => hlists a (parts_trans ha (mem_parts_child hm))
    have hnormal : n.MayEnd .normal := n.mayEnd_normal
    -- of a loop all that is known is that one of its children may end with the flow of its body
    have hbodies : ∀ m ∈ n.children, EndsWith (fun f => ∃ m ∈ n.children, m.MayEnd f) (m.eval host fuel) :=
      fun m hm => (ih m hm).imp fun r hr => ⟨m, hm, hr⟩
    have hreturned : n.isDefinition = false → (∃ m ∈ n.children, m.MayEnd .returned) → n.MayEnd .returned :=
      fun hopen ⟨m, hm, hmay⟩ => hmay.child hopen hm
    cases n with
    | constant => exact .pure hnormal
    | counted loop g text span ns => exact .counted hnormal hbodies (hreturned rfl) fuel
    | construct form text span ns =>
      by_cases hheld : form = .forLoop ∨ form = .whileLoop ∨ form = .definition
      · rcases hheld with rfl | rfl | rfl
        · exact .forLoop hnormal hbodies (hreturned rfl) fuel
        · exact .whileLoop hnormal hbodies (hreturned rfl) fuel
        · exact .definition hnormal
      · have hopen : ∀ f, holds f (.construct form text span ns) = false := fun f => holds_construct f hheld
        have hns : ∀ m ∈ ns, EndsWith (MayEnd (.construct form text span ns)) (m.eval host fuel) :=
          fun m hm => (ih m hm).imp fun r hr => hr.child (hopen r.flow) hm
        have hself : ∀ f : Flow, f.source? = some form → MayEnd (.construct form text span ns) f := by
          intro f hf g hg
          rw [hf] at hg
          cases hg
          exact ⟨_, mem_exposed.2 (.inl rfl), by simp [isForm, kind]⟩
        cases form with
        | forLoop | whileLoop | definition => simp at hheld
        | identifier => exact .after fun _ => .pure hnormal
        | declaration => exact .after fun _ => .pure hnormal
        | equation => exact .equation hnormal hns
        | binary => exact .binary hnormal hns
        | prefixed => exact .prefixed hnormal hns
        | conditional | ternary => exact .conditional hnormal hns
        | block => exact .withScope (EndsWith.sequence ns .done hns hnormal)
        | returned => exact .returned (hself .returned rfl) hns
        | breakLoop => exact .pure (hself .broken rfl)
        | continueLoop => exact .pure (hself .continued rfl)
        | noop | argumentList => exact .pure hnormal
        | call =>
          refine .call hnormal hns fun list hlist m hm => ?_
          have hargs : ns[1]?.all (·.isForm .argumentList) = true := hlists _ (mem_parts_self _) rfl
          have hform : list.isForm .argumentList = true := by simpa [show ns[1]? = some list from hlist] using hargs
          have hmem : list ∈ ns := List.mem_of_getElem? hlist
          have harg : EndsWith m.MayEnd (m.eval host fuel) :=
            eval_mayEnd host fuel m fun a ha =>
              hlists a (parts_trans (parts_trans ha (mem_parts_child hm)) (mem_parts_child hmem))
          exact harg.imp fun r hr => hr.argument hlist hform hm

end Node

/-- However its functions and its host behave, a run that meets no fault ends normally or with a return if no
`break` and no `continue` is reached from the tree without passing a loop or a definition; and it does not
end with a return if no `return` is reached without passing a definition. -/
theorem control_contained (host : Host) (fuel : Nat) (n : Node) (c : Context) {r : Completion} {d : Context}
    (hlists : ∀ a ∈ n.parts, a.ListsArguments) (h : n.eval host fuel c = (.ok r, d)) :
    ((∀ m ∈ n.exposed Node.isLoopOrDefinition, m.isForm .breakLoop = false ∧ m.isForm .continueLoop = false) →
      r.flow = .normal ∨ r.flow = .returned) ∧
    ((∀ m ∈ n.exposed Node.isDefinition, m.isForm .returned = false) → r.flow ≠ .returned) := by
  have hmay : n.MayEnd r.flow := n.eval_mayEnd host fuel hlists c r d h
  constructor
  · intro hnone
    cases hflow : r.flow with
    | normal => exact .inl rfl
    | returned => exact .inr rfl
    | broken =>
      obtain ⟨m, hm, hform⟩ := (hflow ▸ hmay) .breakLoop rfl
      rw [(hnone m hm).1] at hform
      cases hform
    | continued =>
      obtain ⟨m, hm, hform⟩ := (hflow ▸ hmay) .continueLoop rfl
      rw [(hnone m hm).2] at hform
      cases hform
  · intro hnone hflow
    obtain ⟨m, hm, hform⟩ := (hflow ▸ hmay) .returned rfl
    rw [hnone m hm] at hform
    cases hform

/-- A loop whose body is a `break`, and after it a call of a function that is no more than a stray one. -/
theorem control_contained_stray :
    let stray : Node := .construct .breakLoop "" .unknown []
    let c := (Context.empty.define ⟨"f", ["x"], stray⟩).2.bind "f" (.script ⟨0, "f"⟩)
    let n := Node.construct .block "" .unknown [.countTo "i" 3 stray, .callOn "f" (.ofInt 1)]
    (∀ a ∈ n.parts, a.ListsArguments) ∧
      (∀ m ∈ n.exposed Node.isLoopOrDefinition, m.isForm .breakLoop = false ∧ m.isForm .continueLoop = false) ∧
      (∀ m ∈ n.exposed Node.isDefinition, m.isForm .returned = false) ∧
      ∃ r d, n.eval .silent 20 c = (.ok r, d) ∧ (r.flow = .normal ∨ r.flow = .returned) ∧ r.flow ≠ .returned := by
  intro stray c n
  have hlists : ∀ a ∈ n.parts, a.ListsArguments := by decide
  have hloops : ∀ m ∈ n.exposed Node.isLoopOrDefinition,
      m.isForm .breakLoop = false ∧ m.isForm .continueLoop = false := by decide
  have hreturns : ∀ m ∈ n.exposed Node.isDefinition, m.isForm .returned = false := by decide
  obtain ⟨d, hd⟩ : ∃ d, n.eval .silent 20 c = (.ok .done, d) := ⟨_, rfl⟩
  obtain ⟨hloop, hreturn⟩ := control_contained .silent 20 n c hlists hd
  exact ⟨hlists, hloops, hreturns, _, d, hd, hloop hloops, hreturn hreturns⟩

end ScriptTree

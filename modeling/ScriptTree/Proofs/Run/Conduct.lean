import ScriptTree.Proofs.Optimize.Soundness

/-!
What every run keeps. A run is made of few kinds of steps: data are bound in the innermost scope, stored in
the nearest binding of a name, written to the cell of a native loop; functions are defined and calls noted;
scopes are opened and closed again. What all of these keep, every run keeps, however it ends.

A node that binds no name in the scope around it may be held to more there than one that does. So there are
two measures of change, and where a scope is opened the inner computation is held to the looser one. There is
one lemma for each construct; the induction on fuel at the end puts them together.
-/

namespace ScriptTree

open Eval

/-! ### Trees -/

/-- How many children evaluating a construct may ask for. -/
def Form.required : Form → Nat
  | .equation | .binary | .conditional | .ternary | .whileLoop => 2
  | .forLoop => 4
  | .prefixed | .call => 1
  | _ => 0

namespace Node

/-- Whether a construct has the children that evaluating it may ask for. -/
def hasOperands : Node → Bool
  | .construct form _ _ children => form.required ≤ children.length
  | _ => true

def hasBody : Node → Bool
  | .counted _ _ _ _ children => !children.isEmpty
  | _ => true

/-- Every construct has the children that evaluating it may ask for. -/
def Complete (n : Node) : Prop := ∀ a ∈ n.parts, a.hasOperands = true

def Bodied (n : Node) : Prop := ∀ a ∈ n.parts, a.hasBody = true

instance (n : Node) : Decidable n.Complete := inferInstanceAs (Decidable (∀ a ∈ n.parts, a.hasOperands = true))

/-- A call has its arguments, if it has a second child, in a list. -/
def ListsArguments (n : Node) : Prop :=
  n.isForm .call = true → n.children[1]?.all (·.isForm .argumentList) = true

instance (n : Node) : Decidable n.ListsArguments := inferInstanceAs (Decidable (_ → _))

/-- Evaluating the node binds no name in the scope around it. -/
structure Modest (n : Node) : Prop where
  undeclaring : n.isForm .block = true ∨ Rule.declares n = false
  listed : ∀ a ∈ n.parts, a.ListsArguments

variable {n m : Node} {form : Form} {text : String} {span : Span} {ns : List Node}

theorem Complete.child (h : n.Complete) (hm : m ∈ n.children) : m.Complete :=
  fun a ha => h a (parts_trans ha (mem_parts_child hm))

theorem Bodied.child (h : n.Bodied) (hm : m ∈ n.children) : m.Bodied :=
  fun a ha => h a (parts_trans ha (mem_parts_child hm))

/-- Blocks apart, a node that binds no name has no child that does. -/
theorem Modest.child (h : (construct form text span ns).Modest) (hform : form ≠ .block) (hm : m ∈ ns) :
    m.Modest := by
  refine ⟨?_, fun a ha => h.listed a (parts_trans ha (mem_parts_child hm))⟩
  rcases h.undeclaring with hblock | hdeclares
  · exact absurd (by simpa [isForm, kind] using hblock) hform
  · exact declaresAny_eq_false (declares_construct hdeclares).2.2 m hm

/-- What is in the list of arguments of a call. -/
theorem Modest.argument (h : (construct .call text span ns).Modest) {list : Node} (hlist : ns[1]? = some list)
    (hm : m ∈ list.children) : m.Modest := by
  have hargs : ns[1]?.all (·.isForm .argumentList) = true := h.listed _ (mem_parts_self _) rfl
  rw [hlist] at hargs
  obtain ⟨t, s, ms, rfl⟩ := Rule.isForm_eq hargs
  exact (h.child nofun (List.mem_of_getElem? hlist)).child nofun hm

/-- Neither is it a declaration or a definition. -/
theorem Modest.form_ne (h : (construct form text span ns).Modest) : form ≠ .declaration ∧ form ≠ .definition := by
  rcases h.undeclaring with hblock | hdeclares
  · obtain rfl : form = .block := by simpa [isForm, kind] using hblock
    exact ⟨by decide, by decide⟩
  · exact ⟨(declares_construct hdeclares).1, (declares_construct hdeclares).2.1⟩

theorem Modest.not_declaration (h : n.Modest) : n.isForm .declaration = false := by
  cases hform : n.isForm .declaration with
  | false => rfl
  | true =>
    obtain ⟨text, span, ns, rfl⟩ := Rule.isForm_eq hform
    exact absurd rfl h.form_ne.1

end Node

/-! ### Conducts -/

theorem Context.functions_assign {c c' : Context} {name : String} {d : Datum} (h : c.assign name d = .ok c') :
    c'.functions = c.functions := by
  unfold Context.assign at h
  split at h
  · cases h
  · split at h
    · cases h
      rfl
    · cases h
  · split at h
    · cases h
      exact Context.functions_replace ..
    · cases h
  · cases h
    exact Context.functions_replace ..

/-- A way in which runs change contexts. `Change true` is the measure for computations that may bind names in
the innermost scope, `Change false` the one for all others. In a strict conduct no child is ever missing. -/
structure Conduct where
  Change : Bool → Context → Context → Prop
  strict : Bool
  refl : ∀ b c, Change b c c
  trans : ∀ {b c d e}, Change b c d → Change b d e → Change b c e
  bind : ∀ (c : Context) (name : String) (d : Datum), Change true c (c.bind name d)
  assign : ∀ {b c c' name d}, Context.assign c name d = .ok c' → Change b c c'
  setCell : ∀ b (c : Context) address n, Change b c (c.setCell address n)
  define : ∀ b (c : Context) f, Change b c (c.define f).2
  call : ∀ b (c : Context) call, Change b c { c with calls := c.calls.push call }
  scope : ∀ {b c d}, Change true (Context.push c) d → Change b c d.pop
  loop : ∀ {b c d name n}, Change true (Context.enterLoop c name n) d → Change b c (d.leaveLoop c.cells.size)

variable {α β : Type} {C : Conduct} {b : Bool} {c : Context} {run : Node.Evaluator} {n m : Node} {ns : List Node}
  {name op : String} {host : Host} {k : Nat}

namespace Conduct

/-- The tree has the children that a strict conduct wants. -/
def Fits (C : Conduct) (n : Node) : Prop := C.strict = true → n.Complete ∧ n.Bodied

/-- The functions of the context have the children that a strict conduct wants. -/
def Sound (C : Conduct) (c : Context) : Prop := ∀ f ∈ c.functions.toList, C.Fits f.body

/-- The node may be evaluated under this measure. -/
structure Admits (C : Conduct) (b : Bool) (n : Node) : Prop where
  fits : C.Fits n
  modest : b = false → n.Modest

end Conduct

/-- A computation keeps to a conduct, whether it yields a result or stops. -/
structure Keeps (C : Conduct) (b : Bool) (x : Eval α) (c : Context) : Prop where
  changes : C.Change b c (x c).2
  sound : C.Sound (x c).2
  complete : C.strict = true → ∀ i count, (x c).1 ≠ .error (.missingChild i count)

/-- The node, evaluated in a context with sound functions, keeps to the conduct. -/
def NodeKeeps (C : Conduct) (b : Bool) (run : Node.Evaluator) (n : Node) : Prop :=
  ∀ c, C.Sound c → Keeps C b (run n) c

namespace Keeps

/-! ### Single steps -/

theorem pure {a : α} (hc : C.Sound c) : Keeps C b (Pure.pure a) c := ⟨C.refl b c, hc, nofun⟩

theorem outOfFuel (hc : C.Sound c) : Keeps C b (halt (α := α) .outOfFuel) c := ⟨C.refl b c, hc, nofun⟩

theorem raise {f : Fault} (hc : C.Sound c) : Keeps C b (Eval.raise (α := α) f) c := ⟨C.refl b c, hc, nofun⟩

/-- A computation with a known outcome. -/
theorem of_eq {x : Eval α} {r : Except Halt α} {d : Context} (h : x c = (r, d)) (hchanges : C.Change b c d)
    (hd : C.Sound d) (hr : C.strict = true → ∀ i count, r ≠ .error (.missingChild i count)) : Keeps C b x c :=
  ⟨by rw [h]; exact hchanges, by rw [h]; exact hd, by rw [h]; exact hr⟩

/-- A computation that is known to yield a result. -/
theorem of_ok {x : Eval α} {a : α} {d : Context} (h : x c = (.ok a, d)) (hchanges : C.Change b c d)
    (hd : C.Sound d) : Keeps C b x c :=
  of_eq h hchanges hd fun _ => nofun

/-- A computation that is known to be at fault. -/
theorem of_fault {x : Eval α} {e : Fault} {d : Context} (h : x c = (.error (.fault e), d))
    (hchanges : C.Change b c d) (hd : C.Sound d) : Keeps C b x c :=
  of_eq h hchanges hd fun _ => nofun

/-- One computation after another. -/
theorem bind {x : Eval α} {f : α → Eval β} (hx : Keeps C b x c)
    (hf : ∀ a d, C.Sound d → Keeps C b (f a) d) : Keeps C b (x >>= f) c := by
  obtain ⟨hchanges, hsound, hcomplete⟩ := hx
  have hxf : (x >>= f) c = Eval.bind x f c := rfl
  rw [Eval.bind] at hxf
  generalize x c = p at hxf hchanges hsound hcomplete
  obtain ⟨h | a, d⟩ := p
  · exact of_eq hxf hchanges hsound fun hs i count he => hcomplete hs i count (by cases he; rfl)
  · have hnext := hf a d hsound
    exact of_eq hxf (C.trans hchanges hnext.changes) hnext.sound hnext.complete

/-- The context is looked at. -/
theorem look {view : Context → α} {f : α → Eval β} (h : Keeps C b (f (view c)) c) :
    Keeps C b (Eval.look view >>= f) c := ⟨h.changes, h.sound, h.complete⟩

/-- A value is read. -/
theorem readThen {v : Value} {f : Datum → Eval β} (h : ∀ d, Keeps C b (f d) c) :
    Keeps C b (Eval.read v >>= f) c := look (h _)

/-- A result, or a fault in its place. -/
theorem okThen {e : Except Fault α} {f : α → Eval β} (hc : C.Sound c) (h : ∀ a, Keeps C b (f a) c) :
    Keeps C b (Eval.ofExcept e >>= f) c := by
  cases e with
  | ok a => exact ⟨(h a).changes, (h a).sound, (h a).complete⟩
  | error e => exact ⟨C.refl b c, hc, nofun⟩

theorem get (hc : C.Sound c) : Keeps C b (Eval.get name) c := by
  cases h : c.get name with
  | ok v => exact of_ok (by rw [Eval.get, h]) (C.refl b c) hc
  | error e => exact of_fault (by rw [Eval.get, h]) (C.refl b c) hc

/-- A change of the context, which may be at fault. -/
theorem change {g : Context → Except Fault Context} (hc : C.Sound c)
    (hg : ∀ d, g c = .ok d → C.Change b c d ∧ d.functions = c.functions) : Keeps C b (Eval.change g) c := by
  cases h : g c with
  | ok d =>
    obtain ⟨hchanges, hfunctions⟩ := hg d h
    exact of_ok (by rw [Eval.change, h]) hchanges fun f hf => hc f (hfunctions ▸ hf)
  | error e => exact of_fault (by rw [Eval.change, h]) (C.refl b c) hc

theorem update {g : Context → Context} (hchanges : C.Change b c (g c)) (hd : C.Sound (g c)) :
    Keeps C b (Eval.update g) c :=
  of_ok rfl hchanges hd

/-- Data are stored in the nearest binding of a name. -/
theorem assign {d : Datum} (hc : C.Sound c) : Keeps C b (Eval.change (·.assign name d)) c :=
  change hc fun _ h => ⟨C.assign h, Context.functions_assign h⟩

/-- A name is declared in the innermost scope. -/
theorem declare (hc : C.Sound c) : Keeps C true (Eval.change (·.declare name)) c :=
  change hc fun d h => by
    unfold Context.declare at h
    split at h
    · cases h
    · cases h
      exact ⟨C.bind c name .void, rfl⟩

/-- One of the children, which a strict conduct finds. -/
theorem child {i : Nat} {f : Node → Eval β} (hc : C.Sound c) (hlen : C.strict = true → k ≤ ns.length) (hi : i < k)
    (h : ∀ n ∈ ns, Keeps C b (f n) c) : Keeps C b (Eval.child ns i >>= f) c := by
  unfold Eval.child
  cases hn : ns[i]? with
  | some n =>
    have hnext := h n (List.mem_of_getElem? hn)
    exact of_eq rfl hnext.changes hnext.sound hnext.complete
  | none =>
    have hmissing : ns.length ≤ i := List.getElem?_eq_none_iff.1 hn
    exact of_eq rfl (C.refl b c) hc fun hs => absurd (hlen hs) (by omega)

/-- Inside a scope. -/
theorem withScope {x : Eval α} (h : Keeps C true x c.push) : Keeps C b (Eval.withScope x) c := by
  refine ⟨C.scope h.changes, fun f hf => h.sound f ?_, h.complete⟩
  rwa [show (Eval.withScope x c).2 = (x c.push).2.pop from rfl, Context.functions_pop] at hf

/-! ### Operands and statements -/

theorem operand {next : Value → Eval Completion} (hn : NodeKeeps C b run n) (hc : C.Sound c)
    (hnext : ∀ v d, C.Sound d → Keeps C b (next v) d) : Keeps C b (Node.operand run n next) c := by
  refine (hn c hc).bind fun r d hd => ?_
  cases r.flow with
  | normal => exact hnext r.value d hd
  | _ => exact pure hd

theorem condition (hn : NodeKeeps C b run n) (hc : C.Sound c) : Keeps C b (Node.condition run n) c := by
  refine (hn c hc).bind fun r d hd => readThen fun x => ?_
  cases x.asBool with
  | ok a => exact pure hd
  | error e => exact raise hd

theorem sequence : ∀ (ns : List Node) (last : Completion) (c : Context), C.Sound c →
    (∀ n ∈ ns, NodeKeeps C b run n) → Keeps C b (Node.sequence run ns last) c
  | [], _, _, hc, _ => pure hc
  | n :: ns, _, c, hc, hns => by
    refine (hns n (.head _) c hc).bind fun r d hd => ?_
    cases r.flow with
    | normal => exact sequence ns r d hd fun m hm => hns m (.tail _ hm)
    | _ => exact pure hd

theorem block (hns : ∀ n ∈ ns, NodeKeeps C true run n) (hc : C.Sound c) :
    Keeps C b (Eval.withScope (Node.sequence run ns .done)) c :=
  withScope (sequence ns .done c.push hc hns)

/-! ### Loops -/

theorem rounds {test : Eval Bool} {step : Eval Unit} (htest : ∀ c, C.Sound c → Keeps C b test c)
    (hbody : NodeKeeps C b run n) (hstep : ∀ c, C.Sound c → Keeps C b step c) :
    ∀ (fuel : Nat) (c : Context), C.Sound c → Keeps C b (Node.rounds run test n step fuel) c
  | 0, _, hc => outOfFuel hc
  | fuel + 1, c, hc => by
    refine (htest c hc).bind fun holds d hd => ?_
    cases holds with
    | false => exact pure hd
    | true =>
      refine (hbody d hd).bind fun r e he => ?_
      have hnext : Keeps C b (do step; Node.rounds run test n step fuel) e :=
        (hstep e he).bind fun _ f hf => rounds htest hbody hstep fuel f hf
      cases r.flow with
      | broken => exact pure he
      | returned => exact pure he
      | _ => exact hnext

theorem whileLoop (hlen : C.strict = true → 2 ≤ ns.length) (hns : ∀ n ∈ ns, NodeKeeps C b run n)
    (hc : C.Sound c) (fuel : Nat) : Keeps C b (Node.evalWhile run fuel ns) c := by
  refine child hc hlen (by decide) fun test ht => child hc hlen (by decide) fun body hb => ?_
  exact rounds (fun c hc => condition (hns test ht) hc) (hns body hb) (fun c hc => pure hc) fuel c hc

theorem forLoop (hlen : C.strict = true → 4 ≤ ns.length) (hns : ∀ n ∈ ns, NodeKeeps C true run n)
    (hc : C.Sound c) (fuel : Nat) : Keeps C b (Node.evalFor run fuel ns) c := by
  refine child hc hlen (by decide) fun setup hsetup => child hc hlen (by decide) fun test htest => ?_
  refine child hc hlen (by decide) fun step hstep => child hc hlen (by decide) fun body hbody => ?_
  refine withScope ((hns setup hsetup c.push hc).bind fun _ d hd => ?_)
  refine rounds (fun c hc => condition (hns test htest) hc) (hns body hbody) (fun c hc => ?_) fuel d hd
  exact (hns step hstep c hc).bind fun _ e he => pure he

/-- A native loop: its rounds run in a scope of their own, with the counter in a cell. -/
theorem counted {loop : CountedLoop} (hlen : C.strict = true → ns ≠ []) (hns : ∀ n ∈ ns, NodeKeeps C true run n)
    (hc : C.Sound c) (fuel : Nat) : Keeps C b (Node.evalCounted run fuel loop ns) c := by
  match ns with
  | [] => exact ⟨C.refl b c, hc, fun hs => absurd rfl (hlen hs)⟩
  | body :: rest =>
    have hrounds : Keeps C true (Node.countedRounds run fuel loop.limit body c.cells.size)
        (c.enterLoop loop.counter loop.first) := by
      refine rounds (fun d hd => ?_) (hns body (.head _)) (fun d hd => ?_) fuel _ hc
      · exact of_ok rfl (C.refl true d) hd
      · exact update (C.setCell true d _ _) hd
    refine ⟨C.loop hrounds.changes, fun f hf => hrounds.sound f ?_, hrounds.complete⟩
    rw [Node.evalCounted_cons] at hf
    simpa [Context.leaveLoop] using hf

/-! ### Operators -/

theorem conditional (hlen : C.strict = true → 2 ≤ ns.length) (hns : ∀ n ∈ ns, NodeKeeps C b run n)
    (hc : C.Sound c) : Keeps C b (Node.evalConditional run ns) c := by
  refine child hc hlen (by decide) fun test ht => operand (hns test ht) hc fun v d hd => readThen fun x => ?_
  refine okThen hd fun holds => ?_
  cases holds with
  | true => exact child hd hlen (by decide) fun branch hb => hns branch hb d hd
  | false =>
    simp only [Bool.false_eq_true, if_false]
    split
    · rename_i branch hbranch
      exact hns branch (List.mem_of_getElem? hbranch) d hd
    · exact pure hd

theorem binary (hlen : C.strict = true → 2 ≤ ns.length) (hns : ∀ n ∈ ns, NodeKeeps C b run n)
    (hc : C.Sound c) : Keeps C b (Node.evalBinary run op ns) c := by
  refine child hc hlen (by decide) fun lhs hl => operand (hns lhs hl) hc fun u d hd => ?_
  split
  · refine readThen fun x => okThen hd fun left => ?_
    split
    · exact pure hd
    · refine child hd hlen (by decide) fun rhs hr => operand (hns rhs hr) hd fun v e he => ?_
      exact readThen fun y => okThen he fun right => pure he
  · refine child hd hlen (by decide) fun rhs hr => operand (hns rhs hr) hd fun v e he => ?_
    exact readThen fun x => readThen fun y => okThen he fun z => pure he

theorem stepVariable {o : Arithmetic} (hc : C.Sound c) : Keeps C b (Node.stepVariable o name) c := by
  refine (get hc).bind fun v d hd => readThen fun x => okThen hd fun next => ?_
  refine (assign hd).bind fun _ e he => (get he).bind fun u f hf => ?_
  exact readThen fun y => pure hf

theorem prefixed (hlen : C.strict = true → 1 ≤ ns.length) (hns : ∀ n ∈ ns, NodeKeeps C b run n)
    (hc : C.Sound c) : Keeps C b (Node.evalPrefixed run op ns) c := by
  refine child hc hlen (by decide) fun target ht => ?_
  split
  · split
    · exact stepVariable hc
    · exact raise hc
  · refine operand (hns target ht) hc fun v d hd => readThen fun x => ?_
    split
    · exact okThen hd fun y => pure hd
    · exact okThen hd fun y => pure hd

theorem store {v : Value} (hc : C.Sound c) : Keeps C b (Node.evalStore op name v) c := by
  have hassign : ∀ (u : Value) d, C.Sound d → Keeps C b
      (do
        let x ← Eval.read u
        Eval.change (·.assign name x)
        return .ofValue u : Eval Completion) d :=
    fun u d hd => readThen fun x => (assign hd).bind fun _ e he => pure he
  unfold Node.evalStore
  split
  · exact hassign v c hc
  · refine (get hc).bind fun u d hd => readThen fun x => readThen fun y => ?_
    exact okThen hd fun z => hassign _ d hd

/-- An assignment. Only under the looser measure its target may be a declaration. -/
theorem equation (hlen : C.strict = true → 2 ≤ ns.length) (hns : ∀ n ∈ ns, NodeKeeps C b run n)
    (hdeclares : b = false → ∀ n ∈ ns, n.isForm .declaration = false) (hc : C.Sound c) :
    Keeps C b (Node.evalEquation run op ns) c := by
  refine child hc hlen (by decide) fun target ht => child hc hlen (by decide) fun rhs hr => ?_
  refine operand (hns rhs hr) hc fun v d hd => ?_
  split
  · rename_i hform
    cases b with
    | false => rw [hdeclares rfl target ht] at hform; cases hform
    | true =>
      refine (declare hd).bind fun _ e he => readThen fun x => ?_
      exact (update (C.bind e _ x) he).bind fun _ f hf => pure hf
  · split
    · exact store hd
    · exact raise hd

theorem returned (hns : ∀ n ∈ ns, NodeKeeps C b run n) (hc : C.Sound c) : Keeps C b (Node.evalReturn run ns) c := by
  match ns with
  | [] => exact pure hc
  | n :: rest =>
    unfold Node.evalReturn
    exact operand (hns n (.head _)) hc fun v d hd => readThen fun x => pure hd

/-! ### Functions -/

theorem definition (hbody : ∀ n ∈ ns, C.Fits n) (hc : C.Sound c) : Keeps C true (Node.evalDefinition ns) c := by
  cases hf : Node.functionOf? ns with
  | none =>
    rw [Node.evalDefinition_none hf]
    exact raise hc
  | some f =>
    refine of_ok (Node.evalDefinition_some hf c) (C.trans (C.define true c f) (C.bind _ _ _)) fun g hg => ?_
    simp only [Context.bind, Context.define, Array.toList_push, List.mem_append, List.mem_singleton] at hg
    rcases hg with hg | rfl
    · exact hc g hg
    · exact hbody _ (Node.functionOf?_body hf)

theorem callHost (f : HostFunction) (arguments : List Datum) (hc : C.Sound c) :
    Keeps C b (Node.callHost host f arguments) c := by
  have hcall := C.call b c ⟨f, arguments⟩
  cases h : host.answer c.calls ⟨f, arguments⟩ with
  | ok d => exact of_ok (a := d) (by simp [Node.callHost, h]) hcall hc
  | error e => exact of_fault (e := e) (by simp [Node.callHost, h]) hcall hc

/-- Data are bound in the innermost scope one after the other. -/
theorem bindAll : ∀ (bs : List (String × Datum)) (c : Context), C.Sound c →
    C.Change true c (bs.foldl (fun c (x, d) => c.bind x d) c) ∧ C.Sound (bs.foldl (fun c (x, d) => c.bind x d) c)
  | [], c, hc => ⟨C.refl true c, hc⟩
  | (x, d) :: bs, c, hc => by
    obtain ⟨hchange, hsound⟩ := bindAll bs (c.bind x d) hc
    exact ⟨C.trans (C.bind c x d) hchange, hsound⟩

theorem callScript {f : ScriptFunction} (hf : NodeKeeps C true run f.body) (arguments : List Datum)
    (hc : C.Sound c) : Keeps C b (Node.callScript run f arguments) c := by
  unfold Node.callScript
  split
  · exact raise hc
  · obtain ⟨hchange, hsound⟩ := bindAll (C := C) (f.parameters.zip arguments) c.push hc
    refine withScope ((update hchange hsound).bind fun _ d hd => (hf d hd).bind fun r e he => ?_)
    exact look (pure he)

theorem callDatum (hcalled : ∀ n, C.Fits n → NodeKeeps C true run n) (target : Datum) (arguments : List Datum)
    (hc : C.Sound c) : Keeps C b (Node.callDatum host run target arguments) c := by
  cases target with
  | host f => exact callHost f arguments hc
  | script reference =>
    refine look ?_
    split
    · rename_i f hf
      have hmem : f ∈ c.functions.toList := Array.mem_toList_iff.2 (Array.mem_of_getElem? hf)
      exact callScript (hcalled f.body (hc f hmem)) arguments hc
    · exact raise hc
  | _ => exact raise hc

theorem callName (hcalled : ∀ n, C.Fits n → NodeKeeps C true run n) (arguments : List Datum) (hc : C.Sound c) :
    Keeps C b (Node.callName host run name arguments) c := by
  refine look ?_
  split
  · exact readThen fun target => (callDatum hcalled target arguments hc).bind fun _ d hd => pure hd
  · split
    · exact okThen hc fun x => pure hc
    · exact raise hc

theorem arguments {next : List Datum → Eval Completion} (hnext : ∀ xs c, C.Sound c → Keeps C b (next xs) c) :
    ∀ (ns : List Node) (done : List Datum) (c : Context), C.Sound c → (∀ n ∈ ns, NodeKeeps C b run n) →
      Keeps C b (Node.evalArguments run next ns done) c
  | [], done, c, hc, _ => hnext done.reverse c hc
  | n :: ns, done, _, hc, hns => operand (hns n (.head _)) hc fun _ d hd => readThen fun x =>
      arguments hnext ns (x :: done) d hd fun m hm => hns m (.tail _ hm)

/-- A call. The list of arguments is not evaluated, but what is in it. -/
theorem call (hlen : C.strict = true → 1 ≤ ns.length) (hcalled : ∀ n, C.Fits n → NodeKeeps C true run n)
    (hns : ∀ n ∈ ns, NodeKeeps C b run n)
    (hlist : ∀ list, ns[1]? = some list → ∀ n ∈ list.children, NodeKeeps C b run n) (hc : C.Sound c) :
    Keeps C b (Node.evalCall host run ns) c := by
  refine child hc hlen (by decide) fun callee hcallee => arguments (fun xs d hd => ?_) _ [] c hc fun n hn => ?_
  · split
    · exact callName hcalled xs hd
    · refine operand (hns callee hcallee) hd fun v e he => readThen fun target => ?_
      exact (callDatum hcalled target xs he).bind fun _ f hf => pure hf
  · split at hn
    · rename_i list h
      exact hlist list h n hn
    · cases hn

end Keeps

/-! ### Trees -/

namespace Conduct

variable {form : Form} {text : String} {span : Span}

theorem Fits.child (h : C.Fits n) (hm : m ∈ n.children) : C.Fits m :=
  fun hs => ⟨(h hs).1.child hm, (h hs).2.child hm⟩

theorem Fits.required (h : C.Fits (.construct form text span ns)) (hs : C.strict = true) :
    form.required ≤ ns.length :=
  of_decide_eq_true ((h hs).1 _ (Node.mem_parts_self _))

/-- Where a scope is opened the children are held to the looser measure. -/
theorem Fits.open (h : C.Fits n) (hm : m ∈ n.children) : C.Admits true m := ⟨h.child hm, nofun⟩

theorem Admits.child (h : C.Admits b (.construct form text span ns)) (hform : form ≠ .block) (hm : m ∈ ns) :
    C.Admits b m :=
  ⟨h.fits.child hm, fun hb => (h.modest hb).child hform hm⟩

/-- What is in the list of arguments of a call. -/
theorem Admits.argument (h : C.Admits b (.construct .call text span ns)) {list : Node} (hlist : ns[1]? = some list)
    (hm : m ∈ list.children) : C.Admits b m := by
  have hmem : list ∈ ns := List.mem_of_getElem? hlist
  exact ⟨(h.fits.child hmem).child hm, fun hb => (h.modest hb).argument hlist hm⟩

/-- What every step of a run keeps every run keeps, however it ends. -/
theorem eval_keeps (C : Conduct) (host : Host) :
    ∀ (fuel : Nat) (n : Node) (b : Bool), C.Admits b n → NodeKeeps C b (Node.eval host fuel) n
  | 0, _, _, _ => fun _ hc => .outOfFuel hc
  | fuel + 1, n, b, h => by
    intro c hc
    have ih := eval_keeps C host fuel
    have hopen : ∀ m ∈ n.children, NodeKeeps C true (Node.eval host fuel) m := fun m hm => ih m true (h.fits.open hm)
    cases n with
    | constant => exact .pure hc
    | counted loop g text span ns =>
      have hbody : C.strict = true → ns ≠ [] := fun hs hns => by
        subst hns
        cases (h.fits hs).2 _ (Node.mem_parts_self _)
      exact .counted hbody hopen hc fuel
    | construct form text span ns =>
      have hlen := h.fits.required
      by_cases hblock : form = .block
      · subst hblock
        exact .block hopen hc
      · have hns : ∀ m ∈ ns, NodeKeeps C b (Node.eval host fuel) m := fun m hm => ih m b (h.child hblock hm)
        cases form with
        | block => exact absurd rfl hblock
        | identifier => exact (Keeps.get hc).bind fun v d hd => .pure hd
        | declaration =>
          cases b with
          | false => exact absurd rfl (h.modest rfl).form_ne.1
          | true => exact (Keeps.declare hc).bind fun _ d hd => .pure hd
        | equation =>
          exact .equation hlen hns (fun hb m hm => ((h.modest hb).child hblock hm).not_declaration) hc
        | binary => exact .binary hlen hns hc
        | prefixed => exact .prefixed hlen hns hc
        | conditional | ternary => exact .conditional hlen hns hc
        | forLoop => exact .forLoop hlen hopen hc fuel
        | whileLoop => exact .whileLoop hlen hns hc fuel
        | returned => exact .returned hns hc
        | breakLoop | continueLoop | noop | argumentList => exact .pure hc
        | definition =>
          cases b with
          | false => exact absurd rfl (h.modest rfl).form_ne.2
          | true => exact .definition (fun m hm => h.fits.child hm) hc
        | call =>
          exact .call hlen (fun m hm => ih m true ⟨hm, nofun⟩) hns
            (fun list hlist m hm => ih m b (h.argument hlist hm)) hc

end Conduct

end ScriptTree

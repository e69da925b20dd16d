import ScriptTree.Proofs.Run.Calls
import ScriptTree.Proofs.Run.Steady

/-!
Calm programs do not notice early reading. While the right operand of a binary operator is evaluated, no
cell is written that the left one is a view of, so it does not matter when it is read. There is one
lemma for each construct; the induction on fuel at the end puts them together.
-/

namespace ScriptTree

open Eval

variable {α β : Type} {K : List String} {hot : Option Nat} {c c' : Context} {D : Prop}
  {run run' : Node.Evaluator} {n : Node} {ns : List Node} {name op : String} {host : Host}

/-- A completion that is left early only where this is possible, and then with a datum. -/
def Ended (D : Prop) (r : Completion) (_ : Context) : Prop :=
  r.flow = .normal ∨ D ∧ ∃ d, r.value = .plain d

/-- Any result. -/
abbrev Whatever {α : Type} (_ : α) (_ : Context) : Prop := True

/-- The node comes to the same under both evaluators. -/
def QuietNode (K : List String) (D : Prop) (run run' : Node.Evaluator) (n : Node) : Prop :=
  ∀ c, c.Calm K → Quiet K none (Ended D) (run n) (run' n) c

namespace Quiet

variable {P : α → Context → Prop} {Q : β → Context → Prop} {x y : Eval α}

theorem imp {P' : α → Context → Prop} (h : Quiet K hot P x y c) (hP : ∀ a c', P a c' → P' a c') :
    Quiet K hot P' x y c :=
  ⟨h.same, h.steady, fun a ha => hP a _ (h.result a ha)⟩

theorem weaken (h : Quiet K none P x y c) : Quiet K hot P x y c := ⟨h.same, h.steady.weaken, h.result⟩

theorem pure {a : α} (h : c.Calm K) (hP : P a c) : Quiet K hot P (Pure.pure a) (Pure.pure a) c :=
  ⟨rfl, .refl h, fun _ ha => by cases ha; exact hP⟩

theorem halt {r : Halt} (h : c.Calm K) : Quiet K hot P (Eval.halt r) (Eval.halt r) c :=
  ⟨rfl, .refl h, nofun⟩

theorem raise {f : Fault} (h : c.Calm K) : Quiet K hot P (Eval.raise f) (Eval.raise f) c := .halt h

theorem ofExcept {e : Except Fault α} (h : c.Calm K) :
    Quiet K hot Whatever (Eval.ofExcept e) (Eval.ofExcept e) c := by
  cases e with
  | ok a => exact .pure h trivial
  | error f => exact .raise h

theorem look {view : Context → α} (h : c.Calm K) :
    Quiet K hot (fun a _ => a = view c) (Eval.look view) (Eval.look view) c :=
  ⟨rfl, .refl h, fun _ ha => by cases ha; rfl⟩

theorem get (h : c.Calm K) : Quiet K hot Whatever (Eval.get name) (Eval.get name) c := by
  refine ⟨rfl, ?_, fun _ _ => trivial⟩
  unfold Eval.get
  split <;> exact .refl h

theorem change {f : Context → Except Fault Context} (h : c.Calm K)
    (hf : ∀ d, f c = .ok d → Steady K hot c d) : Quiet K hot Whatever (Eval.change f) (Eval.change f) c := by
  refine ⟨rfl, ?_, fun _ _ => trivial⟩
  unfold Eval.change
  split
  · rename_i d hd
    exact hf d hd
  · exact .refl h

theorem update {f : Context → Context} (hf : Steady K hot c (f c)) :
    Quiet K hot Whatever (Eval.update f) (Eval.update f) c :=
  ⟨rfl, hf, fun _ _ => trivial⟩

/-- A child. -/
theorem child {i : Nat} (h : c.Calm K) :
    Quiet K hot (fun n _ => ns[i]? = some n) (Eval.child ns i) (Eval.child ns i) c := by
  unfold Eval.child
  split
  · rename_i n hn
    exact .pure h hn
  · exact .halt h

/-- One computation after another. -/
theorem bind {f g : α → Eval β} (hx : Quiet K hot P x y c)
    (hf : ∀ a d, Steady K hot c d → P a d → Quiet K hot Q (f a) (g a) d) :
    Quiet K hot Q (x >>= f) (y >>= g) c := by
  have hxf : (x >>= f) c = Eval.bind x f c := rfl
  have hyg : (y >>= g) c = Eval.bind y g c := rfl
  rw [Eval.bind] at hxf hyg
  have hsteady := hx.steady
  have hresult := hx.result
  rw [← hx.same] at hyg
  generalize x c = p at hxf hyg hsteady hresult
  obtain ⟨r | a, d⟩ := p
  · exact ⟨by rw [hxf, hyg], by rw [hxf]; exact hsteady, fun b hb => by rw [hxf] at hb; cases hb⟩
  · have hnext := hf a d hsteady (hresult a rfl)
    exact ⟨by rw [hxf, hyg]; exact hnext.same, by rw [hxf]; exact hsteady.trans hnext.steady,
      fun b hb => by rw [hxf] at hb ⊢; exact hnext.result b hb⟩

/-- Values that are read as the same datum, and something done with it. -/
theorem readBoth {f g : Datum → Eval β} {u v : Value} (huv : c.read u = c.read v)
    (h : ∀ d, Quiet K hot Q (f d) (g d) c) : Quiet K hot Q (Eval.read u >>= f) (Eval.read v >>= g) c := by
  have hg : (Eval.read v >>= g) c = g (c.read u) c := by
    rw [huv]
    rfl
  exact ⟨(h (c.read u)).same.trans hg.symm, (h (c.read u)).steady, (h (c.read u)).result⟩

/-- A value is read and something is done with the datum. -/
theorem readThen {f g : Datum → Eval β} {v : Value} (h : ∀ d, Quiet K hot Q (f d) (g d) c) :
    Quiet K hot Q (Eval.read v >>= f) (Eval.read v >>= g) c := readBoth rfl h

/-- Inside a scope. -/
theorem withScope (h : Quiet K hot P x y c.push) (hP : ∀ a d, P a d → P a d.pop) :
    Quiet K hot P (Eval.withScope x) (Eval.withScope y) c := by
  refine ⟨?_, ?_, fun a ha => hP a _ (h.result a ha)⟩
  · unfold Eval.withScope
    rw [h.same]
  · exact h.steady.pop

end Quiet

theorem Ended.imp {D' : Prop} {r : Completion} (h : Ended D r c) (hD : D → D') : Ended D' r c' :=
  Or.imp id (fun h => ⟨hD h.1, h.2⟩) h

theorem QuietNode.imp {D' : Prop} (h : QuietNode K D run run' n) (hD : D → D') : QuietNode K D' run run' n :=
  fun c hc => (h c hc).imp fun _ _ h => h.imp hD

namespace Quiet

/-! ### Operands and statements -/

/-- A datum that is yielded. -/
theorem yield {d : Datum} (h : c.Calm K) :
    Quiet K hot (Ended D) (return .ofDatum d) (return .ofDatum d) c := .pure h (.inl rfl)

theorem operand {next next' : Value → Eval Completion} (hn : QuietNode K D run run' n) (hc : c.Calm K)
    (hnext : ∀ v d, Steady K none c d → Quiet K none (Ended D) (next v) (next' v) d) :
    Quiet K none (Ended D) (Node.operand run n next) (Node.operand run' n next') c := by
  refine (hn c hc).bind fun r d hd hr => ?_
  cases hflow : r.flow with
  | normal => exact hnext r.value d hd
  | _ => exact .pure hd.calm hr

/-- An operand that is read early on one side: what is done with its value may depend on the datum
only. -/
theorem operand_reading {early : Nat → Bool} {next next' : Value → Eval Completion}
    (hn : QuietNode K D run run' n) (hc : c.Calm K)
    (hnext : ∀ u v d, Steady K none c d → d.read u = d.read v → Quiet K none (Ended D) (next u) (next' v) d) :
    Quiet K none (Ended D) (Node.operand run n next) (Node.operand (Node.reading early run') n next') c := by
  have hreading : Node.operand (Node.reading early run') n next' =
      run' n >>= fun r => Node.operand (Node.reading early fun _ => return r) n next' := by
    funext c
    show Eval.bind (Eval.bind (run' n) _) _ c = Eval.bind (run' n) _ c
    simp only [Eval.bind]
    rcases run' n c with ⟨r | r, d⟩ <;> rfl
  rw [hreading]
  refine (hn c hc).bind fun r d hd hr => ?_
  obtain ⟨v, flow⟩ := r
  cases flow with
  | normal =>
    cases v with
    | plain x => exact hnext _ _ d hd rfl
    | cell a =>
      cases he : early a with
      | false =>
        have : Node.operand (Node.reading early fun _ => return ⟨.cell a, .normal⟩) n next' = next' (.cell a) := by
          funext c
          show Eval.bind (if early a = true then _ else _) _ c = _
          rw [he]
          rfl
        rw [this]
        exact hnext _ _ d hd rfl
      | true =>
        have : Node.operand (Node.reading early fun _ => return ⟨.cell a, .normal⟩) n next' d =
            next' (.plain (d.read (.cell a))) d := by
          show Eval.bind (if early a = true then _ else _) _ d = _
          rw [he]
          rfl
        have hq := hnext (.cell a) (.plain (d.read (.cell a))) d hd rfl
        exact ⟨hq.same.trans this.symm, hq.steady, hq.result⟩
  | _ =>
    rcases hr with hr | ⟨hD, x, rfl⟩
    · cases hr
    · exact .pure hd.calm (.inr ⟨hD, x, rfl⟩)

theorem condition (hn : QuietNode K D run run' n) (hc : c.Calm K) :
    Quiet K none Whatever (Node.condition run n) (Node.condition run' n) c :=
  (hn c hc).bind fun _ _ hd _ => readThen fun _ => .ofExcept hd.calm

theorem sequence : ∀ (ns : List Node) (last : Completion) (c : Context), c.Calm K → Ended D last c →
    (∀ n ∈ ns, QuietNode K D run run' n) →
    Quiet K none (Ended D) (Node.sequence run ns last) (Node.sequence run' ns last) c
  | [], _, _, hc, hlast, _ => .pure hc hlast
  | n :: ns, _, c, hc, _, hns => by
    refine (hns n (.head _) c hc).bind fun r d hd hr => ?_
    cases hflow : r.flow with
    | normal => exact sequence ns r d hd.calm hr fun m hm => hns m (.tail _ hm)
    | _ => exact .pure hd.calm hr

theorem block (hns : ∀ n ∈ ns, QuietNode K D run run' n) (hc : c.Calm K) :
    Quiet K none (Ended D) (Eval.withScope (Node.sequence run ns .done))
      (Eval.withScope (Node.sequence run' ns .done)) c :=
  .withScope (sequence ns .done _ hc.push (.inl rfl) hns) fun _ _ h => h

/-! ### Loops -/

/-- The rounds of a loop; `I` is what its test and its step rely on. -/
theorem rounds {I : Context → Prop} {test test' : Eval Bool} {step step' : Eval Unit}
    (hI : ∀ c d, Steady K hot c d → I c → I d)
    (htest : ∀ c, c.Calm K → I c → Quiet K hot Whatever test test' c)
    (hbody : QuietNode K D run run' n)
    (hstep : ∀ c, c.Calm K → I c → Quiet K hot Whatever step step' c) :
    ∀ (fuel : Nat) (c : Context), c.Calm K → I c →
      Quiet K hot (Ended D) (Node.rounds run test n step fuel) (Node.rounds run' test' n step' fuel) c
  | 0, _, hc, _ => .halt hc
  | fuel + 1, c, hc, hi => by
    refine (htest c hc hi).bind fun b d hd _ => ?_
    cases b with
    | false => exact .yield hd.calm
    | true =>
      refine (hbody d hd.calm).weaken.bind fun r e he hr => ?_
      have hie := hI _ _ he (hI _ _ hd hi)
      have hnext : Quiet K hot (Ended D) (do step; Node.rounds run test n step fuel)
          (do step'; Node.rounds run' test' n step' fuel) e :=
        (hstep e he.calm hie).bind fun _ f hf _ =>
          rounds hI htest hbody hstep fuel f hf.calm (hI _ _ hf hie)
      cases hflow : r.flow with
      | broken => exact .yield he.calm
      | returned => exact .pure he.calm hr
      | _ => exact hnext

/-- Adding to or subtracting from a variable that is not a cell. -/
theorem stepVariable {o : Arithmetic} (hc : c.Calm K) (hx : name ∉ K ∨ c.Owns name) :
    Quiet K hot (Ended D) (Node.stepVariable o name) (Node.stepVariable o name) c := by
  refine (get hc).bind fun v d hd _ => readThen fun x => ?_
  refine (ofExcept hd.calm).bind fun next e he _ => ?_
  have hx' : name ∉ K ∨ e.Owns name := hx.imp id (hd.trans he).owns
  refine (change he.calm fun _ ha => .assign he.calm hx' ha).bind fun _ f hf _ => ?_
  exact (get hf.calm).bind fun v g hg _ => readThen fun x => .yield hg.calm

theorem whileLoop (hns : ∀ n ∈ ns, QuietNode K D run run' n) (hc : c.Calm K) (fuel : Nat) :
    Quiet K none (Ended D) (Node.evalWhile run fuel ns) (Node.evalWhile run' fuel ns) c := by
  refine (child hc).bind fun test d hd ht => (child hd.calm).bind fun body e he hb => ?_
  exact rounds (I := fun _ => True) (fun _ _ _ h => h)
    (fun c hc _ => condition (hns _ (List.mem_of_getElem? ht)) hc) (hns _ (List.mem_of_getElem? hb))
    (fun c hc _ => .pure hc trivial) fuel e he.calm trivial

/-- A variable with a value that does not depart is there afterwards. -/
theorem owns_equation {target value : Node} {r : Completion} (hdecl : target.isForm .declaration = true)
    (hvalue : QuietNode K False run run' value) (hc : c.Calm K)
    (h : Node.evalEquation run op [target, value] c = (.ok r, c')) : c'.Owns target.declaredName := by
  have hvalue := (hvalue c hc).result
  change Eval.bind (run value) _ c = _ at h
  unfold Eval.bind at h
  generalize run value c = p at h hvalue
  obtain ⟨_ | r', d⟩ := p
  · cases h
  · obtain ⟨v, flow⟩ := r'
    rcases hvalue _ rfl with hflow | ⟨h, -⟩
    · obtain rfl : flow = .normal := hflow
      simp only [hdecl, if_true, Bind.bind, Eval.bind, Eval.change] at h
      generalize d.declare target.declaredName = q at h
      cases q with
      | error => cases h
      | ok e =>
        cases h
        exact ⟨_, Scope.find?_insert_self _ _ _⟩
    · exact h.elim

/-- A loop; the step may rely on a variable that the setup is sure to make. -/
theorem forLoop (hc : c.Calm K) (fuel : Nat)
    (h : ∀ setup test step body, ns[0]? = some setup → ns[1]? = some test → ns[2]? = some step →
      ns[3]? = some body → QuietNode K D run run' setup ∧ QuietNode K D run run' test ∧
        QuietNode K D run run' body ∧ (QuietNode K D run run' step ∨ ∃ x,
          (∀ c r d, c.Calm K → run setup c = (.ok r, d) → d.Owns x) ∧
          ∀ c, c.Calm K → c.Owns x → Quiet K none (Ended D) (run step) (run' step) c)) :
    Quiet K none (Ended D) (Node.evalFor run fuel ns) (Node.evalFor run' fuel ns) c := by
  refine (child hc).bind fun setup c hc h₀ => (child hc.calm).bind fun test c hc h₁ => ?_
  refine (child hc.calm).bind fun step c hc h₂ => (child hc.calm).bind fun body c hc h₃ => ?_
  obtain ⟨hsetup, htest, hbody, hstep⟩ := h setup test step body h₀ h₁ h₂ h₃
  have hpush := hc.calm.push
  have hsetup' := hsetup _ hpush
  refine .withScope (Quiet.bind (P := fun r d => run setup c.push = (.ok r, d)) ?_ fun r d hd hr => ?_)
    fun _ _ h => h
  · exact ⟨hsetup'.same, hsetup'.steady, fun a ha => Prod.ext ha rfl⟩
  · rcases hstep with hstep | ⟨x, hown, hstep⟩
    · refine rounds (I := fun _ => True) (fun _ _ _ h => h) (fun c hc _ => condition htest hc) hbody
        (fun c hc _ => ?_) fuel d hd.calm trivial
      exact (hstep c hc).bind fun _ e he _ => .pure he.calm trivial
    · refine rounds (I := (·.Owns x)) (fun _ _ h => h.owns) (fun c hc _ => condition htest hc) hbody
        (fun c hc hx => ?_) fuel d hd.calm (hown _ _ _ hpush hr)
      exact (hstep c hc hx).bind fun _ e he _ => .pure he.calm trivial

/-- A native loop: its own cell is hot in its rounds. -/
theorem counted {loop : CountedLoop} (hx : loop.counter ∈ K) (hns : ∀ n ∈ ns, QuietNode K D run run' n)
    (hc : c.Calm K) (fuel : Nat) :
    Quiet K none (Ended D) (Node.evalCounted run fuel loop ns) (Node.evalCounted run' fuel loop ns) c := by
  match ns with
  | [] => exact .halt hc
  | body :: rest =>
    have hrounds : Quiet K (some c.cells.size) (Ended D)
        (Node.countedRounds run fuel loop.limit body c.cells.size)
        (Node.countedRounds run' fuel loop.limit body c.cells.size) (c.enterLoop loop.counter loop.first) := by
      refine rounds (I := fun _ => True) (fun _ _ _ h => h) (fun c hc _ => (look hc).imp fun _ _ _ => trivial)
        (hns body (.head _)) (fun d hd _ => .update ⟨by simp, fun a ha => ?_, ?_, ?_⟩) fuel _
        (hc.enterLoop hx) trivial
      · have hne : c.cells.size ≠ a := fun h => ha (congrArg some h)
        simp [Context.cellAt, Context.setCell, Array.getElem?_setIfInBounds_ne hne]
      · rw [Context.scopes_setCell]
        exact List.forall₂_same.2 fun s _ => .refl s
      · exact ⟨hd.cells, hd.functions⟩
    refine ⟨?_, ?_, fun a ha => ?_⟩
    · rw [Node.evalCounted_cons, Node.evalCounted_cons, hrounds.same]
    · rw [Node.evalCounted_cons]
      exact hrounds.steady.leaveLoop
    · rw [Node.evalCounted_cons] at ha ⊢
      exact hrounds.result a ha

/-! ### Operators -/

theorem conditional (hns : ∀ n ∈ ns, QuietNode K D run run' n) (hc : c.Calm K) :
    Quiet K none (Ended D) (Node.evalConditional run ns) (Node.evalConditional run' ns) c := by
  refine (child hc).bind fun test d hd htest => ?_
  refine operand (hns _ (List.mem_of_getElem? htest)) hd.calm fun v e he => readThen fun x => ?_
  refine (ofExcept he.calm).bind fun b f hf _ => ?_
  cases b with
  | true => exact (child hf.calm).bind fun branch g hg hb => hns _ (List.mem_of_getElem? hb) g hg.calm
  | false =>
    simp only [Bool.false_eq_true, if_false]
    split
    · rename_i branch hbranch
      exact hns _ (List.mem_of_getElem? hbranch) f hf.calm
    · exact .yield hf.calm

/-- A binary operator. The left operand is a view of the same int before and after the right one. -/
theorem binary {early : Nat → Bool} (hns : ∀ n ∈ ns, QuietNode K D run run' n) (hc : c.Calm K) :
    Quiet K none (Ended D) (Node.evalBinary run op ns) (Node.evalBinary (Node.reading early run') op ns) c := by
  refine (child hc).bind fun lhs d hd hl => ?_
  refine operand_reading (hns _ (List.mem_of_getElem? hl)) hd.calm fun u v e he huv => ?_
  by_cases hop : op = "&&" ∨ op = "||"
  · simp only [if_pos hop]
    refine readBoth huv fun x => (ofExcept he.calm).bind fun left f hf _ => ?_
    by_cases hleft : left = decide (op = "||")
    · simp only [if_pos hleft]
      exact .yield hf.calm
    · simp only [if_neg hleft]
      refine (child hf.calm).bind fun rhs g hg hr => ?_
      refine operand_reading (hns _ (List.mem_of_getElem? hr)) hg.calm fun u' v' i hi huv' => readBoth huv' fun y => ?_
      exact (ofExcept hi.calm).bind fun right j hj _ => .yield hj.calm
  · simp only [if_neg hop]
    refine (child he.calm).bind fun rhs f hf hr => ?_
    refine operand_reading (hns _ (List.mem_of_getElem? hr)) hf.calm fun u' v' g hg huv' => ?_
    have hleft : g.read u = g.read v := by rw [(hf.trans hg).read u, (hf.trans hg).read v, huv]
    refine readBoth hleft fun a => readBoth huv' fun b => ?_
    exact (ofExcept hg.calm).bind fun x j hj _ => .yield hj.calm

/-- An operator in front; a variable that is stepped is not a cell. -/
theorem prefixed {span : Span} (hns : ∀ n ∈ ns, QuietNode K D run run' n) (hc : c.Calm K)
    (hx : ∀ x ∈ Node.written (.construct .prefixed op span ns), x ∉ K ∨ c.Owns x) :
    Quiet K none (Ended D) (Node.evalPrefixed run op ns) (Node.evalPrefixed run' op ns) c := by
  refine (child hc).bind fun target d hd ht => ?_
  by_cases hop : op = "++" ∨ op = "--"
  · simp only [if_pos hop]
    cases hform : target.isForm .identifier with
    | true =>
      obtain ⟨rest, rfl⟩ : ∃ rest, ns = target :: rest := by
        cases ns with
        | nil => cases ht
        | cons => cases ht; exact ⟨_, rfl⟩
      simp only [Node.written, hop, hform, and_self, if_true, List.mem_singleton, forall_eq] at hx
      exact stepVariable hd.calm (hx.imp id hd.owns)
    | false => exact .raise hd.calm
  · simp only [if_neg hop]
    refine operand (hns _ (List.mem_of_getElem? ht)) hd.calm fun v e he => readThen fun x => ?_
    by_cases hnot : op = "!"
    · simp only [if_pos hnot]
      exact (ofExcept he.calm).bind fun b f hf _ => .yield hf.calm
    · simp only [if_neg hnot]
      exact (ofExcept he.calm).bind fun b f hf _ => .yield hf.calm

/-- A value is stored in a variable that is not a cell. -/
theorem store {v : Value} (hc : c.Calm K) (hx : name ∉ K) :
    Quiet K none (Ended D) (Node.evalStore op name v) (Node.evalStore op name v) c := by
  have hassign : ∀ (u : Value) d, d.Calm K → Quiet K none (Ended D)
      (do
        let x ← Eval.read u
        Eval.change (·.assign name x)
        return .ofValue u)
      (do
        let x ← Eval.read u
        Eval.change (·.assign name x)
        return .ofValue u) d := fun u d hd =>
    readThen fun x => (change hd fun _ ha => .assign hd (.inl hx) ha).bind fun _ e he _ =>
      .pure he.calm (.inl rfl)
  unfold Node.evalStore
  by_cases hop : op = "="
  · simp only [if_pos hop]
    exact hassign v c hc
  · simp only [if_neg hop]
    refine (get hc).bind fun u d hd _ => readThen fun a => readThen fun b => ?_
    exact (ofExcept hd.calm).bind fun x e he _ => hassign _ e he.calm

theorem equation {span : Span} (hns : ∀ n ∈ ns, QuietNode K D run run' n) (hc : c.Calm K)
    (hx : ∀ x ∈ Node.written (.construct .equation op span ns), x ∉ K) :
    Quiet K none (Ended D) (Node.evalEquation run op ns) (Node.evalEquation run' op ns) c := by
  refine (child hc).bind fun target d hd ht => (child hd.calm).bind fun rhs e he hr => ?_
  refine operand (hns _ (List.mem_of_getElem? hr)) he.calm fun v f hf => ?_
  cases hdecl : target.isForm .declaration with
  | true =>
    refine (change hf.calm fun _ hd => .declare hf.calm hd).bind fun _ g hg _ => readThen fun x => ?_
    exact (update (.bind hg.calm _ _)).bind fun _ i hi _ => .pure hi.calm (.inl rfl)
  | false =>
    cases hform : target.isForm .identifier with
    | true =>
      obtain ⟨rest, rfl⟩ : ∃ rest, ns = target :: rest := by
        cases ns with
        | nil => cases ht
        | cons => cases ht; exact ⟨_, rfl⟩
      simp only [Node.written, hform, if_true, List.mem_singleton, forall_eq] at hx
      exact store hf.calm hx
    | false => exact .raise hf.calm

theorem returned (hns : ∀ n ∈ ns, QuietNode K D run run' n) (hc : c.Calm K) (hD : D) :
    Quiet K none (Ended D) (Node.evalReturn run ns) (Node.evalReturn run' ns) c := by
  match ns with
  | [] => exact .pure hc (.inr ⟨hD, _, rfl⟩)
  | n :: rest =>
    unfold Node.evalReturn
    refine operand (hns n (.head _)) hc fun v d hd => readThen fun x => ?_
    exact .pure hd.calm (.inr ⟨hD, _, rfl⟩)

/-! ### Functions -/

theorem definition (hc : c.Calm K) (hf : ∀ f, Node.functionOf? ns = some f → f.body.Calm K) :
    Quiet K none (Ended D) (Node.evalDefinition ns) (Node.evalDefinition ns) c := by
  cases hns : Node.functionOf? ns with
  | none =>
    rw [Node.evalDefinition_none hns]
    exact .raise hc
  | some f =>
    have hdefine : (c.define f).2.Calm K := by
      refine ⟨hc.cells, fun g hg => ?_⟩
      simp only [Context.define, Array.toList_push, List.mem_append, List.mem_singleton] at hg
      rcases hg with hg | rfl
      · exact hc.functions g hg
      · exact hf g hns
    have hsteady : Steady K none c (c.define f).2 :=
      ⟨rfl, fun _ _ => rfl, List.forall₂_same.2 fun s _ => .refl s, hdefine⟩
    refine ⟨rfl, ?_, fun a ha => ?_⟩
    · rw [Node.evalDefinition_some hns]
      exact hsteady.trans (.bind hdefine _ _)
    · rw [Node.evalDefinition_some hns] at ha
      cases ha
      exact .inl rfl

theorem callHost (f : HostFunction) (arguments : List Datum) (hc : c.Calm K) :
    Quiet K none Whatever (Node.callHost host f arguments) (Node.callHost host f arguments) c := by
  have hsteady : Steady K none c { c with calls := c.calls.push ⟨f, arguments⟩ } :=
    ⟨rfl, fun _ _ => rfl, List.forall₂_same.2 fun s _ => .refl s, ⟨hc.cells, hc.functions⟩⟩
  refine ⟨rfl, ?_, fun _ _ => trivial⟩
  unfold Node.callHost
  dsimp only
  split <;> exact hsteady

/-- Data are bound in the innermost scope one after the other. -/
theorem bindAll : ∀ (bs : List (String × Datum)) (c : Context), c.Calm K →
    Steady K none c (bs.foldl (fun c (x, d) => c.bind x d) c)
  | [], _, hc => .refl hc
  | (x, d) :: bs, c, hc => by
    have h : Steady K none c (c.bind x d) := .bind hc x d
    exact h.trans (bindAll bs _ h.calm)

theorem callScript {f : ScriptFunction} (hf : QuietNode K D run run' f.body) (arguments : List Datum)
    (hc : c.Calm K) :
    Quiet K none Whatever (Node.callScript run f arguments) (Node.callScript run' f arguments) c := by
  unfold Node.callScript
  split
  · exact .raise hc
  · refine withScope ?_ fun _ _ h => h
    refine (update (bindAll _ _ hc.push)).bind fun _ d hd _ => (hf d hd.calm).bind fun r e he _ => ?_
    exact (look he.calm).imp fun _ _ _ => trivial

theorem callDatum (hcalm : ∀ n, n.Calm K → QuietNode K True run run' n) (target : Datum)
    (arguments : List Datum) (hc : c.Calm K) :
    Quiet K none Whatever (Node.callDatum host run target arguments)
      (Node.callDatum host run' target arguments) c := by
  cases target with
  | host f => exact callHost f arguments hc
  | script reference =>
    refine Quiet.bind (P := fun f? d => ∀ f, f? = some f → f.body.Calm K) ?_ fun f? d hd hf => ?_
    · refine (look hc).imp fun f? d hf f h => hc.functions f ?_
      rw [hf] at h
      exact Array.mem_toList_iff.2 (Array.mem_of_getElem? h)
    · cases f? with
      | none => exact .raise hd.calm
      | some f => exact callScript (hcalm _ (hf f rfl)) arguments hd.calm
  | _ => exact .raise hc

/-- A call of what a value refers to. -/
theorem callValue (hcalm : ∀ n, n.Calm K → QuietNode K True run run' n) (v : Value) (arguments : List Datum)
    (hc : c.Calm K) :
    Quiet K none (Ended D)
      (do
        let target ← Eval.read v
        let x ← Node.callDatum host run target arguments
        return .ofDatum x)
      (do
        let target ← Eval.read v
        let x ← Node.callDatum host run' target arguments
        return .ofDatum x) c :=
  readThen fun target => (callDatum hcalm target arguments hc).bind fun _ _ hd _ => .yield hd.calm

theorem callName (hcalm : ∀ n, n.Calm K → QuietNode K True run run' n) (arguments : List Datum)
    (hc : c.Calm K) :
    Quiet K none (Ended D) (Node.callName host run name arguments) (Node.callName host run' name arguments) c := by
  refine (look hc).bind fun r d hd _ => ?_
  cases r with
  | ok v => exact callValue hcalm v arguments hd.calm
  | error e =>
    dsimp only
    split
    · exact (ofExcept hd.calm).bind fun _ f hf _ => .yield hf.calm
    · exact .raise hd.calm

theorem arguments {next next' : List Datum → Eval Completion} :
    ∀ (ns : List Node) (done : List Datum) (c : Context), c.Calm K → (∀ n ∈ ns, QuietNode K D run run' n) →
    (∀ xs c, c.Calm K → Quiet K none (Ended D) (next xs) (next' xs) c) →
    Quiet K none (Ended D) (Node.evalArguments run next ns done) (Node.evalArguments run' next' ns done) c
  | [], done, c, hc, _, hnext => hnext done.reverse c hc
  | n :: ns, done, _, hc, hns, hnext =>
    operand (hns n (.head _)) hc fun _ d hd => readThen fun x =>
      arguments ns (x :: done) d hd.calm (fun m hm => hns m (.tail _ hm)) hnext

/-- A call. -/
theorem call (hcalm : ∀ n, n.Calm K → QuietNode K True run run' n) (hns : ∀ n ∈ ns, QuietNode K D run run' n)
    (hbelow : ∀ list, ns[1]? = some list → ∀ n ∈ list.children, QuietNode K D run run' n) (hc : c.Calm K) :
    Quiet K none (Ended D) (Node.evalCall host run ns) (Node.evalCall host run' ns) c := by
  refine (child hc).bind fun callee d hd hcallee => arguments _ [] d hd.calm (fun n hn => ?_) fun xs e he => ?_
  · split at hn
    · rename_i list hlist
      exact hbelow list hlist n hn
    · cases hn
  · split
    · exact callName hcalm xs he
    · exact operand (hns _ (List.mem_of_getElem? hcallee)) he fun v f hf => callValue hcalm v xs hf.calm

end Quiet

/-! ### Trees -/

namespace Node

/-- The tree may leave the statements around it early. -/
abbrev Departs (n : Node) : Prop := n.collect departures ≠ []

theorem Departs.child {m : Node} (hm : m ∈ n.children) (h : m.Departs) : n.Departs := fun hn =>
  h (List.subset_nil.1 (hn ▸ collect_part departures (mem_parts_child hm)))

theorem Calm.child {m : Node} (h : n.Calm K) (hm : m ∈ n.children) (hmild : m.isMild K = true) : m.Calm K :=
  ⟨h.shaped.part (mem_parts_child hm), h.spares.child hm hmild,
    List.Subset.trans (collect_part _ (mem_parts_child hm)) h.counters⟩

theorem departs_self (h : n.departures ≠ []) : n.Departs := fun hn =>
  h (List.subset_nil.1 (hn ▸ collect_self departures n))

theorem Calm.isMild {form : Form} {text : String} {span : Span} {ns : List Node}
    (h : (construct form text span ns).Calm K) (hform : form ≠ .forLoop ∨ ns.length ≠ 4) {c : Node}
    (hc : c ∈ ns) : c.isMild K = true :=
  isTame_children (h.spares.2 _ (mem_parts_self _)) hform c hc

/-- What a calm node writes is spared. -/
theorem Calm.written (h : n.Calm K) : ∀ x ∈ n.written, x ∉ K := by
  simpa [Node.isMild] using h.spares.1

/-- A step of a variable that is there. -/
theorem quiet_step {early : Nat → Bool} {step : Node} (hform : step.isForm .prefixed = true)
    (hwritten : step.written = [name]) (fuel : Nat) (hc : c.Calm K) (hx : c.Owns name) :
    Quiet K none (Ended D) (eval host fuel step) (evalEarly early host fuel step) c := by
  obtain ⟨op, span, ns, rfl⟩ := Rule.isForm_eq hform
  cases fuel with
  | zero => exact .halt hc
  | succ fuel =>
    match ns with
    | [] => cases hwritten
    | target :: rest =>
      simp only [written] at hwritten
      split at hwritten
      · rename_i hop
        obtain rfl : target.text = name := by simpa using hwritten
        have hrun : ∀ run : Evaluator, evalPrefixed run op (target :: rest) =
            stepVariable (if op = "--" then .difference else .sum) target.text := by
          intro run
          show (if op = "++" ∨ op = "--" then _ else _) = _
          rw [if_pos hop.1, if_pos hop.2]
        show Quiet K none _ (evalPrefixed _ op (target :: rest)) (evalPrefixed _ op (target :: rest)) c
        rw [hrun, hrun]
        exact .stepVariable hc (.inr hx)
      · cases hwritten

/-- The step of a loop that steps its own variable. -/
theorem Calm.ownStep {early : Nat → Bool} {setup step : Node} {fuel : Nat} (hsetup : setup.Calm K)
    (hown : stepsOwn setup step = true)
    (ih : ∀ k < fuel, ∀ m : Node, m.Calm K → QuietNode K m.Departs (eval host k) (evalEarly early host k) m) :
    ∃ x, (∀ c r d, c.Calm K → eval host fuel setup c = (.ok r, d) → d.Owns x) ∧
      ∀ c, c.Calm K → c.Owns x → Quiet K none (Ended D) (eval host fuel step) (evalEarly early host fuel step) c := by
  unfold stepsOwn at hown
  split at hown
  · rename_i op span target value
    simp only [Bool.and_eq_true, List.isEmpty_iff, beq_iff_eq] at hown
    obtain ⟨⟨⟨hdecl, hvalue⟩, hform⟩, hwritten⟩ := hown
    refine ⟨target.declaredName, fun c r d hc hr => ?_, fun c hc hx => quiet_step hform hwritten fuel hc hx⟩
    cases fuel with
    | zero => cases hr
    | succ k =>
      have hmem : value ∈ (construct .equation op span [target, value]).children := .tail _ (.head _)
      have hq := ih k (Nat.lt_succ_self k) value (hsetup.child hmem (hsetup.isMild (.inl nofun) hmem))
      exact Quiet.owns_equation hdecl (hq.imp fun hd => hd hvalue) hc hr
  · cases hown

/-- The body of a function that a calm tree defines. -/
theorem Calm.functionBody {text : String} {span : Span} {ns : List Node} {f : ScriptFunction}
    (h : (construct .definition text span ns).Calm K) (hf : functionOf? ns = some f) : f.body.Calm K := by
  have hbody : f.body ∈ ns := functionOf?_body hf
  exact h.child hbody (h.isMild (.inl (by decide)) hbody)

/-- An argument of a call. -/
theorem Calm.argument {text : String} {span : Span} {ns : List Node} {list m : Node}
    (h : (construct .call text span ns).Calm K) (hlist : ns[1]? = some list) (hm : m ∈ list.children) :
    m.Calm K := by
  have hform := h.shaped.arguments hlist
  have hmem : list ∈ ns := List.mem_of_getElem? hlist
  have hcalm := h.child hmem (h.isMild (.inl (by decide)) hmem)
  obtain ⟨_, _, _, rfl⟩ := Rule.isForm_eq hform
  exact hcalm.child hm (hcalm.isMild (.inl (by decide)) hm)

/-- A calm loop; the step may be the one of the loop's own variable. -/
theorem Calm.quiet_forLoop {early : Nat → Bool} {text : String} {span : Span} {ns : List Node} {fuel : Nat}
    (h : (construct .forLoop text span ns).Calm K)
    (before : ∀ k < fuel + 1, ∀ m : Node, m.Calm K →
      QuietNode K m.Departs (eval host k) (evalEarly early host k) m) (hc : c.Calm K) :
    Quiet K none (Ended (construct .forLoop text span ns).Departs) (evalFor (eval host fuel) fuel ns)
      (evalFor (evalEarly early host fuel) fuel ns) c := by
  have hchild : ∀ (i : Nat) (m : Node), ns[i]? = some m → m.isMild K = true →
      QuietNode K (construct .forLoop text span ns).Departs (eval host fuel) (evalEarly early host fuel) m :=
    fun i m hi hmild =>
      have hm : m ∈ ns := List.mem_of_getElem? hi
      (before fuel (Nat.lt_succ_self fuel) m (h.child hm hmild)).imp (Departs.child hm)
  refine .forLoop hc fuel fun setup test step body h₀ h₁ h₂ h₃ => ?_
  by_cases hlen : ns.length = 4
  · obtain rfl : ns = [setup, test, step, body] := by
      obtain ⟨_, _, _, _, rfl⟩ := List.length_eq_four.1 hlen
      cases h₀
      cases h₁
      cases h₂
      cases h₃
      rfl
    obtain ⟨hs, ht, hi, hb⟩ := h.spares.loop
    refine ⟨hchild 0 _ h₀ hs.1, hchild 1 _ h₁ ht.1, hchild 3 _ h₃ hb.1, ?_⟩
    rcases hi with hown | hi
    · have hsetup : setup.Calm K := h.child (List.mem_of_getElem? h₀) hs.1
      exact .inr (hsetup.ownStep hown fun k hk => before k (Nat.lt_succ_of_lt hk))
    · exact .inl (hchild 2 _ h₂ hi.1)
  · have hns := fun i m hi => hchild i m hi (h.isMild (.inr hlen) (List.mem_of_getElem? hi))
    exact ⟨hns 0 _ h₀, hns 1 _ h₁, hns 3 _ h₃, .inl (hns 2 _ h₂)⟩

/-- In calm contexts calm trees do the same with and without early reading. -/
theorem Calm.quiet (early : Nat → Bool) (host : Host) : ∀ (fuel : Nat) (n : Node), n.Calm K →
    QuietNode K n.Departs (eval host fuel) (evalEarly early host fuel) n
  | 0, _, _ => fun _ hc => .halt hc
  | fuel + 1, n, h => by
    intro c hc
    have before : ∀ k < fuel + 1, ∀ m : Node, m.Calm K →
        QuietNode K m.Departs (eval host k) (evalEarly early host k) m :=
      fun k _ => Calm.quiet early host k
    have ih := before fuel (Nat.lt_succ_self fuel)
    have hcalm : ∀ m : Node, m.Calm K → QuietNode K True (eval host fuel) (evalEarly early host fuel) m :=
      fun m hm => (ih m hm).imp fun _ => trivial
    have hchild : ∀ m ∈ n.children, m.isMild K = true →
        QuietNode K n.Departs (eval host fuel) (evalEarly early host fuel) m :=
      fun m hm hmild => (ih m (h.child hm hmild)).imp (Departs.child hm)
    cases n with
    | constant => exact .yield hc
    | counted loop g text span ns =>
      have hmild := List.all_eq_true.1 (h.spares.2 _ (mem_parts_self _))
      exact .counted (h.counters (collect_self _ _ (.head _))) (fun m hm => hchild m hm (hmild m hm)) hc fuel
    | construct form text span ns =>
      by_cases hform : form = .forLoop
      · subst hform
        exact h.quiet_forLoop before hc
      · have hns := fun m hm => hchild m hm (h.isMild (.inl hform) hm)
        cases form with
        | forLoop => exact absurd rfl hform
        | identifier => exact (Quiet.get hc).bind fun v d hd _ => .pure hd.calm (.inl rfl)
        | declaration =>
          exact (Quiet.change hc fun _ hd => .declare hc hd).bind fun _ d hd _ => .yield hd.calm
        | equation => exact .equation hns hc h.written
        | binary => exact .binary hns hc
        | prefixed => exact .prefixed hns hc fun x hx => .inl (h.written x hx)
        | conditional | ternary => exact .conditional hns hc
        | block => exact .block hns hc
        | whileLoop => exact .whileLoop hns hc fuel
        | returned => exact .returned hns hc (departs_self (List.cons_ne_nil _ _))
        | breakLoop | continueLoop => exact .pure hc (.inr ⟨departs_self (List.cons_ne_nil _ _), _, rfl⟩)
        | noop | argumentList => exact .yield hc
        | definition => exact .definition hc fun f hf => h.functionBody hf
        | call =>
          refine .call hcalm hns (fun list hlist m hm => ?_) hc
          exact (ih m (h.argument hlist hm)).imp fun hd =>
            Departs.child (List.mem_of_getElem? hlist) (Departs.child hm hd)

end Node

end ScriptTree

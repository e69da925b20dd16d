import ScriptTree.Proofs.Optimize.Rules
import ScriptTree.Proofs.Run.Native

/-!
Folding constants and running them. The folder uses the operators of the evaluator, so an operator on
two constant numbers comes to the constant put in its place, in every context. A conversion does so
where its name means nothing else: the evaluator looks a callee up before it takes the name for a
conversion, the folder does not.
-/

namespace ScriptTree

open Eval

variable {n m callee arguments lhs rhs : Node} {op name : String} {span : Span}

/-- The logical operators are not among those that compute. -/
theorem not_logical {o : BinaryOperator} (h : BinaryOperator.ofText? op = some o) :
    ¬(op = "&&" ∨ op = "||") := by
  rintro (rfl | rfl) <;> cases h

/-- Between two numbers an operator computes. -/
theorem applyBinary_number {x y : Number} :
    Node.applyBinary op (.number x) (.number y) =
      Datum.binary (BinaryOperator.ofText? op) (.number x) (.number y) := rfl

theorem foldBinary_runs (h : Rule.foldBinary op span lhs rhs = some m) (c : Context) :
    Node.RunsAs (.construct .binary op span [lhs, rhs]) m c := by
  obtain ⟨l, r, o, d, hl, hr, ho, hd, rfl⟩ := Rule.foldBinary_eq_some h
  obtain ⟨u, s, a, ns, x, rfl, hu, rfl⟩ := Rule.numberOf_eq_some hl
  obtain ⟨v, t, b, ms, y, rfl, hv, rfl⟩ := Rule.numberOf_eq_some hr
  refine fun early host => ⟨rfl, fun fuel => ?_⟩
  have hread := reading_constant early host fuel
  show Node.evalBinary (Node.reading early (Node.evalEarly early host (fuel + 1))) op _ c = _
  rw [evalBinary_data (hread u s a ns c) (hread v t b ms c) (not_logical ho), hu, hv, applyBinary_number,
    ho, hd]
  rfl

/-- A call of a name that is not bound, with one argument that is a datum. -/
theorem evalCall_conversion (early : Nat → Bool) (host : Host) (k : Nat) {s t : String} {a b e : Span}
    {ns ms : List Node} {v : Literal} {r : Datum} {c : Context}
    (hname : (NumericType.ofName? name).isSome = true) (hc : c.get name = .error (.undefinedVariable name))
    (hr : v.datum.convert name = .ok r) :
    Node.evalCall host (Node.evalEarly early host (k + 1)) [.construct .identifier name a ns,
      .construct .argumentList s b [.constant v t e ms]] c = (.ok (.ofDatum r), c) := by
  obtain ⟨type, htype⟩ := Option.isSome_iff_exists.1 hname
  show Node.callName host (Node.evalEarly early host (k + 1)) name [v.datum] c = _
  unfold Node.callName
  show Eval.bind (Eval.look (·.get name)) _ c = _
  rw [Eval.bind, Eval.look, hc]
  simp only [htype, hr]
  rfl

theorem foldConversion_runs (h : Rule.foldConversion span callee arguments = some m) {c : Context}
    (hc : c.get callee.text = .error (.undefinedVariable callee.text)) {text : String} :
    Node.RunsAs (.construct .call text span [callee, arguments]) m c := by
  obtain ⟨name, s, a, ns, t, b, argument, d, r, rfl, rfl, hname, hd, hr, rfl⟩ :=
    Rule.foldConversion_eq_some h
  obtain ⟨v, u, e, ms, x, rfl, rfl, -⟩ := Rule.numberOf_eq_some hd
  exact fun early host => ⟨rfl, fun fuel => evalCall_conversion early host fuel hname hc hr⟩

/-! ### When a folded node does the same -/

/-- In this context both nodes come to the same, down to the context they leave. -/
def Node.SameRuns (host : Host) (n m : Node) (c : Context) : Prop :=
  ∀ o, Settles (fun j => Node.eval host j n) c o ↔ Settles (fun j => Node.eval host j m) c o

/-- The conversion of a constant number that a call is taken for, by its name and the number. -/
def Node.conversion? : Node → Option (String × Datum)
  | .construct .call _ _ [callee, .construct .argumentList _ _ [argument]] =>
    if callee.isForm .identifier = true ∧ (NumericType.ofName? callee.text).isSome = true then
      (Rule.numberOf argument).map fun d => (callee.text, d)
    else none
  | _ => none

/-- In this context a call of the name converts the datum: the name is not bound, or what it is bound to
does no more and no less than the conversion. -/
def Context.Converts (host : Host) (c : Context) (name : String) (d : Datum) : Prop :=
  c.get name = .error (.undefinedVariable name) ∨ ∃ v r, c.get name = .ok v ∧ d.convert name = .ok r ∧
    Settles (fun j => Node.callDatum host (Node.eval host j) (c.read v) [d]) c (.ok r, c)

variable {host : Host} {c : Context} {d r : Datum}

theorem Node.RunsAs.sameRuns (h : n.RunsAs m c) : n.SameRuns host m c := by
  have hrun := (h (fun _ => false) host).2
  simp only [Node.evalEarly_false] at hrun
  intro o
  constructor
  · rintro ⟨k, hk⟩
    refine ⟨k + 1, fun j hj => ?_⟩
    obtain ⟨i, rfl⟩ : ∃ i, j = i + 1 := ⟨j - 1, by omega⟩
    exact (hrun i).symm.trans (hk (i + 2) (by omega))
  · rintro ⟨k, hk⟩
    refine ⟨k + 2, fun j hj => ?_⟩
    obtain ⟨i, rfl⟩ : ∃ i, j = i + 2 := ⟨j - 2, by omega⟩
    exact (hrun i).trans (hk (i + 1) (by omega))

/-- A call that is folded, and what it is folded to. -/
theorem conversion?_eq_some (h : n.conversion? = some (name, d)) :
    ∃ text span s a ns t b argument r, n = .construct .call text span
        [.construct .identifier name s ns, .construct .argumentList t b [argument]] ∧
      (NumericType.ofName? name).isSome = true ∧ Rule.numberOf argument = some d ∧ d.convert name = .ok r ∧
      Rule.constantFolding n = some (.ofLiteral a span (.plain r)) := by
  unfold Node.conversion? at h
  split at h
  · rename_i text span callee t b argument
    split at h
    · rename_i hc
      obtain ⟨x, s, ns, rfl⟩ := Rule.isForm_eq hc.1
      obtain ⟨d', hd, he⟩ := Option.map_eq_some_iff.1 h
      cases he
      obtain ⟨v, u, e, ms, y, rfl, hv, rfl⟩ := Rule.numberOf_eq_some hd
      obtain ⟨type, htype⟩ := Option.isSome_iff_exists.1 hc.2
      have hr : Datum.convert x (.number y) = .ok (.number (y.convert type)) := by
        unfold Datum.convert
        rw [show NumericType.ofName? x = some type from htype]
      refine ⟨text, span, s, x ++ "(" ++ u ++ ")", ns, t, b, _, _, rfl, hc.2, hd, hr, ?_⟩
      rw [Rule.constantFolding, Rule.foldConversion, if_pos hc, hd]
      simp only [Option.bind_eq_bind, Option.bind_some, Node.text, hr]
    · cases h
  · cases h

/-- A call of a name that is bound, with one argument that is a constant. -/
theorem eval_call_bound {text t : String} {span a b : Span} {ns : List Node} {argument : Node} {v : Value}
    (hd : Rule.numberOf argument = some d) (hv : c.get name = .ok v) (j : Nat) :
    Node.eval host (j + 2) (.construct .call text span
        [.construct .identifier name a ns, .construct .argumentList t b [argument]]) c =
      (do let x ← Node.callDatum host (Node.eval host (j + 1)) (c.read v) [d]; return .ofDatum x :
        Eval Completion) c := by
  obtain ⟨u, w, e, ms, y, rfl, rfl, -⟩ := Rule.numberOf_eq_some hd
  show Node.callName host (Node.eval host (j + 1)) name [u.datum] c = _
  unfold Node.callName
  show Eval.bind (Eval.look (·.get name)) _ c = _
  rw [Eval.bind, Eval.look, hv]
  rfl

/-- Such a call comes to the datum just if what the name is bound to does. -/
theorem settles_call_bound {text t : String} {span a b : Span} {ns : List Node} {argument : Node} {v : Value}
    (hd : Rule.numberOf argument = some d) (hv : c.get name = .ok v) :
    Settles (fun j => Node.eval host j (.construct .call text span
        [.construct .identifier name a ns, .construct .argumentList t b [argument]])) c (.ok (.ofDatum r), c) ↔
      Settles (fun j => Node.callDatum host (Node.eval host j) (c.read v) [d]) c (.ok r, c) := by
  have hcall (j : Nat) : Node.eval host (j + 2) (.construct .call text span
      [.construct .identifier name a ns, .construct .argumentList t b [argument]]) c =
        (do let x ← Node.callDatum host (Node.eval host (j + 1)) (c.read v) [d]; return .ofDatum x :
          Eval Completion) c := eval_call_bound hd hv j
  constructor
  · rintro ⟨k, hk⟩
    refine ⟨k + 1, fun j hj => ?_⟩
    obtain ⟨i, rfl⟩ : ∃ i, j = i + 1 := ⟨j - 1, by omega⟩
    have hi := (hcall i).symm.trans (hk (i + 2) (by omega))
    change Eval.bind _ _ c = _ at hi
    rw [Eval.bind] at hi
    show Node.callDatum host (Node.eval host (i + 1)) (c.read v) [d] c = _
    generalize Node.callDatum host (Node.eval host (i + 1)) (c.read v) [d] c = p at hi ⊢
    obtain ⟨_ | x, c'⟩ := p
    · cases hi
    · cases hi
      rfl
  · rintro ⟨k, hk⟩
    refine ⟨k + 2, fun j hj => ?_⟩
    obtain ⟨i, rfl⟩ : ∃ i, j = i + 2 := ⟨j - 2, by omega⟩
    have hi : Node.callDatum host (Node.eval host (i + 1)) (c.read v) [d] c = (.ok r, c) := hk (i + 1) (by omega)
    refine (hcall i).trans ?_
    show Eval.bind _ _ c = _
    rw [Eval.bind, hi]
    rfl

theorem settles_ofLiteral (text : String) (span : Span) (d : Datum) :
    Settles (fun j => Node.eval host j (.ofLiteral text span (.plain d))) c (.ok (.ofDatum d), c) := by
  refine ⟨1, fun j hj => ?_⟩
  obtain ⟨i, rfl⟩ : ∃ i, j = i + 1 := ⟨j - 1, by omega⟩
  rfl

/-- Nodes that come to the same outcome. -/
theorem Node.SameRuns.of_settles {o : Outcome Completion} (hn : Settles (fun j => Node.eval host j n) c o)
    (hm : Settles (fun j => Node.eval host j m) c o) : n.SameRuns host m c :=
  fun _ => ⟨fun h => hn.unique h ▸ hm, fun h => hm.unique h ▸ hn⟩

/-- Folding keeps what a node does in a context, down to the context it leaves, just if the call that is
folded, if there is one, means the conversion there. An operator always keeps its meaning. -/
theorem folding_same_iff (n : Node) (c : Context) (host : Host) :
    n.SameRuns host ((Rule.constantFolding n).getD n) c ↔
      ∀ name d, n.conversion? = some (name, d) → c.Converts host name d := by
  constructor
  · intro h name d hcall
    obtain ⟨text, span, s, a, ns, t, b, argument, r, rfl, hname, hd, hr, hm⟩ := conversion?_eq_some hcall
    rw [hm] at h
    have hsettles := (h _).2 (settles_ofLiteral a span r)
    cases hv : c.get name with
    | ok v => exact .inr ⟨v, r, hv, hr, (settles_call_bound hd hv).1 hsettles⟩
    | error e =>
      unfold Context.get at hv
      split at hv
      · cases hv
      · cases hv
      · cases hv
        refine .inl ?_
        unfold Context.get
        split <;> simp_all
  · intro h
    cases hm : Rule.constantFolding n with
    | none => exact fun _ => Iff.rfl
    | some m =>
      rcases Rule.constantFolding_eq_some hm with ⟨op, span, lhs, rhs, rfl, hfold⟩ |
        ⟨text, span, callee, arguments, rfl, hfold⟩
      · exact (foldBinary_runs hfold c).sameRuns
      · obtain ⟨name, s, a, ns, t, b, argument, d, r, rfl, rfl, hname, hd, hr, rfl⟩ :=
          Rule.foldConversion_eq_some hfold
        have hcall : Node.conversion? (.construct .call text span [.construct .identifier name s ns,
            .construct .argumentList t b [argument]]) = some (name, d) := by
          show (if _ then _ else _) = _
          rw [if_pos ⟨rfl, hname⟩, hd]
          rfl
        rcases h name d hcall with hc | ⟨v, r', hv, hr', hsettles⟩
        · exact (foldConversion_runs hfold hc).sameRuns
        · rw [hr] at hr'
          cases hr'
          exact .of_settles ((settles_call_bound hd hv).2 hsettles) (settles_ofLiteral a span r)

end ScriptTree

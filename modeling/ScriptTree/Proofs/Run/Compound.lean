import ScriptTree.Proofs.Run.Assigning
import ScriptTree.Proofs.Optimize.Folding

/-!
Compound assignments. `x op= e` is to be short for `x = x op e`, but the two are worked out by different
operators: the compound form hands its data to the operators on numbers, the plain form to those of expressions,
which compare data of any type and join texts as well. In both forms what comes out, a datum or a fault, goes into
the variable in the same way; so they agree just where the operators of expressions have nothing to add.
-/

namespace ScriptTree

open Eval

variable {host : Host} {fuel : Nat} {c : Context} {op name : String} {e : Node} {a b : Datum} {u v : Value}
  {r : Except Fault Datum} {span s t : Span} {ns : List Node}

/-! ### Operators of expressions and operators on numbers -/

/-- The operators of expressions have a meaning for these data that the operators on numbers have not: equality of
data that are not both numbers, and the joining of texts. -/
inductive Datum.BeyondNumbers : String → Datum → Datum → Prop
  | equal {a b : Datum} (h : ¬(a.number?.isSome ∧ b.number?.isSome)) : BeyondNumbers "==" a b
  | notEqual {a b : Datum} (h : ¬(a.number?.isSome ∧ b.number?.isSome)) : BeyondNumbers "!=" a b
  | joined {s t : String} : BeyondNumbers "+" (.string s) (.string t)

/-- The text of an operator is the text that it was found by. -/
theorem BinaryOperator.text_of_ofText? {o : BinaryOperator} (h : ofText? op = some o) : o.text = op := by
  simpa using List.find?_some h

theorem Datum.binary_not_numbers (hop : (BinaryOperator.ofText? op).isSome)
    (h : ¬(a.number?.isSome ∧ b.number?.isSome)) :
    a.binary (BinaryOperator.ofText? op) b = .error (.undefinedOperator op a.typeName b.typeName) := by
  obtain ⟨o, ho⟩ := Option.isSome_iff_exists.1 hop
  rw [ho]
  unfold Datum.binary
  split
  · exact absurd ⟨rfl, rfl⟩ h
  · rw [Option.map_some, Option.getD_some, BinaryOperator.text_of_ofText? ho]

theorem Node.applyBinary_not_numbers (h : ¬(a.number?.isSome ∧ b.number?.isSome)) :
    Node.applyBinary op a b = Node.mixedBinary op a b := by
  unfold Node.applyBinary
  split
  · exact absurd ⟨rfl, rfl⟩ h
  · rfl

theorem Datum.BeyondNumbers.not_numbers (h : BeyondNumbers op a b) : ¬(a.number?.isSome ∧ b.number?.isSome) := by
  cases h with
  | equal h => exact h
  | notEqual h => exact h
  | joined => exact fun hab => Bool.false_ne_true hab.1

theorem Datum.BeyondNumbers.apply (h : BeyondNumbers op a b) : ∃ d, Node.applyBinary op a b = .ok d := by
  rw [Node.applyBinary_not_numbers h.not_numbers]
  cases h with
  | equal => exact ⟨_, rfl⟩
  | notEqual => exact ⟨_, rfl⟩
  | joined => exact ⟨_, rfl⟩

/-- Elsewhere both do the same. -/
theorem Node.applyBinary_eq_binary (hop : (BinaryOperator.ofText? op).isSome) (h : ¬Datum.BeyondNumbers op a b) :
    Node.applyBinary op a b = a.binary (BinaryOperator.ofText? op) b := by
  by_cases hab : a.number?.isSome ∧ b.number?.isSome
  · unfold Node.applyBinary
    split
    · rfl
    · rename_i hno
      cases a <;> cases b <;> first | exact absurd rfl (hno _ _ rfl) | simp [Datum.number?] at hab
  · rw [Datum.binary_not_numbers hop hab, Node.applyBinary_not_numbers hab]
    unfold Node.mixedBinary
    split
    · exact absurd (.equal hab) h
    · exact absurd (.notEqual hab) h
    · exact absurd .joined h
    · rfl

/-! ### What assignments come to -/

/-- What it comes to if the result of an operator is stored in a variable: the fault of the operator, the fault of
the variable, or the datum in its place. -/
def Context.storing (c : Context) (name : String) (r : Except Fault Datum) : Outcome Completion :=
  match r with
  | .error f => (.error (.fault f), c)
  | .ok x => match c.assign name x with
    | .error f => (.error (.fault f), c)
    | .ok d => (.ok (.ofDatum x), d)

theorem Context.storing_ne_outOfFuel (c : Context) (name : String) (r : Except Fault Datum) :
    (c.storing name r).1 ≠ .error .outOfFuel := by
  unfold Context.storing
  split
  · nofun
  · split <;> nofun

/-- A variable may refuse a datum, but it knows nothing of operators. -/
theorem Context.assign_ne_undefinedOperator (c : Context) (name : String) (x : Datum) (lhs rhs : String) :
    c.assign name x ≠ .error (.undefinedOperator op lhs rhs) := by
  intro h
  unfold Context.assign at h
  split at h
  · cases h
  · split at h <;> cases h
  · split at h <;> cases h
  · cases h

theorem Context.storing_ok_ne (c : Context) (name : String) (x : Datum) (lhs rhs : String) :
    c.storing name (.ok x) ≠ c.storing name (.error (.undefinedOperator op lhs rhs)) := by
  intro h
  unfold Context.storing at h
  dsimp only at h
  cases hd : c.assign name x with
  | ok d =>
    rw [hd] at h
    cases h
  | error f =>
    rw [hd] at h
    cases h
    exact c.assign_ne_undefinedOperator name x lhs rhs hd

namespace Node

theorem compoundOperator_append (op : String) : compoundOperator (op ++ "=") = op := by
  have hreverse : (op ++ "=").toList.reverse = '=' :: op.toList.reverse := by simp
  unfold compoundOperator
  rw [hreverse]
  simp

theorem assignValue_eq (x : Datum) (c : Context) :
    (do
      let d ← Eval.read (.plain x)
      Eval.change (·.assign name d)
      return .ofValue (.plain x) : Eval Completion) c = c.storing name (.ok x) := by
  show Eval.bind (Eval.change (·.assign name x)) (fun _ => Eval.pure (Completion.ofDatum x)) c = _
  unfold Context.storing Eval.bind Eval.change
  dsimp only
  cases c.assign name x with
  | error f => rfl
  | ok d => rfl

theorem evalStore_plain (x : Datum) (c : Context) : evalStore "=" name (.plain x) c = c.storing name (.ok x) :=
  assignValue_eq x c

theorem evalStore_compound (hop : op ≠ "=") (hu : c.get name = .ok u) : evalStore op name v c =
    c.storing name ((c.read u).binary (BinaryOperator.ofText? (compoundOperator op)) (c.read v)) := by
  have hget : Eval.get name c = (.ok u, c) := by rw [Eval.get, hu]
  unfold evalStore
  rw [if_neg hop]
  refine (Eval.bind_of_ok hget).trans ?_
  show (Eval.ofExcept ((c.read u).binary _ (c.read v)) >>= _) c = _
  cases (c.read u).binary (BinaryOperator.ofText? (compoundOperator op)) (c.read v) with
  | error f => rfl
  | ok x => exact assignValue_eq x c

/-- A constant or a variable comes to its value or to the fault that the variable is not there. -/
theorem IsSimple.eval_eq (he : e.IsSimple) (host : Host) (fuel : Nat) (c : Context) :
    e.eval host (fuel + 1) c = match e.valueIn c with
      | .ok v => (.ok (Completion.ofValue v), c)
      | .error f => (.error (.fault f), c) := by
  cases e with
  | constant => rfl
  | counted => rcases he with he | he <;> cases he
  | construct form text span ns =>
    obtain rfl : form = .identifier := by
      rcases he with he | he
      · cases he
      · simpa [isForm, kind] using he
    show (Eval.get text >>= fun v => Pure.pure (Completion.ofValue v)) c = _
    unfold valueIn
    dsimp only [Node.text]
    cases hv : c.get text with
    | error f => exact Eval.bind_of_error (by rw [Eval.get, hv])
    | ok v => exact Eval.bind_of_ok (by rw [Eval.get, hv])

/-! ### Both forms -/

/-- The right side of an assignment fails. -/
theorem evalEquation_error {run : Evaluator} {f : Fault} {target : Node} (h : run e c = (.error (.fault f), c)) :
    evalEquation run op [target, e] c = (.error (.fault f), c) := by
  show (run e >>= _) c = _
  exact Eval.bind_of_error h

/-- The right side of an assignment to a variable comes to a value. -/
theorem evalEquation_value {run : Evaluator} (h : run e c = (.ok (.ofValue v), c)) :
    evalEquation run op [.construct .identifier name span ns, e] c = evalStore op name v c :=
  Eval.bind_of_ok h

/-- The right operand fails. -/
theorem evalBinary_error {run : Evaluator} {f : Fault} {lhs : Node} (hop : ¬(op = "&&" ∨ op = "||"))
    (hl : run lhs c = (.ok (.ofValue u), c)) (hr : run e c = (.error (.fault f), c)) :
    evalBinary run op [lhs, e] c = (.error (.fault f), c) := by
  refine (Eval.bind_of_ok hl).trans ?_
  show (if op = "&&" ∨ op = "||" then _ else _ : Eval Completion) c = _
  rw [if_neg hop]
  show (run e >>= _) c = _
  exact Eval.bind_of_error hr

/-- What an assignment to a bound variable comes to, given what an operator makes of the variable's datum and the
one of the right side. -/
def assigning (operate : Datum → Datum → Except Fault Datum) (name : String) (u : Value) (e : Node) (c : Context) :
    Outcome Completion :=
  match e.valueIn c with
  | .ok v => c.storing name (operate (c.read u) (c.read v))
  | .error f => (.error (.fault f), c)

/-- The compound form stores what the operator on numbers gives. -/
theorem eval_compound (hop : op ++ "=" ≠ "=") (hu : c.get name = .ok u) (he : e.IsSimple) (host : Host) (fuel : Nat) :
    eval host (fuel + 2) (.construct .equation (op ++ "=") s [.construct .identifier name span ns, e]) c =
      assigning (Datum.binary (BinaryOperator.ofText? op)) name u e c := by
  show evalEquation (eval host (fuel + 1)) (op ++ "=") _ c = _
  have hright := he.eval_eq host fuel c
  unfold assigning
  cases hv : e.valueIn c with
  | error f =>
    rw [hv] at hright
    exact evalEquation_error hright
  | ok v =>
    rw [hv] at hright
    refine (evalEquation_value hright).trans ((evalStore_compound hop hu).trans ?_)
    rw [compoundOperator_append]

/-- The plain form stores what the operator of expressions gives. -/
theorem eval_plain (hop : ¬(op = "&&" ∨ op = "||")) (hu : c.get name = .ok u) (he : e.IsSimple) (host : Host)
    (fuel : Nat) {span' : Span} {ns' : List Node} :
    eval host (fuel + 3) (.construct .equation "=" s [.construct .identifier name span ns,
      .construct .binary op t [.construct .identifier name span' ns', e]]) c =
        assigning (applyBinary op) name u e c := by
  show evalEquation (eval host (fuel + 2)) "=" _ c = _
  have hleft := IsSimple.eval_eq (e := .construct .identifier name span' ns') (.inr rfl) host fuel c
  rw [show valueIn c (.construct .identifier name span' ns') = .ok u from hu] at hleft
  have hright := he.eval_eq host fuel c
  unfold assigning
  cases hv : e.valueIn c with
  | error f =>
    rw [hv] at hright
    exact evalEquation_error (evalBinary_error hop hleft hright)
  | ok v =>
    rw [hv] at hright
    have hbinary := evalBinary_values hleft hright hop
    dsimp only
    cases hr : applyBinary op (c.read u) (c.read v) with
    | error f =>
      rw [hr] at hbinary
      exact evalEquation_error hbinary
    | ok x =>
      rw [hr] at hbinary
      exact (evalEquation_value (v := .plain x) hbinary).trans (evalStore_plain x c)

/-- Both forms give the same in every case but one: where the right side comes to a datum for which the operators
of expressions have a meaning of their own. -/
theorem assigning_eq_iff (hop : (BinaryOperator.ofText? op).isSome) (name : String) (u : Value) (e : Node)
    (c : Context) :
    assigning (Datum.binary (BinaryOperator.ofText? op)) name u e c = assigning (applyBinary op) name u e c ↔
      ∀ v, e.valueIn c = .ok v → ¬Datum.BeyondNumbers op (c.read u) (c.read v) := by
  unfold assigning
  cases hv : e.valueIn c with
  | error f => simp
  | ok v =>
    dsimp only
    constructor
    · rintro h _ ⟨⟩ hbeyond
      obtain ⟨x, hx⟩ := hbeyond.apply
      rw [Datum.binary_not_numbers hop hbeyond.not_numbers, hx] at h
      exact c.storing_ok_ne name x _ _ h.symm
    · intro h
      rw [applyBinary_eq_binary hop (h v rfl)]

theorem assigning_ne_outOfFuel (operate : Datum → Datum → Except Fault Datum) (name : String) (u : Value) (e : Node)
    (c : Context) : (assigning operate name u e c).1 ≠ .error .outOfFuel := by
  unfold assigning
  split
  · exact c.storing_ne_outOfFuel name _
  · nofun

/-- A compound assignment to a variable, with an operator on numbers and a constant or a variable on its right
side, and the plain assignment that it is short for both end. They come to the same, a value or a fault, in the
same context just if the data are not such that the operators of expressions have a meaning of their own for them;
where they are, the compound assignment fails for want of an operator. -/
theorem compound_agrees_iff (host : Host) (c : Context) {op name : String} {e : Node} {u : Value}
    (hop : (BinaryOperator.ofText? op).isSome) (hname : c.get name = .ok u) (he : e.IsSimple)
    (s s' t a a' b : Span) (ns ns' ms : List Node) :
    let compound : Node := .construct .equation (op ++ "=") s [.construct .identifier name a ns, e]
    let plain : Node := .construct .equation "=" s' [.construct .identifier name a' ns',
      .construct .binary op t [.construct .identifier name b ms, e]]
    ∃ o o', Settles (fun j => eval host j compound) c o ∧ Settles (fun j => eval host j plain) c o' ∧
      o.1 ≠ .error .outOfFuel ∧ o'.1 ≠ .error .outOfFuel ∧
      (o = o' ↔ ∀ v, e.valueIn c = .ok v → ¬Datum.BeyondNumbers op (c.read u) (c.read v)) ∧
      ∀ v, e.valueIn c = .ok v → Datum.BeyondNumbers op (c.read u) (c.read v) →
        o = (.error (.fault (.undefinedOperator op (c.read u).typeName (c.read v).typeName)), c) := by
  obtain ⟨operator, hoperator⟩ := Option.isSome_iff_exists.1 hop
  have hlogical : ¬(op = "&&" ∨ op = "||") := not_logical hoperator
  have hcompound : op ++ "=" ≠ "=" := by
    intro h
    have hempty : op = "" := by simpa using h
    rw [hempty] at hoperator
    cases hoperator
  intro compound plain
  refine ⟨_, _, ⟨2, fun j hj => ?_⟩, ⟨3, fun j hj => ?_⟩, assigning_ne_outOfFuel _ name u e c,
    assigning_ne_outOfFuel _ name u e c, assigning_eq_iff hop name u e c, fun v hv hbeyond => ?_⟩
  · obtain ⟨i, rfl⟩ : ∃ i, j = i + 2 := ⟨j - 2, by omega⟩
    exact eval_compound hcompound hname he host i
  · obtain ⟨i, rfl⟩ : ∃ i, j = i + 3 := ⟨j - 3, by omega⟩
    exact eval_plain hlogical hname he host i
  · unfold assigning
    rw [hv]
    dsimp only
    rw [Datum.binary_not_numbers hop hbeyond.not_numbers]
    rfl

/-- A text is in the variable. To add another text to it is a fault in the compound form, and in the plain form it
is not. -/
theorem compound_agrees_iff_texts :
    let c : Context := .ofBindings [("x", .plain (.string "a"))]
    let e : Node := .ofLiteral "b" .unknown (.plain (.string "b"))
    let x : Node := .construct .identifier "x" .unknown []
    let compound : Node := .construct .equation "+=" .unknown [x, e]
    let plain : Node := .construct .equation "=" .unknown [x, .construct .binary "+" .unknown [x, e]]
    (BinaryOperator.ofText? "+").isSome ∧ c.get "x" = .ok (.plain (.string "a")) ∧ e.IsSimple ∧
      ∃ o o', Settles (fun j => eval .silent j compound) c o ∧ Settles (fun j => eval .silent j plain) c o' ∧
        o = (.error (.fault (.undefinedOperator "+" "string" "string")), c) ∧ o ≠ o' := by
  intro c e x compound plain
  have hop : (BinaryOperator.ofText? "+").isSome := by decide
  have hname : c.get "x" = .ok (.plain (.string "a")) := by decide
  have he : e.IsSimple := .inl rfl
  refine ⟨hop, hname, he, ?_⟩
  obtain ⟨o, o', ho, ho', -, -, hiff, hbeyond⟩ := compound_agrees_iff .silent c hop hname he .unknown .unknown
    .unknown .unknown .unknown .unknown [] [] []
  exact ⟨o, o', ho, ho', hbeyond _ rfl .joined, fun heq => hiff.1 heq _ rfl .joined⟩

end Node

end ScriptTree

import ScriptTree.Optimize.Pass

/-!
What each rule takes and gives. A rule that applies is turned into equations for the node it was given
and the node it yields.
-/

namespace ScriptTree.Rule

variable {n m : Node}

/-- Children up to the last one and the last one. -/
theorem eq_dropLast_append {ns : List Node} {a : Node} (h : ns.getLast? = some a) :
    ns = ns.dropLast ++ [a] := by
  have hne : ns ≠ [] := by
    rintro rfl
    cases h
  rw [List.getLast?_eq_some_getLast hne, Option.some.injEq] at h
  rw [← h, List.dropLast_concat_getLast hne]

theorem isForm_eq {form : Form} (h : n.isForm form = true) :
    ∃ text span ns, n = .construct form text span ns := by
  cases n with
  | construct f text span ns =>
    obtain rfl : f = form := by simpa [Node.isForm, Node.kind] using h
    exact ⟨_, _, _, rfl⟩
  | constant => simp [Node.isForm, Node.kind] at h
  | counted => simp [Node.isForm, Node.kind] at h

/-- A trailing return stands at the end of the block at the end of a definition. -/
theorem trailingReturn_eq_some (h : trailingReturn n = some m) :
    ∃ text span pre s a init t b e,
      n = .construct .definition text span
        (pre ++ [.construct .block s a (init ++ [.construct .returned t b [e]])]) ∧
      m = .construct .definition text span (pre ++ [.construct .block s a (init ++ [e])]) := by
  unfold trailingReturn at h
  split at h
  · cases h
  · rename_i hdef
    obtain ⟨text, span, ns, rfl⟩ := isForm_eq (by simpa using hdef)
    obtain ⟨body, hbody, h⟩ := Option.bind_eq_some_iff.1 h
    split at h
    · cases h
    · rename_i hblock
      obtain ⟨s, a, ms, rfl⟩ := isForm_eq (by simpa using hblock)
      obtain ⟨final, hfinal, h⟩ := Option.bind_eq_some_iff.1 h
      split at h
      · rename_i t b e
        cases h
        refine ⟨text, span, ns.dropLast, s, a, ms.dropLast, t, b, e, ?_, rfl⟩
        have hms : ms = ms.dropLast ++ [.construct .returned t b [e]] := eq_dropLast_append hfinal
        have hns : ns = ns.dropLast ++ [.construct .block s a ms] := eq_dropLast_append hbody
        rw [← hms, ← hns]
      · cases h

theorem loneBlock_eq_some (h : loneBlock n = some m) :
    ∃ text span, n = .construct .block text span [m] ∧ declaresAny [m] = false := by
  unfold loneBlock at h
  split at h
  · split at h
    · cases h
    · rename_i hd
      cases h
      exact ⟨_, _, rfl, by simpa using hd⟩
  · cases h

theorem deadBranch_eq_some (h : deadBranch n = some m) :
    ∃ form text span b s a ns first rest,
      n = .construct form text span (.constant (.plain (.bool b)) s a ns :: first :: rest) ∧
      (form = .conditional ∨ form = .ternary) ∧ (b = true ∧ m = first ∨ b = false ∧ rest = [m]) := by
  unfold deadBranch at h
  split at h
  · split at h
    · rename_i hform
      refine ⟨_, _, _, _, _, _, _, _, _, rfl, hform, ?_⟩
      split at h
      · cases h
        exact .inl ⟨‹_›, rfl⟩
      · rename_i hb
        split at h
        · cases h
          exact .inr ⟨by simpa using hb, rfl⟩
        · cases h
    · cases h
  · cases h

theorem numberOf_eq_some {d : Datum} (h : numberOf n = some d) :
    ∃ v s a ns x, n = .constant v s a ns ∧ v.datum = d ∧ d = .number x := by
  unfold numberOf at h
  cases n with
  | constant v s a ns =>
    simp only [Node.value?] at h
    split at h
    · rename_i hv
      cases h
      unfold Literal.isArithmetic Datum.number? at hv
      split at hv
      · rename_i x hx
        exact ⟨v, s, a, ns, x, rfl, rfl, hx⟩
      · cases hv
    · cases h
  | construct => cases h
  | counted => cases h

theorem foldBinary_eq_some {op : String} {span : Span} {lhs rhs : Node}
    (h : foldBinary op span lhs rhs = some m) :
    ∃ l r o d, numberOf lhs = some l ∧ numberOf rhs = some r ∧ BinaryOperator.ofText? op = some o ∧
      l.binary (some o) r = .ok d ∧
      m = .ofLiteral (lhs.text ++ " " ++ op ++ " " ++ rhs.text) span (.plain d) := by
  unfold foldBinary at h
  obtain ⟨l, hl, h⟩ := Option.bind_eq_some_iff.1 h
  obtain ⟨r, hr, h⟩ := Option.bind_eq_some_iff.1 h
  obtain ⟨o, ho, h⟩ := Option.bind_eq_some_iff.1 h
  split at h
  · rename_i d hd
    cases h
    exact ⟨l, r, o, d, hl, hr, ho, hd, rfl⟩
  · cases h

theorem foldConversion_eq_some {span : Span} {callee arguments : Node}
    (h : foldConversion span callee arguments = some m) :
    ∃ name s a ns t b argument d r, callee = .construct .identifier name s ns ∧
      arguments = .construct .argumentList t b [argument] ∧ (NumericType.ofName? name).isSome = true ∧
      numberOf argument = some d ∧ d.convert name = .ok r ∧
      m = .ofLiteral a span (.plain r) := by
  unfold foldConversion at h
  split at h
  · rename_i t b argument
    split at h
    · rename_i hc
      obtain ⟨name, s, ns, rfl⟩ := isForm_eq hc.1
      obtain ⟨d, hd, h⟩ := Option.bind_eq_some_iff.1 h
      split at h
      · rename_i r hr
        cases h
        exact ⟨name, s, _, ns, t, b, argument, d, r, rfl, rfl, hc.2, hd, hr, rfl⟩
      · cases h
    · cases h
  · cases h

theorem constantFolding_eq_some (h : constantFolding n = some m) :
    (∃ op span lhs rhs, n = .construct .binary op span [lhs, rhs] ∧ foldBinary op span lhs rhs = some m) ∨
      ∃ text span callee arguments, n = .construct .call text span [callee, arguments] ∧
        foldConversion span callee arguments = some m := by
  unfold constantFolding at h
  split at h
  · exact .inl ⟨_, _, _, _, rfl, h⟩
  · exact .inr ⟨_, _, _, _, rfl, h⟩
  · cases h

/-- Folding leaves a constant. -/
theorem constantFolding_constant (h : constantFolding n = some m) :
    ∃ v s a, m = .constant v s a [] := by
  rcases constantFolding_eq_some h with ⟨op, span, lhs, rhs, rfl, h⟩ | ⟨text, span, callee, arguments, rfl, h⟩
  · obtain ⟨l, r, o, d, -, -, -, -, rfl⟩ := foldBinary_eq_some h
    exact ⟨_, _, _, rfl⟩
  · obtain ⟨name, s, a, ns, t, b, argument, d, r, -, -, -, -, -, rfl⟩ := foldConversion_eq_some h
    exact ⟨_, _, _, rfl⟩

theorem countedLoop_eq_some (h : countedLoop n = some m) :
    ∃ text span setup test step body loop,
      n = .construct .forLoop text span [setup, test, step, body] ∧
      countedHead? setup test step = some loop ∧ m = .counted loop n text span [body] := by
  unfold countedLoop at h
  split at h
  · obtain ⟨loop, hloop, h⟩ := Option.map_eq_some_iff.1 h
    exact ⟨_, _, _, _, _, _, loop, rfl, hloop, h.symm⟩
  · cases h

end ScriptTree.Rule

namespace ScriptTree

/-- The shape of a head that counts. -/
inductive CountingHead : Node → Node → Node → CountedLoop → Prop
  | mk {x s t u : String} {first limit : Int32} {a b c d e f g h : Span} {ns ms ps ks ls : List Node}
      {name : Node} (hx : name.text = x) :
    CountingHead
      (.construct .equation "=" a [.construct .declaration s b (name :: ns),
        .constant (.plain (.number (.int first))) t c ms])
      (.construct .binary "<" d [.construct .identifier x e ps,
        .constant (.plain (.number (.int limit))) u f ks])
      (.construct .prefixed "++" g [.construct .identifier x h ls])
      ⟨x, first, limit⟩

theorem intLiteral?_eq_some {n : Node} {k : Int32} (h : Rule.intLiteral? n = some k) :
    ∃ t c ms, n = .constant (.plain (.number (.int k))) t c ms := by
  unfold Rule.intLiteral? at h
  split at h
  · cases h
    exact ⟨_, _, _, rfl⟩
  · cases h

/-- The pass takes just the heads of this shape. -/
theorem countingHead_of_countedHead? {setup test step : Node} {loop : CountedLoop}
    (h : Rule.countedHead? setup test step = some loop) :
    CountingHead setup test step loop := by
  unfold Rule.countedHead? at h
  obtain ⟨⟨x, first⟩, hsetup, h⟩ := Option.bind_eq_some_iff.1 h
  obtain ⟨limit, htest, h⟩ := Option.bind_eq_some_iff.1 h
  simp only [Option.ite_none_right_eq_some, Option.some.injEq] at h
  obtain ⟨hstep, rfl⟩ := h
  unfold Rule.counterSetup? at hsetup
  split at hsetup
  · obtain ⟨k, hk, hx⟩ := Option.map_eq_some_iff.1 hsetup
    obtain ⟨t, c, ms, rfl⟩ := intLiteral?_eq_some hk
    cases hx
    unfold Rule.counterLimit? at htest
    split at htest
    · split at htest
      · rename_i hname
        obtain ⟨u, f, ks, rfl⟩ := intLiteral?_eq_some htest
        unfold Rule.isIncrement at hstep
        split at hstep
        · obtain rfl := hname
          rw [beq_iff_eq] at hstep
          rw [hstep]
          exact .mk rfl
        · cases hstep
      · cases htest
    · cases htest
  · cases hsetup

/-- The pass whose rule may apply to a construct. -/
def Form.pass? : Form → Option Pass
  | .definition => some .trailingReturn
  | .block => some .loneBlock
  | .conditional | .ternary => some .deadBranch
  | .binary | .call => some .constantFolding
  | .forLoop => some .countedLoop
  | _ => none

/-- To a construct the rule of one pass at most applies, and to no other node any rule. -/
theorem Pass.rule_eq_some {pass : Pass} {n m : Node} (h : pass.rule n = some m) :
    ∃ form text span ns, n = .construct form text span ns ∧ form.pass? = some pass := by
  cases pass with
  | trailingReturn =>
    obtain ⟨_, _, _, _, _, _, _, _, _, rfl, -⟩ := Rule.trailingReturn_eq_some h
    exact ⟨_, _, _, _, rfl, rfl⟩
  | loneBlock =>
    obtain ⟨_, _, rfl, -⟩ := Rule.loneBlock_eq_some h
    exact ⟨_, _, _, _, rfl, rfl⟩
  | deadBranch =>
    obtain ⟨_, _, _, _, _, _, _, _, _, rfl, rfl | rfl, -⟩ := Rule.deadBranch_eq_some h
    · exact ⟨_, _, _, _, rfl, rfl⟩
    · exact ⟨_, _, _, _, rfl, rfl⟩
  | constantFolding =>
    rcases Rule.constantFolding_eq_some h with ⟨_, _, _, _, rfl, -⟩ | ⟨_, _, _, _, rfl, -⟩
    · exact ⟨_, _, _, _, rfl, rfl⟩
    · exact ⟨_, _, _, _, rfl, rfl⟩
  | countedLoop =>
    obtain ⟨_, _, _, _, _, _, _, rfl, -, -⟩ := Rule.countedLoop_eq_some h
    exact ⟨_, _, _, _, rfl, rfl⟩

end ScriptTree

import ScriptTree.Proofs.Optimize.Shape
import Mathlib.Algebra.GroupWithZero.Nat

/-!
What a walk leaves. A tree is normal under some passes if none of their rules applies anywhere in it: a
walk leaves trees that are normal under its passes, but for trailing returns. Their rule may bring another
return to the end of a function's body, and only where one return stood inside of another. So walking again
takes no steps but of this rule, and in trees without such returns a walk takes one step at most at each
node, the same one in whichever order its passes come.
-/

namespace ScriptTree

variable {p q : Pipeline} {pass : Pass} {form : Form} {text : String} {span : Span} {n m : Node}
  {ns : List Node}

/-! ### Walks and their steps -/

theorem Pipeline.walkAll_eq (p : Pipeline) (ns : List Node) : p.walkAll ns = (ns.map fun c => (p.walk c).tree,
    (ns.map fun c => (p.walk c).visited).sum, ns.flatMap fun c => (p.walk c).steps) := by
  induction ns with
  | nil => rfl
  | cons n ns ih =>
    rw [Pipeline.walkAll, ih]
    rfl

/-- A node over its walked children, as it is offered to the passes. -/
def Pipeline.below (p : Pipeline) (n : Node) : Node := n.withChildren (n.children.map fun c => (p.walk c).tree)

theorem Pipeline.walk_eq (p : Pipeline) (n : Node) : p.walk n =
    ⟨(p.apply (p.below n)).1, (n.children.map fun c => (p.walk c).visited).sum + 1,
      (n.children.flatMap fun c => (p.walk c).steps) ++ (p.apply (p.below n)).2⟩ := by
  cases n <;> (rw [Pipeline.walk, Pipeline.walkAll_eq]; rfl)

theorem Pipeline.children_below (p : Pipeline) (n : Node) :
    (p.below n).children = n.children.map fun c => (p.walk c).tree :=
  Node.children_withChildren _ _

/-- What every rewriting keeps is kept until a node is offered. -/
theorem below_keeps {P : Node → Prop} (h : ∀ n m, Rewrites p n m → P n → P m) (hn : P n) : P (p.below n) := by
  have hsteps := rewrites_walkAll p n [] n.children
  rw [List.nil_append, List.nil_append, Node.withChildren_children, Pipeline.walkAll_eq] at hsteps
  exact rewritings_keep h hsteps hn

/-- A node that no rule applies to goes through the passes as it is. -/
theorem apply_eq_self : ∀ {p : Pipeline}, (∀ r ∈ p, r.rule n = none) → p.apply n = (n, [])
  | [], _ => rfl
  | pass :: p, h => by
    rw [Pipeline.apply, h pass (.head _)]
    exact apply_eq_self fun r hr => h r (.tail _ hr)

theorem rule_of_apply : ∀ {p : Pipeline}, (p.apply n).2 = [] → ∀ r ∈ p, r.rule n = none
  | pass :: p, h, r, hr => by
    rw [Pipeline.apply] at h
    cases hpass : pass.rule n with
    | some m =>
      rw [hpass] at h
      cases h
    | none =>
      rw [hpass] at h
      rcases List.mem_cons.1 hr with rfl | hr
      · exact hpass
      · exact rule_of_apply h r hr

/-! ### Normal trees -/

/-- No rule of these passes applies anywhere in the tree. -/
def Node.Normal (p : Pipeline) (n : Node) : Prop := ∀ a ∈ n.parts, ∀ r ∈ p, r.rule a = none

theorem Node.normal_iff : n.Normal p ↔ (∀ r ∈ p, r.rule n = none) ∧ ∀ c ∈ n.children, c.Normal p :=
  forall_parts

/-- A walk of a normal tree takes no step and gives back the tree. -/
theorem walk_of_normal (n : Node) (h : n.Normal p) : (p.walk n).tree = n ∧ (p.walk n).steps = [] := by
  induction n using Node.induction with
  | step n ih =>
    obtain ⟨hn, hc⟩ := Node.normal_iff.1 h
    have hbelow : p.below n = n := by
      have : (n.children.map fun c => (p.walk c).tree) = n.children :=
        List.map_congr_left (fun c hmem => (ih c hmem (hc c hmem)).1) |>.trans (List.map_id' _)
      rw [Pipeline.below, this, Node.withChildren_children]
    have hsteps : (n.children.flatMap fun c => (p.walk c).steps) = [] :=
      List.flatMap_eq_nil_iff.2 fun c hmem => (ih c hmem (hc c hmem)).2
    rw [Pipeline.walk_eq, hbelow, apply_eq_self hn, hsteps]
    exact ⟨rfl, rfl⟩

/-- A walk takes no step just if the tree is normal under its passes. -/
theorem walk_steps_eq_nil_iff (n : Node) : (p.walk n).steps = [] ↔ n.Normal p := by
  refine ⟨fun h => ?_, fun h => (walk_of_normal n h).2⟩
  induction n using Node.induction with
  | step n ih =>
    rw [Pipeline.walk_eq] at h
    obtain ⟨hbelow, happly⟩ := List.append_eq_nil_iff.1 h
    have hc : ∀ c ∈ n.children, c.Normal p := fun c hc => ih c hc (List.flatMap_eq_nil_iff.1 hbelow c hc)
    have hsame : p.below n = n := by
      have : (n.children.map fun c => (p.walk c).tree) = n.children :=
        List.map_congr_left (fun c hmem => (walk_of_normal c (hc c hmem)).1) |>.trans (List.map_id' _)
      rw [Pipeline.below, this, Node.withChildren_children]
    rw [hsame] at happly
    exact Node.normal_iff.2 ⟨rule_of_apply happly, hc⟩

/-! ### Returns inside of returns -/

namespace Node

mutual

/-- Whether there is a return in the tree that belongs to the function around it. -/
def returns : Node → Bool
  | .construct form _ _ children => form == .returned || (form != .definition && returnsAny children)
  | .constant _ _ _ children => returnsAny children
  | .counted _ _ _ _ children => returnsAny children

/-- Whether there is such a return in one of several trees. -/
def returnsAny : List Node → Bool
  | [] => false
  | n :: ns => returns n || returnsAny ns

end

theorem returnsAny_iff : returnsAny ns = true ↔ ∃ c ∈ ns, c.returns = true := by
  induction ns with
  | nil => simp [returnsAny]
  | cons n ns ih =>
    rw [returnsAny, Bool.or_eq_true, ih]
    simp

/-- No return stands inside of another return of the same function. -/
def ReturnsApart (n : Node) : Prop := ∀ a ∈ n.parts, a.isForm .returned = true → returnsAny a.children = false

instance (n : Node) : Decidable n.ReturnsApart :=
  inferInstanceAs (Decidable (∀ a ∈ n.parts, a.isForm .returned = true → returnsAny a.children = false))

theorem ReturnsApart.part (h : n.ReturnsApart) (hm : m ∈ n.parts) : m.ReturnsApart :=
  fun a ha => h a (parts_trans ha hm)

end Node

/-- A rewriting brings no return of the function around. -/
theorem Rewrites.returns (h : Rewrites p n m) (hm : m.returns = true) : n.returns = true := by
  induction h with
  | @root pass n m _ h => cases pass with
    | trailingReturn =>
      obtain ⟨text, span, pre, s, a, init, t, b, e, rfl, rfl⟩ := Rule.trailingReturn_eq_some h
      exact hm
    | loneBlock =>
      obtain ⟨text, span, rfl, -⟩ := Rule.loneBlock_eq_some h
      simp [Node.returns, Node.returnsAny, hm]
    | deadBranch =>
      obtain ⟨form, text, span, b, s, a, ns, first, rest, rfl, hform, hbranch⟩ := Rule.deadBranch_eq_some h
      have hany : Node.returnsAny (.constant (.plain (.bool b)) s a ns :: first :: rest) = true := by
        refine Node.returnsAny_iff.2 ⟨m, ?_, hm⟩
        rcases hbranch with ⟨-, rfl⟩ | ⟨-, rfl⟩ <;> simp
      rw [Node.returns, hany]
      rcases hform with rfl | rfl <;> rfl
    | constantFolding =>
      obtain ⟨v, s, a, rfl⟩ := Rule.constantFolding_constant h
      cases hm
    | countedLoop =>
      obtain ⟨text, span, setup, test, step, body, loop, rfl, -, rfl⟩ := Rule.countedLoop_eq_some h
      have hbody : body.returns = true := by simpa [Node.returns, Node.returnsAny] using hm
      simp [Node.returns, Node.returnsAny, hbody]
  | @child a n m pre post _ ha ih =>
    have hany : Node.returnsAny (pre ++ m :: post) = true → Node.returnsAny a.children = true := by
      rw [Node.returnsAny_iff, Node.returnsAny_iff, ha]
      rintro ⟨c, hc, hr⟩
      rcases List.mem_append.1 hc with hc | hc
      · exact ⟨c, List.mem_append.2 (.inl hc), hr⟩
      · rcases List.mem_cons.1 hc with rfl | hc
        · exact ⟨n, by simp, ih hr⟩
        · exact ⟨c, by simp [hc], hr⟩
    cases a with
    | construct form text span ns =>
      simp only [Node.withChildren, Node.returns, Bool.or_eq_true, Bool.and_eq_true] at hm ⊢
      exact hm.imp id fun h => ⟨h.1, hany h.2⟩
    | constant => exact hany hm
    | counted => exact hany hm

theorem Rewrites.returnsApart (h : Rewrites p n m) (hn : n.ReturnsApart) : m.ReturnsApart := by
  intro b hb hform
  obtain ⟨a, ha, hab⟩ := h.parts hb
  cases hab with
  | @below _ ms hms =>
    have hret : a.isForm .returned = true := by cases a <;> exact hform
    rw [Node.children_withChildren, Bool.eq_false_iff]
    intro hany
    obtain ⟨c, hc, hr⟩ := Node.returnsAny_iff.1 hany
    obtain ⟨k, hk, hkc⟩ := mem_near hms hc
    have hkr : k.returns = true := by
      cases hkc with
      | refl => exact hr
      | single h => exact h.returns hr
    exact Bool.eq_false_iff.1 (hn a ha hret) (Node.returnsAny_iff.2 ⟨k, hk, hkr⟩)
  | _ => cases hform

/-! ### Walks lead to normal trees -/

/-- To a construct only the rule for it may apply. -/
theorem Pass.rule_construct (h : form.pass? ≠ some pass) : pass.rule (.construct form text span ns) = none := by
  cases hr : pass.rule (.construct form text span ns) with
  | none => rfl
  | some m =>
    obtain ⟨_, _, _, _, he, hf⟩ := Pass.rule_eq_some hr
    cases he
    exact absurd hf h

/-- A second return at the end of a function would have to stand inside of the first one. -/
theorem trailingReturn_dropped {s t : String} {a b : Span} {pre init : List Node} {e : Node}
    (h : (Node.construct .definition text span
      (pre ++ [.construct .block s a (init ++ [.construct .returned t b [e]])])).ReturnsApart) :
    Rule.trailingReturn (.construct .definition text span (pre ++ [.construct .block s a (init ++ [e])])) = none := by
  cases hrule : Rule.trailingReturn (.construct .definition text span (pre ++ [.construct .block s a (init ++ [e])])) with
  | none => rfl
  | some k =>
    obtain ⟨_, _, pre', s', a', init', t', b', e', he, -⟩ := Rule.trailingReturn_eq_some hrule
    injection he with _ _ _ he
    have hlast := (List.append_inj' he rfl).2
    injection hlast with hlast
    injection hlast with _ _ _ hlast
    obtain rfl : e = .construct .returned t' b' [e'] := List.singleton_inj.1 (List.append_inj' hlast rfl).2
    have hblock := h.part (Node.mem_parts_child (List.mem_append.2 (.inr (.head _))))
    cases hblock _ (Node.mem_parts_child (List.mem_append.2 (.inr (.head _)))) rfl

/-- A block that gives way without its return would have given way while the return was in it. -/
theorem loneBlock_dropped {t : String} {b : Span} {init : List Node} {e : Node}
    (h : Rule.loneBlock (.construct .block text span (init ++ [.construct .returned t b [e]])) = none) :
    Rule.loneBlock (.construct .block text span (init ++ [e])) = none := by
  cases hrule : Rule.loneBlock (.construct .block text span (init ++ [e])) with
  | none => rfl
  | some k =>
    obtain ⟨_, _, he, hdeclares⟩ := Rule.loneBlock_eq_some hrule
    injection he with _ _ _ he
    have he : init ++ [e] = [] ++ [k] := he
    obtain ⟨rfl, he⟩ := List.append_inj' he rfl
    obtain rfl := List.singleton_inj.1 he
    have hreturned : Rule.declaresAny [.construct .returned t b [e]] = false := by
      simpa [Rule.declaresAny, Rule.declares, Node.isForm, Node.kind] using hdeclares
    rw [List.nil_append, Rule.loneBlock, hreturned] at h
    cases h

/-- What a rule makes of a node over normal trees is normal. -/
theorem normal_rule (hc : ∀ c ∈ n.children, c.Normal q) (hapart : .trailingReturn ∈ q → n.ReturnsApart)
    (h : pass.rule n = some m) : m.Normal q := by
  refine rule_forall_parts h hc ?_ ?_ ?_
  · rintro text span pre s a init t b e rfl
    refine ⟨fun r hr => ?_, fun r hr => ?_⟩
    · by_cases hreturn : r = .trailingReturn
      · subst hreturn
        exact trailingReturn_dropped (hapart hr)
      · exact Pass.rule_construct fun h => hreturn (Option.some.inj h).symm
    · by_cases hlone : r = .loneBlock
      · subst hlone
        exact loneBlock_dropped ((Node.normal_iff.1 (hc _ (List.mem_append.2 (.inr (.head _))))).1 _ hr)
      · exact Pass.rule_construct fun h => hlone (Option.some.inj h).symm
  · exact fun v s a r _ => by cases r <;> rfl
  · rintro text span setup test step body loop rfl - r -
    cases r <;> rfl

/-- A node over normal trees that goes through passes comes out normal, if all passes asked for that it has
yet to go through are among these. -/
theorem normal_apply (hc : ∀ c ∈ n.children, c.Normal q) (hapart : .trailingReturn ∈ q → n.ReturnsApart) :
    (∀ r ∈ q, r ∉ p → r.rule n = none) → (p.apply n).1.Normal q := by
  induction p generalizing n with
  | nil => exact fun hn => Node.normal_iff.2 ⟨fun r hr => hn r hr nofun, hc⟩
  | cons pass p ih =>
    intro hn
    rw [Pipeline.apply]
    cases h : pass.rule n with
    | none =>
      refine ih hc hapart fun r hr hrp => ?_
      by_cases hpass : r = pass
      · exact hpass ▸ h
      · exact hn r hr (by simp [hpass, hrp])
    | some m =>
      have hm := Node.normal_iff.1 (normal_rule hc hapart h)
      exact ih hm.2 (fun hq => Rewrites.returnsApart (p := [pass]) (.root (.head _) h) (hapart hq))
        fun r hr _ => hm.1 r hr

/-- A walk leaves a tree that is normal under its passes; for trailing returns this takes that no return
stands inside of another. -/
theorem normal_walk (hq : q ⊆ p) (n : Node) (hapart : .trailingReturn ∈ q → n.ReturnsApart) :
    (p.walk n).tree.Normal q := by
  induction n using Node.induction with
  | step n ih =>
    rw [Pipeline.walk_eq]
    refine normal_apply (fun c hc => ?_) (fun hq => below_keeps (fun _ _ => Rewrites.returnsApart) (hapart hq))
      fun r hr hrp => absurd (hq hr) hrp
    rw [Pipeline.children_below] at hc
    obtain ⟨k, hk, rfl⟩ := List.mem_map.1 hc
    exact ih k hk fun hq => (hapart hq).part (Node.mem_parts_child hk)

end ScriptTree

import ScriptTree.Proofs.Optimize.Likeness
import ScriptTree.Proofs.Optimize.Normal

/-!
Walking twice. All that a second walk with the same passes can still do is to drop the returns that stood
inside of returns. This happens inside of definitions, and no other rule looks there: trees that differ
inside of definitions only are the same to it.
-/

namespace ScriptTree

variable {p q : Pipeline} {pass : Pass} {k n m : Node} {ns ms : List Node}

/-! ### Inside of definitions -/

/-- Trees that differ inside of definitions only. -/
inductive AlikeOutside : Node → Node → Prop
  | definition {text : String} {span : Span} {ns ms : List Node} :
    AlikeOutside (.construct .definition text span ns) (.construct .definition text span ms)
  | construct {form : Form} {text : String} {span : Span} {ns ms : List Node}
    (h : List.Forall₂ AlikeOutside ns ms) :
    AlikeOutside (.construct form text span ns) (.construct form text span ms)
  | constant {value : Literal} {text : String} {span : Span} {ns ms : List Node}
    (h : List.Forall₂ AlikeOutside ns ms) :
    AlikeOutside (.constant value text span ns) (.constant value text span ms)
  | counted {loop : CountedLoop} {generic : Node} {text : String} {span : Span} {ns ms : List Node}
    (h : List.Forall₂ AlikeOutside ns ms) :
    AlikeOutside (.counted loop generic text span ns) (.counted loop generic text span ms)

theorem AlikeOutside.kind (h : AlikeOutside n m) : n.kind = m.kind := by
  cases h <;> rfl

theorem AlikeOutside.text (h : AlikeOutside n m) : n.text = m.text := by
  cases h <;> rfl

theorem AlikeOutside.withChildren (h : List.Forall₂ AlikeOutside n.children ms) :
    AlikeOutside n (n.withChildren ms) := by
  cases n with
  | construct => exact .construct h
  | constant => exact .constant h
  | counted => exact .counted h

mutual

/-- A definition binds its name, whatever is inside of it. -/
theorem AlikeOutside.declares : ∀ {n m : Node}, AlikeOutside n m → Rule.declares n = Rule.declares m
  | _, _, .definition => by simp [Rule.declares]
  | _, _, .construct h => by rw [Rule.declares, Rule.declares, AlikeOutside.declaresAny h]
  | _, _, .constant h => by rw [Rule.declares, Rule.declares, AlikeOutside.declaresAny h]
  | _, _, .counted _ => rfl

theorem AlikeOutside.declaresAny : ∀ {ns ms : List Node}, List.Forall₂ AlikeOutside ns ms →
    Rule.declaresAny ns = Rule.declaresAny ms
  | _, _, .nil => rfl
  | _, _, .cons h hs => by
    rw [Rule.declaresAny, Rule.declaresAny, AlikeOutside.declares h, AlikeOutside.declaresAny hs, Node.isForm,
      Node.isForm, h.kind]

end

theorem AlikeOutside.refl (n : Node) : AlikeOutside n n := by
  induction n using Node.induction with
  | step n ih =>
    have h := AlikeOutside.withChildren (List.forall₂_same.2 ih)
    rwa [Node.withChildren_children] at h

/-- All constructs but definitions can be seen from outside. -/
theorem alikeOutside_likeness : Likeness (· ≠ .definition) AlikeOutside where
  construct hform h := by
    cases h with
    | definition => exact absurd rfl hform
    | construct h => exact ⟨_, rfl, h⟩
  constant h := by
    cases h
    exact ⟨_, rfl⟩
  declares h := ⟨by rw [Node.isForm, Node.isForm, h.kind], h.declares⟩
  build := .construct
  leaf _ _ _ := .refl _

/-- Only the rule for trailing returns looks inside of definitions. -/
theorem AlikeOutside.rule (h : AlikeOutside n m) (hpass : pass ≠ .trailingReturn) (hn : pass.rule n = none) :
    pass.rule m = none := by
  by_contra hm
  obtain ⟨k, hm⟩ := Option.ne_none_iff_exists'.1 hm
  have hseen : ∀ f ∈ pass.forms, f ≠ .definition := by
    cases pass with
    | trailingReturn => exact absurd rfl hpass
    | _ => decide
  have hl : ∃ l, pass.rule n = some l := by
    by_cases hloop : pass = .countedLoop
    · subst hloop
      exact alikeOutside_likeness.countedLoop hseen (fun _ _ => AlikeOutside.text) h hm
    · exact (alikeOutside_likeness.rule hloop hseen h hm).imp fun _ h => h.1
  obtain ⟨l, hl⟩ := hl
  rw [hn] at hl
  cases hl

/-! ### A second walk -/

/-- A definition that ends in a block that ends in a return with a value. -/
inductive Node.EndsInReturn : Node → Prop
  | mk {text s t : String} {span a b : Span} {pre init : List Node} {e : Node} :
    EndsInReturn (.construct .definition text span
      (pre ++ [.construct .block s a (init ++ [.construct .returned t b [e]])]))

theorem trailingReturn_eq_none_iff : Rule.trailingReturn n = none ↔ ¬n.EndsInReturn := by
  constructor
  · rintro h ⟨⟩
    simp [Rule.trailingReturn, Node.isForm, Node.kind, Node.last?, Node.children] at h
  · intro h
    cases hm : Rule.trailingReturn n with
    | none => rfl
    | some m =>
      obtain ⟨_, _, _, _, _, _, _, _, _, rfl, -⟩ := Rule.trailingReturn_eq_some hm
      exact absurd .mk h

/-- Passes of which only the one for trailing returns applies take steps inside of definitions only. -/
theorem apply_again (hk : ∀ r ∈ p, r ≠ .trailingReturn → r.rule k = none) :
    ∀ {n : Node}, AlikeOutside k n →
      AlikeOutside k (p.apply n).1 ∧ ∀ s ∈ (p.apply n).2, s.pass = .trailingReturn := by
  induction p with
  | nil => exact fun h => ⟨h, nofun⟩
  | cons pass p ih =>
    intro n h
    have ih := fun {n : Node} => @ih (fun r hr => hk r (.tail _ hr)) n
    rw [Pipeline.apply]
    cases hm : pass.rule n with
    | none => exact ih h
    | some m =>
      have hpass : pass = .trailingReturn := by
        by_contra hne
        rw [h.rule hne (hk pass (.head _) hne)] at hm
        cases hm
      subst hpass
      obtain ⟨text, span, pre, s, a, init, t, b, e, rfl, rfl⟩ := Rule.trailingReturn_eq_some hm
      have hdef : AlikeOutside k (.construct .definition text span (pre ++ [.construct .block s a (init ++ [e])])) := by
        cases h <;> exact .definition
      obtain ⟨halike, hsteps⟩ := ih hdef
      refine ⟨halike, fun x hx => ?_⟩
      rcases List.mem_cons.1 hx with rfl | hx
      · rfl
      · exact hsteps x hx

/-- A walk of a tree that is normal but for trailing returns changes it inside of definitions only. -/
theorem walk_again (n : Node) (h : n.Normal (p.filter (· ≠ .trailingReturn))) :
    AlikeOutside n (p.walk n).tree ∧ ∀ s ∈ (p.walk n).steps, s.pass = .trailingReturn := by
  induction n using Node.induction with
  | step n ih =>
    obtain ⟨hn, hc⟩ := Node.normal_iff.1 h
    have ih := fun c hmem => ih c hmem (hc c hmem)
    have hbelow : AlikeOutside n (p.below n) := by
      refine .withChildren (List.forall₂_map_right_iff.2 (List.forall₂_same.2 fun c hmem => (ih c hmem).1))
    have happly := apply_again (p := p) (k := n) (fun r hr hne => hn r (by simp [hr, hne])) hbelow
    rw [Pipeline.walk_eq]
    refine ⟨happly.1, fun s hs => ?_⟩
    rcases List.mem_append.1 hs with hs | hs
    · obtain ⟨c, hmem, hs⟩ := List.mem_flatMap.1 hs
      exact (ih c hmem).2 s hs
    · exact happly.2 s hs

/-- A second walk with the same passes takes no steps but those for trailing returns, and it takes no step and
gives back the tree just if the tree has no definition that ends in a return. -/
theorem second_walk (p : Pipeline) (n : Node) :
    let w := (p.walk n).tree
    (∀ s ∈ (p.walk w).steps, s.pass = .trailingReturn) ∧
      ((p.walk w).steps = [] ∧ (p.walk w).tree = w ↔
        (.trailingReturn ∈ p → ∀ a ∈ w.parts, ¬a.EndsInReturn)) := by
  intro w
  have hw : w.Normal (p.filter (· ≠ .trailingReturn)) :=
    normal_walk (List.filter_subset_self p) n fun h => by simp at h
  refine ⟨(walk_again w hw).2, fun h hp a ha => ?_, fun h => ?_⟩
  · exact trailingReturn_eq_none_iff.1 ((walk_steps_eq_nil_iff w).1 h.1 a ha .trailingReturn hp)
  · have hnormal : w.Normal p := by
      intro a ha r hr
      by_cases hret : r = .trailingReturn
      · subst hret
        exact trailingReturn_eq_none_iff.2 (h hr a ha)
      · exact hw a ha r (by simp [hr, hret])
    exact (walk_of_normal w hnormal).symm

end ScriptTree

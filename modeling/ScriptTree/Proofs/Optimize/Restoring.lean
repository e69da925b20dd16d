import ScriptTree.Proofs.Optimize.Likeness
import ScriptTree.Proofs.Optimize.Normal
import ScriptTree.Proofs.Tree.Writable

/-!
Walked trees with their native loops restored. No rule looks at a loop but the one that makes it native, so the
other rules find the same around a native loop as around the loop it stands for. A walk and restoring after it
come to the same as the walk without native loops.
-/

namespace ScriptTree

variable {p : Pipeline} {pass : Pass} {k n m : Node} {ns ms : List Node}

/-- A tree and what it is with its native loops restored; these keep loops. -/
inductive RestoresTo : Node → Node → Prop
  | construct {form : Form} {text : String} {span : Span} {ns ms : List Node} (h : List.Forall₂ RestoresTo ns ms) :
    RestoresTo (.construct form text span ns) (.construct form text span ms)
  | constant {value : Literal} {text : String} {span : Span} {ns ms : List Node} (h : List.Forall₂ RestoresTo ns ms) :
    RestoresTo (.constant value text span ns) (.constant value text span ms)
  | counted {loop : CountedLoop} {text s : String} {span a : Span} {ks ns ms : List Node}
    (h : RestoresTo (.construct .forLoop text span ks) (.construct .forLoop text span ms)) :
    RestoresTo (.counted loop (.construct .forLoop text span ks) s a ns) (.construct .forLoop text span ms)

namespace RestoresTo

mutual

theorem restored : ∀ {n m : Node}, RestoresTo n m → n.restored = m
  | _, _, .construct h => by rw [Node.restored, restoredAll h]
  | _, _, .constant h => by rw [Node.restored, restoredAll h]
  | _, _, .counted h => by
    rw [Node.restored]
    exact restored h

theorem restoredAll : ∀ {ns ms : List Node}, List.Forall₂ RestoresTo ns ms → Node.restoredAll ns = ms
  | _, _, .nil => rfl
  | _, _, .cons h hs => by rw [Node.restoredAll, restored h, restoredAll hs]

end

theorem isForm (h : RestoresTo n m) (form : Form) (hform : form ≠ .forLoop) : n.isForm form = m.isForm form := by
  cases h with
  | construct => rfl
  | constant => rfl
  | counted => simp [Node.isForm, Node.kind, hform.symm]

mutual

/-- A native loop is searched for names as the loop it stands for. -/
theorem declares : ∀ {n m : Node}, RestoresTo n m → Rule.declares n = Rule.declares m
  | _, _, .construct h => by rw [Rule.declares, Rule.declares, declaresAny h]
  | _, _, .constant h => by rw [Rule.declares, Rule.declares, declaresAny h]
  | _, _, .counted h => by
    rw [Rule.declares]
    exact declares h

theorem declaresAny : ∀ {ns ms : List Node}, List.Forall₂ RestoresTo ns ms → Rule.declaresAny ns = Rule.declaresAny ms
  | _, _, .nil => rfl
  | _, _, .cons h hs => by
    rw [Rule.declaresAny, Rule.declaresAny, declares h, declaresAny hs, h.isForm .block nofun]

end

/-- All constructs but loops can be seen, before as after. -/
theorem likeness : Likeness (· ≠ .forLoop) RestoresTo where
  construct hform h := by
    cases h with
    | construct h => exact ⟨_, rfl, h⟩
    | counted => exact absurd rfl hform
  constant h := by
    cases h
    exact ⟨_, rfl⟩
  declares h := ⟨h.isForm .block nofun, h.declares⟩
  build := .construct
  leaf _ _ _ := .constant .nil

theorem likeness_flip : Likeness (· ≠ .forLoop) fun m n => RestoresTo n m where
  construct _ h := by
    cases h with
    | construct h => exact ⟨_, rfl, h.flip⟩
  constant h := by
    cases h
    exact ⟨_, rfl⟩
  declares h := ⟨(h.isForm .block nofun).symm, h.declares.symm⟩
  build h := .construct h.flip
  leaf _ _ _ := .constant .nil

end RestoresTo

/-- A node goes through the passes as what it is restored to goes through those that leave loops alone. -/
theorem RestoresTo.apply : ∀ {p : Pipeline} {n m : Node}, RestoresTo n m →
    RestoresTo (p.apply n).1 (Pipeline.apply (p.filter (· ≠ .countedLoop)) m).1
  | [], _, _, h => h
  | pass :: p, n, m, h => by
    by_cases hpass : pass = .countedLoop
    · subst hpass
      rw [List.filter_cons_of_neg (by simp), Pipeline.apply]
      cases hn : Pass.countedLoop.rule n with
      | none => exact RestoresTo.apply h
      | some k =>
        obtain ⟨text, span, setup, test, step, body, loop, rfl, -, rfl⟩ := Rule.countedLoop_eq_some hn
        cases h with
        | construct h => exact RestoresTo.apply (.counted (.construct h))
    · have hseen : ∀ f ∈ pass.forms, f ≠ .forLoop := by
        cases pass with
        | countedLoop => exact absurd rfl hpass
        | _ => decide
      rw [List.filter_cons_of_pos (by simp [hpass]), Pipeline.apply, Pipeline.apply]
      cases hn : pass.rule n with
      | some k =>
        obtain ⟨l, hl, hkl⟩ := RestoresTo.likeness_flip.rule hpass hseen h hn
        rw [hl]
        exact RestoresTo.apply hkl
      | none =>
        have hm : pass.rule m = none := by
          by_contra hm
          obtain ⟨l, hl⟩ := Option.ne_none_iff_exists'.1 hm
          obtain ⟨k, hk, -⟩ := RestoresTo.likeness.rule hpass hseen h hl
          rw [hn] at hk
          cases hk
        rw [hm]
        exact RestoresTo.apply h

/-- A walk with its native loops restored is the walk without the pass for them. -/
theorem walk_restoresTo (n : Node) (hn : n.Generic) :
    RestoresTo (p.walk n).tree (Pipeline.walk (p.filter (· ≠ .countedLoop)) n).tree := by
  induction n using Node.induction with
  | step n ih =>
    rw [Pipeline.walk_eq, Pipeline.walk_eq]
    refine RestoresTo.apply ?_
    have hchildren : List.Forall₂ RestoresTo (n.children.map fun c => (p.walk c).tree)
        (n.children.map fun c => (Pipeline.walk (p.filter (· ≠ .countedLoop)) c).tree) :=
      List.forall₂_map_left_iff.2 (List.forall₂_map_right_iff.2 (List.forall₂_same.2 fun c hc =>
        ih c hc (hn.part (Node.mem_parts_child hc))))
    cases n with
    | construct => exact .construct hchildren
    | constant => exact .constant hchildren
    | counted => exact absurd rfl (hn _ (Node.mem_parts_self _))

end ScriptTree

import ScriptTree.Proofs.Tree.Spans
import Mathlib.Data.List.Forall2

/-!
Trees that match. What runs looks at the constructs and the texts of a tree, at the data of its constants and at
how far its native loops count. It does not look at spans, at the loop that a native loop keeps, or at whether the
int of a constant is held by reference.
-/

namespace ScriptTree.Node

/-- Trees that are the same in whatever a run looks at. -/
inductive Matches : Node → Node → Prop
  | construct {form : Form} {text : String} {a b : Span} {ns ms : List Node} (h : List.Forall₂ Matches ns ms) :
    Matches (.construct form text a ns) (.construct form text b ms)
  | constant {u v : Literal} {text : String} {a b : Span} {ns ms : List Node} (hd : u.datum = v.datum)
    (h : List.Forall₂ Matches ns ms) : Matches (.constant u text a ns) (.constant v text b ms)
  | counted {loop : CountedLoop} {g g' : Node} {text : String} {a b : Span} {ns ms : List Node}
    (h : List.Forall₂ Matches ns ms) : Matches (.counted loop g text a ns) (.counted loop g' text b ms)

namespace Matches

variable {n m : Node} {ns ms : List Node} {φ : Span → Span}

theorem kind (h : n.Matches m) : n.kind = m.kind := by
  cases h <;> rfl

theorem text (h : n.Matches m) : n.text = m.text := by
  cases h <;> rfl

theorem children (h : n.Matches m) : List.Forall₂ Matches n.children m.children := by
  cases h <;> assumption

theorem isForm (h : n.Matches m) (form : Form) : n.isForm form = m.isForm form := by
  rw [Node.isForm, Node.isForm, h.kind]

theorem declaredName (h : n.Matches m) : n.declaredName = m.declaredName := by
  have hc := h.children
  unfold Node.declaredName
  generalize n.children = ns at hc
  generalize m.children = ms at hc
  cases hc with
  | nil => exact h.text
  | cons hfirst => exact hfirst.text

theorem parametersOf (h : List.Forall₂ Matches ns ms) : Node.parametersOf ns = Node.parametersOf ms := by
  rcases h with _ | ⟨-, _ | ⟨hlist, _ | ⟨-, -⟩⟩⟩
  · rfl
  · rfl
  · rfl
  · rename_i list list' _ _ _ _
    have hnames : List.Forall₂ Eq (list.children.map Node.declaredName) (list'.children.map Node.declaredName) :=
      List.forall₂_map_left_iff.2 (List.forall₂_map_right_iff.2 (hlist.children.imp fun _ _ h => h.declaredName))
    rw [List.forall₂_eq_eq_eq] at hnames
    rw [Node.parametersOf, Node.parametersOf, hlist.isForm, hnames]

mutual

/-- Spans do not matter. -/
theorem mapSpan (φ : Span → Span) : ∀ n : Node, n.Matches (n.mapSpan φ)
  | .construct _ _ _ ns => .construct (mapSpanAll φ ns)
  | .constant _ _ _ ns => .constant rfl (mapSpanAll φ ns)
  | .counted _ _ _ _ ns => .counted (mapSpanAll φ ns)

theorem mapSpanAll (φ : Span → Span) : ∀ ns : List Node, List.Forall₂ Matches ns (Node.mapSpanAll φ ns)
  | [] => .nil
  | n :: ns => .cons (mapSpan φ n) (mapSpanAll φ ns)

end

theorem refl (n : Node) : n.Matches n := by
  have h := mapSpan id n
  rwa [mapSpan_id] at h

end Matches

end ScriptTree.Node

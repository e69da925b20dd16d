import ScriptTree.Eval.Basic

/-!
Trees that differ in their spans only. Their kinds and texts are the same, and their children differ in their spans
only.
-/

namespace ScriptTree.Node

variable {φ : Span → Span}

mutual

def mapSpan (φ : Span → Span) : Node → Node
  | .construct form text span children => .construct form text (φ span) (mapSpanAll φ children)
  | .constant value text span children => .constant value text (φ span) (mapSpanAll φ children)
  | .counted loop generic text span children =>
    .counted loop (mapSpan φ generic) text (φ span) (mapSpanAll φ children)

def mapSpanAll (φ : Span → Span) : List Node → List Node
  | [] => []
  | n :: ns => mapSpan φ n :: mapSpanAll φ ns

end

theorem mapSpanAll_eq (φ : Span → Span) (ns : List Node) : mapSpanAll φ ns = ns.map (mapSpan φ) := by
  induction ns with
  | nil => rfl
  | cons n ns ih => rw [mapSpanAll, ih, List.map_cons]

mutual

theorem mapSpan_id : ∀ n : Node, n.mapSpan id = n
  | .construct _ _ _ children => by rw [mapSpan, mapSpanAll_id children, id]
  | .constant _ _ _ children => by rw [mapSpan, mapSpanAll_id children, id]
  | .counted _ generic _ _ children => by rw [mapSpan, mapSpan_id generic, mapSpanAll_id children, id]

theorem mapSpanAll_id : ∀ ns : List Node, mapSpanAll id ns = ns
  | [] => rfl
  | n :: ns => by rw [mapSpanAll, mapSpan_id n, mapSpanAll_id ns]

end

@[simp] theorem kind_mapSpan (n : Node) : (n.mapSpan φ).kind = n.kind := by
  cases n <;> rfl

@[simp] theorem text_mapSpan (n : Node) : (n.mapSpan φ).text = n.text := by
  cases n <;> rfl

@[simp] theorem isForm_mapSpan (n : Node) (form : Form) : (n.mapSpan φ).isForm form = n.isForm form := by
  rw [isForm, isForm, kind_mapSpan]

theorem children_mapSpan (n : Node) : (n.mapSpan φ).children = n.children.map (mapSpan φ) := by
  rw [← mapSpanAll_eq]
  cases n <;> rfl

end ScriptTree.Node

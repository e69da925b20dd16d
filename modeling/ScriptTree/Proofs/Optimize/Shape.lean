import ScriptTree.Proofs.Optimize.Rewriting
import ScriptTree.Eval.Basic

/-!
Trees of the shape that a parser gives them. Constructs have the children they are meant to have, and
where a name is wanted there is a name: rewriting keeps this, and it keeps the names that a tree binds.
Without it a rewriting below such a place would put another name there.
-/

namespace ScriptTree

namespace Node

def isBareName : Node → Bool
  | .construct .identifier _ _ [] => true
  | _ => false

/-- Something that can be called: a name, the result of a call, or a constant. -/
def isCallee (n : Node) : Bool :=
  n.isForm .identifier || n.isForm .call || n.kind == .constant

/-- Whether a construct has children as a parser gives them. -/
def fitsForm (form : Form) (text : String) (children : List Node) : Bool :=
  match form with
  | .definition => match children with
    | [name, _] => name.isForm .identifier
    | [name, list, _] =>
      name.isForm .identifier && list.isForm .argumentList && list.children.all isBareName
    | _ => false
  | .declaration => match children with
    | [name] => name.isForm .identifier
    | _ => false
  | .equation => match children with
    | [target, _] => target.isForm .identifier || target.isForm .declaration
    | _ => false
  | .prefixed => match children with
    | [operand] => !(text == "++" || text == "--") || operand.isForm .identifier
    | _ => false
  | .call => match children with
    | [callee] => callee.isCallee
    | [callee, list] => callee.isCallee && list.isForm .argumentList
    | _ => false
  | .binary | .whileLoop => children.length == 2
  | .conditional | .ternary => children.length == 2 || children.length == 3
  | .forLoop => children.length == 4
  | .returned => children.length ≤ 1
  | _ => true

/-- A definition has a name, its parameters if it has any, and a body. -/
theorem fitsForm_definition {text : String} {ns : List Node} : fitsForm .definition text ns = true ↔
    (∃ name body, ns = [name, body] ∧ name.isForm .identifier = true) ∨
      ∃ name list body, ns = [name, list, body] ∧ name.isForm .identifier = true ∧
        list.isForm .argumentList = true ∧ list.children.all isBareName = true := by
  rcases ns with _ | ⟨_, _ | ⟨_, _ | ⟨_, _ | ⟨_, _⟩⟩⟩⟩ <;> simp [fitsForm, and_assoc]

theorem fitsForm_declaration {text : String} {ns : List Node} :
    fitsForm .declaration text ns = true ↔ ∃ name, ns = [name] ∧ name.isForm .identifier = true := by
  rcases ns with _ | ⟨_, _ | ⟨_, _⟩⟩ <;> simp [fitsForm]

theorem fitsForm_equation {text : String} {ns : List Node} : fitsForm .equation text ns = true ↔
    ∃ target value, ns = [target, value] ∧
      (target.isForm .identifier = true ∨ target.isForm .declaration = true) := by
  rcases ns with _ | ⟨_, _ | ⟨_, _ | ⟨_, _⟩⟩⟩ <;> simp [fitsForm]

theorem fitsForm_prefixed {text : String} {ns : List Node} : fitsForm .prefixed text ns = true ↔
    ∃ operand, ns = [operand] ∧ (text = "++" ∨ text = "--" → operand.isForm .identifier = true) := by
  rcases ns with _ | ⟨_, _ | ⟨_, _⟩⟩
  · simp [fitsForm]
  · simp [fitsForm, ← not_or, imp_iff_not_or]
  · simp [fitsForm]

theorem fitsForm_call {text : String} {ns : List Node} : fitsForm .call text ns = true ↔
    (∃ callee, ns = [callee] ∧ callee.isCallee = true) ∨
      ∃ callee list, ns = [callee, list] ∧ callee.isCallee = true ∧ list.isForm .argumentList = true := by
  rcases ns with _ | ⟨_, _ | ⟨_, _ | ⟨_, _⟩⟩⟩ <;> simp [fitsForm]

/-- Whether a node has children as a parser gives them. -/
def fits : Node → Bool
  | .construct form text _ children => fitsForm form text children
  | _ => true

/-- Every node of the tree has children as a parser gives them. -/
def WellShaped (n : Node) : Prop := ∀ a ∈ n.parts, a.fits = true

instance (n : Node) : Decidable n.WellShaped := inferInstanceAs (Decidable (∀ a ∈ n.parts, a.fits = true))

/-- The names that the node itself binds: a declaration's, a definition's and those of its parameters,
and the counter of a native loop. -/
def binders : Node → List String
  | .construct .declaration text span children => [declaredName (.construct .declaration text span children)]
  | .construct .definition _ _ (name :: rest) => name.text :: parametersOf (name :: rest)
  | .counted loop .. => [loop.counter]
  | _ => []

/-- The name that a declaration introduces. -/
def declares : Node → List String
  | .construct .declaration text span children => [declaredName (.construct .declaration text span children)]
  | _ => []

/-- The name of the function that a definition binds. -/
def defines : Node → List String
  | .construct .definition _ _ (name :: _) => [name.text]
  | _ => []

/-- What the nodes of a tree have, taken together. -/
def collect {α : Type} (f : Node → List α) (n : Node) : List α := n.parts.flatMap f

theorem mem_collect {α : Type} {f : Node → List α} {n : Node} {x : α} :
    x ∈ n.collect f ↔ ∃ a ∈ n.parts, x ∈ f a :=
  List.mem_flatMap

theorem collect_part {α : Type} (f : Node → List α) {n m : Node} (hm : m ∈ n.parts) :
    m.collect f ⊆ n.collect f := by
  intro x hx
  obtain ⟨a, ha, hx⟩ := mem_collect.1 hx
  exact mem_collect.2 ⟨a, parts_trans ha hm, hx⟩

theorem WellShaped.part {n m : Node} (h : n.WellShaped) (hm : m ∈ n.parts) : m.WellShaped :=
  fun a ha => h a (parts_trans ha hm)

/-- The callee of a well-shaped call is a name, a call or a constant. -/
theorem WellShaped.callee {text : String} {span : Span} {ns : List Node} {callee : Node}
    (h : (construct .call text span ns).WellShaped) (hcallee : ns[0]? = some callee) : callee.isCallee = true := by
  have hfits : fitsForm .call text ns = true := h _ (mem_parts_self _)
  rcases fitsForm_call.1 hfits with ⟨_, rfl, hform⟩ | ⟨_, _, rfl, hform, -⟩
  · cases hcallee
    exact hform
  · cases hcallee
    exact hform

/-- A well-shaped call has its arguments in a list. -/
theorem WellShaped.arguments {text : String} {span : Span} {ns : List Node} {list : Node}
    (h : (construct .call text span ns).WellShaped) (hlist : ns[1]? = some list) :
    list.isForm .argumentList = true := by
  have hfits : fitsForm .call text ns = true := h _ (mem_parts_self _)
  rcases fitsForm_call.1 hfits with ⟨_, rfl, -⟩ | ⟨_, _, rfl, -, hform⟩
  · cases hlist
  · cases hlist
    exact hform

/-- The variable that a loop sets up is not the name of a function in the loop. -/
def keepsCounter : Node → Bool
  | .construct .forLoop text span (setup :: rest) =>
    (setup.collect declares).all fun x =>
      !((Node.construct .forLoop text span (setup :: rest)).collect defines).contains x
  | _ => true

/-- No loop of the tree has a function of the name of its own variable. -/
def KeepsCounters (n : Node) : Prop := ∀ a ∈ n.parts, a.keepsCounter = true

instance (n : Node) : Decidable n.KeepsCounters :=
  inferInstanceAs (Decidable (∀ a ∈ n.parts, a.keepsCounter = true))

end Node

variable {p : Pipeline} {n m : Node}

/-! ### Names stay where they are -/

/-- A construct that no rule applies to keeps form and text. -/
theorem Near.isForm {form : Form} (h : Near p n m) (hform : form.pass? = none)
    (hn : n.isForm form = true) : m.isForm form = true ∧ m.text = n.text ∧
      List.Forall₂ (Near p) n.children m.children := by
  obtain ⟨text, span, ns, rfl⟩ := Rule.isForm_eq hn
  obtain ⟨ms, rfl, hms⟩ := h.inert hform
  exact ⟨hn, rfl, hms⟩

theorem Near.isBareName (h : Near p n m) (hn : n.isBareName = true) : m = n := by
  unfold Node.isBareName at hn
  split at hn
  · obtain ⟨ms, rfl, hms⟩ := h.inert rfl
    cases hms
    rfl
  · cases hn

theorem Near.bareNames {ns ms : List Node} (h : List.Forall₂ (Near p) ns ms)
    (hns : ns.all Node.isBareName = true) : ms = ns := by
  induction h with
  | nil => rfl
  | cons h _ ih =>
    rw [List.all_cons, Bool.and_eq_true] at hns
    rw [h.isBareName hns.1, ih hns.2]

/-- A callee stays one, and it does not become a name. -/
theorem Near.isCallee (h : Near p n m) (hn : n.isCallee = true) :
    m.isCallee = true ∧ m.isForm .identifier = n.isForm .identifier := by
  unfold Node.isCallee at hn
  rw [Bool.or_eq_true, Bool.or_eq_true, beq_iff_eq] at hn
  rcases hn with (hn | hn) | hn
  · obtain ⟨hm, -, -⟩ := h.isForm (show Form.identifier.pass? = none from rfl) hn
    rw [hm, hn]
    exact ⟨by simp [Node.isCallee, hm], rfl⟩
  · obtain ⟨text, span, ns, rfl⟩ := Rule.isForm_eq hn
    cases h with
    | refl => exact ⟨rfl, rfl⟩
    | single h =>
      cases h with
      | child _ _ => exact ⟨rfl, rfl⟩
      | @root pass _ _ _ h =>
        obtain ⟨_, _, _, _, he, hpass⟩ := Pass.rule_eq_some h
        cases he
        cases hpass
        obtain ⟨v, s, a, rfl⟩ := Rule.constantFolding_constant h
        exact ⟨rfl, rfl⟩
  · cases n with
    | constant v s a ns =>
      cases h with
      | refl => exact ⟨rfl, rfl⟩
      | single h =>
        cases h with
        | child _ _ => exact ⟨rfl, rfl⟩
        | root _ h =>
          obtain ⟨_, _, _, _, he, -⟩ := Pass.rule_eq_some h
          cases he
    | construct => cases hn
    | counted => cases hn

/-! ### Rewriting keeps the shape -/

theorem fitsForm_near {form : Form} {text : String} {ns ms : List Node}
    (h : List.Forall₂ (Near p) ns ms) (hns : Node.fitsForm form text ns = true) :
    Node.fitsForm form text ms = true := by
  have hlen := h.length_eq
  cases form with
  | definition =>
    rcases Node.fitsForm_definition.1 hns with ⟨name, body, rfl, hname⟩ | ⟨name, list, body, rfl, hname, hlist, hbare⟩
    · obtain _ | ⟨h₁, _ | ⟨h₂, _ | _⟩⟩ := h
      exact (h₁.isForm rfl hname).1
    · obtain _ | ⟨h₁, _ | ⟨h₂, _ | ⟨h₃, _ | _⟩⟩⟩ := h
      obtain ⟨hlist', -, hsame⟩ := h₂.isForm rfl hlist
      exact Node.fitsForm_definition.2 (.inr ⟨_, _, _, rfl, (h₁.isForm rfl hname).1, hlist',
        Near.bareNames hsame hbare ▸ hbare⟩)
  | declaration =>
    obtain ⟨name, rfl, hname⟩ := Node.fitsForm_declaration.1 hns
    obtain _ | ⟨h₁, _ | _⟩ := h
    exact (h₁.isForm rfl hname).1
  | equation =>
    obtain ⟨target, value, rfl, htarget⟩ := Node.fitsForm_equation.1 hns
    obtain _ | ⟨h₁, _ | ⟨h₂, _ | _⟩⟩ := h
    exact Node.fitsForm_equation.2 ⟨_, _, rfl,
      htarget.imp (fun h => (h₁.isForm rfl h).1) fun h => (h₁.isForm rfl h).1⟩
  | prefixed =>
    obtain ⟨operand, rfl, hoperand⟩ := Node.fitsForm_prefixed.1 hns
    obtain _ | ⟨h₁, _ | _⟩ := h
    exact Node.fitsForm_prefixed.2 ⟨_, rfl, fun hop => (h₁.isForm rfl (hoperand hop)).1⟩
  | call =>
    rcases Node.fitsForm_call.1 hns with ⟨callee, rfl, hcallee⟩ | ⟨callee, list, rfl, hcallee, hlist⟩
    · obtain _ | ⟨h₁, _ | _⟩ := h
      exact (h₁.isCallee hcallee).1
    · obtain _ | ⟨h₁, _ | ⟨h₂, _ | _⟩⟩ := h
      exact Node.fitsForm_call.2 (.inr ⟨_, _, rfl, (h₁.isCallee hcallee).1, (h₂.isForm rfl hlist).1⟩)
  | binary | whileLoop | conditional | ternary | forLoop | returned =>
    simpa only [Node.fitsForm, hlen] using hns
  | _ => rfl

theorem Becomes.fits {a b : Node} (h : Becomes p a b) (ha : a.fits = true) : b.fits = true := by
  cases h with
  | @below _ ms h =>
    cases a with
    | construct form text span ns => exact fitsForm_near h ha
    | constant => rfl
    | counted => rfl
  | folded => rfl
  | @definition text s t span a b pre init e =>
    have hbody : Node.fitsForm .definition text
        (pre ++ [.construct .block s a (init ++ [.construct .returned t b [e]])]) = true := ha
    show Node.fitsForm .definition text (pre ++ [.construct .block s a (init ++ [e])]) = true
    match pre with
    | [] => cases hbody
    | [_] => exact hbody
    | [_, _] => exact hbody
    | [_, _, _] => cases hbody
    | _ :: _ :: _ :: _ :: _ => cases hbody
  | block => rfl
  | native => rfl

theorem Rewrites.wellShaped (h : Rewrites p n m) (hn : n.WellShaped) : m.WellShaped := by
  intro b hb
  obtain ⟨a, ha, hab⟩ := h.parts hb
  exact hab.fits (hn a ha)

/-- The names of a definition's parameters stay. -/
theorem parametersOf_near {ns ms : List Node} (h : List.Forall₂ (Near p) ns ms) {text : String}
    (hns : Node.fitsForm .definition text ns = true) : Node.parametersOf ms = Node.parametersOf ns := by
  rcases Node.fitsForm_definition.1 hns with ⟨name, body, rfl, -⟩ | ⟨name, list, body, rfl, -, hlist, hbare⟩
  · obtain _ | ⟨h₁, _ | ⟨h₂, _ | _⟩⟩ := h
    rfl
  · obtain _ | ⟨h₁, _ | ⟨h₂, _ | ⟨h₃, _ | _⟩⟩⟩ := h
    obtain ⟨hlist', -, hsame⟩ := h₂.isForm rfl hlist
    simp only [Node.parametersOf, hlist, hlist', Near.bareNames hsame hbare]

/-- The name that a declaration introduces stays. -/
theorem declaredName_near {text : String} {span : Span} {ns ms : List Node}
    (h : List.Forall₂ (Near p) ns ms) (hns : Node.fitsForm .declaration text ns = true) :
    Node.declaredName (.construct .declaration text span ms) =
      Node.declaredName (.construct .declaration text span ns) := by
  obtain ⟨name, rfl, hname⟩ := Node.fitsForm_declaration.1 hns
  obtain _ | ⟨h₁, _ | _⟩ := h
  exact (h₁.isForm rfl hname).2.1

/-- The name of a definition stays. -/
theorem definitionName_near {text : String} {a b : Node} {ns : List Node} (h : Near p a b)
    (hns : Node.fitsForm .definition text (a :: ns) = true) : b.text = a.text := by
  rcases Node.fitsForm_definition.1 hns with ⟨_, _, he, hname⟩ | ⟨_, _, _, he, hname, -⟩
  · cases he
    exact (h.isForm rfl hname).2.1
  · cases he
    exact (h.isForm rfl hname).2.1

theorem binders_near {form : Form} {text : String} {span : Span} {ns ms : List Node}
    (h : List.Forall₂ (Near p) ns ms) (hns : Node.fitsForm form text ns = true) :
    Node.binders (.construct form text span ms) = Node.binders (.construct form text span ns) := by
  cases form with
  | declaration =>
    have hname : Node.declaredName (.construct .declaration text span ms) =
      Node.declaredName (.construct .declaration text span ns) := declaredName_near h hns
    simp only [Node.binders, hname]
  | definition =>
    have hp := parametersOf_near h hns
    cases h with
    | nil => rfl
    | @cons a b ns ms h₁ h =>
      have hname := definitionName_near h₁ hns
      simp only [Node.binders, hp, hname]
  | _ => rfl

theorem declares_near {form : Form} {text : String} {span : Span} {ns ms : List Node}
    (h : List.Forall₂ (Near p) ns ms) (hns : Node.fitsForm form text ns = true) :
    Node.declares (.construct form text span ms) = Node.declares (.construct form text span ns) := by
  cases form with
  | declaration => exact congrArg (fun x => [x]) (declaredName_near h hns)
  | _ => rfl

theorem defines_near {form : Form} {text : String} {span : Span} {ns ms : List Node}
    (h : List.Forall₂ (Near p) ns ms) (hns : Node.fitsForm form text ns = true) :
    Node.defines (.construct form text span ms) = Node.defines (.construct form text span ns) := by
  cases form with
  | definition =>
    cases h with
    | nil => rfl
    | cons h₁ h => exact congrArg (fun x => [x]) (definitionName_near h₁ hns)
  | _ => rfl

/-! ### Rewriting brings no new names -/

/-- What a rewritten tree has taken together it had before, if this holds of each node. -/
theorem Rewrites.collect {α : Type} {f : Node → List α} (h : Rewrites p n m) (hn : n.WellShaped)
    (hf : ∀ a b, Becomes p a b → a.fits = true → f b ⊆ a.collect f) : m.collect f ⊆ n.collect f := by
  intro x hx
  obtain ⟨b, hb, hx⟩ := Node.mem_collect.1 hx
  obtain ⟨a, ha, hab⟩ := h.parts hb
  exact Node.collect_part f ha (hf a b hab (hn a ha) hx)

theorem Node.collect_self {α : Type} (f : Node → List α) (n : Node) : f n ⊆ n.collect f :=
  fun _ hx => Node.mem_collect.2 ⟨n, n.mem_parts_self, hx⟩

theorem Becomes.binders {a b : Node} (h : Becomes p a b) (ha : a.fits = true) :
    b.binders ⊆ a.collect Node.binders := by
  cases h with
  | @below _ ms h =>
    cases a with
    | construct form text span ns =>
      rw [Node.withChildren, binders_near h ha]
      exact Node.collect_self _ _
    | constant => exact List.nil_subset _
    | counted loop g text span ns => exact Node.collect_self Node.binders (.counted loop g text span ns)
  | folded => exact List.nil_subset _
  | @definition text s t span a b pre init e =>
    refine List.Subset.trans (fun x hx => ?_) (Node.collect_self _ _)
    match pre with
    | [] => exact hx
    | [_] => exact hx
    | [_, _] => exact hx
    | [_, _, _] => cases ha
    | _ :: _ :: _ :: _ :: _ => cases ha
  | block => exact List.nil_subset _
  | @native text span setup test step body loop h =>
    -- the counter is the variable that the setup declares
    cases countingHead_of_countedHead? h with
    | @mk x s t u first limit a b c d e f g h ns ms ps ks ls name hname =>
      let setup : Node := .construct .equation "=" a [.construct .declaration s b (name :: ns),
        .constant (.plain (.number (.int first))) t c ms]
      have hdecl : .construct .declaration s b (name :: ns) ∈ setup.parts :=
        Node.mem_parts_child (n := setup) (.head _)
      refine List.Subset.trans ?_ (Node.collect_part _ (Node.mem_parts.2 (.inr ⟨setup, .head _, hdecl⟩)))
      rw [← hname]
      exact Node.collect_self Node.binders (.construct .declaration s b (name :: ns))

theorem Becomes.declares {a b : Node} (h : Becomes p a b) (ha : a.fits = true) :
    b.declares ⊆ a.collect Node.declares := by
  cases h with
  | @below _ ms h =>
    cases a with
    | construct form text span ns =>
      rw [Node.withChildren, declares_near h ha]
      exact Node.collect_self _ _
    | constant => exact List.nil_subset _
    | counted => exact List.nil_subset _
  | _ => exact List.nil_subset _

theorem Becomes.defines {a b : Node} (h : Becomes p a b) (ha : a.fits = true) :
    b.defines ⊆ a.collect Node.defines := by
  cases h with
  | @below _ ms h =>
    cases a with
    | construct form text span ns =>
      rw [Node.withChildren, defines_near h ha]
      exact Node.collect_self _ _
    | constant => exact List.nil_subset _
    | counted => exact List.nil_subset _
  | @definition text s t span a b pre init e =>
    refine List.Subset.trans (fun x hx => ?_) (Node.collect_self _ _)
    match pre with
    | [] => exact hx
    | _ :: _ => exact hx
  | _ => exact List.nil_subset _

theorem Near.collect {α : Type} {f : Node → List α} (h : Near p n m) (hn : n.WellShaped)
    (hf : ∀ a b, Becomes p a b → a.fits = true → f b ⊆ a.collect f) : m.collect f ⊆ n.collect f := by
  cases h with
  | refl => exact List.Subset.refl _
  | single h => exact h.collect hn hf

theorem mem_near {ns ms : List Node} (h : List.Forall₂ (Near p) ns ms) (hm : m ∈ ms) :
    ∃ n ∈ ns, Near p n m := by
  induction h with
  | nil => cases hm
  | cons h _ ih =>
    rcases List.mem_cons.1 hm with rfl | hm
    · exact ⟨_, .head _, h⟩
    · obtain ⟨n, hn, h⟩ := ih hm
      exact ⟨n, .tail _ hn, h⟩

/-- What the children of a node have, taken together, after rewritings below it. -/
theorem collect_near {α : Type} {f : Node → List α} {a : Node} {ms : List Node}
    (h : List.Forall₂ (Near p) a.children ms) (ha : a.WellShaped)
    (hf : ∀ a b, Becomes p a b → a.fits = true → f b ⊆ a.collect f) :
    (a.withChildren ms).collect f ⊆ a.collect f := by
  intro x hx
  obtain ⟨b, hb, hx⟩ := Node.mem_collect.1 hx
  rcases Node.mem_parts.1 hb with rfl | ⟨m, hm, hb⟩
  · exact hf a _ (.below h) (ha a a.mem_parts_self) hx
  · rw [Node.children_withChildren] at hm
    obtain ⟨n, hn, hnm⟩ := mem_near h hm
    have hpart : n ∈ a.parts := Node.mem_parts_child hn
    exact Node.collect_part f hpart (hnm.collect (ha.part hpart) hf (Node.mem_collect.2 ⟨b, hb, hx⟩))

/-- A loop that keeps its counter does so after a rewriting. -/
theorem Becomes.keepsCounter {a b : Node} (h : Becomes p a b) (ha : a.WellShaped)
    (hk : a.keepsCounter = true) : b.keepsCounter = true := by
  cases h with
  | @below _ ms h =>
    cases a with
    | construct form text span ns =>
      cases form with
      | forLoop =>
        have hdef := collect_near h ha fun _ _ => Becomes.defines
        cases h with
        | nil => rfl
        | @cons setup setup' rest rest' hsetup h =>
          have hdecl := hsetup.collect (ha.part (Node.mem_parts_child (.head _)))
            fun _ _ => Becomes.declares
          simp only [Node.keepsCounter, Node.withChildren, List.all_eq_true, Bool.not_eq_true',
            List.contains_eq_mem, decide_eq_false_iff_not] at hk hdef ⊢
          exact fun x hx hx' => hk x (hdecl hx) (hdef hx')
      | _ => rfl
    | constant => rfl
    | counted => rfl
  | _ => rfl

theorem Rewrites.keepsCounters (h : Rewrites p n m) (hn : n.WellShaped) (hk : n.KeepsCounters) :
    m.KeepsCounters := by
  intro b hb
  obtain ⟨a, ha, hab⟩ := h.parts hb
  exact hab.keepsCounter (hn.part ha) (hk a ha)

end ScriptTree

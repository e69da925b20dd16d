import ScriptTree.Proofs.Run.Calls
import ScriptTree.Proofs.Tree.Matching

/-!
Nodes that are built alike. Two nodes are congruent if they are the same construct over related nodes
and agree in whatever the construct looks at without evaluating it. Congruent nodes keep contexts in
agreement if the nodes below them do; this is proved once, for any relation of the nodes below.
-/

namespace ScriptTree

namespace Node

mutual

/-- The names that evaluation of the node may bind in the scope around it, with the construct that
binds them. -/
def introduces : Node → List (Form × String)
  | .constant .. => []
  | .counted .. => []
  | .construct form text span children =>
    match form with
    | .declaration => [(.declaration, declaredName (.construct form text span children))]
    | .definition => children.head?.toList.map fun first => (.definition, first.text)
    | .equation | .binary | .prefixed | .conditional | .ternary | .whileLoop | .returned =>
      introducesAll children
    | .call => introducesCall children
    | _ => []

/-- The names that evaluation of several nodes may bind. -/
def introducesAll : List Node → List (Form × String)
  | [] => []
  | n :: ns => introduces n ++ introducesAll ns

/-- The names that a call with these children may bind: the callee's and the arguments'. -/
def introducesCall : List Node → List (Form × String)
  | [] => []
  | [callee] => introduces callee
  | callee :: list :: _ => introduces callee ++ introducesBelow list

/-- The names that evaluation of the children may bind. -/
def introducesBelow : Node → List (Form × String)
  | .constant _ _ _ children => introducesAll children
  | .counted _ _ _ _ children => introducesAll children
  | .construct _ _ _ children => introducesAll children

end

theorem introduces_subset_all {n : Node} :
    ∀ {ns : List Node} {i : Nat}, ns[i]? = some n → n.introduces ⊆ introducesAll ns
  | [], _, h => nomatch h
  | m :: ms, 0, h => by
    obtain rfl : m = n := by simpa using h
    rw [introducesAll]
    exact List.subset_append_left _ _
  | m :: ms, i + 1, h => by
    rw [introducesAll]
    exact List.Subset.trans (introduces_subset_all (i := i) (by simpa using h)) (List.subset_append_right _ _)

theorem mem_introducesAll {x : Form × String} {ns : List Node} :
    x ∈ introducesAll ns ↔ ∃ n ∈ ns, x ∈ n.introduces := by
  induction ns with
  | nil => simp [introducesAll]
  | cons n ns ih =>
    rw [introducesAll, List.mem_append, ih]
    simp

theorem introducesBelow_eq : ∀ n : Node, introducesBelow n = introducesAll n.children
  | .constant .. => rfl
  | .counted .. => rfl
  | .construct .. => rfl

theorem introduces_callee {n : Node} {ns : List Node} (h : ns[0]? = some n) :
    n.introduces ⊆ introducesCall ns := by
  match ns with
  | [] => cases h
  | [m] =>
    obtain rfl : m = n := by simpa using h
    exact fun _ h => h
  | m :: _ :: _ =>
    obtain rfl : m = n := by simpa using h
    rw [introducesCall]
    exact List.subset_append_left _ _

theorem introduces_argument {list n : Node} {ns : List Node} {i : Nat} (h : ns[1]? = some list)
    (hn : list.children[i]? = some n) : n.introduces ⊆ introducesCall ns := by
  match ns with
  | [] => cases h
  | [_] => cases h
  | _ :: m :: _ =>
    obtain rfl : m = list := by simpa using h
    rw [introducesCall, introducesBelow_eq]
    exact List.Subset.trans (introduces_subset_all hn) (List.subset_append_right _ _)

/-- A call introduces what its callee and its arguments introduce. -/
theorem mem_introduces_call {x : Form × String} {text : String} {span : Span} {ns : List Node}
    (h : x ∈ introduces (.construct .call text span ns)) :
    (∃ callee ∈ ns, x ∈ callee.introduces) ∨ ∃ list, ns[1]? = some list ∧ x ∈ introducesAll list.children := by
  rcases ns with _ | ⟨callee, _ | ⟨list, rest⟩⟩
  · cases h
  · exact .inl ⟨callee, .head _, h⟩
  · change x ∈ introduces callee ++ introducesBelow list at h
    rw [introducesBelow_eq, List.mem_append] at h
    exact h.imp (fun h => ⟨callee, .head _, h⟩) fun h => ⟨list, rfl, h⟩

theorem introduces_definition {ns : List Node} {f : ScriptFunction} {text : String} {span : Span}
    (h : functionOf? ns = some f) :
    (.definition, f.name) ∈ introduces (.construct .definition text span ns) := by
  match ns with
  | [] => cases h
  | [_] => cases h
  | _ :: _ :: _ =>
    cases h
    exact .head _

theorem introduces_declaration {n : Node} (h : n.isForm .declaration = true) :
    (.declaration, n.declaredName) ∈ n.introduces := by
  cases n with
  | construct form text span ns =>
    obtain rfl : form = .declaration := by simpa [isForm, kind] using h
    rw [introduces]
    exact .head _
  | constant => simp [isForm, kind] at h
  | counted => simp [isForm, kind] at h

/-- The constructs that look at nothing but their text. -/
def isLeaf : Form → Bool
  | .identifier | .breakLoop | .continueLoop | .noop | .argumentList => true
  | _ => false

/-- The constructs that only evaluate their children. -/
def isStrict : Form → Bool
  | .conditional | .ternary | .binary | .forLoop | .whileLoop | .returned => true
  | _ => false

theorem introduces_strict {form : Form} {text : String} {span : Span} {ns : List Node}
    (h : isStrict form = true) (hne : form ≠ .forLoop) :
    introduces (.construct form text span ns) = introducesAll ns := by
  cases form with
  | forLoop => exact absurd rfl hne
  | conditional | ternary | binary | whileLoop | returned => rfl
  | _ => cases h

end Node

/-- The same construct over nodes related by `S`, with the same names wherever the construct wants a
name. -/
inductive Congruent (st : Setting) (S : Mode → Node → Node → Prop) (mode : Mode) : Node → Node → Prop
  | constant {u v : Literal} {s t : String} {a b : Span} {ns ms : List Node} (h : u.datum = v.datum) :
    Congruent st S mode (.constant u s a ns) (.constant v t b ms)
  | leaf {form : Form} {text : String} {a b : Span} {ns ms : List Node} (h : Node.isLeaf form = true) :
    Congruent st S mode (.construct form text a ns) (.construct form text b ms)
  | declaration {text : String} {a b : Span} {ns ms : List Node}
    (hname : Node.declaredName (.construct .declaration text a ns) =
      Node.declaredName (.construct .declaration text b ms))
    (hr : ¬st.reserved (Node.declaredName (.construct .declaration text a ns))) :
    Congruent st S mode (.construct .declaration text a ns) (.construct .declaration text b ms)
  | strict {form : Form} {text : String} {a b : Span} {ns ms : List Node}
    (hform : Node.isStrict form = true) (h : Aligned (fun _ => S .exact) ns ms) :
    Congruent st S mode (.construct form text a ns) (.construct form text b ms)
  | block {text : String} {a b : Span} {ns ms : List Node} (h : Statements S mode ns ms) :
    Congruent st S mode (.construct .block text a ns) (.construct .block text b ms)
  | prefixed {text : String} {a b : Span} {ns ms : List Node}
    (h : Aligned (fun i n m => S .exact n m ∧ (text = "++" ∨ text = "--" → i = 0 → SameName n m)) ns ms) :
    Congruent st S mode (.construct .prefixed text a ns) (.construct .prefixed text b ms)
  | equation {text : String} {a b : Span} {ns ms : List Node}
    (h : Aligned (fun i n m => (i = 0 → SameTarget n m ∧ S .exact n m ∧
      (n.isForm .declaration = true → ¬st.reserved n.declaredName)) ∧ (i = 1 → S .exact n m)) ns ms) :
    Congruent st S mode (.construct .equation text a ns) (.construct .equation text b ms)
  | call {text : String} {a b : Span} {ns ms : List Node}
    (h : Aligned (fun i n m =>
      (i = 0 → SameName n m ∧ (n.isForm .identifier = false → S .exact n m)) ∧
      (i = 1 → List.Forall₂ (S .exact) n.children m.children)) ns ms) :
    Congruent st S mode (.construct .call text a ns) (.construct .call text b ms)
  | definition {text : String} {a b : Span} {ns ms : List Node}
    (h : Option.Rel (fun f g => st.known f g ∧ f.name = g.name ∧ ¬st.reserved f.name)
      (Node.functionOf? ns) (Node.functionOf? ms)) :
    Congruent st S mode (.construct .definition text a ns) (.construct .definition text b ms)
  | counted {loop : CountedLoop} {g g' : Node} {text : String} {a b : Span} {ns ms : List Node}
    (hr : ¬st.reserved loop.counter)
    (he : ∀ a b : Nat, st.lowLeft ≤ a → st.lowRight ≤ b → st.earlyLeft a = st.earlyRight b)
    (h : Aligned (fun _ => S .exact) ns ms) :
    Congruent st S mode (.counted loop g text a ns) (.counted loop g' text b ms)

variable {st : Setting} {w : World} {mode : Mode} {S : Mode → Node → Node → Prop}
  {run : Node.Evaluator} {runs : Nat → Node.Evaluator} {n m : Node} {host : Host}

theorem SameName.flip (h : SameName n m) : SameName m n :=
  ⟨h.isIdentifier.symm, fun hm => (h.text (h.isIdentifier.trans hm)).symm⟩

theorem SameTarget.isForm (h : SameTarget n m) (form : Form) : n.isForm form = m.isForm form := by
  rw [Node.isForm, Node.isForm, h.kind]

theorem SameTarget.flip (h : SameTarget n m) : SameTarget m n :=
  ⟨h.kind.symm, fun hm => (h.text ((h.isForm _).trans hm)).symm,
    fun hm => (h.declaredName ((h.isForm _).trans hm)).symm⟩

theorem Statements.flip {ns ms : List Node} (h : Statements S mode ns ms) :
    Statements (fun mode m n => S mode n m) mode ms ns := by
  induction h with
  | nil => exact .nil
  | last h => exact .last h
  | cons h _ ih => exact .cons h ih

theorem option_rel_flip {α β : Type} {R : α → β → Prop} {Q : β → α → Prop} {a : Option α} {b : Option β}
    (h : Option.Rel R a b) (hRQ : ∀ {a b}, R a b → Q b a) : Option.Rel Q b a := by
  cases h with
  | some h => exact .some (hRQ h)
  | none => exact .none

theorem Congruent.flip (h : Congruent st S mode n m) :
    Congruent st.flip (fun mode m n => S mode n m) mode m n := by
  cases h with
  | constant h => exact .constant h.symm
  | leaf h => exact .leaf h
  | declaration hname hr => exact .declaration hname.symm (hname ▸ hr)
  | strict hform h => exact .strict hform h.flip
  | block h => exact .block h.flip
  | prefixed h => exact .prefixed (h.flip.imp fun i n m _ _ h => ⟨h.1, fun ho hi => (h.2 ho hi).flip⟩)
  | equation h =>
    refine .equation (h.flip.imp fun i m n _ _ h => ⟨fun hi => ?_, h.2⟩)
    obtain ⟨ht, hS, hr⟩ := h.1 hi
    refine ⟨ht.flip, hS, fun hm => ?_⟩
    have hn := (ht.isForm _).trans hm
    rw [← ht.declaredName hn]
    exact hr hn
  | call h =>
    refine .call (h.flip.imp fun i m n _ _ h => ⟨fun hi => ?_, fun hi => (h.2 hi).flip⟩)
    obtain ⟨hs, hn⟩ := h.1 hi
    exact ⟨hs.flip, fun hm => hn (hs.isIdentifier.trans hm)⟩
  | definition h => exact .definition (option_rel_flip h fun ⟨hk, hn, hr⟩ => ⟨hk, hn.symm, hn ▸ hr⟩)
  | counted hr he h => exact .counted hr (fun a b ha hb => (he b a hb ha).symm) h.flip

theorem Statements.imp {T : Mode → Node → Node → Prop} {ns ms : List Node} (h : Statements S mode ns ms)
    (hS : ∀ mode n m, S mode n m → T mode n m) : Statements T mode ns ms := by
  induction h with
  | nil => exact .nil
  | last h => exact .last (hS _ _ _ h)
  | cons h _ ih => exact .cons (hS _ _ _ h) ih

/-- Statements that are related in every mode. -/
theorem Statements.of_forall₂ {ns ms : List Node} (h : List.Forall₂ (fun n m => ∀ mode, S mode n m) ns ms) :
    Statements S mode ns ms := by
  induction h with
  | nil => exact .nil
  | cons h _ ih => exact .cons (h _) ih

theorem functionOf?_mapSpan (φ : Span → Span) (ns : List Node) : Node.functionOf? (ns.map (Node.mapSpan φ)) =
    (Node.functionOf? ns).map fun f => ⟨f.name, f.parameters, f.body.mapSpan φ⟩ := by
  match ns with
  | [] | [_] => rfl
  | first :: second :: rest =>
    have hp := (Node.Matches.parametersOf (Node.Matches.mapSpanAll φ (first :: second :: rest))).symm
    rw [Node.mapSpanAll_eq] at hp
    have hlast := List.getLast_map (f := Node.mapSpan φ) (l := second :: rest) (by simp)
    simp only [List.map_cons] at hp hlast
    simp only [List.map_cons, Node.functionOf?, Option.map_some, hp, hlast, Node.text_mapSpan]

theorem forall₂_getLast {R : Node → Node → Prop} {ns ms : List Node} (h : List.Forall₂ R ns ms) (hn : ns ≠ [])
    (hm : ms ≠ []) : R (ns.getLast hn) (ms.getLast hm) := by
  induction h with
  | nil => exact absurd rfl hn
  | cons hfirst hrest ih =>
    cases hrest with
    | nil => exact hfirst
    | cons => exact ih (List.cons_ne_nil _ _) (List.cons_ne_nil _ _)

/-- Definitions that match bind functions of one name and with the same parameters, whose bodies match. -/
theorem functionOf?_matches {ns ms : List Node} (h : List.Forall₂ Node.Matches ns ms) :
    Option.Rel (fun f g => f.name = g.name ∧ f.parameters = g.parameters ∧ f.body.Matches g.body)
      (Node.functionOf? ns) (Node.functionOf? ms) := by
  have hparameters := Node.Matches.parametersOf h
  rcases h with _ | ⟨hfirst, _ | ⟨hsecond, hrest⟩⟩
  · exact .none
  · exact .none
  · exact .some ⟨hfirst.text, hparameters, forall₂_getLast (.cons hsecond hrest) _ _⟩

/-- Nodes that match are congruent if the nodes below them are related and no name is reserved. -/
theorem Congruent.of_matches (h : n.Matches m) (hr : ∀ x, ¬st.reserved x)
    (hS : List.Forall₂ (fun c d => (∀ mode, S mode c d) ∧ List.Forall₂ (S .exact) c.children d.children)
      n.children m.children)
    (hknown : ∀ f g, Node.functionOf? n.children = some f → Node.functionOf? m.children = some g → st.known f g)
    (hearly : n.kind = .specialized →
      ∀ a b : Nat, st.lowLeft ≤ a → st.lowRight ≤ b → st.earlyLeft a = st.earlyRight b) :
    Congruent st S mode n m := by
  have hlength := hS.length_eq
  have hchild (i : Nat) (c d : Node) (hc : n.children[i]? = some c) (hd : m.children[i]? = some d) :
      c.Matches d ∧ (∀ mode, S mode c d) ∧ List.Forall₂ (S .exact) c.children d.children := by
    obtain ⟨hi, rfl⟩ := List.getElem?_eq_some_iff.1 hc
    obtain ⟨hj, rfl⟩ := List.getElem?_eq_some_iff.1 hd
    exact ⟨(List.forall₂_iff_get.1 h.children).2 i hi hj, (List.forall₂_iff_get.1 hS).2 i hi hj⟩
  have hname {c d : Node} (h : c.Matches d) : SameName c d := ⟨h.isForm _, fun _ => h.text⟩
  have htarget {c d : Node} (h : c.Matches d) : SameTarget c d := ⟨h.kind, fun _ => h.text, fun _ => h.declaredName⟩
  have hdeclared := h.declaredName
  cases h with
  | constant hd => exact .constant hd
  | counted => exact .counted (hr _) (hearly rfl) ⟨hlength, fun i c d hc hd => (hchild i c d hc hd).2.1 _⟩
  | @construct form text a b ns ms hmatches =>
    cases form with
    | identifier | breakLoop | continueLoop | noop | argumentList => exact .leaf rfl
    | declaration => exact .declaration hdeclared (hr _)
    | conditional | ternary | binary | forLoop | whileLoop | returned =>
      exact .strict rfl ⟨hlength, fun i c d hc hd => (hchild i c d hc hd).2.1 _⟩
    | block =>
      exact .block (.of_forall₂ (hS.imp fun _ _ h => h.1))
    | prefixed =>
      refine .prefixed ⟨hlength, fun i c d hc hd => ?_⟩
      obtain ⟨hmatch, hrelated, -⟩ := hchild i c d hc hd
      exact ⟨hrelated _, fun _ _ => hname hmatch⟩
    | equation =>
      refine .equation ⟨hlength, fun i c d hc hd => ?_⟩
      obtain ⟨hmatch, hrelated, -⟩ := hchild i c d hc hd
      exact ⟨fun _ => ⟨htarget hmatch, hrelated _, fun _ => hr _⟩, fun _ => hrelated _⟩
    | call =>
      refine .call ⟨hlength, fun i c d hc hd => ?_⟩
      obtain ⟨hmatch, hrelated, hbelow⟩ := hchild i c d hc hd
      exact ⟨fun _ => ⟨hname hmatch, fun _ => hrelated _⟩, fun _ => hbelow⟩
    | definition =>
      refine .definition ?_
      simp only [Node.children] at hknown
      have hfunctions := functionOf?_matches hmatches
      cases hf : Node.functionOf? ns <;> cases hg : Node.functionOf? ms <;> rw [hf, hg] at hfunctions <;>
        cases hfunctions
      · exact .none
      · rename_i f g hmatch
        exact .some ⟨hknown f g hf hg, hmatch.1, hr _⟩

/-- A node is congruent to what it is with other spans if the nodes below it are related to what these are, and
no name is reserved. -/
theorem Congruent.mapSpan (φ : Span → Span) (hr : ∀ x, ¬st.reserved x)
    (hS : ∀ c ∈ n.children, ∀ mode, S mode c (c.mapSpan φ))
    (hS' : ∀ c ∈ n.children, ∀ k ∈ c.children, S .exact k (k.mapSpan φ))
    (hknown : ∀ f, Node.functionOf? n.children = some f → st.known f ⟨f.name, f.parameters, f.body.mapSpan φ⟩)
    (hearly : n.kind = .specialized →
      ∀ a b : Nat, st.lowLeft ≤ a → st.lowRight ≤ b → st.earlyLeft a = st.earlyRight b) :
    Congruent st S mode n (n.mapSpan φ) := by
  refine .of_matches (.mapSpan φ n) hr ?_ (fun f g hf hg => ?_) hearly
  · rw [Node.children_mapSpan]
    refine List.forall₂_map_right_iff.2 (List.forall₂_same.2 fun c hc => ⟨hS c hc, ?_⟩)
    rw [Node.children_mapSpan]
    exact List.forall₂_map_right_iff.2 (List.forall₂_same.2 (hS' c hc))
  · rw [Node.children_mapSpan, functionOf?_mapSpan, hf] at hg
    exact Option.some.inj hg ▸ hknown f hf

/-- A node is congruent to itself if the nodes below it are related to themselves and no name is
reserved. -/
theorem Congruent.refl (hr : ∀ x, ¬st.reserved x) (hS : ∀ c ∈ n.children, ∀ mode, S mode c c)
    (hS' : ∀ c ∈ n.children, ∀ k ∈ c.children, S .exact k k)
    (hknown : ∀ f, Node.functionOf? n.children = some f → st.known f f)
    (hearly : n.kind = .specialized →
      ∀ a b : Nat, st.lowLeft ≤ a → st.lowRight ≤ b → st.earlyLeft a = st.earlyRight b) :
    Congruent st S mode n n := by
  have h : Congruent st S mode n (n.mapSpan id) := by
    refine .mapSpan id hr ?_ ?_ ?_ hearly
    all_goals simpa only [Node.mapSpan_id]
  rwa [Node.mapSpan_id] at h

/-! ### Agreement -/

/-- Related nodes that introduce no more than these two keep contexts in agreement. -/
abbrev InnerSim (st : Setting) (w : World) (S : Mode → Node → Node → Prop) (run : Node.Evaluator)
    (runs : Nat → Node.Evaluator) (n m : Node) : Prop :=
  ∀ n' m', S .exact n' m' → n'.introduces ⊆ n.introduces → m'.introduces ⊆ m.introduces →
    NodeSim st w .exact run runs n' m'

/-- What both nodes introduce may be bound. -/
abbrev MayBind (st : Setting) (w : World) (n m : Node) : Prop :=
  ∀ form x, (form, x) ∈ n.introduces → (form, x) ∈ m.introduces → ¬st.reserved x → Binds st w form x

section

variable {form : Form} {text : String} {a b : Span} {ns ms : List Node}

theorem InnerSim.strict (inner : InnerSim st w S run runs (.construct form text a ns) (.construct form text b ms))
    (hform : Node.isStrict form = true) (hne : form ≠ .forLoop) (h : Aligned (fun _ => S .exact) ns ms) :
    Aligned (fun _ => NodeSim st w .exact run runs) ns ms := by
  refine h.imp fun i n' m' hn' hm' hS => inner n' m' hS ?_ ?_
  · rw [Node.introduces_strict hform hne]
    exact Node.introduces_subset_all hn'
  · rw [Node.introduces_strict hform hne]
    exact Node.introduces_subset_all hm'

/-- The target of an equation binds its name, and the value is evaluated. -/
theorem InnerSim.equation (inner : InnerSim st w S run runs (.construct .equation text a ns) (.construct .equation text b ms))
    (binds : MayBind st w (.construct .equation text a ns) (.construct .equation text b ms))
    (h : Aligned (fun i n m => (i = 0 → SameTarget n m ∧ S .exact n m ∧
      (n.isForm .declaration = true → ¬st.reserved n.declaredName)) ∧ (i = 1 → S .exact n m)) ns ms) :
    Aligned (fun i n m => (i = 0 → SameTarget n m ∧
      (n.isForm .declaration = true → Binds st w .declaration n.declaredName)) ∧
      (i = 1 → NodeSim st w .exact run runs n m)) ns ms := by
  refine h.imp fun i n' m' hn' hm' hR => ⟨fun hi => ?_, fun hi => ?_⟩
  · obtain ⟨ht, hS, hr⟩ := hR.1 hi
    refine ⟨ht, fun hdecl => ?_⟩
    have hn : (.declaration, n'.declaredName) ∈ n'.introduces := Node.introduces_declaration hdecl
    have hm : (.declaration, m'.declaredName) ∈ m'.introduces :=
      Node.introduces_declaration ((ht.isForm _).symm.trans hdecl)
    rw [← ht.declaredName hdecl] at hm
    exact binds _ _ (Node.introduces_subset_all hn' hn) (Node.introduces_subset_all hm' hm) (hr hdecl)
  · exact inner n' m' (hR.2 hi) (Node.introduces_subset_all hn') (Node.introduces_subset_all hm')

/-- A callee that is not a name and the arguments of a call are evaluated. -/
theorem InnerSim.call (inner : InnerSim st w S run runs (.construct .call text a ns) (.construct .call text b ms))
    (h : Aligned (fun i n m => (i = 0 → SameName n m ∧ (n.isForm .identifier = false → S .exact n m)) ∧
      (i = 1 → List.Forall₂ (S .exact) n.children m.children)) ns ms) :
    Aligned (fun i n m =>
      (i = 0 → SameName n m ∧ (n.isForm .identifier = false → NodeSim st w .exact run runs n m)) ∧
      (i = 1 → List.Forall₂ (NodeSim st w .exact run runs) n.children m.children)) ns ms := by
  refine h.imp fun i n' m' hn' hm' hR => ⟨fun hi => ?_, fun hi => ?_⟩
  · subst hi
    obtain ⟨hname, hS⟩ := hR.1 rfl
    exact ⟨hname, fun hform => inner n' m' (hS hform) (Node.introduces_callee hn') (Node.introduces_callee hm')⟩
  · subst hi
    have hS := List.forall₂_iff_get.1 (hR.2 rfl)
    refine List.forall₂_iff_get.2 ⟨hS.1, fun i h₁ h₂ => inner _ _ (hS.2 i h₁ h₂) ?_ ?_⟩
    · exact Node.introduces_argument hn' (i := i) (by simp)
    · exact Node.introduces_argument hm' (i := i) (by simp)

/-- A definition binds the name of its function. -/
theorem MayBind.definition
    (binds : MayBind st w (.construct .definition text a ns) (.construct .definition text b ms))
    (h : Option.Rel (fun f g => st.known f g ∧ f.name = g.name ∧ ¬st.reserved f.name)
      (Node.functionOf? ns) (Node.functionOf? ms)) :
    Option.Rel (fun f g => st.known f g ∧ f.name = g.name ∧ Binds st w .definition f.name)
      (Node.functionOf? ns) (Node.functionOf? ms) := by
  generalize hn : Node.functionOf? ns = f? at h
  generalize hm : Node.functionOf? ms = g? at h
  cases h with
  | none => exact .none
  | @some f g h =>
    obtain ⟨hk, hname, hr⟩ := h
    have hm' : (.definition, g.name) ∈ Node.introduces (.construct .definition text b ms) :=
      Node.introduces_definition hm
    rw [← hname] at hm'
    exact .some ⟨hk, hname, binds _ _ (Node.introduces_definition hn) hm' hr⟩

end

/-- Congruent nodes keep contexts in agreement if the nodes below do: those that are evaluated in the
scopes around (`inner`) and those in new scopes (`inside`). -/
theorem Congruent.sim (h : Congruent st S mode n m) (hw : w.Sound st) (inner : InnerSim st w S run runs n m)
    (inside : ∀ v, v = w.under .shared ∨ v = w.withTwins → ∀ mode n' m', S mode n' m' →
      NodeSim st v mode run runs n' m')
    (binds : MayBind st w n m)
    (hleft : st.lowLeft ≤ w.left.length) (hright : st.lowRight ≤ w.right.length)
    (hknown : ∀ f g, st.known f g → Sim.Callable st w run runs f g) (fuel : Nat) :
    Sim st w (Finish w mode) (Node.evalNodeEarly st.earlyLeft host run fuel n)
      fun j => Node.evalNodeEarly st.earlyRight host (runs j) j m := by
  cases h with
  | @constant u v s t a b ns ms h =>
    show Sim st w _ (pure (Completion.ofDatum u.datum)) fun _ => pure (Completion.ofDatum v.datum)
    rw [h]
    exact Sim.yield
  | @leaf form text a b ns ms h =>
    cases form with
    | identifier => exact (Sim.get text).bind fun u v c d hA huv => Sim.yieldValue hA huv
    | breakLoop => exact .pure fun hA => .of_exact hA (.ofDatum (.held .plain) _)
    | continueLoop => exact .pure fun hA => .of_exact hA (.ofDatum (.held .plain) _)
    | noop => exact Sim.yield
    | argumentList => exact Sim.yield
    | _ => cases h
  | @declaration text a b ns ms hname hr =>
    obtain ⟨-, L, hL, -⟩ := binds .declaration _ (.head _) (hname ▸ .head _) hr
    unfold Node.evalNodeEarly Node.evalForm
    simp only [← hname]
    exact (Sim.change fun c d hA => (hA.declare hL hr).1).andThen fun _ _ _ => Sim.yield
  | @strict form text a b ns ms hform h =>
    cases form with
    | conditional => exact Sim.conditional (inner.strict rfl nofun h)
    | ternary => exact Sim.conditional (inner.strict rfl nofun h)
    | binary => exact Sim.binary (inner.strict rfl nofun h)
    | whileLoop => exact Sim.whileLoop (inner.strict rfl nofun h) fuel
    | returned => exact Sim.returned (inner.strict rfl nofun h)
    | forLoop => exact Sim.forLoop (h.imp fun _ n' m' _ _ hS => inside _ (.inl rfl) _ n' m' hS) fuel
    | _ => cases hform
  | block h => exact Sim.block (h.imp fun mode n' m' hS => inside _ (.inl rfl) mode n' m' hS)
  | prefixed h =>
    refine Sim.prefixed (h.imp fun i n' m' hn' hm' hS => ⟨inner n' m' hS.1 ?_ ?_, hS.2⟩)
    · exact Node.introduces_subset_all hn'
    · exact Node.introduces_subset_all hm'
  | equation h => exact Sim.equation (inner.equation binds h)
  | call h => exact Sim.call hw hknown (inner.call h)
  | @definition text a b ns ms h => exact Sim.definition (binds.definition h)
  | counted hr he h =>
    exact Sim.counted (he _ _ hleft hright) hr
      (h.imp fun _ n' m' _ _ hS => inside _ (.inr rfl) _ n' m' hS) fuel

end ScriptTree

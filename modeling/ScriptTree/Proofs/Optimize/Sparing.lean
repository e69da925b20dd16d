import ScriptTree.Proofs.Optimize.Shape

/-!
Trees that leave certain names alone. A tree spares a name if it is never assigned and never stepped,
except by the step of a loop that is sure to have made a variable of this name. Rewriting keeps this: no
rule puts a node that writes where there was none.
-/

namespace ScriptTree

namespace Node

/-- The names of existing variables that the node itself writes. -/
def written : Node → List String
  | .construct .equation _ _ (target :: _) => if target.isForm .identifier then [target.text] else []
  | .construct .prefixed op _ (target :: _) =>
    if (op = "++" ∨ op = "--") ∧ target.isForm .identifier = true then [target.text] else []
  | _ => []

/-- The native loops' counters. -/
def counters : Node → List String
  | .counted loop .. => [loop.counter]
  | _ => []

/-- The node itself, if it leaves the statements around it early. -/
def departures : Node → List Form
  | .construct .breakLoop .. => [.breakLoop]
  | .construct .continueLoop .. => [.continueLoop]
  | .construct .returned .. => [.returned]
  | _ => []

/-- Whether the step of a loop steps the variable that the setup made. It is sure to have made it if
nothing in the value departs. -/
def stepsOwn (setup step : Node) : Bool :=
  match setup with
  | .construct .equation _ _ [target, value] =>
    target.isForm .declaration && (value.collect departures).isEmpty && step.isForm .prefixed &&
      step.written == [target.declaredName]
  | _ => false

/-- The node itself writes none of these names. -/
def isMild (K : List String) (n : Node) : Bool := n.written.all fun x => !K.contains x

/-- None of the children writes one of these names, but for a loop that steps its own variable. -/
def isTame (K : List String) : Node → Bool
  | .construct .forLoop _ _ [setup, test, step, body] =>
    setup.isMild K && test.isMild K && (stepsOwn setup step || step.isMild K) && body.isMild K
  | n => n.children.all (isMild K)

/-- The tree leaves these names alone. -/
def Spares (K : List String) (n : Node) : Prop := n.isMild K = true ∧ ∀ a ∈ n.parts, a.isTame K = true

instance (K : List String) (n : Node) : Decidable (n.Spares K) :=
  inferInstanceAs (Decidable (n.isMild K = true ∧ ∀ a ∈ n.parts, a.isTame K = true))

variable {K : List String} {n m : Node}

theorem isTame_children {form : Form} {text : String} {span : Span} {ns : List Node}
    (h : isTame K (.construct form text span ns) = true) (hform : form ≠ .forLoop ∨ ns.length ≠ 4) :
    ∀ c ∈ ns, c.isMild K = true := by
  rw [← List.all_eq_true]
  unfold isTame at h
  split at h
  · rename_i heq
    cases heq
    simp at hform
  · exact h

theorem isTame_of_children (h : ∀ c ∈ n.children, c.isMild K = true) : n.isTame K = true := by
  unfold isTame
  split
  · simp_all [children]
  · exact List.all_eq_true.2 h

/-- A child that writes nothing leaves the names alone if the node does. -/
theorem Spares.child (h : n.Spares K) (hm : m ∈ n.children) (hmild : m.isMild K = true) : m.Spares K :=
  ⟨hmild, fun a ha => h.2 a (mem_parts.2 (.inr ⟨m, hm, ha⟩))⟩

/-- The parts of a loop. -/
theorem Spares.loop {text : String} {span : Span} {setup test step body : Node}
    (h : (construct .forLoop text span [setup, test, step, body]).Spares K) :
    setup.Spares K ∧ test.Spares K ∧ (stepsOwn setup step = true ∨ step.Spares K) ∧ body.Spares K := by
  have htame := h.2 _ (mem_parts_self _)
  simp only [isTame, Bool.and_eq_true, Bool.or_eq_true] at htame
  obtain ⟨⟨⟨hs, ht⟩, hi⟩, hb⟩ := htame
  exact ⟨h.child (by simp [children]) hs, h.child (by simp [children]) ht,
    hi.imp id fun hi => h.child (by simp [children]) hi, h.child (by simp [children]) hb⟩

end Node

variable {p : Pipeline} {n m : Node} {K : List String}

/-! ### Rewriting -/

/-- A construct writes the same names after rewritings below it. -/
theorem written_near {form : Form} {text : String} {span : Span} {ns ms : List Node}
    (h : List.Forall₂ (Near p) ns ms) (hns : Node.fitsForm form text ns = true) :
    Node.written (.construct form text span ms) = Node.written (.construct form text span ns) := by
  cases h with
  | nil => rfl
  | @cons a b ns ms hab h =>
    cases form with
    | equation =>
      have htarget : a.isForm .identifier = true ∨ a.isForm .declaration = true := by
        obtain ⟨_, _, he, htarget⟩ := Node.fitsForm_equation.1 hns
        cases he
        exact htarget
      rcases htarget with ha | ha
      · obtain ⟨hb, ht, -⟩ := hab.isForm rfl ha
        simp only [Node.written, ha, hb, ht]
      · have hb := (hab.isForm rfl ha).1
        obtain ⟨_, _, _, rfl⟩ := Rule.isForm_eq ha
        obtain ⟨_, _, _, rfl⟩ := Rule.isForm_eq hb
        rfl
    | prefixed =>
      by_cases hop : text = "++" ∨ text = "--"
      · have ha : a.isForm .identifier = true := by
          obtain ⟨_, he, hoperand⟩ := Node.fitsForm_prefixed.1 hns
          cases he
          exact hoperand hop
        obtain ⟨hb, ht, -⟩ := hab.isForm rfl ha
        simp only [Node.written, ha, hb, ht]
      · simp only [Node.written, hop, false_and, if_false]
    | _ => rfl

/-- Rewriting does not make a node write. -/
theorem Rewrites.isMild (h : Rewrites p n m) (hn : n.WellShaped) (hK : n.Spares K) : m.isMild K = true := by
  cases h with
  | @root pass _ _ _ h =>
    cases pass with
    | trailingReturn =>
      obtain ⟨_, _, _, _, _, _, _, _, _, -, rfl⟩ := Rule.trailingReturn_eq_some h
      rfl
    | loneBlock =>
      obtain ⟨_, _, rfl, -⟩ := Rule.loneBlock_eq_some h
      exact Node.isTame_children (hK.2 _ (Node.mem_parts_self _)) (.inl nofun) m (.head _)
    | deadBranch =>
      obtain ⟨form, _, _, _, _, _, _, first, rest, rfl, hform, hm⟩ := Rule.deadBranch_eq_some h
      refine Node.isTame_children (hK.2 _ (Node.mem_parts_self _)) (.inl ?_) m ?_
      · rcases hform with rfl | rfl <;> nofun
      · rcases hm with ⟨-, rfl⟩ | ⟨-, rfl⟩
        · exact .tail _ (.head _)
        · exact .tail _ (.tail _ (.head _))
    | constantFolding =>
      obtain ⟨_, _, _, rfl⟩ := Rule.constantFolding_constant h
      rfl
    | countedLoop =>
      obtain ⟨_, _, _, _, _, _, _, rfl, -, rfl⟩ := Rule.countedLoop_eq_some h
      rfl
  | @child _ a b pre post h ha =>
    cases n with
    | constant => rfl
    | counted => rfl
    | construct form text span ns =>
      have hfits : Node.fitsForm form text ns = true := hn _ (Node.mem_parts_self _)
      obtain rfl : ns = pre ++ a :: post := ha
      have hw : Node.written (.construct form text span (pre ++ b :: post)) =
        Node.written (.construct form text span (pre ++ a :: post)) := written_near (near_child h) hfits
      have hmild := hK.1
      unfold Node.isMild at hmild ⊢
      rw [Node.withChildren, hw]
      exact hmild

theorem Near.isMild (h : Near p n m) (hn : n.WellShaped) (hK : n.Spares K) : m.isMild K = true := by
  cases h with
  | refl => exact hK.1
  | single h => exact h.isMild hn hK

theorem Becomes.departures {a b : Node} (h : Becomes p a b) :
    b.departures ⊆ a.collect Node.departures := by
  cases h with
  | @below _ ms h =>
    refine List.Subset.trans ?_ (Node.collect_self _ _)
    cases a with
    | construct form text span ns => cases form <;> exact List.Subset.refl _
    | constant => exact List.Subset.refl _
    | counted => exact List.Subset.refl _
  | _ => exact List.nil_subset _

/-- A loop that steps its own variable does so after rewritings below it. -/
theorem stepsOwn_near {setup setup' step step' : Node} (hsetup : Near p setup setup')
    (hstep : Near p step step') (hs : setup.WellShaped) (hi : step.WellShaped)
    (h : Node.stepsOwn setup step = true) : Node.stepsOwn setup' step' = true := by
  unfold Node.stepsOwn at h
  split at h
  · rename_i text span target value
    obtain ⟨ms, rfl, hms⟩ := hsetup.inert rfl
    cases hms with
    | @cons _ target' _ _ ht hms => cases hms with
      | @cons _ value' _ _ hv hms =>
        cases hms
        simp only [Bool.and_eq_true, List.isEmpty_iff, beq_iff_eq] at h
        obtain ⟨⟨⟨htarget, hvalue⟩, hform⟩, hwritten⟩ := h
        have hparts : ∀ c ∈ [target, value], c ∈ (Node.construct .equation text span [target, value]).parts :=
          fun c hc => Node.mem_parts_child hc
        obtain ⟨t, e, ks, rfl⟩ := Rule.isForm_eq htarget
        obtain ⟨ks', rfl, hks⟩ := ht.inert rfl
        obtain ⟨op, i, ls, rfl⟩ := Rule.isForm_eq hform
        obtain ⟨ls', rfl, hls⟩ := hstep.inert rfl
        have hname : Node.declaredName (.construct .declaration t e ks') =
          Node.declaredName (.construct .declaration t e ks) := declaredName_near hks (hs _ (hparts _ (.head _)))
        have hwritten' : Node.written (.construct .prefixed op i ls') = Node.written (.construct .prefixed op i ls) :=
          written_near hls (hi _ (Node.mem_parts_self _))
        have hvalue' : value'.collect Node.departures = [] :=
          List.subset_nil.1 (hvalue ▸ hv.collect (hs.part (hparts _ (.tail _ (.head _))))
            fun _ _ h _ => h.departures)
        simp only [Node.stepsOwn, hname, hwritten', hwritten, hvalue', beq_self_eq_true, List.isEmpty_nil,
          Bool.and_true]
        rfl
  · cases h

/-- A node of a tree that leaves names alone does so after rewritings below it. -/
theorem isTame_near {a : Node} {ms : List Node} (h : List.Forall₂ (Near p) a.children ms) (ha : a.WellShaped)
    (hK : ∀ c ∈ a.parts, c.isTame K = true) : (a.withChildren ms).isTame K = true := by
  have hself := hK a a.mem_parts_self
  have hmild : ∀ {n m}, n ∈ a.children → Near p n m → n.isMild K = true → m.isMild K = true :=
    fun hn hnm hm => hnm.isMild (ha.part (Node.mem_parts_child hn))
      ⟨hm, fun k hk => hK k (Node.mem_parts.2 (.inr ⟨_, hn, hk⟩))⟩
  have hall : (∀ n ∈ a.children, n.isMild K = true) → (a.withChildren ms).isTame K = true := by
    intro hns
    refine Node.isTame_of_children fun m hm => ?_
    rw [Node.children_withChildren] at hm
    obtain ⟨n, hn, hnm⟩ := mem_near h hm
    exact hmild hn hnm (hns n hn)
  cases a with
  | constant v s e ns => exact hall (List.all_eq_true.1 hself)
  | counted loop g s e ns => exact hall (List.all_eq_true.1 hself)
  | construct form text span ns =>
    by_cases hform : form = .forLoop ∧ ns.length = 4
    · obtain ⟨rfl, hlen⟩ := hform
      obtain ⟨setup, test, step, body, rfl⟩ := List.length_eq_four.1 hlen
      obtain _ | ⟨hs, _ | ⟨ht, _ | ⟨hi, _ | ⟨hb, _ | _⟩⟩⟩⟩ := h
      simp only [Node.isTame, Node.withChildren, Bool.and_eq_true, Bool.or_eq_true] at hself ⊢
      obtain ⟨⟨⟨hs', ht'⟩, hi'⟩, hb'⟩ := hself
      have hpart : ∀ c ∈ [setup, test, step, body], c.WellShaped :=
        fun c hc => ha.part (Node.mem_parts_child hc)
      refine ⟨⟨⟨hmild (.head _) hs hs', hmild (.tail _ (.head _)) ht ht'⟩, hi'.imp (fun h => ?_) fun h => ?_⟩, ?_⟩
      · exact stepsOwn_near hs hi (hpart _ (.head _)) (hpart _ (.tail _ (.tail _ (.head _)))) h
      · exact hmild (.tail _ (.tail _ (.head _))) hi h
      · exact hmild (.tail _ (.tail _ (.tail _ (.head _)))) hb hb'
    · refine hall (Node.isTame_children hself ?_)
      rcases not_and_or.1 hform with h | h
      · exact .inl h
      · exact .inr h

/-- What a tree that leaves names alone becomes does so in each of its nodes. -/
theorem Becomes.isTame {a b : Node} (h : Becomes p a b) (ha : a.WellShaped)
    (hK : ∀ c ∈ a.parts, c.isTame K = true) : b.isTame K = true := by
  have hself := hK a a.mem_parts_self
  cases h with
  | below h => exact isTame_near h ha hK
  | folded => rfl
  | @definition text s t span a b pre init e =>
    refine Node.isTame_of_children fun c hc => ?_
    rcases List.mem_append.1 hc with hc | hc
    · exact Node.isTame_children hself (.inl (by decide)) c (List.mem_append.2 (.inl hc))
    · rw [List.mem_singleton.1 hc]
      rfl
  | @block s t a b init e =>
    refine Node.isTame_of_children fun c hc => ?_
    rcases List.mem_append.1 hc with hc | hc
    · exact Node.isTame_children hself (.inl (by decide)) c (List.mem_append.2 (.inl hc))
    · have hreturn := hK (.construct .returned t b [e])
        (Node.mem_parts_child (List.mem_append.2 (.inr (.head _))))
      rw [List.mem_singleton.1 hc]
      exact Node.isTame_children hreturn (.inl (by decide)) e (.head _)
  | @native text span setup test step body loop h =>
    simp only [Node.isTame, Bool.and_eq_true] at hself
    refine Node.isTame_of_children fun c hc => ?_
    rw [List.mem_singleton.1 hc]
    exact hself.2

/-- A tree that leaves names alone does so after a rewriting. -/
theorem Rewrites.spares (h : Rewrites p n m) (hn : n.WellShaped) (hK : n.Spares K) : m.Spares K := by
  refine ⟨h.isMild hn hK, fun b hb => ?_⟩
  obtain ⟨a, ha, hab⟩ := h.parts hb
  exact hab.isTame (hn.part ha) fun c hc => hK.2 c (Node.parts_trans hc ha)

end ScriptTree

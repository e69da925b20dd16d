import ScriptTree.Proofs.Optimize.Folding
import ScriptTree.Proofs.Optimize.Shape
import ScriptTree.Proofs.Run.Observation

/-!
Rewriting does not change what a tree does. A tree of the shape a parser gives and the tree after one
rewriting are related by a similarity, so they end together and show the same; a walk is a sequence of
rewritings. Native loops are compared under early reading; where no native loop arises, evaluation is
as always.
-/

namespace ScriptTree

open Eval

variable {p : Pipeline} {n m : Node} {mode : Mode} {early : Bool} {host : Host}

/-- A name that must not be bound under these passes: that of a conversion, if calls of conversions are
computed in advance. -/
def Reserves (p : Pipeline) (x : String) : Prop :=
  .constantFolding ∈ p ∧ (NumericType.ofName? x).isSome = true

instance (p : Pipeline) (x : String) : Decidable (Reserves p x) :=
  inferInstanceAs (Decidable (_ ∧ _))

/-- What a tree must be like for these passes: well shaped, without bindings of the names they reserve
and, if loops become native, without functions of the names of counters. -/
structure Node.Fit (p : Pipeline) (n : Node) : Prop where
  shaped : n.WellShaped
  unreserved : ∀ x ∈ n.collect Node.binders, ¬Reserves p x
  keeps : .countedLoop ∈ p → n.KeepsCounters

theorem Node.Fit.part (h : n.Fit p) (hm : m ∈ n.parts) : m.Fit p where
  shaped := h.shaped.part hm
  unreserved x hx := h.unreserved x (Node.collect_part _ hm hx)
  keeps hp a ha := h.keeps hp a (Node.parts_trans ha hm)

theorem Node.Fit.child (h : n.Fit p) (hm : m ∈ n.children) : m.Fit p := h.part (Node.mem_parts_child hm)

/-- Rewriting keeps what a tree must be like. -/
theorem Rewrites.fit (h : Rewrites p n m) (hn : n.Fit p) : m.Fit p where
  shaped := h.wellShaped hn.shaped
  unreserved x hx := hn.unreserved x (h.collect hn.shaped (fun _ _ => Becomes.binders) hx)
  keeps hp := h.keepsCounters hn.shaped (hn.keeps hp)

/-- How a node, or at the end of a function's body its datum, comes out of one rewriting. -/
inductive Turned (p : Pipeline) : Mode → Node → Node → Prop
  | near {mode : Mode} {n m : Node} (h : Near p n m) : Turned p mode n m
  | body {s t : String} {a b : Span} {init : List Node} {e : Node} :
    Turned p .tail (.construct .block s a (init ++ [.construct .returned t b [e]]))
      (.construct .block s a (init ++ [e]))
  | value {t : String} {b : Span} {e : Node} : Turned p .tail (.construct .returned t b [e]) e

/-- A fit tree and what it turned into. -/
def Turns (p : Pipeline) (mode : Mode) (n m : Node) : Prop := n.Fit p ∧ Turned p mode n m

/-- Functions that go together: their bodies turn into one another. -/
def TurnsFunction (p : Pipeline) (f g : ScriptFunction) : Prop :=
  f.name = g.name ∧ f.parameters = g.parameters ∧ (∀ x ∈ f.parameters, ¬Reserves p x) ∧
    Turns p .tail f.body g.body

/-- Runs of a tree before and after a rewriting. -/
def rewriteSetting (p : Pipeline) (early : Bool) : Setting :=
  ⟨TurnsFunction p, Reserves p, fun _ => early, fun _ => early, 0, 0⟩

theorem Turns.refl (h : n.Fit p) : Turns p mode n n := ⟨h, .near .refl⟩

/-! ### Nodes over rewritten nodes -/

theorem Aligned.of_forall₂ {R : Node → Node → Prop} {ns ms : List Node} (h : List.Forall₂ R ns ms) :
    Aligned (fun _ => R) ns ms where
  length := h.length_eq
  get i n m hn hm := by
    obtain ⟨hi, rfl⟩ := List.getElem?_eq_some_iff.1 hn
    obtain ⟨hi', rfl⟩ := List.getElem?_eq_some_iff.1 hm
    exact h.get hi hi'

/-- The children of a fit node, after rewritings below it. -/
theorem Node.Fit.aligned {ms : List Node} (hn : n.Fit p) (h : List.Forall₂ (Near p) n.children ms) :
    Aligned (fun _ a b => a ∈ n.children ∧ Near p a b ∧ Turns p .exact a b) n.children ms :=
  (Aligned.of_forall₂ h).imp fun _ _ _ ha _ hab =>
    have hmem := List.mem_of_getElem? ha
    ⟨hmem, hab, hn.child hmem, .near hab⟩

theorem Near.sameName (h : Near p n m) (hn : n.isForm .identifier = true) : SameName n m :=
  have hm := h.isForm rfl hn
  ⟨hn.trans hm.1.symm, fun _ => hm.2.1.symm⟩

theorem turns_all {ns ms : List Node} (hns : ∀ a ∈ ns, a.Fit p) (h : List.Forall₂ (Near p) ns ms) :
    List.Forall₂ (Turns p mode) ns ms := by
  induction h with
  | nil => exact .nil
  | @cons a b ns ms hab h ih =>
    exact .cons ⟨hns a (.head _), .near hab⟩ (ih fun a ha => hns a (.tail _ ha))

theorem statements_near {ns ms : List Node} (hns : ∀ a ∈ ns, a.Fit p) (h : List.Forall₂ (Near p) ns ms) :
    Statements (Turns p) mode ns ms := by
  induction h with
  | nil => exact .nil
  | @cons a b ns ms hab h ih =>
    exact .cons ⟨hns a (.head _), .near hab⟩ (ih fun a ha => hns a (.tail _ ha))

theorem getLast_near {ns ms : List Node} (h : List.Forall₂ (Near p) ns ms) (hn : ns ≠ []) (hm : ms ≠ []) :
    Near p (ns.getLast hn) (ms.getLast hm) := by
  induction h with
  | nil => exact absurd rfl hn
  | @cons a b ns ms hab h ih =>
    cases h with
    | nil => exact hab
    | cons h₁ h => exact ih (List.cons_ne_nil _ _) (List.cons_ne_nil _ _)

/-- The functions that a definition binds before and after rewritings below it. -/
theorem functionOf?_near {text : String} {span : Span} {ns ms : List Node}
    (hn : (Node.construct .definition text span ns).Fit p) (h : List.Forall₂ (Near p) ns ms) :
    Option.Rel (fun f g => TurnsFunction p f g ∧ f.name = g.name ∧ ¬Reserves p f.name)
      (Node.functionOf? ns) (Node.functionOf? ms) := by
  have hfits : Node.fitsForm .definition text ns = true := hn.shaped _ (Node.mem_parts_self _)
  have hp := parametersOf_near h hfits
  cases h with
  | nil => cases hfits
  | @cons a b ns ms h₁ h => cases h with
    | nil => cases hfits
    | @cons a' b' ns ms h₂ h =>
      have hname := (definitionName_near h₁ hfits).symm
      have hbinders := Node.collect_self Node.binders (.construct .definition text span (a :: a' :: ns))
      refine .some ⟨⟨hname, hp.symm, fun x hx => hn.unreserved x (hbinders (.tail _ hx)), ?_⟩, hname,
        hn.unreserved _ (hbinders (.head _))⟩
      exact ⟨hn.child (.tail _ (List.getLast_mem _)), .near (getLast_near (.cons h₂ h) _ _)⟩

/-- A target of an assignment, before and after rewritings below it. -/
theorem Near.sameTarget (h : Near p n m) (hn : n.Fit p)
    (hform : n.isForm .identifier = true ∨ n.isForm .declaration = true) :
    SameTarget n m ∧ (n.isForm .declaration = true → ¬Reserves p n.declaredName) := by
  rcases hform with hform | hform
  · obtain ⟨text, span, ns, rfl⟩ := Rule.isForm_eq hform
    obtain ⟨ms, rfl, -⟩ := h.inert rfl
    exact ⟨⟨rfl, fun _ => rfl, nofun⟩, nofun⟩
  · obtain ⟨text, span, ns, rfl⟩ := Rule.isForm_eq hform
    obtain ⟨ms, rfl, hms⟩ := h.inert rfl
    have hfits : Node.fitsForm .declaration text ns = true := hn.shaped _ (Node.mem_parts_self _)
    refine ⟨⟨rfl, nofun, fun _ => (declaredName_near hms hfits).symm⟩, fun _ => ?_⟩
    exact hn.unreserved _ (Node.collect_self Node.binders _ (.head _))

/-- What a call refers to by its name is rewritten to the same name, and nothing else becomes a name. -/
theorem Near.sameName_callee {a b : Node} (h : Near p a b) (ha : a.isCallee = true) : SameName a b := by
  cases hid : a.isForm .identifier with
  | true => exact h.sameName hid
  | false => exact ⟨(h.isCallee ha).2.symm, fun hid' => by rw [hid] at hid'; cases hid'⟩

/-- A construct over rewritten nodes is congruent. -/
theorem congruent_near {form : Form} {text : String} {span : Span} {ns ms : List Node}
    (hn : (Node.construct form text span ns).Fit p) (h : List.Forall₂ (Near p) ns ms) :
    Congruent (rewriteSetting p early) (Turns p) mode (.construct form text span ns)
      (.construct form text span ms) := by
  have hfits : Node.fitsForm form text ns = true := hn.shaped _ (Node.mem_parts_self _)
  have haligned := hn.aligned h
  cases form with
  | identifier | breakLoop | continueLoop | noop | argumentList => exact .leaf rfl
  | conditional | ternary | binary | forLoop | whileLoop | returned =>
    exact .strict rfl (haligned.imp fun _ _ _ _ _ h => h.2.2)
  | block => exact .block (statements_near (fun a ha => hn.child ha) h)
  | definition => exact .definition (functionOf?_near hn h)
  | declaration =>
    exact .declaration (declaredName_near h hfits).symm
      (hn.unreserved _ (Node.collect_self Node.binders _ (.head _)))
  | prefixed =>
    obtain ⟨operand, rfl, hoperand⟩ := Node.fitsForm_prefixed.1 hfits
    refine .prefixed (haligned.imp fun i a b ha _ hab => ⟨hab.2.2, fun hop hi => ?_⟩)
    subst hi
    obtain rfl : operand = a := by simpa [Node.children] using ha
    exact hab.2.1.sameName (hoperand hop)
  | equation =>
    obtain ⟨target, value, rfl, hform⟩ := Node.fitsForm_equation.1 hfits
    refine .equation (haligned.imp fun i a b ha _ hab => ⟨fun hi => ?_, fun _ => hab.2.2⟩)
    subst hi
    obtain rfl : target = a := by simpa [Node.children] using ha
    have htarget := hab.2.1.sameTarget (hn.child hab.1) hform
    exact ⟨htarget.1, hab.2.2, htarget.2⟩
  | call =>
    refine .call (haligned.imp fun i a b ha _ hab => ⟨fun hi => ?_, fun hi => ?_⟩)
    · subst hi
      exact ⟨hab.2.1.sameName_callee (hn.shaped.callee ha), fun _ => hab.2.2⟩
    · subst hi
      obtain ⟨-, -, hchildren⟩ := hab.2.1.isForm rfl (hn.shaped.arguments ha)
      exact turns_all (fun x hx => (hn.child hab.1).child hx) hchildren

/-- A node over rewritten nodes is congruent; a native loop is so if all or none of the views are read
early. -/
theorem Node.Fit.congruent {ms : List Node} (hn : n.Fit p) (h : List.Forall₂ (Near p) n.children ms) :
    Congruent (rewriteSetting p early) (Turns p) mode n (n.withChildren ms) := by
  cases n with
  | construct form text span ns => exact congruent_near hn h
  | constant v s a ns => exact .constant rfl
  | counted loop g text span ns =>
    refine .counted (hn.unreserved _ (Node.collect_self Node.binders _ (.head _))) (fun _ _ _ _ => rfl) ?_
    exact (hn.aligned h).imp fun _ _ _ _ _ h => h.2.2

theorem Node.Fit.congruent_refl (hn : n.Fit p) :
    Congruent (rewriteSetting p early) (Turns p) mode n n := by
  have : Congruent (rewriteSetting p early) (Turns p) mode n (n.withChildren n.children) :=
    hn.congruent (near_refl n.children)
  rwa [Node.withChildren_children] at this

/-! ### What the rules do -/

theorem declaresAny_eq_false {ns : List Node} (h : Rule.declaresAny ns = false) :
    ∀ c ∈ ns, c.isForm .block = true ∨ Rule.declares c = false := by
  induction ns with
  | nil => exact fun _ hc => nomatch hc
  | cons n ns ih =>
    rw [Rule.declaresAny, Bool.or_eq_false_iff] at h
    intro c hc
    rcases List.mem_cons.1 hc with rfl | hc
    · by_cases hb : c.isForm .block = true
      · exact .inl hb
      · exact .inr (by simpa [hb] using h.1)
    · exact ih h.2 c hc

theorem introducesAll_eq_nil {ns : List Node} (h : ∀ c ∈ ns, c.introduces = []) :
    Node.introducesAll ns = [] := by
  induction ns with
  | nil => rfl
  | cons n ns ih =>
    rw [Node.introducesAll, h n (.head _), ih fun c hc => h c (.tail _ hc)]
    rfl

theorem declares_construct {form : Form} {text : String} {span : Span} {ns : List Node}
    (h : Rule.declares (.construct form text span ns) = false) :
    form ≠ .declaration ∧ form ≠ .definition ∧ Rule.declaresAny ns = false := by
  rw [Rule.declares] at h
  simpa [Bool.or_eq_false_iff, and_assoc] using h

/-- A node that declares nothing introduces no name, and neither do its children. -/
theorem introduces_eq_nil (n : Node) : n.WellShaped →
    (n.isForm .block = true ∨ Rule.declares n = false → n.introduces = []) ∧
      (Rule.declares n = false → n.isForm .argumentList = true → Node.introducesAll n.children = []) := by
  induction n using Node.induction with
  | step n ih =>
    intro hn
    have hchildren : ∀ ns, ns = n.children → Rule.declaresAny ns = false → Node.introducesAll ns = [] :=
      fun ns hns h => introducesAll_eq_nil fun c hc =>
        (ih c (hns ▸ hc) (hn.part (Node.mem_parts_child (hns ▸ hc)))).1 (declaresAny_eq_false h c hc)
    cases n with
    | constant => exact ⟨fun _ => rfl, nofun⟩
    | counted => exact ⟨fun _ => rfl, nofun⟩
    | construct form text span ns =>
      refine ⟨fun h => ?_, fun h _ => hchildren ns rfl (declares_construct h).2.2⟩
      rcases h with h | h
      · obtain rfl : form = .block := by simpa [Node.isForm, Node.kind] using h
        rfl
      · obtain ⟨hdecl, hdef, hany⟩ := declares_construct h
        have hall := hchildren ns rfl hany
        cases form with
        | declaration => exact absurd rfl hdecl
        | definition => exact absurd rfl hdef
        | equation | binary | prefixed | conditional | ternary | whileLoop | returned => exact hall
        | call =>
          refine List.eq_nil_iff_forall_not_mem.2 fun x hx => ?_
          rcases Node.mem_introduces_call hx with ⟨callee, hc, hx⟩ | ⟨list, hlist, hx⟩
          · rw [(ih callee hc (hn.part (Node.mem_parts_child hc))).1 (declaresAny_eq_false hany callee hc)] at hx
            cases hx
          · have hform := hn.arguments hlist
            have hmem : list ∈ ns := List.mem_of_getElem? hlist
            have hd : Rule.declares list = false := by
              rcases declaresAny_eq_false hany list hmem with hb | hd
              · obtain ⟨_, _, _, rfl⟩ := Rule.isForm_eq hb
                cases hform
              · exact hd
            rw [(ih list hmem (hn.part (Node.mem_parts_child hmem))).2 hd hform] at hx
            cases hx
        | _ => rfl

/-- A function that a node introduces is defined in it. -/
theorem introduces_defines {x : String} (h : (.definition, x) ∈ n.introduces) :
    x ∈ n.collect Node.defines := by
  have key : ∀ n : Node, ((.definition, x) ∈ n.introduces → x ∈ n.collect Node.defines) ∧
      ((.definition, x) ∈ Node.introducesAll n.children → x ∈ n.collect Node.defines) := by
    intro n
    induction n using Node.induction with
    | step n ih =>
      have hall : (.definition, x) ∈ Node.introducesAll n.children → x ∈ n.collect Node.defines := by
        intro h
        obtain ⟨c, hc, hx⟩ := Node.mem_introducesAll.1 h
        exact Node.collect_part _ (Node.mem_parts_child hc) ((ih c hc).1 hx)
      refine ⟨fun h => ?_, hall⟩
      cases n with
      | constant => cases h
      | counted => cases h
      | construct form text span ns =>
        cases form with
        | definition =>
          cases ns with
          | nil => cases h
          | cons name rest =>
            obtain rfl : x = name.text := by simpa [Node.introduces] using h
            exact Node.collect_self Node.defines _ (.head _)
        | declaration => simp [Node.introduces] at h
        | equation | binary | prefixed | conditional | ternary | whileLoop | returned => exact hall h
        | call =>
          rcases Node.mem_introduces_call h with ⟨callee, hc, h⟩ | ⟨list, hlist, h⟩
          · exact Node.collect_part _ (Node.mem_parts_child hc) ((ih callee hc).1 h)
          · have hmem : list ∈ ns := List.mem_of_getElem? hlist
            exact Node.collect_part _ (Node.mem_parts_child hmem) ((ih list hmem).2 h)
        | _ => cases h
  exact (key n).1 h

/-- The setup of a loop that counts declares the counter. -/
theorem CountingHead.declares {setup test step : Node} {loop : CountedLoop}
    (h : CountingHead setup test step loop) : loop.counter ∈ setup.collect Node.declares := by
  cases h with
  | @mk x s t u first limit a b c d e f g h ns ms ps ks ls name hname =>
    rw [← hname]
    exact Node.collect_part _ (Node.mem_parts_child (.head _))
      (Node.collect_self Node.declares (.construct .declaration s b (name :: ns)) (.head _))

/-- A choice with a literal condition does what its branch does. -/
theorem deadBranch_runs (h : Rule.deadBranch n = some m) (c : Context) : n.RunsAs m c := by
  obtain ⟨form, text, span, b, s, a, ns, first, rest, rfl, hform, hm⟩ := Rule.deadBranch_eq_some h
  rcases hform with rfl | rfl <;> rcases hm with ⟨rfl, rfl⟩ | ⟨rfl, rfl⟩ <;>
    exact fun _ _ => ⟨rfl, fun _ => rfl⟩

/-- Arithmetic on constants comes to its result where conversions are not bound. -/
theorem constantFolding_runs (hp : .constantFolding ∈ p) (h : Rule.constantFolding n = some m) {c : Context}
    (hc : ∀ x, Reserves p x → c.get x = .error (.undefinedVariable x)) : n.RunsAs m c := by
  rcases Rule.constantFolding_eq_some h with ⟨op, span, lhs, rhs, rfl, h⟩ | ⟨text, span, callee, arguments, rfl, h⟩
  · exact foldBinary_runs h c
  · have hfold := Rule.foldConversion_eq_some h
    obtain ⟨name, s, a, ns, t, b, argument, d, r, rfl, -, hname, -⟩ := hfold
    exact foldConversion_runs h (hc name ⟨hp, hname⟩)

/-- The function of a definition with a body at the end. -/
theorem functionOf?_concat {name body : Node} {pre : List Node} :
    Node.functionOf? (name :: (pre ++ [body])) =
      some ⟨name.text, Node.parametersOf (name :: (pre ++ [body])), body⟩ := by
  cases pre with
  | nil => rfl
  | cons list rest =>
    simp only [List.cons_append, Node.functionOf?]
    congr
    exact List.getLast_append_singleton (list :: rest)

/-- The parameters of a definition do not depend on its body. -/
theorem parametersOf_concat {name body body' : Node} {pre : List Node} :
    Node.parametersOf (name :: (pre ++ [body])) = Node.parametersOf (name :: (pre ++ [body'])) := by
  match pre with
  | [] | [_] | _ :: _ :: _ => rfl

/-- A definition whose body loses the return at its end. -/
theorem trailingReturn_congruent (hn : n.Fit p) (h : Rule.trailingReturn n = some m) :
    Congruent (rewriteSetting p early) (Turns p) mode n m := by
  obtain ⟨text, span, pre, s, a, init, t, b, e, rfl, rfl⟩ := Rule.trailingReturn_eq_some h
  have hfits : Node.fitsForm .definition text
      (pre ++ [.construct .block s a (init ++ [.construct .returned t b [e]])]) = true :=
    hn.shaped _ (Node.mem_parts_self _)
  match pre with
  | [] => cases hfits
  | name :: rest =>
    refine .definition ?_
    rw [List.cons_append, List.cons_append, functionOf?_concat, functionOf?_concat]
    have hbinders := Node.collect_self Node.binders (.construct .definition text span
      (name :: (rest ++ [.construct .block s a (init ++ [.construct .returned t b [e]])])))
    refine .some ⟨⟨rfl, parametersOf_concat, fun x hx => hn.unreserved x (hbinders (.tail _ hx)), ?_⟩, rfl,
      hn.unreserved _ (hbinders (.head _))⟩
    exact ⟨hn.child (List.mem_append.2 (.inr (.head _))), .body⟩

/-- The statements of a body that loses the return at its end. -/
theorem statements_body {init : List Node} {t : String} {b : Span} {e : Node}
    (h : ∀ a ∈ init ++ [.construct .returned t b [e]], a.Fit p) :
    Statements (Turns p) .tail (init ++ [.construct .returned t b [e]]) (init ++ [e]) := by
  induction init with
  | nil => exact .last ⟨h _ (.head _), .value⟩
  | cons a init ih => exact .cons (.refl (h a (.head _))) (ih fun c hc => h c (.tail _ hc))

/-- Trees that turn into one another are linked. -/
theorem Turns.linked (hearly : .countedLoop ∈ p → early = true) (h : Turns p mode n m) :
    Linked (rewriteSetting p early) (Turns p) mode n m := by
  obtain ⟨hn, h⟩ := h
  cases h with
  | body => exact .congruent (.block (statements_body fun a ha => hn.child ha))
  | value => exact .returned (.refl (hn.child (.head _))) (hn.child (.head _)).congruent_refl
  | near h => cases h with
    | refl => exact .congruent hn.congruent_refl
    | single h => cases h with
      | child h ha => exact .congruent (hn.congruent (ha ▸ near_child h))
      | @root pass _ _ hp h =>
        have hm : m.Fit p := Rewrites.fit (.root hp h) hn
        cases pass with
        | trailingReturn => exact .congruent (trailingReturn_congruent hn h)
        | loneBlock =>
          obtain ⟨text, span, rfl, hd⟩ := Rule.loneBlock_eq_some h
          exact .lone (.refl hm) hm.congruent_refl
            ((introduces_eq_nil m hm.shaped).1 (declaresAny_eq_false hd m (.head _)))
        | deadBranch =>
          exact .shortcut (.refl hm) hm.congruent_refl fun c _ => deadBranch_runs h c
        | constantFolding =>
          exact .shortcut (.refl hm) hm.congruent_refl fun c hc => constantFolding_runs hp h hc
        | countedLoop =>
          obtain ⟨text, span, setup, test, step, body, loop, rfl, hhead, rfl⟩ := Rule.countedLoop_eq_some h
          have hhead := countingHead_of_countedHead? hhead
          have hkeeps : (setup.collect Node.declares).all _ = true := hn.keeps hp _ (Node.mem_parts_self _)
          have hx := List.all_eq_true.1 hkeeps _ hhead.declares
          have hbody : body ∈ (Node.construct .forLoop text span [setup, test, step, body]).children := by
            simp [Node.children]
          refine .native hhead (.refl (hn.child hbody)) ?_ (fun hdef => ?_) fun _ _ => hearly hp
          · exact hm.unreserved _ (Node.collect_self Node.binders _ (.head _))
          · rw [Bool.not_eq_true', List.contains_eq_mem, decide_eq_false_iff_not] at hx
            exact hx (Node.collect_part _ (Node.mem_parts_child hbody) (introduces_defines hdef))

end ScriptTree

import ScriptTree.Proofs.Optimize.Restoring
import ScriptTree.Proofs.Tree.RoundTrip

/-!
Programs that are walked, written and read back. The program read back has no native loop any more, so it is
the program after a walk that leaves loops alone, but for its spans, which nothing that runs looks at. What is
asked for native loops, that their counters are left alone, is not asked for here.
-/

namespace ScriptTree

variable {p : Pipeline} {n : Node} {c : Context}

/-- Runs of trees that differ in their spans. -/
def spanSetting (φ : Span → Span) : Setting :=
  ⟨fun f g => g = ⟨f.name, f.parameters, f.body.mapSpan φ⟩, fun _ => False, fun _ => false, fun _ => false, 0, 0⟩

theorem span_similarity (φ : Span → Span) : Similarity (spanSetting φ) fun _ n m => m = n.mapSpan φ where
  step := by
    rintro mode n _ rfl
    exact .congruent (.mapSpan φ (fun _ h => h) (fun _ _ _ => rfl) (fun _ _ _ _ => rfl) (fun _ _ => rfl)
      fun _ _ _ _ _ => rfl)
  name f g h := by rw [show g = _ from h]
  parameters f g h := by rw [show g = _ from h]
  unreserved f g h x hx hr := hr
  body f g h := by rw [show g = _ from h]

/-- Nothing that runs looks at spans. -/
theorem mapSpan_equivalent (φ : Span → Span) (n : Node) (hc : c.Starts p fun _ => False) (host : Host) :
    n.Equivalent (Node.eval host) (Node.eval host) (n.mapSpan φ) c := by
  intro s
  have hA : Agree (spanSetting φ) .one c c := hc.agree (fun _ h => h.elim) fun f hf => hf.2.elim
  have := (span_similarity φ).shows_iff (n := n) host rfl hA (World.one_admits rfl rfl _) (by simp [World.one]) s
  rwa [show Node.evalEarly (spanSetting φ).earlyLeft host = Node.eval host from Node.evalEarly_never host,
    show Node.evalEarly (spanSetting φ).earlyRight host = Node.eval host from Node.evalEarly_never host] at this

/-- The passes that leave loops alone reserve the same names. -/
theorem reserves_filter (x : String) : Reserves (p.filter (· ≠ .countedLoop)) x ↔ Reserves p x := by
  simp [Reserves]

/-- A program that was read is walked and written, and what is read back does what the program does, if neither
the program nor the context binds the name of a conversion that is computed in advance. -/
theorem emitted_equivalent {bs : Scope} (h : n.Decoded) (hshape : n.WellShaped)
    (hnames : ∀ x ∈ n.collect Node.binders, ¬Reserves p x)
    (hbs : ∀ b ∈ bs, (∃ d, b.2 = .plain d) ∧ ¬Reserves p b.1) (host : Host) :
    ∃ m, Node.decode (p.walk n).tree.encode = .ok m ∧
      n.Equivalent (Node.eval host) (Node.eval host) m (.ofBindings bs) := by
  have hwritable : (p.walk n).tree.Writable Json.nestingLimit := walk_keeps (fun _ _ h => h.writable) h.writable.1
  refine ⟨_, decode_encode hwritable, ?_⟩
  rw [(walk_restoresTo n h.writable.2).restored]
  have hfit : n.Fit (p.filter (· ≠ .countedLoop)) :=
    ⟨hshape, fun x hx hr => hnames x hx ((reserves_filter x).1 hr), fun hp => by simp at hp⟩
  have hstarts {good : Node → Prop} : (Context.ofBindings bs).Starts (p.filter (· ≠ .countedLoop)) good :=
    Context.starts_ofBindings fun b hb => ⟨(hbs b hb).1, fun hr => (hbs b hb).2 ((reserves_filter b.1).1 hr)⟩
  exact (walk_equivalent_generic (by simp) hfit hstarts host).trans (mapSpan_equivalent _ _ hstarts host)

/-- A loop that becomes native and is folded is read back as a loop that does the same. -/
theorem emitted_equivalent_sumInLoop :
    let n := Node.sumInLoop
    let p := Pipeline.standard
    let bs : Scope := [("emit", .plain (.host ⟨0, "emit"⟩))]
    n.Decoded ∧ n.WellShaped ∧ (∀ x ∈ n.collect Node.binders, ¬Reserves p x) ∧
      (∀ b ∈ bs, (∃ d, b.2 = .plain d) ∧ ¬Reserves p b.1) ∧
      ∃ m, Node.decode (p.walk n).tree.encode = .ok m ∧
        n.Equivalent (Node.eval .silent) (Node.eval .silent) m (.ofBindings bs) := by
  have hshape : Node.sumInLoop.WellShaped := by decide
  have hnames : ∀ x ∈ Node.sumInLoop.collect Node.binders, ¬Reserves .standard x := by decide
  have hbs : ∀ b ∈ ([("emit", .plain (.host ⟨0, "emit"⟩))] : Scope),
      (∃ d, b.2 = .plain d) ∧ ¬Reserves .standard b.1 := by
    intro b hb
    obtain rfl := List.mem_singleton.1 hb
    exact ⟨⟨_, rfl⟩, by decide⟩
  exact ⟨Node.decoded_sumInLoop, hshape, hnames, hbs,
    emitted_equivalent Node.decoded_sumInLoop hshape hnames hbs .silent⟩

end ScriptTree

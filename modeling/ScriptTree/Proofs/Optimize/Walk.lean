import ScriptTree.Proofs.Optimize.Soundness

/-!
Walks do not change what a tree does, run from a context that has one scope and no native loop open.
-/

namespace ScriptTree

variable {p : Pipeline} {n m : Node} {early : Bool} {host : Host} {c : Context}

/-- A context in which programs begin: one scope, of data only, in which no reserved name is bound, and
functions that are like the programs. -/
structure Context.Starts (p : Pipeline) (good : Node → Prop) (c : Context) : Prop where
  global : c.enclosing = []
  plain : ∀ x a, c.innermost.find? x ≠ some (.cell a)
  unbound : ∀ x, Reserves p x → c.innermost.find? x = none
  noCells : c.cells = #[]
  functions : ∀ f ∈ c.functions.toList, (∀ x ∈ f.parameters, ¬Reserves p x) ∧ good f.body

theorem Context.Starts.imp {good good' : Node → Prop} (h : c.Starts p good) (hgood : ∀ n, good n → good' n) :
    c.Starts p good' :=
  ⟨h.global, h.plain, h.unbound, h.noCells, fun f hf => (h.functions f hf).imp id (hgood _)⟩

/-- A new context with data under names that are not reserved. -/
theorem Context.starts_ofBindings {good : Node → Prop} {bs : Scope}
    (h : ∀ b ∈ bs, (∃ d, b.2 = .plain d) ∧ ¬Reserves p b.1) : (Context.ofBindings bs).Starts p good where
  global := rfl
  plain x a hx := by
    obtain ⟨d, hd⟩ := (h _ (Scope.mem_of_find? hx)).1
    cases hd
  unbound x hx := by
    cases hf : (Context.ofBindings bs).innermost.find? x with
    | none => rfl
    | some slot => exact absurd hx (h _ (Scope.mem_of_find? hf)).2
  noCells := rfl
  functions f hf := nomatch hf

/-- The world of one scope. -/
def World.one : World := ⟨[.shared], [], []⟩

/-- A context in which programs begin agrees with itself. -/
theorem Context.Starts.agree {good : Node → Prop} {st : Setting} (h : c.Starts p good)
    (hr : ∀ x, st.reserved x → Reserves p x)
    (hknown : ∀ f, (∀ x ∈ f.parameters, ¬Reserves p x) ∧ good f.body → st.known f f) :
    Agree st .one c c where
  sound := by
    constructor <;> intros <;> simp_all [World.one, World.Twins, World.Pins]
  calls := rfl
  functions := List.forall₂_same.2 fun f hf => hknown f (h.functions f hf)
  sizeLeft := by rw [h.noCells]; rfl
  sizeRight := by rw [h.noCells]; rfl
  twins l a b hab := by cases hab.1
  scopes := by
    have hp : ∀ level x, ¬World.one.Pins level x := by
      rintro level x (⟨a, ha⟩ | ⟨b, hb⟩)
      · cases ha
      · cases hb
    have hs : c.scopes = [c.innermost] := by rw [Context.scopes, h.global]
    rw [hs]
    refine .shared (fun x => ?_) (fun x hx => ⟨h.unbound x (hr x hx), h.unbound x (hr x hx)⟩) .nil
    cases hx : c.innermost.find? x with
    | none => exact .absent (hp _ _)
    | some s => cases s with
      | plain d => exact .plain (hp _ _)
      | cell a => exact absurd hx (h.plain x a)

theorem World.one_admits {st : Setting} (h₁ : st.lowLeft = 0) (h₂ : st.lowRight = 0)
    (names : List (Form × String)) : World.one.Admits st names :=
  ⟨by simp [h₁], by simp [h₂], fun _ _ _ => ⟨[], rfl, fun _ hp => by
    rcases hp with ⟨a, ha⟩ | ⟨b, hb⟩
    · cases ha
    · cases hb⟩⟩

/-! ### Early reading without native loops -/

/-- Runs of the same trees, which have no native loop, with and without early reading. -/
def genericSetting : Setting :=
  ⟨fun f g => f = g ∧ f.body.Generic, fun _ => False, fun _ => false, fun _ => true, 0, 0⟩

theorem generic_similarity : Similarity genericSetting fun _ n m => n = m ∧ n.Generic where
  step := by
    rintro mode n _ ⟨rfl, hn⟩
    have hchild : ∀ c ∈ n.children, c.Generic := fun c hc => hn.part (Node.mem_parts_child hc)
    refine .congruent (.refl (fun _ h => h) (fun c hc _ => ⟨rfl, hchild c hc⟩)
      (fun c hc k hk => ⟨rfl, (hchild c hc).part (Node.mem_parts_child hk)⟩) (fun f hf => ⟨rfl, ?_⟩)
      fun hk => absurd hk (hn n n.mem_parts_self))
    exact hchild _ (Node.functionOf?_body hf)
  name f g h := by rw [h.1]
  parameters f g h := by rw [h.1]
  unreserved f g h x hx hr := hr
  body f g h := ⟨by rw [h.1], h.2⟩

/-- Where there is no native loop nothing is read early. -/
theorem generic_equivalent (hn : n.Generic) (hc : c.Starts p Node.Generic) (host : Host) :
    n.Equivalent (Node.eval host) (Node.evalEarly (fun _ => true) host) n c := by
  intro s
  have hA : Agree genericSetting .one c c := hc.agree (fun _ h => h.elim) fun f hf => ⟨rfl, hf.2⟩
  have := generic_similarity.shows_iff host ⟨rfl, hn⟩ hA (World.one_admits rfl rfl _) (by simp [World.one]) s
  rwa [show Node.evalEarly genericSetting.earlyLeft host = Node.eval host from Node.evalEarly_never host]
    at this

/-! ### Walks -/

theorem rewrite_similarity (hearly : .countedLoop ∈ p → early = true) :
    Similarity (rewriteSetting p early) (Turns p) where
  step _ _ _ h := h.linked hearly
  name _ _ h := h.1
  parameters _ _ h := h.2.1
  unreserved _ _ h := h.2.2.1
  body _ _ h := h.2.2.2

/-- A tree shows what it shows after a rewriting. -/
theorem Rewrites.equivalent (h : Rewrites p n m) (hn : n.Fit p) (hc : c.Starts p (Node.Fit p))
    (hearly : .countedLoop ∈ p → early = true) (host : Host) :
    n.Equivalent (Node.evalEarly (fun _ => early) host) (Node.evalEarly (fun _ => early) host) m c := by
  have hA : Agree (rewriteSetting p early) .one c c :=
    hc.agree (fun _ h => h) fun f hf => ⟨rfl, rfl, hf.1, .refl hf.2⟩
  exact (rewrite_similarity hearly).shows_iff host ⟨hn, .near (.single h)⟩ hA (World.one_admits rfl rfl _)
    (by simp [World.one])

/-- A tree shows what it shows after a walk, whichever passes there are; native loops are under early
reading. -/
theorem walk_equivalent (hn : n.Fit p) (hc : c.Starts p (Node.Fit p))
    (hearly : .countedLoop ∈ p → early = true) (host : Host) :
    n.Equivalent (Node.evalEarly (fun _ => early) host) (Node.evalEarly (fun _ => early) host)
      (p.walk n).tree c := by
  exact (walk_keeps (P := fun m => m.Fit p ∧
      n.Equivalent (Node.evalEarly (fun _ => early) host) (Node.evalEarly (fun _ => early) host) m c)
    (fun _ _ h hm => ⟨h.fit hm.1, hm.2.trans (h.equivalent hm.1 hc hearly host)⟩)
    ⟨hn, fun _ => Iff.rfl⟩).2

/-- Where loops do not become native, a tree shows what it shows after a walk. -/
theorem walk_equivalent_generic (hp : .countedLoop ∉ p) (hn : n.Fit p) (hc : c.Starts p (Node.Fit p))
    (host : Host) : n.Equivalent (Node.eval host) (Node.eval host) (p.walk n).tree c := by
  have hearly : .countedLoop ∈ p → false = true := fun h => absurd h hp
  have := walk_equivalent hn hc hearly host
  rwa [Node.evalEarly_never] at this

end ScriptTree

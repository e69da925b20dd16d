import ScriptTree.Proofs.Run.Follow
import ScriptTree.Proofs.Run.Counter
import ScriptTree.Proofs.Run.Early

/-!
Computations that keep two contexts in agreement.

A computation is simulated by a family of computations if the family follows it from any two contexts
that agree, into contexts that agree, with results that are related. The operations on contexts are
simulated by themselves. `Finish` relates what two nodes come to.
-/

namespace ScriptTree

variable {α β γ δ : Type} {st : Setting} {w : World} {mode : Mode}

/-- From contexts that agree `X` follows `x`, and their results are related by `V`. -/
def Sim (st : Setting) (w : World) (V : Context → Context → α → β → Prop) (x : Eval α)
    (X : Nat → Eval β) : Prop :=
  ∀ c d, Agree st w c d → Eval.Follows (Eval.Ends (Agree st w) V) x X c d

/-- The results are the same. -/
abbrev Same (_ _ : Context) (a b : α) : Prop := a = b

/-- Completions with related values and the same flow; the value of a return is a datum. -/
structure Completes (V : Value → Value → Prop) (r r' : Completion) : Prop where
  value : V r.value r'.value
  flow : r.flow = r'.flow
  returned : r.flow = .returned → ∃ x, r.value = .plain x ∧ r'.value = .plain x

/-- What two nodes come to. At the end of a function's body only the datum matters. -/
def Finish (w : World) (mode : Mode) (c d : Context) (r r' : Completion) : Prop :=
  match mode with
  | .exact => Completes (Alike w c d) r r'
  | .tail => c.read r.value = d.read r'.value

/-- Completions that are the same and do not depend on cells. -/
def Settled (r r' : Completion) : Prop := r = r' ∧ ∃ x, r.value = .plain x

theorem Completes.imp {V V' : Value → Value → Prop} {r r' : Completion} (h : Completes V r r')
    (hV : ∀ {u v}, V u v → V' u v) : Completes V' r r' :=
  ⟨hV h.value, h.flow, h.returned⟩

theorem Finish.of_exact {c d : Context} {r r' : Completion} (hA : Agree st w c d)
    (h : Completes (Alike w c d) r r') : Finish w mode c d r r' := by
  cases mode with
  | exact => exact h
  | tail => exact h.value.read hA

theorem Finish.read {c d : Context} {r r' : Completion} (hA : Agree st w c d)
    (h : Finish w mode c d r r') : c.read r.value = d.read r'.value := by
  cases mode with
  | exact => exact h.value.read hA
  | tail => exact h

/-- A datum on both sides. -/
theorem Completes.ofDatum {V : Value → Value → Prop} {x : Datum} (h : V (.plain x) (.plain x))
    (f : Flow) : Completes V ⟨.plain x, f⟩ ⟨.plain x, f⟩ :=
  ⟨h, rfl, fun _ => ⟨x, rfl, rfl⟩⟩

theorem Completes.ofValue {V : Value → Value → Prop} {u v : Value} (h : V u v) :
    Completes V (.ofValue u) (.ofValue v) :=
  ⟨h, rfl, nofun⟩

theorem Settled.finish {c d : Context} {r r' : Completion} (hA : Agree st w c d) (h : Settled r r') :
    Finish w mode c d r r' := by
  obtain ⟨rfl, x, hx⟩ := h
  exact .of_exact hA ⟨hx ▸ .held .plain, rfl, fun _ => ⟨x, hx, hx⟩⟩

/-- Values stay alike where the cells hold what they held. -/
theorem Alike.congr {w' : World} {c d c' d' : Context} {u v : Value} (h : Alike w c d u v)
    (hl : w'.left = w.left) (hr : w'.right = w.right) (hc : ∀ a, c'.cellAt a = c.cellAt a)
    (hd : ∀ b, d'.cellAt b = d.cellAt b) : Alike w' c' d' u v := by
  cases h with
  | held h =>
    cases h with
    | plain => exact .held .plain
    | twins h => exact .held (.twins ⟨hl ▸ h.1, hr ▸ h.2⟩)
  | right h =>
    rw [← hd]
    exact .right (hr ▸ h)
  | left h =>
    rw [← hc]
    exact .left (hl ▸ h)

theorem Context.read_congr {c c' : Context} (h : ∀ a, c'.cellAt a = c.cellAt a) (v : Value) :
    c'.read v = c.read v := by
  cases v with
  | plain => rfl
  | cell a => simp [Context.read, h]

theorem Finish.congr {w' : World} {c d c' d' : Context} {r r' : Completion} (h : Finish w mode c d r r')
    (hl : w'.left = w.left) (hr : w'.right = w.right) (hc : ∀ a, c'.cellAt a = c.cellAt a)
    (hd : ∀ b, d'.cellAt b = d.cellAt b) : Finish w' mode c' d' r r' := by
  cases mode with
  | exact => exact Completes.imp h fun h => h.congr hl hr hc hd
  | tail =>
    show c'.read r.value = d'.read r'.value
    rw [Context.read_congr hc, Context.read_congr hd]
    exact h

theorem Finish.pop {layer : Layer} {c d : Context} {r r' : Completion}
    (h : Finish (w.under layer) mode c d r r') : Finish w mode c.pop d.pop r r' :=
  h.congr rfl rfl (fun a => Context.cellAt_congr (Context.cells_pop _) a)
    fun b => Context.cellAt_congr (Context.cells_pop _) b

theorem Finish.pop_left {layer : Layer} {c d : Context} {r r' : Completion}
    (h : Finish (w.under layer) mode c d r r') : Finish w mode c.pop d r r' :=
  h.congr rfl rfl (fun a => Context.cellAt_congr (Context.cells_pop _) a) fun _ => rfl

theorem Finish.pop_right {layer : Layer} {c d : Context} {r r' : Completion}
    (h : Finish (w.under layer) mode c d r r') : Finish w mode c d.pop r r' :=
  h.congr rfl rfl (fun _ => rfl) fun b => Context.cellAt_congr (Context.cells_pop _) b

namespace Sim

variable {V : Context → Context → α → β → Prop} {U : Context → Context → γ → δ → Prop}
  {x : Eval α} {X : Nat → Eval β}

theorem imp {V' : Context → Context → α → β → Prop} (h : Sim st w V x X)
    (hV : ∀ {c d a b}, Agree st w c d → V c d a b → V' c d a b) : Sim st w V' x X :=
  fun c d hA => (h c d hA).imp fun hE => hE.imp id hV

theorem shift (k : Nat) (h : Sim st w V x X) : Sim st w V x (fun j => X (j + k)) :=
  fun c d hA => (h c d hA).shift k

theorem of_succ {Y : Nat → Eval β} (hY : ∀ j, Y (j + 1) = X j) (h : Sim st w V x X) : Sim st w V x Y :=
  fun c d hA => (h c d hA).of_succ hY

/-- A computation and then another one for its result. -/
theorem bind {f : α → Eval γ} {F : Nat → β → Eval δ} (hx : Sim st w V x X)
    (hf : ∀ a b c d, Agree st w c d → V c d a b →
      Eval.Follows (Eval.Ends (Agree st w) U) (f a) (fun j => F j b) c d) :
    Sim st w U (x >>= f) (fun j => X j >>= F j) :=
  fun c d hA => (hx c d hA).bind hf

/-- A computation and then another one, where the relation of results is the same at all times. -/
theorem andThen {R : α → β → Prop} {f : α → Eval γ} {F : Nat → β → Eval δ}
    (hx : Sim st w (fun _ _ => R) x X) (hf : ∀ a b, R a b → Sim st w U (f a) (fun j => F j b)) :
    Sim st w U (x >>= f) (fun j => X j >>= F j) :=
  hx.bind fun a b c d hA hR => hf a b hR c d hA

theorem pure {a : α} {b : β} (h : ∀ {c d}, Agree st w c d → V c d a b) :
    Sim st w V (Pure.pure a) (fun _ => Pure.pure b) :=
  fun _ _ hA => .pure hA (h hA)

theorem halt {h : Halt} : Sim st w V (Eval.halt h) (fun _ => Eval.halt h) := fun _ _ hA => .halt hA

theorem raise {f : Fault} : Sim st w V (Eval.raise f) (fun _ => Eval.raise f) := fun _ _ hA => .raise hA

theorem outOfFuel : Sim st w V (Eval.halt .outOfFuel) X := fun _ _ _ => .outOfFuel

theorem ofExcept {e : Except Fault α} :
    Sim st w Same (Eval.ofExcept e) (fun _ => Eval.ofExcept e) := fun _ _ hA => .ofExcept hA

theorem read {c d : Context} {u v : Value} (hA : Agree st w c d) (h : Alike w c d u v) :
    Eval.Follows (Eval.Ends (Agree st w) Same) (Eval.read u) (fun _ => Eval.read v) c d :=
  .look hA (h.read hA)

/-- A change made alike or refused for the same fault. -/
theorem change {f g : Context → Except Fault Context}
    (h : ∀ c d, Agree st w c d → Changed st w (f c) (g d)) :
    Sim st w Same (Eval.change f) (fun _ => Eval.change g) := by
  intro c d hA _
  refine ⟨_, .const, ?_⟩
  have hc := h c d hA
  unfold Eval.change
  generalize f c = r at hc
  generalize g d = r' at hc
  cases hc with
  | done h => exact .ok h rfl
  | refused => exact .error hA

theorem update {f g : Context → Context} (h : ∀ c d, Agree st w c d → Agree st w (f c) (g d)) :
    Sim st w Same (Eval.update f) (fun _ => Eval.update g) :=
  fun c d hA _ => ⟨_, .const, .ok (h c d hA) rfl⟩

theorem get (name : String) : Sim st w (Alike w) (Eval.get name) (fun _ => Eval.get name) := by
  intro c d hA _
  refine ⟨_, .const, ?_⟩
  unfold Eval.get
  rcases hA.get name with ⟨u, v, h₁, h₂, h⟩ | ⟨h₁, h₂⟩
  · rw [h₁, h₂]
    exact .ok hA h
  · rw [h₁, h₂]
    exact .error hA

/-- A computation in other contexts: `f` and `g` lead into them, `p` and `q` back. -/
theorem mapContext {v : World} {Q : Context → Context → α → β → Prop} {y : Eval α}
    {Y : Nat → Eval β} {f g p q : Context → Context}
    (hy : ∀ c d, Agree st v c d → y c = ((x (f c)).1, p (x (f c)).2))
    (hY : ∀ c d, Agree st v c d → ∀ j, Y j d = ((X j (g d)).1, q (X j (g d)).2))
    (hx : Sim st w V x X) (henter : ∀ c d, Agree st v c d → Agree st w (f c) (g d))
    (hleave : ∀ c₀ d₀ c d, Agree st v c₀ d₀ → Agree st w c d → Agree st v (p c) (q d))
    (hV : ∀ {c d a b}, Agree st w c d → V c d a b → Q (p c) (q d) a b) :
    Sim st v Q y Y := by
  intro c d hA hne
  rw [hy c d hA] at hne ⊢
  obtain ⟨o, hs, hE⟩ := hx _ _ (henter c d hA) hne
  refine ⟨(o.1, q o.2), hs.map (f := fun o => (o.1, q o.2)) fun j => hY c d hA j, ?_⟩
  generalize x (f c) = r at hE ⊢
  cases hE with
  | ok h₁ h₂ => exact .ok (hleave _ _ _ _ hA h₁) (hV h₁ h₂)
  | error h₁ => exact .error (hleave _ _ _ _ hA h₁)

/-- Computations that come to related results from contexts that agree, whatever the fuel. -/
theorem of_eq (h : ∀ c d, Agree st w c d → ∃ a b c' d', x c = (.ok a, c') ∧ (∀ j, X j d = (.ok b, d')) ∧
    Agree st w c' d' ∧ V c' d' a b) : Sim st w V x X := by
  intro c d hA _
  obtain ⟨a, b, c', d', hx, hX, hA', hV⟩ := h c d hA
  exact ⟨_, ⟨0, fun j _ => hX j⟩, hx ▸ .ok hA' hV⟩

/-- Inside a scope that is open on both sides. -/
theorem withScope {Q : Context → Context → α → β → Prop} (hx : Sim st (w.under .shared) V x X)
    (hV : ∀ {c d a b}, Agree st (w.under .shared) c d → V c d a b → Q c.pop d.pop a b) :
    Sim st w Q (Eval.withScope x) (fun j => Eval.withScope (X j)) :=
  mapContext (fun _ _ _ => rfl) (fun _ _ _ _ => rfl) hx (fun _ _ h => h.push)
    (fun _ _ _ _ h₀ h => h₀.pop h) hV

/-- Inside a scope that is open on the left only. -/
theorem withScope_left {Q : Context → Context → α → β → Prop} (hx : Sim st (w.under .left) V x X)
    (hV : ∀ {c d a b}, Agree st (w.under .left) c d → V c d a b → Q c.pop d a b) :
    Sim st w Q (Eval.withScope x) X :=
  mapContext (g := id) (q := id) (fun _ _ _ => rfl) (fun _ _ _ _ => rfl) hx
    (fun _ _ h => h.push_left) (fun _ _ _ _ h₀ h => h₀.pop_left h) hV

/-- Inside a scope that is open on the right only. -/
theorem withScope_right {Q : Context → Context → α → β → Prop} (hx : Sim st (w.under .right) V x X)
    (hV : ∀ {c d a b}, Agree st (w.under .right) c d → V c d a b → Q c d.pop a b) :
    Sim st w Q x (fun j => Eval.withScope (X j)) :=
  mapContext (f := id) (p := id) (fun _ _ _ => rfl) (fun _ _ _ _ => rfl) hx
    (fun _ _ h => h.push_right) (fun _ _ _ _ h₀ h => h₀.pop_right h) hV

end Sim

/-! ### Children -/

/-- Two lists of the same length whose members at each position are related. -/
structure Aligned (R : Nat → Node → Node → Prop) (ns ms : List Node) : Prop where
  length : ns.length = ms.length
  get : ∀ (i : Nat) n m, ns[i]? = some n → ms[i]? = some m → R i n m

variable {R : Nat → Node → Node → Prop} {ns ms : List Node}

theorem Aligned.imp {R' : Nat → Node → Node → Prop} (h : Aligned R ns ms)
    (hR : ∀ (i : Nat) n m, ns[i]? = some n → ms[i]? = some m → R i n m → R' i n m) : Aligned R' ns ms :=
  ⟨h.length, fun i n m hn hm => hR i n m hn hm (h.get i n m hn hm)⟩

theorem Aligned.flip (h : Aligned R ns ms) : Aligned (fun i m n => R i n m) ms ns :=
  ⟨h.length.symm, fun i m n hm hn => h.get i n m hn hm⟩

/-- Children at an index are both there or both missing. -/
theorem Aligned.cases (h : Aligned R ns ms) (i : Nat) :
    (ns[i]? = none ∧ ms[i]? = none) ∨ ∃ n m, ns[i]? = some n ∧ ms[i]? = some m ∧ R i n m := by
  by_cases hi : i < ns.length
  · have hi' : i < ms.length := h.length ▸ hi
    have hn := List.getElem?_eq_getElem hi
    have hm := List.getElem?_eq_getElem hi'
    exact .inr ⟨_, _, hn, hm, h.get i _ _ hn hm⟩
  · exact .inl ⟨List.getElem?_eq_none (by omega), List.getElem?_eq_none (h.length ▸ by omega)⟩

theorem Sim.child (h : Aligned R ns ms) (i : Nat) :
    Sim st w (fun _ _ => R i) (Eval.child ns i) (fun _ => Eval.child ms i) := by
  unfold Eval.child
  rcases h.cases i with ⟨h₁, h₂⟩ | ⟨n, m, h₁, h₂, hR⟩
  · rw [h₁, h₂, h.length]
    exact .halt
  · rw [h₁, h₂]
    exact .pure fun _ => hR

end ScriptTree

import ScriptTree.Eval.Basic

/-!
One computation that follows another.

Fuel bounds a run, so two programs are compared by what they come to with enough of it. A family of
computations, one for each amount of fuel, settles on an outcome if from some amount on it yields
nothing else. It follows a single computation if, whenever that one does not run out of fuel, the
family settles on an outcome related to its outcome. The lemmas below say that following is kept by
the ways in which computations are put together, so that each construct of the language needs one
lemma, whichever of two programs is in front.
-/

namespace ScriptTree

variable {α β γ δ : Type}

/-- What a computation comes to: a result or the reason it stopped, and the context it leaves. -/
abbrev Outcome (α : Type) := Except Halt α × Context

namespace Eval

theorem bind_of_ok {x : Eval α} {f : α → Eval β} {c d : Context} {a : α} (h : x c = (.ok a, d)) :
    (x >>= f) c = f a d := by
  show Eval.bind x f c = f a d
  rw [Eval.bind, h]

theorem bind_of_error {x : Eval α} {f : α → Eval β} {c d : Context} {e : Halt} (h : x c = (.error e, d)) :
    (x >>= f) c = (.error e, d) := by
  show Eval.bind x f c = _
  rw [Eval.bind, h]

/-- From some amount of fuel on, the computation comes to this outcome. -/
def Settles (Y : Nat → Eval β) (d : Context) (o : Outcome β) : Prop :=
  ∃ k, ∀ j, k ≤ j → Y j d = o

/-- If `x` ends in `c`, then `Y` settles in `d` on an outcome that is related to the one of `x`. -/
def Follows (P : Outcome α → Outcome β → Prop) (x : Eval α) (Y : Nat → Eval β) (c d : Context) :
    Prop :=
  (x c).1 ≠ .error .outOfFuel → ∃ o, Settles Y d o ∧ P (x c) o

/-- Related outcomes: both contexts are related by `W`, and either both results are related by `V` or
both computations stopped for the same reason. -/
inductive Ends (W : Context → Context → Prop) (V : Context → Context → α → β → Prop) :
    Outcome α → Outcome β → Prop
  | ok {c d a b} (hW : W c d) (hV : V c d a b) : Ends W V (.ok a, c) (.ok b, d)
  | error {c d h} (hW : W c d) : Ends W V (.error h, c) (.error h, d)

theorem Settles.const {y : Eval β} {d : Context} : Settles (fun _ => y) d (y d) :=
  ⟨0, fun _ _ => rfl⟩

/-- A computation settles on one outcome at most. -/
theorem Settles.unique {Y : Nat → Eval β} {d : Context} {o o' : Outcome β} (h : Settles Y d o)
    (h' : Settles Y d o') : o = o' := by
  obtain ⟨k, hk⟩ := h
  obtain ⟨l, hl⟩ := h'
  rw [← hk (max k l) (Nat.le_max_left _ _), ← hl (max k l) (Nat.le_max_right _ _)]

/-- An outcome for all fuel from `1` on may be taken from a computation that uses up one unit. -/
theorem Settles.of_succ {Y Z : Nat → Eval β} {d : Context} {o : Outcome β}
    (hY : ∀ j, Y (j + 1) = Z j) (h : Settles Z d o) : Settles Y d o := by
  obtain ⟨k, hk⟩ := h
  refine ⟨k + 1, fun j hj => ?_⟩
  obtain ⟨i, rfl⟩ : ∃ i, j = i + 1 := ⟨j - 1, by omega⟩
  rw [hY]
  exact hk i (by omega)

/-- A family that does what another one does with one unit of fuel less comes to the same. -/
theorem Settles.succ_iff {Y Z : Nat → Eval β} {d : Context} {o : Outcome β} (h : ∀ j, Y (j + 1) d = Z j d) :
    Settles Y d o ↔ Settles Z d o := by
  constructor
  · rintro ⟨k, hk⟩
    exact ⟨k, fun j hj => (h j).symm.trans (hk (j + 1) (by omega))⟩
  · rintro ⟨k, hk⟩
    refine ⟨k + 1, fun j hj => ?_⟩
    obtain ⟨i, rfl⟩ : ∃ i, j = i + 1 := ⟨j - 1, by omega⟩
    exact (h i).trans (hk i (by omega))

theorem Settles.bind {Y : Nat → Eval β} {F : Nat → β → Eval δ} {d d' : Context} {b : β}
    {o : Outcome δ} (hY : Settles Y d (.ok b, d')) (hF : Settles (fun j => F j b) d' o) :
    Settles (fun j => Y j >>= F j) d o := by
  obtain ⟨k, hk⟩ := hY
  obtain ⟨l, hl⟩ := hF
  refine ⟨max k l, fun j hj => ?_⟩
  change Eval.bind (Y j) (F j) d = o
  rw [Eval.bind, hk j (by omega)]
  exact hl j (by omega)

theorem Settles.bind_error {Y : Nat → Eval β} {F : Nat → β → Eval δ} {d d' : Context} {h : Halt}
    (hY : Settles Y d (.error h, d')) : Settles (fun j => Y j >>= F j) d (.error h, d') := by
  obtain ⟨k, hk⟩ := hY
  refine ⟨k, fun j hj => ?_⟩
  change Eval.bind (Y j) (F j) d = _
  rw [Eval.bind, hk j hj]

/-- Post-processing of an outcome that does not depend on fuel. -/
theorem Settles.map {Y : Nat → Eval β} {Z : Nat → Eval δ} {d d' : Context} {o : Outcome β}
    {f : Outcome β → Outcome δ} (hZ : ∀ j, Z j d' = f (Y j d)) (h : Settles Y d o) :
    Settles Z d' (f o) := by
  obtain ⟨k, hk⟩ := h
  exact ⟨k, fun j hj => by rw [hZ, hk j hj]⟩

section Ends

variable {W W' : Context → Context → Prop} {V : Context → Context → α → β → Prop}
  {U : Context → Context → γ → δ → Prop}

theorem Ends.imp {V' : Context → Context → α → β → Prop} {o : Outcome α} {o' : Outcome β}
    (h : Ends W V o o') (hW : ∀ {c d}, W c d → W' c d)
    (hV : ∀ {c d a b}, W c d → V c d a b → V' c d a b) : Ends W' V' o o' := by
  cases h with
  | ok h₁ h₂ => exact .ok (hW h₁) (hV h₁ h₂)
  | error h₁ => exact .error (hW h₁)

theorem Follows.imp {P Q : Outcome α → Outcome β → Prop} {x : Eval α} {Y : Nat → Eval β}
    {c d : Context} (h : Follows P x Y c d) (hPQ : ∀ {o o'}, P o o' → Q o o') :
    Follows Q x Y c d := by
  intro hx
  obtain ⟨o, hs, hP⟩ := h hx
  exact ⟨o, hs, hPQ hP⟩

/-- A family that uses up one unit of fuel follows if the rest of it does. -/
theorem Follows.of_succ {P : Outcome α → Outcome β → Prop} {x : Eval α} {Y Z : Nat → Eval β}
    {c d : Context} (hY : ∀ j, Y (j + 1) = Z j) (h : Follows P x Z c d) : Follows P x Y c d := by
  intro hx
  obtain ⟨o, hs, hP⟩ := h hx
  exact ⟨o, hs.of_succ hY, hP⟩

/-- A computation that does the same as another one in a context may take its place. -/
theorem Follows.congr_left {P : Outcome α → Outcome β → Prop} {x y : Eval α}
    {Y : Nat → Eval β} {c d : Context} (hxy : x c = y c) (h : Follows P y Y c d) : Follows P x Y c d := by
  unfold Follows
  rw [hxy]
  exact h

/-- Families that are the same from some amount of fuel on. -/
theorem Follows.of_eventually {P : Outcome α → Outcome β → Prop} {x : Eval α} {Y Z : Nat → Eval β}
    {c d : Context} (k : Nat) (hYZ : ∀ j, k ≤ j → Z j d = Y j d) (h : Follows P x Y c d) :
    Follows P x Z c d := by
  intro hx
  obtain ⟨o, ⟨l, hl⟩, hP⟩ := h hx
  refine ⟨o, ⟨max k l, fun j hj => ?_⟩, hP⟩
  rw [hYZ j (by omega)]
  exact hl j (by omega)

/-- A family may start with more fuel. -/
theorem Follows.shift {P : Outcome α → Outcome β → Prop} {x : Eval α} {Y : Nat → Eval β}
    {c d : Context} (k : Nat) (h : Follows P x Y c d) : Follows P x (fun j => Y (j + k)) c d := by
  intro hx
  obtain ⟨o, ⟨l, hl⟩, hP⟩ := h hx
  exact ⟨o, ⟨l, fun j hj => hl _ (by omega)⟩, hP⟩

theorem Follows.outOfFuel {P : Outcome α → Outcome β → Prop} {Y : Nat → Eval β} {c d : Context} :
    Follows P (halt .outOfFuel) Y c d := fun h => absurd rfl h

theorem Follows.pure {a : α} {b : β} {c d : Context} (hW : W c d) (hV : V c d a b) :
    Follows (Ends W V) (Pure.pure a) (fun _ => Pure.pure b) c d :=
  fun _ => ⟨_, .const, .ok hW hV⟩

theorem Follows.halt {h : Halt} {c d : Context} (hW : W c d) :
    Follows (Ends W V) (Eval.halt h) (fun _ => Eval.halt h) c d :=
  fun _ => ⟨_, .const, .error hW⟩

theorem Follows.raise {f : Fault} {c d : Context} (hW : W c d) :
    Follows (Ends W V) (Eval.raise f) (fun _ => Eval.raise f) c d :=
  .halt hW

/-- Two results or faults that agree. -/
theorem Follows.ofExcept {e : Except Fault α} {c d : Context} (hW : W c d) :
    Follows (Ends W fun _ _ a b => a = b) (Eval.ofExcept e) (fun _ => Eval.ofExcept e) c d := by
  cases e with
  | ok a => exact .pure hW rfl
  | error f => exact .raise hW

/-- Looking at related contexts. -/
theorem Follows.look {f : Context → α} {g : Context → β} {c d : Context} (hW : W c d)
    (hV : V c d (f c) (g d)) : Follows (Ends W V) (Eval.look f) (fun _ => Eval.look g) c d :=
  fun _ => ⟨_, .const, .ok hW hV⟩

/-- One computation after another. -/
theorem Follows.bind {x : Eval α} {Y : Nat → Eval β} {f : α → Eval γ} {F : Nat → β → Eval δ}
    {c d : Context} (hx : Follows (Ends W V) x Y c d)
    (hf : ∀ a b c' d', W c' d' → V c' d' a b → Follows (Ends W U) (f a) (fun j => F j b) c' d') :
    Follows (Ends W U) (x >>= f) (fun j => Y j >>= F j) c d := by
  intro hne
  have hxe : (x >>= f) c = Eval.bind x f c := rfl
  rw [hxe] at hne ⊢
  rw [Eval.bind] at hne ⊢
  have hxc : (x c).1 ≠ .error .outOfFuel := by
    intro he
    rw [show x c = (.error .outOfFuel, (x c).2) from Prod.ext he rfl] at hne
    exact hne rfl
  obtain ⟨o, hs, ho⟩ := hx hxc
  generalize x c = p at hne ho ⊢
  cases ho with
  | ok hW hV =>
    obtain ⟨o', hs', ho'⟩ := hf _ _ _ _ hW hV hne
    exact ⟨o', hs.bind hs', ho'⟩
  | error hW => exact ⟨_, hs.bind_error, .error hW⟩

end Ends

end Eval

end ScriptTree

import ScriptTree.Proofs.Run.Variables

/-!
What contexts that agree do besides variables: scopes that are opened and closed on both sides or on
one, calls to the host, functions that are defined, and cells that are made and given up.
-/

namespace ScriptTree

variable {st : Setting} {w : World} {c d c₀ d₀ : Context} {L : List Layer} {level : Nat} {name : String}

/-! ### Scopes -/

theorem Agree.scopes_ne_nil (h : Agree st w c d) : (w.layers.filter (· != .right)).length ≠ 0 := by
  rw [← h.scopes.length_left]
  exact Nat.succ_ne_zero _

/-- Opening a scope on both sides. -/
theorem Agree.push (h : Agree st w c d) : Agree st (w.under .shared) c.push d.push where
  sound := h.sound.under _
  calls := h.calls
  functions := h.functions
  sizeLeft := h.sizeLeft
  sizeRight := h.sizeRight
  twins := h.twins
  scopes := by
    refine .shared (fun name => .absent fun hp => ?_) (fun _ _ => ⟨rfl, rfl⟩)
      (h.scopes.congr rfl rfl (fun _ => rfl) fun _ => rfl)
    exact Nat.lt_irrefl _ (h.sound.level_lt _ _ hp)

/-- Opening a scope on the left only. -/
theorem Agree.push_left (h : Agree st w c d) : Agree st (w.under .left) c.push d where
  sound := h.sound.under _
  calls := h.calls
  functions := h.functions
  sizeLeft := h.sizeLeft
  sizeRight := h.sizeRight
  twins := h.twins
  scopes := .left (fun _ => rfl) (h.scopes.congr rfl rfl (fun _ => rfl) fun _ => rfl)

theorem ne_nil_of_length {ss : List Scope} (h : ss.length ≠ 0) : ss ≠ [] := by
  rintro rfl
  exact h rfl

/-- Closing a scope on both sides; `h₀` says that a scope is left. -/
theorem Agree.pop (h₀ : Agree st w c₀ d₀) (h : Agree st (w.under .shared) c d) :
    Agree st w c.pop d.pop where
  sound := h₀.sound
  calls := by simpa using h.calls
  functions := by simpa using h.functions
  sizeLeft := by simpa using h.sizeLeft
  sizeRight := by simpa using h.sizeRight
  twins := fun l a b hab => by
    rw [Context.cellAt_congr (Context.cells_pop c), Context.cellAt_congr (Context.cells_pop d)]
    exact h.twins l a b hab
  scopes := by
    have hs := h.scopes
    rw [World.under_layers] at hs
    generalize hcs : c.scopes = ss at hs
    generalize hds : d.scopes = ts at hs
    cases hs with
    | shared _ _ hrest =>
      rw [Context.scopes_pop hcs (ne_nil_of_length (hrest.length_left ▸ h₀.scopes_ne_nil)),
        Context.scopes_pop hds (ne_nil_of_length (hrest.flip.length_left ▸ h₀.flip.scopes_ne_nil))]
      exact hrest.congr rfl rfl (fun a => Context.cellAt_congr (by simp) a)
        fun b => Context.cellAt_congr (by simp) b

/-- Closing a scope on the left only. -/
theorem Agree.pop_left (h₀ : Agree st w c₀ d₀) (h : Agree st (w.under .left) c d) :
    Agree st w c.pop d where
  sound := h₀.sound
  calls := by simpa using h.calls
  functions := by simpa using h.functions
  sizeLeft := by simpa using h.sizeLeft
  sizeRight := h.sizeRight
  twins := fun l a b hab => by
    rw [Context.cellAt_congr (Context.cells_pop c)]
    exact h.twins l a b hab
  scopes := by
    have hs := h.scopes
    rw [World.under_layers] at hs
    generalize hcs : c.scopes = ss at hs
    cases hs with
    | left _ hrest =>
      rw [Context.scopes_pop hcs (ne_nil_of_length (hrest.length_left ▸ h₀.scopes_ne_nil))]
      exact hrest.congr rfl rfl (fun a => Context.cellAt_congr (by simp) a) fun _ => rfl

/-- Opening a scope on the right only. -/
theorem Agree.push_right (h : Agree st w c d) : Agree st (w.under .right) c d.push := by
  have := h.flip.push_left.flip
  rwa [Setting.flip_flip, World.flip_under, World.flip_flip] at this

/-- Closing a scope on the right only. -/
theorem Agree.pop_right (h₀ : Agree st w c₀ d₀) (h : Agree st (w.under .right) c d) :
    Agree st w c d.pop := by
  have := (h₀.flip.pop_left h.flip).flip
  rwa [Setting.flip_flip, World.flip_flip] at this

/-! ### The host and the table of functions -/

theorem Agree.call (h : Agree st w c d) (call : HostCall) :
    Agree st w { c with calls := c.calls.push call } { d with calls := d.calls.push call } where
  sound := h.sound
  calls := by simp [h.calls]
  functions := h.functions
  sizeLeft := h.sizeLeft
  sizeRight := h.sizeRight
  twins := h.twins
  scopes := h.scopes.congr rfl rfl (fun _ => rfl) fun _ => rfl

theorem Agree.functions_size (h : Agree st w c d) : c.functions.size = d.functions.size := by
  simpa using h.functions.length_eq

/-- A reference means functions that go together, or nothing on both sides. -/
theorem Agree.function? (h : Agree st w c d) (i : Nat) :
    (c.functions[i]? = none ∧ d.functions[i]? = none) ∨
      ∃ f g, c.functions[i]? = some f ∧ d.functions[i]? = some g ∧ st.known f g := by
  by_cases hi : i < c.functions.size
  · have hd : i < d.functions.size := h.functions_size ▸ hi
    refine .inr ⟨_, _, Array.getElem?_eq_getElem hi, Array.getElem?_eq_getElem hd, ?_⟩
    simpa using h.functions.get (i := i) (by simpa using hi) (by simpa using hd)
  · have hd : ¬i < d.functions.size := h.functions_size ▸ hi
    exact .inl ⟨Array.getElem?_eq_none (by omega), Array.getElem?_eq_none (by omega)⟩

/-- Functions that go together are defined on both sides. -/
theorem Agree.define (h : Agree st w c d) {f g : ScriptFunction} (hfg : st.known f g)
    (hname : f.name = g.name) :
    (c.define f).1 = (d.define g).1 ∧ Agree st w (c.define f).2 (d.define g).2 := by
  constructor
  · unfold Context.define
    rw [h.functions_size, hname]
  · constructor
    · exact h.sound
    · exact h.calls
    · show List.Forall₂ st.known (c.functions.push f).toList (d.functions.push g).toList
      rw [Array.toList_push, Array.toList_push]
      exact List.rel_append h.functions (.cons hfg .nil)
    · exact h.sizeLeft
    · exact h.sizeRight
    · exact h.twins
    · exact h.scopes.congr rfl rfl (fun _ => rfl) fun _ => rfl

/-! ### Cells -/

namespace World

/-- A world that has further cells, bound in no scope that the first one has. -/
structure Extends (w v : World) : Prop where
  left_old : ∀ (a : Nat) r, w.left[a]? = some r → v.left[a]? = some r
  right_old : ∀ (b : Nat) r, w.right[b]? = some r → v.right[b]? = some r
  left_new : ∀ (a : Nat) r, v.left[a]? = some r → w.left[a]? = some r ∨ w.layers.length ≤ r.level
  right_new : ∀ (b : Nat) r, v.right[b]? = some r → w.right[b]? = some r ∨ w.layers.length ≤ r.level

theorem Extends.pins_iff {w v : World} (h : w.Extends v) (hlt : level < w.layers.length) :
    v.Pins level name ↔ w.Pins level name := by
  constructor
  · rintro (⟨a, ha⟩ | ⟨b, hb⟩)
    · rcases h.left_new a _ ha with ha | hle
      · exact .inl ⟨a, ha⟩
      · exact absurd hlt (Nat.not_lt.2 hle)
    · rcases h.right_new b _ hb with hb | hle
      · exact .inr ⟨b, hb⟩
      · exact absurd hlt (Nat.not_lt.2 hle)
  · rintro (⟨a, ha⟩ | ⟨b, hb⟩)
    · exact .inl ⟨a, h.left_old a _ ha⟩
    · exact .inr ⟨b, h.right_old b _ hb⟩

end World

/-- Scopes that were open before further cells were made agree also with these. -/
theorem ScopesAgree.extend {v : World} {c' d' : Context} {ss ts : List Scope} (hwv : w.Extends v)
    (h : ScopesAgree st w c d L ss ts) (hL : L.length ≤ w.layers.length)
    (hc : ∀ (a : Nat) r, w.left[a]? = some r → c'.cellAt a = c.cellAt a)
    (hd : ∀ (b : Nat) r, w.right[b]? = some r → d'.cellAt b = d.cellAt b) :
    ScopesAgree st v c' d' L ss ts := by
  induction h with
  | nil => exact .nil
  | @shared L s t ss ts hst hres _ ih =>
    rw [List.length_cons] at hL
    refine .shared (fun name => ?_) hres (ih (by omega))
    have hn := hst name
    have hp : v.Pins L.length name ↔ w.Pins L.length name := hwv.pins_iff (by omega)
    generalize s.find? name = s' at hn
    generalize t.find? name = t' at hn
    cases hn with
    | absent h => exact .absent (mt hp.1 h)
    | plain h => exact .plain (mt hp.1 h)
    | twins h ht hl =>
      exact .twins (mt hp.1 h) ⟨hwv.left_old _ _ ht.1, hwv.right_old _ _ ht.2⟩ hl
    | right h =>
      rw [← hd _ _ h]
      exact .right (hwv.right_old _ _ h)
    | left h =>
      rw [← hc _ _ h]
      exact .left (hwv.left_old _ _ h)
  | left hs _ ih => exact .left hs (ih (by rw [List.length_cons] at hL; omega))
  | right ht _ ih => exact .right ht (ih (by rw [List.length_cons] at hL; omega))

/-- Scopes that were open before further cells were made agree also without these. -/
theorem ScopesAgree.restrict {v : World} {c' d' : Context} {ss ts : List Scope} (hwv : w.Extends v)
    (h : ScopesAgree st v c d L ss ts) (hL : L.length ≤ w.layers.length)
    (hc : ∀ (a : Nat) r, w.left[a]? = some r → c'.cellAt a = c.cellAt a)
    (hd : ∀ (b : Nat) r, w.right[b]? = some r → d'.cellAt b = d.cellAt b) :
    ScopesAgree st w c' d' L ss ts := by
  induction h with
  | nil => exact .nil
  | @shared L s t ss ts hst hres _ ih =>
    rw [List.length_cons] at hL
    refine .shared (fun name => ?_) hres (ih (by omega))
    have hn := hst name
    have hp : v.Pins L.length name ↔ w.Pins L.length name := hwv.pins_iff (by omega)
    have hlevel : ∀ r : CellRole, r.level ≤ L.length → ¬w.layers.length ≤ r.level := by
      intro r hr
      omega
    generalize s.find? name = s' at hn
    generalize t.find? name = t' at hn
    cases hn with
    | absent h => exact .absent (mt hp.2 h)
    | plain h => exact .plain (mt hp.2 h)
    | twins h ht hl =>
      exact .twins (mt hp.2 h) ⟨(hwv.left_new _ _ ht.1).resolve_right (hlevel _ hl),
        (hwv.right_new _ _ ht.2).resolve_right (hlevel _ hl)⟩ hl
    | right h =>
      have hb := (hwv.right_new _ _ h).resolve_right (hlevel _ (Nat.le_refl _))
      rw [← hd _ _ hb]
      exact .right hb
    | left h =>
      have ha := (hwv.left_new _ _ h).resolve_right (hlevel _ (Nat.le_refl _))
      rw [← hc _ _ ha]
      exact .left ha
  | left hs _ ih => exact .left hs (ih (by rw [List.length_cons] at hL; omega))
  | right ht _ ih => exact .right ht (ih (by rw [List.length_cons] at hL; omega))

end ScriptTree

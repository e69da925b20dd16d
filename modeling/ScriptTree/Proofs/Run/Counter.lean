import ScriptTree.Proofs.Run.Frame

/-!
Contexts inside loops that count natively. Such a loop opens a scope and makes a cell for its counter;
both are given up when the loop ends. Two native loops make cells that go together. Where a native
loop is compared with a generic one, its cell stands for the generic loop's variable.
-/

namespace ScriptTree

variable {st : Setting} {w : World} {c d c₀ d₀ : Context} {name : String} {n : Int32}

namespace Context

/-- The context in which the rounds of a native loop begin. -/
def enterLoop (c : Context) (name : String) (n : Int32) : Context :=
  (c.push.newCell n).2.bindCell name c.cells.size

/-- The context after a native loop that began with so many cells. -/
def leaveLoop (c : Context) (size : Nat) : Context := ({ c with cells := c.cells.take size }).pop

@[simp] theorem cells_enterLoop (c : Context) : (c.enterLoop name n).cells = c.cells.push n := rfl

theorem scopes_enterLoop (c : Context) :
    (c.enterLoop name n).scopes = [(name, .cell c.cells.size)] :: c.scopes := rfl

theorem cellAt_enterLoop_self (c : Context) : (c.enterLoop name n).cellAt c.cells.size = n := by
  simp [Context.cellAt]

theorem cellAt_enterLoop_lt (c : Context) {a : Nat} (h : a < c.cells.size) :
    (c.enterLoop name n).cellAt a = c.cellAt a := by
  simp [Context.cellAt, Array.getElem?_push_lt h, Array.getElem?_eq_getElem h]

theorem cellAt_leaveLoop (c : Context) {a size : Nat} (h : a < size) :
    (c.leaveLoop size).cellAt a = c.cellAt a := by
  rw [leaveLoop, Context.cellAt_congr (Context.cells_pop _)]
  unfold Context.cellAt
  by_cases hc : a < c.cells.size
  · have hlt : a < (c.cells.take size).size := by simp; omega
    rw [Array.getElem?_eq_getElem hlt, Array.getElem?_eq_getElem hc]
    simp
  · rw [Array.getElem?_eq_none (by simp; omega), Array.getElem?_eq_none (by omega)]

theorem size_leaveLoop (c : Context) {size : Nat} (h : size ≤ c.cells.size) :
    (c.leaveLoop size).cells.size = size := by
  rw [leaveLoop, Context.cells_pop]
  simp [h]

theorem scopes_leaveLoop {c : Context} {s : Scope} {ss : List Scope} (size : Nat)
    (h : c.scopes = s :: ss) (hne : ss ≠ []) : (c.leaveLoop size).scopes = ss :=
  Context.scopes_pop (c := { c with cells := c.cells.take size }) h hne

end Context

namespace World

/-- The world of two native loops. -/
def withTwins (w : World) : World :=
  ⟨.shared :: w.layers, w.left ++ [.twin w.layers.length w.right.length],
    w.right ++ [.twin w.layers.length w.left.length]⟩

/-- The world of a generic loop on the left and a native one on the right. -/
def withCounter (w : World) (name : String) : World :=
  ⟨.shared :: w.layers, w.left, w.right ++ [.counter w.layers.length name]⟩

theorem flip_withTwins (w : World) : w.withTwins.flip = w.flip.withTwins := by
  simp [World.flip, World.withTwins, Layer.flip]

theorem getElem?_concat {roles : List CellRole} {r s : CellRole} {a : Nat} :
    (roles ++ [r])[a]? = some s ↔ roles[a]? = some s ∨ (a = roles.length ∧ r = s) := by
  rw [List.getElem?_append]
  by_cases h : a < roles.length
  · rw [if_pos h]
    constructor
    · exact .inl
    · rintro (h' | ⟨rfl, -⟩)
      · exact h'
      · omega
  · rw [if_neg h, List.getElem?_eq_none (l := roles) (by omega)]
    constructor
    · intro h'
      obtain ⟨hlt, he⟩ := List.getElem?_eq_some_iff.1 h'
      rw [List.length_singleton] at hlt
      refine .inr ⟨by omega, ?_⟩
      simpa using he
    · rintro (h' | ⟨rfl, rfl⟩)
      · cases h'
      · simp

theorem extends_withTwins (w : World) : w.Extends w.withTwins where
  left_old a r h := getElem?_concat.2 (.inl h)
  right_old b r h := getElem?_concat.2 (.inl h)
  left_new a r h := by
    rcases getElem?_concat.1 h with h | ⟨-, rfl⟩
    · exact .inl h
    · exact .inr (Nat.le_refl _)
  right_new b r h := by
    rcases getElem?_concat.1 h with h | ⟨-, rfl⟩
    · exact .inl h
    · exact .inr (Nat.le_refl _)

theorem extends_withCounter (w : World) (name : String) : w.Extends (w.withCounter name) where
  left_old a r h := h
  right_old b r h := getElem?_concat.2 (.inl h)
  left_new a r h := .inl h
  right_new b r h := by
    rcases getElem?_concat.1 h with h | ⟨-, rfl⟩
    · exact .inl h
    · exact .inr (Nat.le_refl _)

theorem Sound.withTwins (h : w.Sound st)
    (he : st.earlyLeft w.left.length = st.earlyRight w.right.length) : w.withTwins.Sound st where
  twin_right l a b hab := by
    rcases getElem?_concat.1 hab with hab | ⟨rfl, hr⟩
    · exact getElem?_concat.2 (.inl (h.twin_right l a b hab))
    · cases hr
      exact getElem?_concat.2 (.inr ⟨rfl, rfl⟩)
  twin_left l a b hab := by
    rcases getElem?_concat.1 hab with hab | ⟨rfl, hr⟩
    · exact getElem?_concat.2 (.inl (h.twin_left l a b hab))
    · cases hr
      exact getElem?_concat.2 (.inr ⟨rfl, rfl⟩)
  twin_early l a b hab := by
    rcases getElem?_concat.1 hab.1 with ha | ⟨rfl, hr⟩
    · exact h.twin_early l a b ⟨ha, h.twin_right l a b ha⟩
    · cases hr
      exact he
  early_left a level name ha := by
    rcases getElem?_concat.1 ha with ha | ⟨-, hr⟩
    · exact h.early_left a level name ha
    · cases hr
  early_right b level name hb := by
    rcases getElem?_concat.1 hb with hb | ⟨-, hr⟩
    · exact h.early_right b level name hb
    · cases hr
  level_lt level name hp := by
    rcases hp with ⟨a, ha⟩ | ⟨b, hb⟩
    · rcases getElem?_concat.1 ha with ha | ⟨-, hr⟩
      · exact Nat.lt_succ_of_lt (h.level_lt level name (.inl ⟨a, ha⟩))
      · cases hr
    · rcases getElem?_concat.1 hb with hb | ⟨-, hr⟩
      · exact Nat.lt_succ_of_lt (h.level_lt level name (.inr ⟨b, hb⟩))
      · cases hr

theorem Sound.withCounter (h : w.Sound st) (he : st.earlyRight w.right.length = true) :
    (w.withCounter name).Sound st where
  twin_right l a b hab := getElem?_concat.2 (.inl (h.twin_right l a b hab))
  twin_left l a b hab := by
    rcases getElem?_concat.1 hab with hab | ⟨-, hr⟩
    · exact h.twin_left l a b hab
    · cases hr
  twin_early l a b hab := h.twin_early l a b ⟨hab.1, h.twin_right l a b hab.1⟩
  early_left a level name' ha := h.early_left a level name' ha
  early_right b level name' hb := by
    rcases getElem?_concat.1 hb with hb | ⟨rfl, -⟩
    · exact h.early_right b level name' hb
    · exact he
  level_lt level name' hp := by
    rcases hp with ⟨a, ha⟩ | ⟨b, hb⟩
    · exact Nat.lt_succ_of_lt (h.level_lt level name' (.inl ⟨a, ha⟩))
    · rcases getElem?_concat.1 hb with hb | ⟨-, hr⟩
      · exact Nat.lt_succ_of_lt (h.level_lt level name' (.inr ⟨b, hb⟩))
      · cases hr
        exact Nat.lt_succ_self _

/-- The new level of two native loops has no variable that is a cell on one side only. -/
theorem not_pins_withTwins (h : w.Sound st) {other : String} :
    ¬w.withTwins.Pins w.layers.length other := by
  rintro (⟨a, ha⟩ | ⟨b, hb⟩)
  · rcases getElem?_concat.1 ha with ha | ⟨-, hr⟩
    · exact Nat.lt_irrefl _ (h.level_lt _ _ (.inl ⟨a, ha⟩))
    · cases hr
  · rcases getElem?_concat.1 hb with hb | ⟨-, hr⟩
    · exact Nat.lt_irrefl _ (h.level_lt _ _ (.inr ⟨b, hb⟩))
    · cases hr

/-- The new level of a loop has no variable but the loop's own. -/
theorem pins_withCounter (h : w.Sound st) {other : String} :
    (w.withCounter name).Pins w.layers.length other ↔ other = name := by
  constructor
  · rintro (⟨a, ha⟩ | ⟨b, hb⟩)
    · exact absurd (h.level_lt _ _ (.inl ⟨a, ha⟩)) (Nat.lt_irrefl _)
    · rcases getElem?_concat.1 hb with hb | ⟨-, hr⟩
      · exact absurd (h.level_lt _ _ (.inr ⟨b, hb⟩)) (Nat.lt_irrefl _)
      · cases hr
        rfl
  · rintro rfl
    exact .inr ⟨w.right.length, getElem?_concat.2 (.inr ⟨rfl, rfl⟩)⟩

end World

theorem find?_singleton (name other : String) (slot : Slot) :
    Scope.find? [(name, slot)] other = if other = name then some slot else none := by
  rw [Scope.find?_cons, Scope.find?_nil]

/-- Two native loops begin. -/
theorem Agree.enterTwins (h : Agree st w c d)
    (he : st.earlyLeft w.left.length = st.earlyRight w.right.length) (hr : ¬st.reserved name) :
    Agree st w.withTwins (c.enterLoop name n) (d.enterLoop name n) where
  sound := h.sound.withTwins he
  calls := h.calls
  functions := h.functions
  sizeLeft := by simp [World.withTwins, h.sizeLeft]
  sizeRight := by simp [World.withTwins, h.sizeRight]
  twins := fun l a b hab => by
    rcases World.getElem?_concat.1 hab.1 with ha | ⟨ha, hr⟩
    · have hb := h.sound.twin_right l a b ha
      rw [c.cellAt_enterLoop_lt (h.sizeLeft ▸ lt_of_role ha),
        d.cellAt_enterLoop_lt (h.sizeRight ▸ lt_of_role hb)]
      exact h.twins l a b ⟨ha, hb⟩
    · cases hr
      rw [ha, ← h.sizeLeft, ← h.sizeRight, c.cellAt_enterLoop_self, d.cellAt_enterLoop_self]
  scopes := by
    rw [c.scopes_enterLoop, d.scopes_enterLoop]
    refine .shared (fun other => ?_) (fun other ho => ?_)
      (h.scopes.extend w.extends_withTwins (Nat.le_refl _)
        (fun a _ ha => c.cellAt_enterLoop_lt (h.sizeLeft ▸ lt_of_role ha))
        fun b _ hb => d.cellAt_enterLoop_lt (h.sizeRight ▸ lt_of_role hb))
    · have hp := @World.not_pins_withTwins _ _ h.sound other
      rw [find?_singleton, find?_singleton]
      by_cases ho : other = name
      · rw [if_pos ho, if_pos ho, h.sizeLeft, h.sizeRight]
        exact .twins hp ⟨World.getElem?_concat.2 (.inr ⟨rfl, rfl⟩),
          World.getElem?_concat.2 (.inr ⟨rfl, rfl⟩)⟩ (Nat.le_refl _)
      · rw [if_neg ho, if_neg ho]
        exact .absent hp
    · have hne : other ≠ name := fun e => hr (e ▸ ho)
      rw [find?_singleton, find?_singleton, if_neg hne, if_neg hne]
      exact ⟨rfl, rfl⟩

/-- Contexts after two loops: their scopes and cells are gone; `h₀` says that a scope is left. -/
theorem Agree.leaveTwins (h₀ : Agree st w c₀ d₀) (h : Agree st w.withTwins c d) :
    Agree st w (c.leaveLoop w.left.length) (d.leaveLoop w.right.length) where
  sound := h₀.sound
  calls := by simpa [Context.leaveLoop] using h.calls
  functions := by simpa [Context.leaveLoop] using h.functions
  sizeLeft := c.size_leaveLoop (by rw [h.sizeLeft]; simp [World.withTwins])
  sizeRight := d.size_leaveLoop (by rw [h.sizeRight]; simp [World.withTwins])
  twins := fun l a b hab => by
    rw [c.cellAt_leaveLoop (lt_of_role hab.1), d.cellAt_leaveLoop (lt_of_role hab.2)]
    exact h.twins l a b ⟨World.getElem?_concat.2 (.inl hab.1), World.getElem?_concat.2 (.inl hab.2)⟩
  scopes := by
    have hs := h.scopes
    rw [World.withTwins] at hs
    generalize hcs : c.scopes = ss at hs
    generalize hds : d.scopes = ts at hs
    cases hs with
    | shared _ _ hrest =>
      rw [Context.scopes_leaveLoop _ hcs (ne_nil_of_length (hrest.length_left ▸ h₀.scopes_ne_nil)),
        Context.scopes_leaveLoop _ hds
          (ne_nil_of_length (hrest.flip.length_left ▸ h₀.flip.scopes_ne_nil))]
      exact hrest.restrict w.extends_withTwins (Nat.le_refl _)
        (fun a _ ha => c.cellAt_leaveLoop (lt_of_role ha))
        fun b _ hb => d.cellAt_leaveLoop (lt_of_role hb)

/-- A generic loop has declared its variable, and a native one begins. -/
theorem Agree.enterCounter (h : Agree st w c d) (he : st.earlyRight w.right.length = true)
    (hr : ¬st.reserved name) :
    Agree st (w.withCounter name) (c.push.bind name (.number (.int n))) (d.enterLoop name n) where
  sound := h.sound.withCounter he
  calls := h.calls
  functions := h.functions
  sizeLeft := h.sizeLeft
  sizeRight := by simp [World.withCounter, h.sizeRight]
  twins := fun l a b hab => by
    have hb := h.sound.twin_right l a b hab.1
    rw [d.cellAt_enterLoop_lt (h.sizeRight ▸ lt_of_role hb)]
    exact h.twins l a b ⟨hab.1, hb⟩
  scopes := by
    rw [d.scopes_enterLoop]
    refine .shared (s := [(name, .plain (.number (.int n)))]) (fun other => ?_) (fun other ho => ?_)
      (h.scopes.extend (w.extends_withCounter name) (Nat.le_refl _) (fun _ _ _ => rfl)
        fun b _ hb => d.cellAt_enterLoop_lt (h.sizeRight ▸ lt_of_role hb))
    · rw [find?_singleton, find?_singleton]
      by_cases ho : other = name
      · rw [if_pos ho, if_pos ho, ho]
        have : SlotAlike (w.withCounter name) (c.push.bind name (.number (.int n))) (d.enterLoop name n)
            w.layers.length name (some (.plain (.number (.int ((d.enterLoop name n).cellAt w.right.length)))))
            (some (.cell w.right.length)) := .right (World.getElem?_concat.2 (.inr ⟨rfl, rfl⟩))
        rwa [← h.sizeRight, d.cellAt_enterLoop_self] at this
      · rw [if_neg ho, if_neg ho]
        exact .absent (mt (World.pins_withCounter h.sound).1 ho)
    · have hne : other ≠ name := fun e => hr (e ▸ ho)
      rw [find?_singleton, find?_singleton, if_neg hne, if_neg hne]
      exact ⟨rfl, rfl⟩

/-- The contexts after a generic loop and a native one. -/
theorem Agree.leaveCounter (h₀ : Agree st w c₀ d₀) (h : Agree st (w.withCounter name) c d) :
    Agree st w c.pop (d.leaveLoop w.right.length) where
  sound := h₀.sound
  calls := by simpa [Context.leaveLoop] using h.calls
  functions := by simpa [Context.leaveLoop] using h.functions
  sizeLeft := by simpa [World.withCounter] using h.sizeLeft
  sizeRight := d.size_leaveLoop (by rw [h.sizeRight]; simp [World.withCounter])
  twins := fun l a b hab => by
    rw [Context.cellAt_congr (Context.cells_pop c), d.cellAt_leaveLoop (lt_of_role hab.2)]
    exact h.twins l a b ⟨hab.1, World.getElem?_concat.2 (.inl hab.2)⟩
  scopes := by
    have hs := h.scopes
    rw [World.withCounter] at hs
    generalize hcs : c.scopes = ss at hs
    generalize hds : d.scopes = ts at hs
    cases hs with
    | shared _ _ hrest =>
      rw [Context.scopes_pop hcs (ne_nil_of_length (hrest.length_left ▸ h₀.scopes_ne_nil)),
        Context.scopes_leaveLoop _ hds
          (ne_nil_of_length (hrest.flip.length_left ▸ h₀.flip.scopes_ne_nil))]
      exact hrest.restrict (w.extends_withCounter name) (Nat.le_refl _)
        (fun a _ _ => Context.cellAt_congr (Context.cells_pop c) a)
        fun b _ hb => d.cellAt_leaveLoop (lt_of_role hb)

/-- Inside the loop the counter is an int variable on the left and the loop's cell on the right. -/
theorem Agree.counter (hw : w.Sound st) (h : Agree st (w.withCounter name) c d) :
    c.find? name = some (.plain (.number (.int (d.cellAt w.right.length)))) ∧
      d.find? name = some (.cell w.right.length) := by
  have hs := h.scopes
  rw [World.withCounter] at hs
  rw [Context.find?_eq_lookup, Context.find?_eq_lookup]
  generalize c.scopes = ss at hs
  generalize d.scopes = ts at hs
  cases hs with
  | @shared _ s t _ _ hst _ _ =>
    have hn := hst name
    have hp : (w.withCounter name).Pins w.layers.length name := (World.pins_withCounter hw).2 rfl
    rw [Context.lookup_cons, Context.lookup_cons]
    generalize s.find? name = s' at hn
    generalize t.find? name = t' at hn
    cases hn with
    | absent hn => exact absurd hp hn
    | plain hn => exact absurd hp hn
    | twins hn => exact absurd hp hn
    | right hb =>
      rcases World.getElem?_concat.1 hb with hb | ⟨rfl, -⟩
      · exact absurd (hw.level_lt _ _ (.inr ⟨_, hb⟩)) (Nat.lt_irrefl _)
      · exact ⟨rfl, rfl⟩
    | left ha => exact absurd (hw.level_lt _ _ (.inl ⟨_, ha⟩)) (Nat.lt_irrefl _)

end ScriptTree

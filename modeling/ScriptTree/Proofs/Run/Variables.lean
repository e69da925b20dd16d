import ScriptTree.Proofs.Run.World

/-!
What contexts that agree do with variables. Looking a name up, assigning to it, declaring and binding
it come to the same on both sides, and the contexts agree afterwards.
-/

namespace ScriptTree

variable {st : Setting} {w : World} {c d c' d' : Context} {L : List Layer} {ss ts : List Scope}
  {level : Nat} {name : String}

/-! ### Changes that scopes do not see -/

/-- What two slots have in common depends on the roles of cells and on what the cells hold. -/
theorem SlotAlike.congr {w' : World} {s t : Option Slot} (h : SlotAlike w c d level name s t)
    (hl : w'.left = w.left) (hr : w'.right = w.right)
    (hc : ∀ a : Nat, w.left[a]? = some (.counter level name) → c'.cellAt a = c.cellAt a)
    (hd : ∀ b : Nat, w.right[b]? = some (.counter level name) → d'.cellAt b = d.cellAt b) :
    SlotAlike w' c' d' level name s t := by
  have hp : w'.Pins level name ↔ w.Pins level name := by unfold World.Pins; rw [hl, hr]
  cases h with
  | absent h => exact .absent (mt hp.1 h)
  | plain h => exact .plain (mt hp.1 h)
  | twins h ht hle =>
    refine .twins (mt hp.1 h) ?_ hle
    unfold World.Twins
    rw [hl, hr]
    exact ht
  | right h =>
    rw [← hd _ h]
    exact .right (hr ▸ h)
  | left h =>
    rw [← hc _ h]
    exact .left (hl ▸ h)

/-- A name is bound in both of two scopes that go together or in neither, and then it is not pinned. -/
theorem SlotAlike.both {s t : Option Slot} (h : SlotAlike w c d level name s t) :
    (s = none ∧ t = none ∧ ¬w.Pins level name) ∨ ∃ s' t', s = some s' ∧ t = some t' := by
  cases h with
  | absent h => exact .inl ⟨rfl, rfl, h⟩
  | _ => exact .inr ⟨_, _, rfl, rfl⟩

/-- What scopes have in common depends on the cells of counters that belong to one of them. -/
theorem ScopesAgree.congr_counters {w' : World} (h : ScopesAgree st w c d L ss ts) (hl : w'.left = w.left)
    (hr : w'.right = w.right)
    (hc : ∀ (a level : Nat) (name : String), level < L.length → w.left[a]? = some (.counter level name) →
      c'.cellAt a = c.cellAt a)
    (hd : ∀ (b level : Nat) (name : String), level < L.length → w.right[b]? = some (.counter level name) →
      d'.cellAt b = d.cellAt b) : ScopesAgree st w' c' d' L ss ts := by
  induction h with
  | nil => exact .nil
  | @shared L _ _ _ _ hs hres _ ih =>
    exact .shared (fun name => (hs name).congr hl hr (fun a => hc a L.length name (Nat.lt_succ_self _))
        fun b => hd b L.length name (Nat.lt_succ_self _)) hres
      (ih (fun a l x h => hc a l x (Nat.lt_succ_of_lt h)) fun b l x h => hd b l x (Nat.lt_succ_of_lt h))
  | left hs _ ih =>
    exact .left hs
      (ih (fun a l x h => hc a l x (Nat.lt_succ_of_lt h)) fun b l x h => hd b l x (Nat.lt_succ_of_lt h))
  | right ht _ ih =>
    exact .right ht
      (ih (fun a l x h => hc a l x (Nat.lt_succ_of_lt h)) fun b l x h => hd b l x (Nat.lt_succ_of_lt h))

theorem ScopesAgree.congr {w' : World} (h : ScopesAgree st w c d L ss ts) (hl : w'.left = w.left)
    (hr : w'.right = w.right) (hc : ∀ a, c'.cellAt a = c.cellAt a) (hd : ∀ b, d'.cellAt b = d.cellAt b) :
    ScopesAgree st w' c' d' L ss ts :=
  h.congr_counters hl hr (fun a _ _ _ _ => hc a) fun b _ _ _ _ => hd b

/-- The number of scopes on the left is the number of layers that have one there. -/
theorem ScopesAgree.length_left (h : ScopesAgree st w c d L ss ts) :
    ss.length = (L.filter (· != .right)).length := by
  induction h with
  | nil => rfl
  | shared _ _ _ ih => simpa using ih
  | left _ _ ih => simpa using ih
  | right _ _ ih => simpa using ih

/-! ### Looking up -/

/-- A name is bound on both sides or on none, and its nearest bindings belong to one layer. -/
theorem ScopesAgree.lookup (h : ScopesAgree st w c d L ss ts) (name : String) :
    (Context.lookup name ss = none ∧ Context.lookup name ts = none) ∨
      ∃ level s t, level < L.length ∧ Context.lookup name ss = some s ∧
        Context.lookup name ts = some t ∧ SlotAlike w c d level name (some s) (some t) := by
  induction h with
  | nil => exact .inl ⟨rfl, rfl⟩
  | @shared L s t ss ts hs _ _ ih =>
    rw [Context.lookup_cons, Context.lookup_cons]
    have hn := hs name
    rcases hn.both with ⟨hsn, htn, -⟩ | ⟨s', t', hsn, htn⟩
    · rw [hsn, htn]
      rcases ih with ih | ⟨level, s', t', hlt, h⟩
      · exact .inl ih
      · exact .inr ⟨level, s', t', Nat.lt_succ_of_lt hlt, h⟩
    · rw [hsn, htn] at hn ⊢
      exact .inr ⟨L.length, s', t', Nat.lt_succ_self _, rfl, rfl, hn⟩
  | left hs _ ih =>
    rw [Context.lookup_cons, hs name, Option.none_or]
    rcases ih with ih | ⟨level, s', t', hlt, h⟩
    · exact .inl ih
    · exact .inr ⟨level, s', t', Nat.lt_succ_of_lt hlt, h⟩
  | right ht _ ih =>
    rw [Context.lookup_cons _ _ _, ht name, Option.none_or]
    rcases ih with ih | ⟨level, s', t', hlt, h⟩
    · exact .inl ih
    · exact .inr ⟨level, s', t', Nat.lt_succ_of_lt hlt, h⟩

theorem Agree.find? (h : Agree st w c d) (name : String) :
    (c.find? name = none ∧ d.find? name = none) ∨
      ∃ level s t, c.find? name = some s ∧ d.find? name = some t ∧
        SlotAlike w c d level name (some s) (some t) := by
  rcases h.scopes.lookup name with h | ⟨level, s, t, -, h⟩
  · exact .inl h
  · exact .inr ⟨level, s, t, h⟩

/-- A reserved name is bound nowhere. -/
theorem ScopesAgree.lookup_reserved (h : ScopesAgree st w c d L ss ts) (hr : st.reserved name) :
    Context.lookup name ss = none ∧ Context.lookup name ts = none := by
  induction h with
  | nil => exact ⟨rfl, rfl⟩
  | shared _ hres _ ih =>
    rw [Context.lookup_cons, Context.lookup_cons, (hres name hr).1, (hres name hr).2]
    exact ih
  | left hs _ ih =>
    rw [Context.lookup_cons, hs name]
    exact ih
  | right ht _ ih =>
    rw [Context.lookup_cons _ _ _, ht name]
    exact ih

/-- Reading a variable gives values that are alike, or fails on both sides. -/
theorem Agree.get (h : Agree st w c d) (name : String) :
    (∃ u v, c.get name = .ok u ∧ d.get name = .ok v ∧ Alike w c d u v) ∨
      (c.get name = .error (.undefinedVariable name) ∧ d.get name = .error (.undefinedVariable name)) := by
  unfold Context.get
  rcases h.find? name with ⟨h₁, h₂⟩ | ⟨level, s, t, h₁, h₂, ha⟩
  · rw [h₁, h₂]
    exact .inr ⟨rfl, rfl⟩
  · rw [h₁, h₂]
    left
    cases ha with
    | plain => exact ⟨_, _, rfl, rfl, .held .plain⟩
    | twins _ ht _ => exact ⟨_, _, rfl, rfl, .held (.twins ht)⟩
    | right hb => exact ⟨_, _, rfl, rfl, .right hb⟩
    | left ha => exact ⟨_, _, rfl, rfl, .left ha⟩

theorem Agree.get_reserved (h : Agree st w c d) (hr : st.reserved name) :
    c.get name = .error (.undefinedVariable name) ∧ d.get name = .error (.undefinedVariable name) := by
  obtain ⟨h₁, h₂⟩ := h.scopes.lookup_reserved hr
  unfold Context.get
  rw [Context.find?_eq_lookup, Context.find?_eq_lookup, h₁, h₂]
  exact ⟨rfl, rfl⟩

/-! ### Assigning -/

/-- A name that is bound in a scope of a shared layer is not reserved. -/
theorem ScopesAgree.not_reserved {s t : Scope} {slot : Slot}
    (h : ScopesAgree st w c d (.shared :: L) (s :: ss) (t :: ts)) (hs : s.find? name = some slot) :
    ¬st.reserved name := fun hr => by
  cases h with
  | shared _ hres _ =>
    rw [(hres name hr).1] at hs
    cases hs

/-- One datum is bound to a name in the innermost scopes of both sides. -/
theorem ScopesAgree.insert_both {s t : Scope} (h : ScopesAgree st w c d (.shared :: L) (s :: ss) (t :: ts))
    (x : Datum) (hp : ¬w.Pins L.length name) (hr : ¬st.reserved name) :
    ScopesAgree st w c d (.shared :: L) (s.insert name (.plain x) :: ss) (t.insert name (.plain x) :: ts) := by
  cases h with
  | shared hst hres hrest =>
    refine .shared (fun other => ?_) (fun other ho => ?_) hrest
    · by_cases ho : other = name
      · subst ho
        rw [Scope.find?_insert_self, Scope.find?_insert_self]
        exact .plain hp
      · rw [Scope.find?_insert_ne ho, Scope.find?_insert_ne ho]
        exact hst other
    · have hne : other ≠ name := fun e => hr (e ▸ ho)
      rw [Scope.find?_insert_ne hne, Scope.find?_insert_ne hne]
      exact hres other ho

/-- Plain bindings that are nearest on both sides may be replaced by one datum. -/
theorem ScopesAgree.replace (h : ScopesAgree st w c d L ss ts) {x y z : Datum}
    (hs : Context.lookup name ss = some (.plain y)) (ht : Context.lookup name ts = some (.plain z)) :
    ScopesAgree st w c d L (Context.replaceNearest name (.plain x) ss)
      (Context.replaceNearest name (.plain x) ts) := by
  induction h with
  | nil => cases hs
  | @shared L s t ss ts hst hres hrest ih =>
    rw [Context.lookup_cons] at hs ht
    rw [Context.replaceNearest_cons, Context.replaceNearest_cons]
    have hn := hst name
    rcases hn.both with ⟨hsn, htn, -⟩ | ⟨s', t', hsn, htn⟩
    · rw [hsn, Option.none_or] at hs
      rw [htn, Option.none_or] at ht
      rw [hsn, htn]
      exact .shared hst hres (ih hs ht)
    · rw [hsn, Option.some_or, Option.some.injEq] at hs
      rw [htn, Option.some_or, Option.some.injEq] at ht
      rw [hsn, htn, hs, ht] at hn
      rw [hsn, htn]
      have hp : ¬w.Pins L.length name := by
        cases hn with
        | plain hp => exact hp
      have hscopes : ScopesAgree st w c d (.shared :: L) (s :: ss) (t :: ts) := .shared hst hres hrest
      exact hscopes.insert_both x hp (hscopes.not_reserved hsn)
  | left hsn _ ih =>
    rw [Context.lookup_cons, hsn name, Option.none_or] at hs
    rw [Context.replaceNearest_cons, hsn name]
    exact .left hsn (ih hs ht)
  | right htn _ ih =>
    rw [Context.lookup_cons, htn name, Option.none_or] at ht
    rw [Context.replaceNearest_cons _ _ _ _, htn name]
    exact .right htn (ih hs ht)

/-- Writing a cell is not seen at a cell with another role. -/
theorem cellAt_setCell_role {roles : List CellRole} {a b : Nat} {r r' : CellRole} (n : Int32)
    (ha : roles[a]? = some r) (hb : roles[b]? = some r') (h : r' ≠ r) :
    (c.setCell a n).cellAt b = c.cellAt b := by
  refine c.cellAt_setCell_ne n ?_
  rintro rfl
  exact h (Option.some.inj (hb.symm.trans ha))

/-- Writing the cell of a counter is not seen by another variable. -/
theorem SlotAlike.setCell_right {s t : Option Slot} {level' b : Nat} {other : String}
    (h : SlotAlike w c d level' other s t) (n : Int32) (hb : w.right[b]? = some (.counter level name))
    (ho : ¬(level' = level ∧ other = name)) : SlotAlike w c (d.setCell b n) level' other s t :=
  h.congr rfl rfl (fun _ _ => rfl) fun _ hb' =>
    cellAt_setCell_role n hb hb' fun e => ho (CellRole.counter.inj e)

/-- Writing the cell of a counter is not seen in scopes further out than its own. -/
theorem ScopesAgree.setCell_right (h : ScopesAgree st w c d L ss ts) {b : Nat} (n : Int32)
    (hb : w.right[b]? = some (.counter level name)) (hL : L.length ≤ level) :
    ScopesAgree st w c (d.setCell b n) L ss ts :=
  h.congr_counters rfl rfl (fun _ _ _ _ _ => rfl) fun _ level' _ hlt hb' =>
    cellAt_setCell_role n hb hb' fun e => by
      have := (CellRole.counter.inj e).1
      omega

/-- An int is stored in a variable that is plain on the left and a cell on the right. -/
theorem ScopesAgree.store_right (h : ScopesAgree st w c d L ss ts) {y : Datum} {b : Nat} (n : Int32)
    (hs : Context.lookup name ss = some (.plain y)) (ht : Context.lookup name ts = some (.cell b))
    (hb : w.right[b]? = some (.counter level name)) (hsize : b < d.cells.size) :
    ScopesAgree st w c (d.setCell b n) L
      (Context.replaceNearest name (.plain (.number (.int n))) ss) ts := by
  induction h with
  | nil => cases hs
  | @shared L s t ss ts hst hres hrest ih =>
    rw [Context.lookup_cons] at hs ht
    rw [Context.replaceNearest_cons]
    have hn := hst name
    rcases hn.both with ⟨hsn, htn, hp⟩ | ⟨s', t', hsn, htn⟩
    · -- bound further out, so the cell does not belong to this layer
      rw [hsn, Option.none_or] at hs
      rw [htn, Option.none_or] at ht
      rw [hsn]
      refine .shared (fun other => (hst other).setCell_right n hb ?_) hres (ih hs ht)
      rintro ⟨rfl, rfl⟩
      exact hp (.inr ⟨b, hb⟩)
    · rw [hsn, Option.some_or, Option.some.injEq] at hs
      rw [htn, Option.some_or, Option.some.injEq] at ht
      rw [hsn, htn, hs, ht] at hn
      rw [hsn]
      obtain rfl : level = L.length := by
        cases hn with
        | right hb' => exact (CellRole.counter.inj (Option.some.inj (hb.symm.trans hb'))).1
      have hname : ¬st.reserved name := (ScopesAgree.shared hst hres hrest).not_reserved hsn
      refine .shared (fun other => ?_) (fun other hr => ?_) (hrest.setCell_right n hb (Nat.le_refl _))
      · by_cases ho : other = name
        · subst ho
          have := SlotAlike.right (c := c) (d := d.setCell b n) hb
          rwa [Context.cellAt_setCell_self d n hsize, ← ht, ← htn, ← Scope.find?_insert_self] at this
        · rw [Scope.find?_insert_ne ho]
          exact (hst other).setCell_right n hb fun h => ho h.2
      · have hne : other ≠ name := fun e => hname (e ▸ hr)
        rw [Scope.find?_insert_ne hne]
        exact hres other hr
  | left hsn _ ih =>
    rw [Context.lookup_cons, hsn name, Option.none_or] at hs
    rw [Context.replaceNearest_cons, hsn name]
    exact .left hsn (ih hs ht)
  | right htn _ ih =>
    rw [Context.lookup_cons, htn name, Option.none_or] at ht
    exact .right htn (ih hs ht)

theorem Agree.replace (h : Agree st w c d) {x y z : Datum} (hs : c.find? name = some (.plain y))
    (ht : d.find? name = some (.plain z)) : Agree st w (c.replace name x) (d.replace name x) where
  sound := h.sound
  calls := by simpa using h.calls
  functions := by simpa using h.functions
  sizeLeft := by simpa using h.sizeLeft
  sizeRight := by simpa using h.sizeRight
  twins := fun l a b hab => by simpa using h.twins l a b hab
  scopes := by
    rw [Context.scopes_replace, Context.scopes_replace]
    exact (h.scopes.replace hs ht).congr rfl rfl (fun a => Context.cellAt_congr (by simp) a)
      fun b => Context.cellAt_congr (by simp) b

theorem lt_of_role {roles : List CellRole} {a : Nat} {r : CellRole} (h : roles[a]? = some r) :
    a < roles.length := (List.getElem?_eq_some_iff.1 h).1

/-- An int stored in a variable that is a cell on the right only. -/
theorem Agree.store_right (h : Agree st w c d) {y : Datum} {b : Nat} (n : Int32)
    (hs : c.find? name = some (.plain y)) (ht : d.find? name = some (.cell b))
    (hb : w.right[b]? = some (.counter level name)) :
    Agree st w (c.replace name (.number (.int n))) (d.setCell b n) where
  sound := h.sound
  calls := by simpa using h.calls
  functions := by simpa using h.functions
  sizeLeft := by simpa using h.sizeLeft
  sizeRight := by simpa using h.sizeRight
  twins := fun l a b' hab => by
    rw [cellAt_setCell_role n hb hab.2 nofun, Context.cellAt_replace]
    exact h.twins l a b' hab
  scopes := by
    rw [Context.scopes_replace, Context.scopes_setCell]
    exact (h.scopes.store_right n hs ht hb (h.sizeRight ▸ lt_of_role hb)).congr rfl rfl
      (fun a => Context.cellAt_congr (by simp) a) fun b => rfl

/-- An int stored in a variable that is a cell on both sides. -/
theorem Agree.store_twins (h : Agree st w c d) {l a b : Nat} (n : Int32) (hab : w.Twins l a b) :
    Agree st w (c.setCell a n) (d.setCell b n) where
  sound := h.sound
  calls := h.calls
  functions := h.functions
  sizeLeft := by simpa using h.sizeLeft
  sizeRight := by simpa using h.sizeRight
  twins := fun l' a' b' hab' => by
    by_cases ha : a' = a
    · subst ha
      obtain rfl : b' = b := (CellRole.twin.inj (Option.some.inj (hab'.1.symm.trans hab.1))).2
      rw [Context.cellAt_setCell_self c n (h.sizeLeft ▸ lt_of_role hab.1),
        Context.cellAt_setCell_self d n (h.sizeRight ▸ lt_of_role hab.2)]
    · rw [Context.cellAt_setCell_ne c n ha,
        cellAt_setCell_role n hab.2 hab'.2 fun e => ha (CellRole.twin.inj e).2]
      exact h.twins l' a' b' hab'
  scopes := h.scopes.congr_counters rfl rfl (fun _ _ _ _ ha => cellAt_setCell_role n hab.1 ha nofun)
    fun _ _ _ _ hb => cellAt_setCell_role n hab.2 hb nofun

/-- A change that is made on both sides alike, or refused on both for the same fault. -/
inductive Changed (st : Setting) (w : World) : Except Fault Context → Except Fault Context → Prop
  | done {c d : Context} (h : Agree st w c d) : Changed st w (.ok c) (.ok d)
  | refused {e : Fault} : Changed st w (.error e) (.error e)

/-- An assignment comes to the same on both sides. -/
theorem Agree.assign (h : Agree st w c d) (name : String) (x : Datum) :
    Changed st w (c.assign name x) (d.assign name x) := by
  unfold Context.assign
  rcases h.find? name with ⟨h₁, h₂⟩ | ⟨level, s, t, h₁, h₂, ha⟩
  · rw [h₁, h₂]
    exact .refused
  · rw [h₁, h₂]
    cases ha with
    | @plain y hp =>
      cases y with
      | number old =>
        cases x with
        | number n => exact .done (h.replace h₁ h₂)
        | _ => exact .refused
      | _ => exact .done (h.replace h₁ h₂)
    | twins hp ht _ =>
      cases x with
      | number n => exact .done (h.store_twins n.toInt ht)
      | _ => exact .refused
    | right hb =>
      cases x with
      | number n => exact .done (h.store_right n.toInt h₁ h₂ hb)
      | _ => exact .refused
    | left ha =>
      cases x with
      | number n =>
        have := (h.flip.store_right n.toInt h₂ h₁ ha).flip
        rw [Setting.flip_flip, World.flip_flip] at this
        exact .done this
      | _ => exact .refused

/-! ### Binding -/

/-- A datum bound to a name in innermost scopes that go together. -/
theorem Agree.bind (h : Agree st w c d) {x : Datum} (hL : w.layers = .shared :: L)
    (hp : ¬w.Pins L.length name) (hr : ¬st.reserved name) :
    Agree st w (c.bind name x) (d.bind name x) where
  sound := h.sound
  calls := h.calls
  functions := h.functions
  sizeLeft := h.sizeLeft
  sizeRight := h.sizeRight
  twins := h.twins
  scopes := by
    have hs := h.scopes
    rw [hL] at hs ⊢
    rw [Context.scopes_bind, Context.scopes_bind]
    cases hs with
    | shared hst hres hrest =>
      exact ((ScopesAgree.shared hst hres hrest).insert_both x hp hr).congr rfl rfl (fun _ => rfl) fun _ => rfl

/-- A declaration comes to the same on both sides; a variable of a native loop is there already. -/
theorem Agree.declare (h : Agree st w c d) (hL : w.layers = .shared :: L) (hr : ¬st.reserved name) :
    (Changed st w (c.declare name) (d.declare name)) ∧
      ((∃ e, c.declare name = .error e) ∨ ¬w.Pins L.length name) := by
  have hs := h.scopes
  rw [hL] at hs
  unfold Context.declare
  cases hs with
  | shared hst _ _ =>
    rcases (hst name).both with ⟨hsn, htn, hp⟩ | ⟨s', t', hsn, htn⟩
    · rw [hsn, htn]
      exact ⟨.done (h.bind hL hp hr), .inr hp⟩
    · rw [hsn, htn]
      exact ⟨.refused, .inl ⟨_, rfl⟩⟩

end ScriptTree

import ScriptTree.Proofs.Optimize.Preservation

/-!
One loop and the native loop made of it, in any context. The native loop makes one cell more than there
are; if just the views of this cell are read as soon as they are got, both loops show the same.
-/

namespace ScriptTree

open Eval

variable {c : Context} {st : Setting} {host : Host} {n m g setup test step body : Node} {loop : CountedLoop}
  {text : String} {a b span : Span} {mode : Mode} {K : List String}

/-- A context in which every cell that a variable is bound to is there, as it is in every run. -/
def Context.Backed (c : Context) : Prop :=
  ∀ s ∈ c.scopes, ∀ x a, s.find? x = some (.cell a) → a < c.cells.size

/-! ### A context and itself -/

/-- So many cells that go with themselves. -/
def CellRole.twins (size : Nat) : List CellRole := (List.range size).map (.twin 0)

theorem CellRole.getElem?_twins {size a : Nat} {r : CellRole} :
    (CellRole.twins size)[a]? = some r ↔ a < size ∧ r = .twin 0 a := by
  unfold CellRole.twins
  rw [List.getElem?_map, Option.map_eq_some_iff]
  constructor
  · rintro ⟨b, hb, rfl⟩
    obtain ⟨hlt, rfl⟩ := List.getElem?_eq_some_iff.1 hb
    rw [List.length_range] at hlt
    simp [hlt]
  · rintro ⟨hlt, rfl⟩
    exact ⟨a, by simp [hlt], rfl⟩

/-- The world in which a context goes with itself. -/
def Context.mirror (c : Context) : World :=
  ⟨List.replicate c.scopes.length .shared, CellRole.twins c.cells.size, CellRole.twins c.cells.size⟩

theorem Context.not_pins_mirror (c : Context) (level : Nat) (name : String) : ¬c.mirror.Pins level name := by
  rintro (⟨a, ha⟩ | ⟨b, hb⟩)
  · cases (CellRole.getElem?_twins.1 ha).2
  · cases (CellRole.getElem?_twins.1 hb).2

theorem Context.twins_mirror {l a b : Nat} :
    c.mirror.Twins l a b ↔ a < c.cells.size ∧ l = 0 ∧ b = a := by
  constructor
  · rintro ⟨h, -⟩
    obtain ⟨hlt, he⟩ := CellRole.getElem?_twins.1 h
    cases he
    exact ⟨hlt, rfl, rfl⟩
  · rintro ⟨hlt, rfl, rfl⟩
    exact ⟨CellRole.getElem?_twins.2 ⟨hlt, rfl⟩, CellRole.getElem?_twins.2 ⟨hlt, rfl⟩⟩

/-- A context agrees with itself if its cells are read alike on both sides. -/
theorem Context.Backed.agree (h : c.Backed) (hr : ∀ x, ¬st.reserved x) (hknown : ∀ f, st.known f f)
    (hearly : ∀ a, a < c.cells.size → st.earlyLeft a = st.earlyRight a) : Agree st c.mirror c c where
  sound := by
    have htwin : ∀ {l a b : Nat}, (CellRole.twins c.cells.size)[a]? = some (.twin l b) →
        (CellRole.twins c.cells.size)[b]? = some (.twin l a) := by
      intro l a b hab
      obtain ⟨hlt, he⟩ := CellRole.getElem?_twins.1 hab
      cases he
      exact hab
    refine ⟨fun l a b => htwin, fun l a b => htwin, fun l a b hab => ?_, fun a level name ha => ?_,
      fun b level name hb => ?_, fun level name hp => absurd hp (c.not_pins_mirror level name)⟩
    · obtain ⟨hlt, rfl, rfl⟩ := Context.twins_mirror.1 hab
      exact hearly _ hlt
    · cases (CellRole.getElem?_twins.1 ha).2
    · cases (CellRole.getElem?_twins.1 hb).2
  calls := rfl
  functions := List.forall₂_same.2 fun f _ => hknown f
  sizeLeft := by simp [Context.mirror, CellRole.twins]
  sizeRight := by simp [Context.mirror, CellRole.twins]
  twins l a b hab := by
    obtain ⟨-, -, rfl⟩ := Context.twins_mirror.1 hab
    rfl
  scopes := by
    have key : ∀ ss : List Scope, (∀ s ∈ ss, ∀ x a, s.find? x = some (.cell a) → a < c.cells.size) →
        ScopesAgree st c.mirror c c (List.replicate ss.length .shared) ss ss := by
      intro ss hss
      induction ss with
      | nil => exact .nil
      | cons s ss ih =>
        refine .shared (fun x => ?_) (fun x hx => absurd hx (hr x)) (ih fun t ht => hss t (.tail _ ht))
        have hp := c.not_pins_mirror (List.replicate ss.length Layer.shared).length x
        cases hx : s.find? x with
        | none => exact .absent hp
        | some slot => cases slot with
          | plain d => exact .plain hp
          | cell a =>
            exact .twins hp (Context.twins_mirror.2 ⟨hss s (.head _) x a hx, rfl, rfl⟩) (Nat.zero_le _)
    exact key c.scopes h

/-! ### One native loop -/

/-- Runs of the same trees, the right one in a native loop that has the cell at this address. -/
def loopSetting (address : Nat) : Setting :=
  ⟨Eq, fun _ => False, fun _ => false, fun b => b == address, address, address + 1⟩

theorem loop_similarity (address : Nat) : Similarity (loopSetting address) fun _ n m => n = m where
  step := by
    rintro mode n _ rfl
    refine .congruent (.refl (fun _ h => h) (fun _ _ _ => rfl) (fun _ _ _ _ => rfl) (fun _ _ => rfl) ?_)
    -- the cells of further native loops come after the one that is read early
    intro _ a b _ hb
    have hne : b ≠ address := Nat.ne_of_gt hb
    simp [loopSetting, hne]
  name f g h := by rw [h]
  parameters f g h := by rw [h]
  unreserved _ _ _ _ _ hr := hr
  body f g h := by rw [h]

/-- The body of the loop in the world of the loop. -/
theorem admits_body (hc : Agree (loopSetting c.cells.size) c.mirror c c)
    (hdef : (.definition, loop.counter) ∉ body.introduces) :
    (c.mirror.withCounter loop.counter).Admits (loopSetting c.cells.size) body.introduces where
  lowLeft := Nat.le_of_eq hc.sizeLeft
  lowRight := by
    refine Nat.le_of_eq ?_
    show c.cells.size + 1 = _
    rw [hc.sizeRight, World.withCounter, List.length_append, List.length_singleton]
  binds form y hy := ⟨_, rfl, fun hform hp => by
    rw [(World.pins_withCounter hc.sound).1 hp, hform] at hy
    exact hdef hy⟩

/-- A loop that counts shows what the native loop shows if its counter is read at once. -/
theorem counting_equivalent_early (hhead : CountingHead setup test step loop)
    (hdef : (.definition, loop.counter) ∉ body.introduces) (hc : c.Backed) (host : Host) :
    Node.Equivalent (Node.eval host) (Node.evalEarly (fun a => a == c.cells.size) host)
      (.construct .forLoop text a [setup, test, step, body]) (.counted loop g text b [body]) c := by
  have hA : Agree (loopSetting c.cells.size) c.mirror c c := by
    refine hc.agree (fun _ h => h) (fun _ => rfl) fun a ha => ?_
    have hne : a ≠ c.cells.size := Nat.ne_of_lt ha
    simp [loopSetting, hne]
  have hlast : (loopSetting c.cells.size).earlyRight c.mirror.right.length = true := by
    rw [← hA.sizeRight]
    exact beq_self_eq_true _
  have hadm := admits_body hA hdef
  rw [← Node.evalEarly_never]
  refine shows_iff_of_sim (fun fuel => ?_) (fun fuel => ?_) hA
    fun l hl => List.eq_of_mem_replicate hl
  · cases fuel with
    | zero => exact .outOfFuel
    | succ fuel =>
      refine Similarity.native_forward hhead (fun h => h) hlast ?_
      exact (loop_similarity c.cells.size).forward host fuel _ .exact body body rfl hadm
  · cases fuel with
    | zero => exact .outOfFuel
    | succ fuel =>
      refine Similarity.native_backward hhead (fun h => h) hlast ?_
      exact (loop_similarity c.cells.size).backward host fuel _ .exact body body rfl hadm

/-- A native loop in the place of the loop it was made of keeps what the loop does, just if reading its
counter late makes no difference to it. It makes none if only names that the body leaves alone, the
counter's among them, are bound to cells. -/
theorem specialization_preserves_iff (h : Pass.countedLoop.rule n = some m) (hc : c.Backed) (host : Host)
    (hdef : ∀ x ∈ m.counters, (.definition, x) ∉ Node.introducesAll m.children) :
    (n.Equivalent (Node.eval host) (Node.eval host) m c ↔
      m.Equivalent (Node.eval host) (Node.evalEarly (fun a => a == c.cells.size) host) m c) ∧
    ∀ K, m.Calm K → c.Calm K → n.Equivalent (Node.eval host) (Node.eval host) m c := by
  obtain ⟨text, span, setup, test, step, body, loop, rfl, hhead, rfl⟩ := Rule.countedLoop_eq_some h
  have hbody : (.definition, loop.counter) ∉ body.introduces := fun hx =>
    hdef _ (.head _) (Node.mem_introducesAll.2 ⟨body, .head _, hx⟩)
  have hearly : Node.Equivalent (Node.eval host) (Node.evalEarly (fun a => a == c.cells.size) host)
      (.construct .forLoop text span [setup, test, step, body])
      (.counted loop (.construct .forLoop text span [setup, test, step, body]) text span [body]) c :=
    counting_equivalent_early (countingHead_of_countedHead? hhead) hbody hc host
  exact ⟨⟨fun h => h.symm.trans hearly, fun h => hearly.trans h.symm⟩,
    fun K hm hK => hearly.trans (hm.equivalent hK _ host).symm⟩

/-- A loop that calls the host with its counter, and the native loop in its place. -/
theorem specialization_preserves_countTo :
    let n := Node.countTo "i" 3 (.callOn "emit" (.ofName "i"))
    ∃ m, Pass.countedLoop.rule n = some m ∧ (Context.withHost "emit").Backed ∧
      (∀ x ∈ m.counters, (.definition, x) ∉ Node.introducesAll m.children) ∧ m.Calm ["i"] ∧
      n.Equivalent (Node.eval .silent) (Node.eval .silent) m (.withHost "emit") := by
  have hplain : ∀ s ∈ (Context.withHost "emit").scopes, ∀ x a, s.find? x ≠ some (.cell a) := by
    intro s hs x a hx
    obtain rfl := List.mem_singleton.1 hs
    have hstarts : (Context.withHost "emit").Starts [] fun _ => True := Context.starts_withHost (by decide)
    exact hstarts.plain x a hx
  have hbacked : (Context.withHost "emit").Backed := fun s hs x a hx => absurd hx (hplain s hs x a)
  have hdef : ∀ x ∈ (Node.counted ⟨"i", 0, 3⟩ (.countTo "i" 3 (.callOn "emit" (.ofName "i"))) "" .unknown
      [.callOn "emit" (.ofName "i")]).counters, (.definition, x) ∉ Node.introducesAll
        [.callOn "emit" (.ofName "i")] := by decide
  refine ⟨_, rfl, hbacked, hdef, ⟨by decide, by decide, by decide⟩, ?_⟩
  refine (specialization_preserves_iff rfl hbacked .silent hdef).2 ["i"] ⟨by decide, by decide, by decide⟩ ?_
  exact ⟨fun s hs x a hx => absurd hx (hplain s hs x a), nofun⟩

end ScriptTree

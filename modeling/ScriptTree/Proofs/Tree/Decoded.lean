import ScriptTree.Proofs.Tree.Codec

/-!
Trees that were read. Reading keeps the numbers of spans in their range, takes no value that cannot be
written, and goes no deeper than the text does; so a tree that was read can be written. It has no native
loops.
-/

namespace ScriptTree

open Json

variable {depth : Nat} {n : Node}

/-! ### Members -/

/-- What each step keeps, taking members one after another keeps. -/
theorem foldlM_keeps {α β : Type} {P : β → Prop} {f : β → α → Option β} : ∀ {xs : List α} {b b' : β},
    (∀ x ∈ xs, ∀ b b', P b → f b x = some b' → P b') → P b → xs.foldlM f b = some b' → P b'
  | [], _, _, _, hb, h => Option.some.inj h ▸ hb
  | x :: xs, b, b', hstep, hb, h => by
    rw [List.foldlM_cons] at h
    obtain ⟨c, hc, h⟩ := Option.bind_eq_some_iff.1 h
    exact foldlM_keeps (fun y hy => hstep y (.tail _ hy)) (hstep x (.head _) b c hb hc) h

theorem depth_member {m : String × Json} {ms : List (String × Json)} (h : m ∈ ms) :
    m.2.depth ≤ depthMembers ms := by
  induction ms with
  | nil => cases h
  | cons m ms ih =>
    rw [depthMembers]
    rcases List.mem_cons.1 h with rfl | h
    · exact Nat.le_max_left _ _
    · exact Nat.le_trans (ih h) (Nat.le_max_right _ _)

/-! ### Positions and spans -/

theorem fitsBits_intoInt {bits : Nat} {old n : Int} {v : Json} (hold : FitsBits bits old)
    (h : intoInt bits old v = some n) : FitsBits bits n := by
  unfold intoInt at h
  split at h
  · exact Option.some.inj h ▸ hold
  · split at h
    · dsimp only at h
      split at h
      · cases h
        assumption
      · cases h
    · cases h
  · cases h

theorem inRange_intoPosition {old p : Position} {v : Json} (hold : old.InRange)
    (h : intoPosition old v = some p) : p.InRange := by
  unfold intoPosition at h
  split at h
  · exact Option.some.inj h ▸ hold
  · refine foldlM_keeps (P := Position.InRange) (fun m _ p q hp hq => ?_) hold h
    dsimp only at hq
    split at hq
    · obtain ⟨file, -, rfl⟩ := Option.map_eq_some_iff.1 hq
      exact hp
    · split at hq
      · obtain ⟨line, hline, rfl⟩ := Option.map_eq_some_iff.1 hq
        exact ⟨fitsBits_intoInt hp.1 hline, hp.2⟩
      · split at hq
        · obtain ⟨column, hcolumn, rfl⟩ := Option.map_eq_some_iff.1 hq
          exact ⟨hp.1, fitsBits_intoInt hp.2 hcolumn⟩
        · exact Option.some.inj hq ▸ hp
  · cases h

/-- A position is changed by members only. -/
theorem intoPosition_eq_or_depth {old p : Position} {v : Json} (h : intoPosition old v = some p) :
    p = old ∨ 1 ≤ v.depth := by
  cases v with
  | null => exact .inl (Option.some.inj h).symm
  | obj => exact .inr (Nat.le_add_left 1 _)
  | bool | num | str | arr => cases h

theorem writable_intoSpan {old s : Span} {v : Json} (hold : old.Writable depth) (hdepth : v.depth + 1 ≤ depth)
    (h : intoSpan old v = some s) : s.Writable depth := by
  unfold intoSpan at h
  split at h
  · exact Option.some.inj h ▸ hold
  · rename_i ms
    refine foldlM_keeps (P := Span.Writable depth) (fun m hm s t hs ht => ?_) hold h
    have hmember : m.2.depth + 2 ≤ depth := by
      have := depth_member hm
      rw [Json.depth] at hdepth
      omega
    dsimp only at ht
    split at ht
    · obtain ⟨p, hp, rfl⟩ := Option.map_eq_some_iff.1 ht
      refine ⟨inRange_intoPosition hs.start hp, hs.stop, fun hvalid => ?_⟩
      rcases intoPosition_eq_or_depth hp with rfl | hpos
      · exact hs.room hvalid
      · omega
    · split at ht
      · obtain ⟨p, hp, rfl⟩ := Option.map_eq_some_iff.1 ht
        exact ⟨hs.start, inRange_intoPosition hs.stop hp, hs.room⟩
      · exact Option.some.inj ht ▸ hs
  · cases h

theorem writable_intoSpan? {old s : Option Span} {v : Json} (hold : ∀ t, old = some t → t.Writable depth)
    (hdepth : v.depth + 1 ≤ depth) (h : intoSpan? old v = some s) : ∀ t, s = some t → t.Writable depth := by
  rintro t rfl
  unfold intoSpan? at h
  split at h
  · cases h
  · obtain ⟨u, hu, h⟩ := Option.map_eq_some_iff.1 h
    cases h
    refine writable_intoSpan ?_ hdepth hu
    cases old with
    | none => exact Span.writable_unknown
    | some t => exact hold t rfl

/-! ### Values -/

theorem depth_intoValue? {old : Option OuterValue} {x : OuterValue} {v : Json}
    (h : intoValue? old v = some (some x)) : 1 ≤ v.depth := by
  cases v with
  | null => cases h
  | obj => exact Nat.le_add_left 1 _
  | bool | num | str | arr => cases h

/-- What comes of one step after another comes of both. -/
theorem Except.of_bind_eq_ok {ε α β : Type} {x : Except ε α} {f : α → Except ε β} {b : β} (h : x >>= f = .ok b) :
    ∃ a, x = .ok a ∧ f a = .ok b := by
  cases x with
  | error => cases h
  | ok a => exact ⟨a, rfl, h⟩

theorem Except.of_map_eq_ok {ε α β : Type} {x : Except ε α} {f : α → β} {b : β} (h : f <$> x = .ok b) :
    ∃ a, x = .ok a ∧ f a = b := by
  cases x with
  | error => cases h
  | ok a => exact ⟨a, rfl, Except.ok.inj h⟩

/-- Only values with a written form are read. -/
theorem OuterValue.datum_writable {v : OuterValue} {d : Datum} (h : v.datum = .ok d) : d.Writable := by
  unfold OuterValue.datum at h
  dsimp only at h
  split at h
  · cases h
    trivial
  · obtain ⟨b, -, rfl⟩ := Except.of_map_eq_ok h
    trivial
  · obtain ⟨n, -, rfl⟩ := Except.of_map_eq_ok h
    trivial
  · obtain ⟨n, -, rfl⟩ := Except.of_map_eq_ok h
    trivial
  · obtain ⟨data, -, h⟩ := Except.of_bind_eq_ok h
    obtain ⟨x, -, h⟩ := Except.of_bind_eq_ok h
    cases h
    trivial
  · obtain ⟨data, -, h⟩ := Except.of_bind_eq_ok h
    obtain ⟨x, -, h⟩ := Except.of_bind_eq_ok h
    cases h
    trivial
  · obtain ⟨s, -, rfl⟩ := Except.of_map_eq_ok h
    trivial
  · cases h

/-! ### Nodes -/

/-- A node as it was read, from which a tree is built that can be written where so many levels are left. -/
inductive OuterNode.Writable : Nat → OuterNode → Prop
  | mk {depth : Nat} {kind text : String} {span : Option Span} {value : Option OuterValue}
    {children hidden : List (Option OuterNode)} (hdepth : 1 ≤ depth)
    (hspan : ∀ s, span = some s → s.Writable depth) (hvalue : ∀ v, value = some v → 2 ≤ depth)
    (hc : ∀ c, some c ∈ children ++ hidden → Writable (depth - 2) c) :
    Writable depth (.mk kind text span value children hidden)

theorem OuterNode.writable_blank (hdepth : 1 ≤ depth) : OuterNode.blank.Writable depth :=
  .mk hdepth nofun nofun nofun

/-- One member keeps it if its list of children does. -/
theorem writable_intoMember {take : Slots (Option OuterNode) → Option (Slots (Option OuterNode))} {key : String}
    {v : Json} {o o' : OuterNode} (ho : o.Writable depth) (hdepth : v.depth + 1 ≤ depth)
    (htake : ∀ old new, take old = some new → (∀ c, some c ∈ old.items ++ old.hidden → c.Writable (depth - 2)) →
      ∀ c, some c ∈ new.items ++ new.hidden → c.Writable (depth - 2))
    (h : intoMember take key v o = some o') : o'.Writable depth := by
  obtain ⟨hpos, hspan, hvalue, hc⟩ := ho
  rw [intoMember] at h
  split at h
  · obtain ⟨kind, -, rfl⟩ := Option.map_eq_some_iff.1 h
    exact .mk hpos hspan hvalue hc
  · split at h
    · obtain ⟨text, -, rfl⟩ := Option.map_eq_some_iff.1 h
      exact .mk hpos hspan hvalue hc
    · split at h
      · obtain ⟨span, hs, rfl⟩ := Option.map_eq_some_iff.1 h
        exact .mk hpos (writable_intoSpan? hspan hdepth hs) hvalue hc
      · split at h
        · obtain ⟨value, hv, rfl⟩ := Option.map_eq_some_iff.1 h
          refine .mk hpos hspan (fun x hx => ?_) hc
          subst hx
          have := depth_intoValue? hv
          omega
        · split at h
          · obtain ⟨slots, hslots, rfl⟩ := Option.map_eq_some_iff.1 h
            exact .mk hpos hspan hvalue (htake _ _ hslots hc)
          · split at h
            · obtain ⟨b, -, rfl⟩ := Option.map_eq_some_iff.1 h
              exact .mk hpos hspan hvalue hc
            · exact Option.some.inj h ▸ .mk hpos hspan hvalue hc

mutual

theorem writable_intoMembers : ∀ (ms : List (String × Json)) {depth : Nat} {o o' : OuterNode}, o.Writable depth →
    depthMembers ms + 1 ≤ depth → intoMembers ms o = some o' → o'.Writable depth
  | [], _, _, _, ho, _, h => Option.some.inj h ▸ ho
  | (key, v) :: ms, depth, o, o', ho, hdepth, h => by
    have hv : v.depth + 1 ≤ depth := Nat.le_trans (Nat.succ_le_succ (Nat.le_max_left _ _)) hdepth
    have hms : depthMembers ms + 1 ≤ depth := Nat.le_trans (Nat.succ_le_succ (Nat.le_max_right _ _)) hdepth
    rw [intoMembers_cons] at h
    obtain ⟨m, hm, h⟩ := Option.bind_eq_some_iff.1 h
    have hmember := writable_intoMember ho hv (fun old new hnew hold => writable_intoChildList v hold hv hnew) hm
    exact writable_intoMembers ms hmember hms h

theorem writable_intoChildList : ∀ (v : Json) {depth : Nat} {old new : Slots (Option OuterNode)},
    (∀ c, some c ∈ old.items ++ old.hidden → c.Writable (depth - 2)) → v.depth + 1 ≤ depth →
      intoChildList v old = some new → ∀ c, some c ∈ new.items ++ new.hidden → c.Writable (depth - 2)
  | .null, _, _, _, _, _, h => by
    rw [intoChildList] at h
    cases h
    exact nofun
  | .arr vs, depth, old, new, hold, hdepth, h => by
    rw [intoChildList] at h
    split at h
    · cases h
      exact nofun
    · obtain ⟨all, hall, rfl⟩ := Option.map_eq_some_iff.1 h
      rw [Json.depth] at hdepth
      intro c hc
      rw [Slots.cut, List.take_append_drop] at hc
      exact writable_intoChildren vs hold (by omega) hall c hc
  | .bool _, _, _, _, _, _, h | .num _, _, _, _, _, _, h | .str _, _, _, _, _, _, h | .obj _, _, _, _, _, _, h => by
    rw [intoChildList] at h
    · cases h
    all_goals exact nofun

theorem writable_intoChild : ∀ (v : Json) {depth : Nat} {old new : Option OuterNode},
    (∀ c, old = some c → c.Writable depth) → v.depth ≤ depth → intoChild v old = some new →
      ∀ c, new = some c → c.Writable depth
  | .null, _, _, _, _, _, h => by
    rw [intoChild] at h
    cases h
    exact nofun
  | .obj ms, depth, old, new, hold, hdepth, h => by
    rw [intoChild] at h
    obtain ⟨o, ho, rfl⟩ := Option.map_eq_some_iff.1 h
    intro c hc
    cases hc
    refine writable_intoMembers ms ?_ hdepth ho
    cases old with
    | none => exact OuterNode.writable_blank (Nat.le_trans (Nat.le_add_left 1 _) hdepth)
    | some c => exact hold c rfl
  | .bool _, _, _, _, _, _, h | .num _, _, _, _, _, _, h | .str _, _, _, _, _, _, h | .arr _, _, _, _, _, _, h => by
    rw [intoChild] at h
    · cases h
    all_goals exact nofun

theorem writable_intoChildren : ∀ (vs : List Json) {depth : Nat} {old new : List (Option OuterNode)},
    (∀ c, some c ∈ old → c.Writable depth) → depthAll vs ≤ depth → intoChildren vs old = some new →
      ∀ c, some c ∈ new → c.Writable depth
  | [], _, _, _, hold, _, h => Option.some.inj h ▸ hold
  | v :: vs, depth, old, new, hold, hdepth, h => by
    have hv : v.depth ≤ depth := Nat.le_trans (Nat.le_max_left _ _) hdepth
    have hvs : depthAll vs ≤ depth := Nat.le_trans (Nat.le_max_right _ _) hdepth
    rw [intoChildren] at h
    obtain ⟨first, hfirst, h⟩ := Option.bind_eq_some_iff.1 h
    obtain ⟨others, hothers, h⟩ := Option.bind_eq_some_iff.1 h
    cases h
    intro c hc
    rcases List.mem_cons.1 hc with hc | hc
    · refine writable_intoChild v (fun k hk => ?_) hv hfirst c hc.symm
      cases old with
      | nil => cases hk
      | cons k' old => exact hold k (hk ▸ .head _)
    · exact writable_intoChildren vs (fun k hk => hold k (List.mem_of_mem_drop hk)) hvs hothers c hc

end

/-! ### Trees -/

theorem buildAll_forall {P : Node → Prop} : ∀ {os : List (Option OuterNode)} {ns : List Node},
    (∀ o, some o ∈ os → ∀ n, o.build = .ok n → P n) → OuterNode.buildAll os = .ok ns → ∀ n ∈ ns, P n
  | [], _, _, h => by
    cases h
    exact nofun
  | none :: _, _, _, h => nomatch h
  | some o :: os, ns, hP, h => by
    rw [OuterNode.buildAll] at h
    obtain ⟨first, hfirst, h⟩ := Except.of_bind_eq_ok h
    obtain ⟨others, hothers, h⟩ := Except.of_bind_eq_ok h
    cases h
    intro n hn
    rcases List.mem_cons.1 hn with rfl | hn
    · exact hP o (.head _) n hfirst
    · exact buildAll_forall (fun o ho => hP o (.tail _ ho)) hothers n hn

/-- The tree that is built can be written, and it has no native loops. -/
theorem writable_build {o : OuterNode} (ho : o.Writable depth) : ∀ {n : Node}, o.build = .ok n →
    n.Writable depth ∧ n.Generic := by
  induction ho with
  | @mk depth kind text span value children hidden hdepth hspan hvalue _ ih =>
    intro n h
    have hspan : (span.getD .unknown).Writable depth := by
      cases span with
      | none => exact Span.writable_unknown
      | some s => exact hspan s rfl
    unfold OuterNode.build at h
    dsimp only at h
    split at h
    · cases h
    · cases h
    · split at h
      · cases h
      · rename_i v
        obtain ⟨d, hd, h⟩ := Except.of_bind_eq_ok h
        cases h
        refine ⟨.constant (hvalue v rfl) hspan (OuterValue.datum_writable hd), ?_⟩
        exact Node.forall_parts.2 ⟨Kind.noConfusion, List.forall_mem_nil _⟩
    · obtain ⟨ns, hns, h⟩ := Except.of_bind_eq_ok h
      cases h
      have hchildren := buildAll_forall (P := fun n => n.Writable (depth - 2) ∧ n.Generic)
        (fun o ho n hn => ih o (List.mem_append.2 (.inl ho)) hn) hns
      exact ⟨.construct hdepth hspan fun c hc => (hchildren c hc).1,
        Node.forall_parts.2 ⟨Kind.noConfusion, fun c hc => (hchildren c hc).2⟩⟩

/-- A tree that was read, at the front of a text or as the whole of it. -/
def Node.Decoded (n : Node) : Prop := ∃ text, Node.decodeFirst text = .ok n

/-- What is read of a whole text is read at its front. -/
theorem decoded_of_decode {text : String} (h : Node.decode text = .ok n) : n.Decoded := by
  refine ⟨text, ?_⟩
  unfold Node.decode at h
  unfold Node.decodeFirst
  split at h
  · cases h
  · rename_i v hv
    rw [parseFirst_of_parse hv]
    exact h

/-- A tree that was read can be written, and it has no native loops. -/
theorem Node.Decoded.writable (h : n.Decoded) : n.Writable nestingLimit ∧ n.Generic := by
  obtain ⟨text, h⟩ := h
  unfold Node.decodeFirst at h
  split at h
  · cases h
  · rename_i v hv
    have hdepth := depth_parseFirst hv
    unfold Node.ofJson at h
    split at h
    · cases h
    · rename_i o ho
      have howritable : o.Writable nestingLimit := by
        cases v with
        | null =>
          cases ho
          exact OuterNode.writable_blank (by decide)
        | obj ms => exact writable_intoMembers ms (OuterNode.writable_blank (by decide)) hdepth ho
        | bool | num | str | arr => cases ho
      split at h
      · cases h
        exact writable_build howritable ‹_›
      · cases h

/-- A tree that can be written, and is written as it is, may have been read. -/
theorem decoded_of_writable (h : n.Writable nestingLimit) (hn : n.restored.mapSpan Span.reread = n) : n.Decoded :=
  decoded_of_decode ((decode_encode h).trans (congrArg Except.ok hn))

end ScriptTree

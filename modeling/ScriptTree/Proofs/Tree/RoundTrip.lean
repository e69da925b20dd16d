import ScriptTree.Proofs.Optimize.Coherence

/-!
Trees that were read, walked and written. A rewriting puts a part of a node or a constant in its place,
neither of which is nested deeper, and a native loop is written as the loop it stands for; so what walks
make of a tree that was read can be written, and is read back.
-/

namespace ScriptTree

open Json

variable {p : Pipeline} {pass : Pass} {depth : Nat} {n m : Node}

/-! ### Constants that folding makes -/

theorem Datum.writable_binary {op : BinaryOperator} {l r d : Datum} (h : l.binary (some op) r = .ok d) :
    d.Writable := by
  unfold Datum.binary at h
  split at h
  · unfold Number.binary Number.Pair.binary at h
    split at h
    · cases h
      trivial
    · cases h
      trivial
    · cases h
      trivial
    · cases h
      trivial
    · obtain ⟨x, -, h⟩ := Except.of_bind_eq_ok h
      cases h
      trivial
    · obtain ⟨x, -, h⟩ := Except.of_bind_eq_ok h
      cases h
      trivial
    · split at h
      · cases h
        trivial
      · cases h
    · split at h
      · cases h
        trivial
      · cases h
  · cases h

theorem Datum.writable_convert {name : String} {d r : Datum} (h : d.convert name = .ok r) : r.Writable := by
  unfold Datum.convert at h
  split at h
  · cases h
    trivial
  · cases h

/-! ### Walks -/

/-- A constant that stands for constants below needs no more room than these. -/
theorem writable_folded {form : Form} {s text : String} {span : Span} {c : Node} {ns : List Node} {d : Datum}
    (hn : (Node.construct form s span ns).Writable depth) (hc : c ∈ ns) (hd : d.Writable) :
    (Node.ofLiteral text span (.plain d)).Writable depth := by
  obtain ⟨-, hspan, hns⟩ := Node.writable_construct_iff.1 hn
  have := (hns c hc).pos
  exact .constant (by omega) hspan hd

theorem rule_writable (h : pass.rule n = some m) (hn : n.Writable depth) : m.Writable depth := by
  cases pass with
  | trailingReturn =>
    obtain ⟨text, span, pre, s, a, init, t, b, e, rfl, rfl⟩ := Rule.trailingReturn_eq_some h
    obtain ⟨hdepth, hspan, hc⟩ := Node.writable_construct_iff.1 hn
    obtain ⟨hpre, hbody⟩ := List.forall_mem_append.1 hc
    obtain ⟨hbdepth, hbspan, hbc⟩ := Node.writable_construct_iff.1 (List.forall_mem_singleton.1 hbody)
    obtain ⟨hinit, hfinal⟩ := List.forall_mem_append.1 hbc
    obtain ⟨-, -, he⟩ := Node.writable_construct_iff.1 (List.forall_mem_singleton.1 hfinal)
    have he := (List.forall_mem_singleton.1 he).mono (Nat.sub_le _ _)
    have hblock : (Node.construct .block s a (init ++ [e])).Writable (depth - 2) :=
      .construct hbdepth hbspan (List.forall_mem_append.2 ⟨hinit, List.forall_mem_singleton.2 he⟩)
    exact .construct hdepth hspan (List.forall_mem_append.2 ⟨hpre, List.forall_mem_singleton.2 hblock⟩)
  | loneBlock =>
    obtain ⟨text, span, rfl, -⟩ := Rule.loneBlock_eq_some h
    exact ((Node.writable_construct_iff.1 hn).2.2 m (.head _)).mono (Nat.sub_le _ _)
  | deadBranch =>
    obtain ⟨form, text, span, b, s, a, ns, first, rest, rfl, -, ⟨-, rfl⟩ | ⟨-, rfl⟩⟩ := Rule.deadBranch_eq_some h
    · exact ((Node.writable_construct_iff.1 hn).2.2 m (.tail _ (.head _))).mono (Nat.sub_le _ _)
    · exact ((Node.writable_construct_iff.1 hn).2.2 m (.tail _ (.tail _ (.head _)))).mono (Nat.sub_le _ _)
  | constantFolding =>
    rcases Rule.constantFolding_eq_some h with ⟨op, span, lhs, rhs, rfl, hf⟩ | ⟨text, span, callee, list, rfl, hf⟩
    · obtain ⟨l, r, o, d, -, -, -, hd, rfl⟩ := Rule.foldBinary_eq_some hf
      exact writable_folded hn (.head _) (Datum.writable_binary hd)
    · obtain ⟨_, _, _, _, _, _, _, _, r, -, -, -, -, hr, rfl⟩ := Rule.foldConversion_eq_some hf
      exact writable_folded hn (.head _) (Datum.writable_convert hr)
  | countedLoop =>
    obtain ⟨text, span, setup, test, step, body, loop, rfl, -, rfl⟩ := Rule.countedLoop_eq_some h
    exact .counted hn

/-- A tree that can be written can be written after a rewriting. -/
theorem Rewrites.writable (h : Rewrites p n m) : ∀ {depth : Nat}, n.Writable depth → m.Writable depth := by
  induction h with
  | root _ h => exact rule_writable h
  | @child a n m pre post _ ha ih =>
    intro depth hn
    cases hn with
    | construct hdepth hspan hc =>
      obtain rfl := ha
      obtain ⟨hpre, hrest⟩ := List.forall_mem_append.1 hc
      obtain ⟨hnode, hpost⟩ := List.forall_mem_cons.1 hrest
      exact .construct hdepth hspan (List.forall_mem_append.2 ⟨hpre, List.forall_mem_cons.2 ⟨ih hnode, hpost⟩⟩)
    | constant => exact absurd ha (by simp [Node.children])
    | counted h => exact .counted h

theorem writable_walks (hn : n.Writable depth) (ps : List Pipeline) : (Pipeline.walks ps n).Writable depth := by
  induction ps using List.reverseRecOn with
  | nil => exact hn
  | append_singleton ps p ih =>
    rw [Pipeline.walks_concat]
    exact walk_keeps (fun _ _ h => h.writable) ih

/-! ### Reading what was written -/

/-- What walks make of a tree that was read is written as a text that is read back: every native loop is the
loop again that it stands for, every span with a valid start is what it was, and every other span is the one
that names no place. Where there is no native loop, the tree read back has the same text. -/
theorem round_trip (h : n.Decoded) (ps : List Pipeline) :
    let w := Pipeline.walks ps n
    let m := w.restored.mapSpan Span.reread
    Node.decode w.encode = .ok m ∧ (w.Generic → m.encode = w.encode) := by
  intro w m
  refine ⟨decode_encode (writable_walks h.writable.1 ps), fun hw => ?_⟩
  have hmembers : m.members = w.members := (members_reread w.restored).trans (congrArg Node.members hw.restored)
  rw [Node.encode, Node.encode, Node.toJson, Node.toJson, hmembers]

/-- A native loop that was walked once more is written as the loop that was read. -/
theorem round_trip_sumInLoop :
    let w := Pipeline.walks [[.countedLoop], [.constantFolding]] .sumInLoop
    let m := w.restored.mapSpan Span.reread
    Node.sumInLoop.Decoded ∧ m = .sumInLoop ∧ Node.decode w.encode = .ok m ∧ (w.Generic → m.encode = w.encode) :=
  ⟨Node.decoded_sumInLoop, rfl, round_trip Node.decoded_sumInLoop _⟩

end ScriptTree

import ScriptTree.Proofs.Optimize.Preservation
import ScriptTree.Proofs.Optimize.Normal
import ScriptTree.Proofs.Tree.Decoded
import Mathlib.Data.List.Induction

/-!
Native loops after any number of walks. A native loop has three parts that are carried along apart from one
another: the loop it was made of, the counter it runs, and the body it retains. Later walks go on with the
body and leave the others as they are; a native loop inside of the loop that another one keeps is not
touched any more. So the body is always what some of the walks, one after another, made of the body of the
loop that is kept: the walks up to the last one, until the loop is kept by another.
-/

namespace ScriptTree

variable {p : Pipeline} {pass : Pass} {ps : List Pipeline} {a n m : Node}

/-- What walks with these passes, one after another, make of a tree. -/
def Pipeline.walks (ps : List Pipeline) (n : Node) : Node := ps.foldl (fun n p => (p.walk n).tree) n

theorem Pipeline.walks_concat (ps : List Pipeline) (p : Pipeline) (n : Node) :
    walks (ps ++ [p]) n = (p.walk (walks ps n)).tree :=
  List.foldl_concat ..

namespace Node

/-- What is reached from a node through children and through the loops that native loops keep. -/
inductive Reaches : Node → Node → Prop
  | refl (n : Node) : Reaches n n
  | child {n m a : Node} (hm : m ∈ n.children) (h : Reaches m a) : Reaches n a
  | generic {n m a : Node} (hm : n.generic? = some m) (h : Reaches m a) : Reaches n a

/-- A native loop counts as the loop that it keeps, it stands in its place, and it retains what some walks
made of the body. -/
def Coheres (among : List Pipeline → Prop) : Node → Prop
  | .counted loop generic text span children => ∃ setup test step body run,
    generic = .construct .forLoop text span [setup, test, step, body] ∧ CountingHead setup test step loop ∧
      among run ∧ children = [Pipeline.walks run body]
  | _ => True

theorem Coheres.imp {among among' : List Pipeline → Prop} (h : a.Coheres among)
    (himp : ∀ run, among run → among' run) : a.Coheres among' := by
  cases a with
  | counted =>
    obtain ⟨setup, test, step, body, run, hgeneric, hhead, hrun, hchildren⟩ := h
    exact ⟨setup, test, step, body, run, hgeneric, hhead, himp run hrun, hchildren⟩
  | construct => trivial
  | constant => trivial

/-- After some walks, the native loops of a tree retain what the walks up to the last one made of the body, and
those inside of the loops that are kept what some of the walks made of it. -/
def Current (ps : List Pipeline) (n : Node) : Prop := ∀ a ∈ n.parts,
  a.Coheres (· <:+ ps) ∧ ∀ g, a.generic? = some g → ∀ b, g.Reaches b → b.Coheres (· <:+: ps)

theorem current_iff : n.Current ps ↔ (n.Coheres (· <:+ ps) ∧
    ∀ g, n.generic? = some g → ∀ b, g.Reaches b → b.Coheres (· <:+: ps)) ∧ ∀ c ∈ n.children, c.Current ps :=
  forall_parts

/-- What is current is coherent throughout. -/
theorem Current.reaches (h : n.Current ps) (ha : n.Reaches a) : a.Coheres (· <:+: ps) := by
  induction ha with
  | refl => exact (current_iff.1 h).1.1.imp fun _ hrun => hrun.isInfix
  | child hm _ ih => exact ih ((current_iff.1 h).2 _ hm)
  | generic hm ha => exact (current_iff.1 h).1.2 _ hm _ ha

theorem Generic.current (h : n.Generic) : n.Current [] := by
  intro a ha
  cases a with
  | counted => exact absurd rfl (h _ ha)
  | construct => exact ⟨trivial, nofun⟩
  | constant => exact ⟨trivial, nofun⟩

end Node

/-! ### One walk -/

/-- A native loop that a pass makes keeps the loop that was there, with its body as it is. -/
theorem current_rule (h : pass.rule n = some m) (hn : n.Current ps) : m.Current ps := by
  refine rule_forall_parts h (Node.current_iff.1 hn).2 ?_ ?_ ?_
  · exact fun _ _ _ _ _ _ _ _ _ _ => ⟨⟨trivial, nofun⟩, ⟨trivial, nofun⟩⟩
  · exact fun _ _ _ => ⟨trivial, nofun⟩
  · rintro text span setup test step body loop rfl hhead
    refine ⟨?_, fun g hg b hb => ?_⟩
    · exact ⟨setup, test, step, body, [], rfl, countingHead_of_countedHead? hhead, List.nil_suffix, rfl⟩
    · cases hg
      exact hn.reaches hb

theorem current_apply : ∀ {p : Pipeline} {n : Node}, n.Current ps → (p.apply n).1.Current ps
  | [], _, hn => hn
  | pass :: p, n, hn => by
    rw [Pipeline.apply]
    cases h : pass.rule n with
    | none => exact current_apply hn
    | some m => exact current_apply (current_rule h hn)

/-- One more walk goes on with what native loops retain. -/
theorem current_walk (n : Node) (h : n.Current ps) : (p.walk n).tree.Current (ps ++ [p]) := by
  induction n using Node.induction with
  | step n ih =>
    obtain ⟨⟨hn, hgeneric⟩, hc⟩ := Node.current_iff.1 h
    rw [Pipeline.walk_eq]
    refine current_apply (Node.current_iff.2 ⟨⟨?_, fun g hg b hb => ?_⟩, fun c hmem => ?_⟩)
    · cases n with
      | counted =>
        obtain ⟨setup, test, step, body, run, hloop, hhead, ⟨front, rfl⟩, rfl⟩ := hn
        refine ⟨setup, test, step, body, run ++ [p], hloop, hhead, ⟨front, ?_⟩, ?_⟩
        · rw [List.append_assoc]
        · rw [Pipeline.walks_concat]
          rfl
      | construct => trivial
      | constant => trivial
    · have hg : n.generic? = some g := by cases n <;> exact hg
      exact (hgeneric g hg b hb).imp fun run hrun => hrun.trans (List.prefix_append ps [p]).isInfix
    · rw [Pipeline.children_below] at hmem
      obtain ⟨k, hk, rfl⟩ := List.mem_map.1 hmem
      exact ih k hk (hc k hk)

/-! ### Any number of walks -/

theorem current_walks (hn : n.Generic) (ps : List Pipeline) : (Pipeline.walks ps n).Current ps := by
  induction ps using List.reverseRecOn with
  | nil => exact hn.current
  | append_singleton ps p ih =>
    rw [Pipeline.walks_concat]
    exact current_walk _ ih

/-- Whatever walks were made of a tree that was read, each native loop in it, through children and through loops
that are kept, keeps a counting loop, counts as this loop does, stands in its place, and retains what some of the
walks, one right after another, made of the body. -/
theorem walks_coherent (h : n.Decoded) (ps : List Pipeline) :
    ∀ a, (Pipeline.walks ps n).Reaches a → a.Coheres (· <:+: ps) :=
  fun _ => (current_walks h.writable.2 ps).reaches

/-- A loop that calls the host with a sum. -/
def Node.sumInLoop : Node :=
  .countTo "i" 2 (.callOn "emit" (.construct .binary "+" .unknown [.ofInt 1, .ofInt 2]))

theorem Node.decoded_sumInLoop : Node.sumInLoop.Decoded := by
  refine decoded_of_writable ?_ rfl
  simp [sumInLoop, countTo, callOn, ofName, ofInt, writable_construct_iff, writable_constant_iff,
    Span.writable_unknown, Datum.Writable, Json.nestingLimit]

/-- A native loop that is walked once more keeps the loop that it was made of, and its body is folded. -/
theorem walks_coherent_sumInLoop :
    let ps := [[.countedLoop], [.constantFolding]]
    Node.sumInLoop.Decoded ∧ (Pipeline.walks ps .sumInLoop).generic? = some .sumInLoop ∧
      ∀ a, (Pipeline.walks ps .sumInLoop).Reaches a → a.Coheres (· <:+: ps) :=
  ⟨Node.decoded_sumInLoop, rfl, walks_coherent Node.decoded_sumInLoop _⟩

end ScriptTree

import ScriptTree.Proofs.Optimize.Walk
import ScriptTree.Proofs.Run.Quiet

/-!
Whole programs before and after a walk. The view of a native counter that waits for the right operand of
a binary operator shows what is written meanwhile, where the variable of the generic loop would have been
read. This is all that can tell the two programs apart, and a program that leaves its counters alone
does not let it be seen.
-/

namespace ScriptTree

variable {p : Pipeline} {n m : Node} {host : Host} {c : Context} {K : List String}

/-- A calm tree shows the same with and without early reading. -/
theorem Node.Calm.equivalent (h : n.Calm K) (hc : c.Calm K) (early : Nat → Bool) (host : Host) :
    n.Equivalent (Node.eval host) (Node.evalEarly early host) n c := by
  have hsame := fun j => (h.quiet early host j n c hc).same
  exact fun s => exists_congr fun o => and_congr
    ⟨fun ⟨k, hk⟩ => ⟨k, fun j hj => (hsame j).symm.trans (hk j hj)⟩,
      fun ⟨k, hk⟩ => ⟨k, fun j hj => (hsame j).trans (hk j hj)⟩⟩ Iff.rfl

/-- A tree without native loops has no counters. -/
theorem Node.Generic.counters (h : n.Generic) : n.collect Node.counters = [] := by
  refine List.eq_nil_iff_forall_not_mem.2 fun x hx => ?_
  obtain ⟨a, ha, hx⟩ := Node.mem_collect.1 hx
  cases a with
  | counted => exact h _ ha rfl
  | construct => cases hx
  | constant => cases hx

/-- The programs that can be walked: without native loops at first, and fit for these passes. -/
structure Node.Source (p : Pipeline) (n : Node) : Prop where
  generic : n.Generic
  fit : n.Fit p

/-- A walk is sound up to early reading: what a program shows, the walked one shows if native counters
are read at once. -/
theorem walk_equivalent_early (hn : n.Source p) (hc : c.Starts p (Node.Source p)) (host : Host) :
    n.Equivalent (Node.eval host) (Node.evalEarly (fun _ => true) host) (p.walk n).tree c :=
  (generic_equivalent hn.generic (hc.imp fun _ h => h.generic) host).trans
    (walk_equivalent hn.fit (hc.imp fun _ h => h.fit) (fun _ => rfl) host)

/-- A walk keeps what a program does just if reading native counters late makes no difference to the
walked program, and it makes none if the program and the functions around it leave the native loops'
counters alone. -/
theorem walk_preserves_iff (hn : n.Source p) (hc : c.Starts p (Node.Source p)) (host : Host) :
    (n.Equivalent (Node.eval host) (Node.eval host) (p.walk n).tree c ↔
      (p.walk n).tree.Equivalent (Node.eval host) (Node.evalEarly (fun _ => true) host) (p.walk n).tree c) ∧
    (n.Spares ((p.walk n).tree.collect Node.counters) →
      (∀ f ∈ c.functions.toList, f.body.Spares ((p.walk n).tree.collect Node.counters)) →
        n.Equivalent (Node.eval host) (Node.eval host) (p.walk n).tree c) := by
  have hearly := walk_equivalent_early hn hc host
  have hiff : n.Equivalent (Node.eval host) (Node.eval host) (p.walk n).tree c ↔
      (p.walk n).tree.Equivalent (Node.eval host) (Node.evalEarly (fun _ => true) host) (p.walk n).tree c :=
    ⟨fun h => h.symm.trans hearly, fun h => hearly.trans h.symm⟩
  refine ⟨hiff, fun hs hf => hiff.2 ?_⟩
  have hkept := walk_keeps (p := p) (P := fun m => m.WellShaped ∧ m.Spares ((p.walk n).tree.collect Node.counters))
    (fun _ _ h hm => ⟨h.wellShaped hm.1, h.spares hm.1 hm.2⟩) ⟨hn.fit.shaped, hs⟩
  have hcalm : (p.walk n).tree.Calm ((p.walk n).tree.collect Node.counters) :=
    ⟨hkept.1, hkept.2, List.Subset.refl _⟩
  refine hcalm.equivalent ⟨fun s hs x a hx => ?_, fun f hm => ?_⟩ _ host
  · rw [Context.scopes, hc.global, List.mem_singleton] at hs
    exact absurd (hs ▸ hx) (hc.plain x a)
  · have hsource := (hc.functions f hm).2
    exact ⟨hsource.fit.shaped, hf f hm, by rw [hsource.generic.counters]; exact List.nil_subset _⟩

/-! ### A program -/

def Node.ofName (x : String) : Node := .construct .identifier x .unknown []

def Node.ofInt (k : Int32) : Node := .constant (.plain (.number (.int k))) "" .unknown []

/-- A call of a function with one argument. -/
def Node.callOn (f : String) (argument : Node) : Node :=
  .construct .call "" .unknown [.ofName f, .construct .argumentList "" .unknown [argument]]

/-- A loop that counts from `0` to below a limit. -/
def Node.countTo (x : String) (limit : Int32) (body : Node) : Node :=
  .construct .forLoop "" .unknown
    [.construct .equation "=" .unknown [.construct .declaration "" .unknown [.ofName x], .ofInt 0],
      .construct .binary "<" .unknown [.ofName x, .ofInt limit], .construct .prefixed "++" .unknown [.ofName x],
      body]

/-- A context whose host has one function. -/
def Context.withHost (f : String) : Context := .ofBindings [(f, .plain (.host ⟨0, f⟩))]

theorem Context.starts_withHost {good : Node → Prop} {f : String} (hf : ¬Reserves p f) :
    (Context.withHost f).Starts p good :=
  Context.starts_ofBindings fun _ hb => by
    obtain rfl := List.mem_singleton.1 hb
    exact ⟨⟨_, rfl⟩, hf⟩

/-- A loop that calls the host with its counter becomes native and does the same. -/
theorem walk_preserves_countTo :
    let n := Node.countTo "i" 3 (.callOn "emit" (.ofName "i"))
    let p := Pipeline.standard
    n.Source p ∧ (Context.withHost "emit").Starts p (Node.Source p) ∧
      n.Spares ((p.walk n).tree.collect Node.counters) ∧
      n.Equivalent (Node.eval .silent) (Node.eval .silent) (p.walk n).tree (.withHost "emit") := by
  have hsource : (Node.countTo "i" 3 (.callOn "emit" (.ofName "i"))).Source .standard :=
    ⟨by decide, by decide, by decide, fun _ => by decide⟩
  have hstarts : (Context.withHost "emit").Starts .standard (Node.Source .standard) := Context.starts_withHost (by decide)
  have hspares : (Node.countTo "i" 3 (.callOn "emit" (.ofName "i"))).Spares
      ((Pipeline.standard.walk (.countTo "i" 3 (.callOn "emit" (.ofName "i")))).tree.collect Node.counters) := by
    decide
  exact ⟨hsource, hstarts, hspares, (walk_preserves_iff hsource hstarts .silent).2 hspares nofun⟩

end ScriptTree

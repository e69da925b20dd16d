import ScriptTree.Proofs.Optimize.Sparing
import ScriptTree.Proofs.Run.Counter
import ScriptTree.Proofs.Run.Early

/-!
Runs that leave cells alone. If only certain names are bound to cells, and a program spares these
names, then a cell holds the same before and after every part of the program, except that a native loop
steps its own cell. `Steady` says what such a part keeps; `Quiet` says that of two computations which
come to the same.
-/

namespace ScriptTree

variable {K : List String} {c c' d e : Context} {name : String}

/-- A tree that spares these names, and only these are counters of its native loops. -/
structure Node.Calm (K : List String) (n : Node) : Prop where
  shaped : n.WellShaped
  spares : n.Spares K
  counters : n.collect Node.counters ⊆ K

/-- Variables that hold data still hold data. -/
def Scope.Keeps (s t : Scope) : Prop := ∀ x d, s.find? x = some (.plain d) → ∃ d', t.find? x = some (.plain d')

/-- Only these names are bound to cells, and the functions leave them alone. -/
structure Context.Calm (K : List String) (c : Context) : Prop where
  cells : ∀ s ∈ c.scopes, ∀ x a, s.find? x = some (.cell a) → x ∈ K
  functions : ∀ f ∈ c.functions.toList, f.body.Calm K

/-- The innermost scope has a variable of this name that holds a datum. -/
def Context.Owns (c : Context) (x : String) : Prop := ∃ d, c.innermost.find? x = some (.plain d)

/-- What a part of a calm program keeps: cells, but for a hot one, and variables that hold data. -/
structure Steady (K : List String) (hot : Option Nat) (c c' : Context) : Prop where
  size : c'.cells.size = c.cells.size
  cells : ∀ a, hot ≠ some a → c'.cellAt a = c.cellAt a
  scopes : List.Forall₂ Scope.Keeps c.scopes c'.scopes
  calm : c'.Calm K

/-- Two computations come to the same, and it is steady. -/
structure Quiet {α : Type} (K : List String) (hot : Option Nat) (P : α → Context → Prop) (x y : Eval α)
    (c : Context) : Prop where
  same : x c = y c
  steady : Steady K hot c (x c).2
  result : ∀ a, (x c).1 = .ok a → P a (x c).2

theorem Scope.Keeps.refl (s : Scope) : s.Keeps s := fun _ d h => ⟨d, h⟩

theorem Scope.keeps_insert (s : Scope) (x : String) (d : Datum) : s.Keeps (s.insert x (.plain d)) := by
  intro y e hy
  by_cases h : y = x
  · exact ⟨d, h ▸ Scope.find?_insert_self x _ s⟩
  · exact ⟨e, (Scope.find?_insert_ne h _ s).trans hy⟩

/-! ### Steady contexts -/

namespace Steady

variable {hot : Option Nat}

theorem refl (h : c.Calm K) : Steady K hot c c :=
  ⟨rfl, fun _ _ => rfl, List.forall₂_same.2 fun s _ => .refl s, h⟩

theorem trans (h : Steady K hot c d) (h' : Steady K hot d e) : Steady K hot c e where
  size := h'.size.trans h.size
  cells a ha := (h'.cells a ha).trans (h.cells a ha)
  scopes := by
    have hs := h.scopes
    have hs' := h'.scopes
    generalize c.scopes = ss, d.scopes = ts, e.scopes = us at hs hs'
    induction hs generalizing us with
    | nil => cases hs'; exact .nil
    | cons h _ ih =>
      cases hs' with
      | cons h' hs' =>
        refine .cons (fun x v hx => ?_) (ih _ hs')
        obtain ⟨v', hx'⟩ := h x v hx
        exact h' x v' hx'
  calm := h'.calm

/-- Where all cells are kept, one may as well be hot. -/
theorem weaken (h : Steady K none c d) : Steady K hot c d := ⟨h.size, fun a _ => h.cells a nofun, h.scopes, h.calm⟩

theorem owns (h : Steady K hot c d) (hc : c.Owns name) : d.Owns name := by
  obtain ⟨x, hx⟩ := hc
  have hs := h.scopes
  unfold Context.scopes at hs
  cases hs with
  | cons hs _ => exact hs name x hx

theorem read (h : Steady K none c d) (v : Value) : d.read v = c.read v := by
  cases v with
  | plain => rfl
  | cell a => exact congrArg (fun n => Datum.number (.int n)) (h.cells a nofun)

/-- Data are bound in the innermost scope. -/
theorem bind (h : c.Calm K) (x : String) (v : Datum) : Steady K hot c (c.bind x v) where
  size := rfl
  cells _ _ := rfl
  scopes := .cons (Scope.keeps_insert _ _ _) (List.forall₂_same.2 fun s _ => .refl s)
  calm := by
    refine ⟨fun s hs y a hy => ?_, h.functions⟩
    rw [Context.scopes_bind] at hs
    rcases List.mem_cons.1 hs with rfl | hs
    · by_cases hyx : y = x
      · rw [hyx, Scope.find?_insert_self] at hy
        cases hy
      · rw [Scope.find?_insert_ne hyx] at hy
        exact h.cells _ (.head _) y a hy
    · exact h.cells s (.tail _ hs) y a hy

/-- A datum in the place of another one. -/
theorem keeps_replaceNearest (x : String) (v : Datum) : ∀ ss : List Scope,
    List.Forall₂ Scope.Keeps ss (Context.replaceNearest x (.plain v) ss) ∧
      ∀ t ∈ Context.replaceNearest x (.plain v) ss, ∀ y a, t.find? y = some (.cell a) →
        ∃ s ∈ ss, s.find? y = some (.cell a)
  | [] => ⟨.nil, nofun⟩
  | s :: ss => by
    rw [Context.replaceNearest_cons]
    split
    · refine ⟨.cons (s.keeps_insert x v) (List.forall₂_same.2 fun s _ => .refl s), fun t ht y a hy => ?_⟩
      rcases List.mem_cons.1 ht with rfl | ht
      · by_cases hyx : y = x
        · rw [hyx, Scope.find?_insert_self] at hy
          cases hy
        · rw [Scope.find?_insert_ne hyx] at hy
          exact ⟨s, .head _, hy⟩
      · exact ⟨t, .tail _ ht, hy⟩
    · obtain ⟨hk, hc⟩ := keeps_replaceNearest x v ss
      refine ⟨.cons (.refl s) hk, fun t ht y a hy => ?_⟩
      rcases List.mem_cons.1 ht with rfl | ht
      · exact ⟨t, .head _, hy⟩
      · obtain ⟨s', hs', h⟩ := hc t ht y a hy
        exact ⟨s', .tail _ hs', h⟩

theorem replace (h : c.Calm K) (x : String) (v : Datum) : Steady K hot c (c.replace x v) := by
  obtain ⟨hk, hc⟩ := keeps_replaceNearest x v c.scopes
  refine ⟨by simp, fun a _ => Context.cellAt_replace c x v a, Context.scopes_replace c x v ▸ hk, ?_, ?_⟩
  · intro t ht y a hy
    rw [Context.scopes_replace] at ht
    obtain ⟨s, hs, hy⟩ := hc t ht y a hy
    exact h.cells s hs y a hy
  · rw [Context.functions_replace]
    exact h.functions

end Steady

/-- A name that is spared, or that has a variable in the innermost scope, is not that of a cell. -/
theorem Context.Calm.find?_ne_cell (h : c.Calm K) (hx : name ∉ K ∨ c.Owns name) (a : Nat) :
    c.find? name ≠ some (.cell a) := by
  intro hf
  rcases hx with hx | ⟨d, hd⟩
  · obtain ⟨s, hs, hf⟩ := List.exists_of_findSome?_eq_some hf
    exact hx (h.cells s hs name a hf)
  · rw [Context.find?_eq_lookup, Context.scopes, Context.lookup_cons, hd] at hf
    cases hf

/-- An assignment to such a name is steady. -/
theorem Steady.assign {hot : Option Nat} {v : Datum} (h : c.Calm K) (hx : name ∉ K ∨ c.Owns name)
    (ha : c.assign name v = .ok c') : Steady K hot c c' := by
  unfold Context.assign at ha
  split at ha
  · cases ha
  · rename_i a hf
    exact absurd hf (h.find?_ne_cell hx a)
  · split at ha
    · cases ha
      exact .replace h _ _
    · cases ha
  · cases ha
    exact .replace h _ _

theorem Steady.declare {hot : Option Nat} (h : c.Calm K) (hd : c.declare name = .ok c') :
    Steady K hot c c' := by
  unfold Context.declare at hd
  split at hd
  · cases hd
  · cases hd
    exact .bind h _ _

/-! ### Scopes -/

theorem Context.Calm.push (h : c.Calm K) : c.push.Calm K where
  cells s hs := by
    rw [Context.scopes_push] at hs
    rcases List.mem_cons.1 hs with rfl | hs
    · exact nofun
    · exact h.cells s hs
  functions := h.functions

theorem scopes_ne_nil_of_keeps {ss : List Scope} (h : List.Forall₂ Scope.Keeps c.scopes ss) : ss ≠ [] := by
  rintro rfl
  cases h

/-- A scope that is opened and closed around a steady part. -/
theorem Steady.pop {hot : Option Nat} (h : Steady K hot c.push d) : Steady K hot c d.pop := by
  have hs := h.scopes
  rw [Context.scopes_push] at hs
  generalize hd : d.scopes = ts at hs
  cases hs with
  | @cons _ t _ ts _ hs =>
    have hpop : d.pop.scopes = ts := Context.scopes_pop hd (scopes_ne_nil_of_keeps hs)
    refine ⟨by rw [Context.cells_pop]; exact h.size, fun a ha => ?_, hpop ▸ hs, ?_, ?_⟩
    · rw [Context.cellAt_congr (Context.cells_pop d)]
      exact h.cells a ha
    · rw [hpop]
      exact fun s hm => h.calm.cells s (hd ▸ .tail _ hm)
    · rw [Context.functions_pop]
      exact h.calm.functions

/-- The scope and the cell of a native loop around rounds in which only this cell is hot. -/
theorem Steady.leaveLoop {hot : Option Nat} {n : Int32}
    (h : Steady K (some c.cells.size) (c.enterLoop name n) d) : Steady K hot c (d.leaveLoop c.cells.size) := by
  have hsize : c.cells.size ≤ d.cells.size := by
    rw [h.size, Context.cells_enterLoop, Array.size_push]
    exact Nat.le_succ _
  have hs := h.scopes
  rw [Context.scopes_enterLoop] at hs
  generalize hd : d.scopes = ts at hs
  cases hs with
  | @cons _ t _ ts _ hs =>
    have hpop : (d.leaveLoop c.cells.size).scopes = ts :=
      Context.scopes_leaveLoop _ hd (scopes_ne_nil_of_keeps hs)
    refine ⟨Context.size_leaveLoop d hsize, fun a _ => ?_, hpop ▸ hs, ?_, ?_⟩
    · by_cases ha : a < c.cells.size
      · rw [Context.cellAt_leaveLoop d ha, h.cells a (by simpa using Nat.ne_of_gt ha),
          Context.cellAt_enterLoop_lt c ha]
      · have ha' : (d.leaveLoop c.cells.size).cells.size ≤ a := by
          rw [Context.size_leaveLoop d hsize]
          omega
        simp [Context.cellAt, Array.getElem?_eq_none (Nat.not_lt.1 ha), Array.getElem?_eq_none ha']
    · rw [hpop]
      exact fun s hm => h.calm.cells s (hd ▸ .tail _ hm)
    · rw [Context.leaveLoop, Context.functions_pop]
      exact h.calm.functions

theorem Context.Calm.enterLoop {n : Int32} (h : c.Calm K) (hx : name ∈ K) : (c.enterLoop name n).Calm K where
  cells s hs y a hy := by
    rw [Context.scopes_enterLoop] at hs
    rcases List.mem_cons.1 hs with rfl | hs
    · rw [Scope.find?_cons] at hy
      split at hy
      · rename_i hyx
        exact hyx ▸ hx
      · cases hy
    · exact h.cells s hs y a hy
  functions := h.functions

end ScriptTree

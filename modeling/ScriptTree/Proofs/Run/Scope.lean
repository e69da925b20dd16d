import ScriptTree.Eval.Basic

/-!
Scopes and the stack of open scopes, seen through lookups. A scope is told by what each name is bound
to in it; `Context.scopes` lists the open scopes, and every operation of a context on its variables is
one on that list.
-/

namespace ScriptTree

namespace Scope

@[simp] theorem find?_nil (name : String) : Scope.find? [] name = none := rfl

theorem find?_cons (n : String) (slot : Slot) (s : Scope) (name : String) :
    Scope.find? ((n, slot) :: s) name = if name = n then some slot else s.find? name := by
  unfold Scope.find?
  rw [List.lookup_cons]
  by_cases h : name = n
  · simp [h]
  · rw [if_neg h, beq_false_of_ne h]

@[simp] theorem find?_insert_self (name : String) (slot : Slot) :
    ∀ s : Scope, (s.insert name slot).find? name = some slot
  | [] => by simp [Scope.insert, find?_cons]
  | (n, old) :: s => by
    unfold Scope.insert
    by_cases h : n = name
    · rw [if_pos h, find?_cons, if_pos rfl]
    · rw [if_neg h, find?_cons, if_neg (Ne.symm h)]
      exact find?_insert_self name slot s

theorem find?_insert_ne {name other : String} (h : other ≠ name) (slot : Slot) :
    ∀ s : Scope, (s.insert name slot).find? other = s.find? other
  | [] => by simp [Scope.insert, find?_cons, h]
  | (n, old) :: s => by
    unfold Scope.insert
    by_cases hn : n = name
    · rw [if_pos hn, find?_cons, find?_cons, hn, if_neg h, if_neg h]
    · rw [if_neg hn, find?_cons, find?_cons, find?_insert_ne h slot s]

/-- A binding that is found is there. -/
theorem mem_of_find? {name : String} {slot : Slot} : ∀ {s : Scope}, s.find? name = some slot → (name, slot) ∈ s
  | [], h => nomatch h
  | (n, old) :: s, h => by
    rw [find?_cons] at h
    split at h
    · rename_i hn
      cases h
      exact hn ▸ .head _
    · exact .tail _ (mem_of_find? h)

end Scope

namespace Context

def scopes (c : Context) : List Scope := c.innermost :: c.enclosing

/-- The nearest binding of a name among these scopes. -/
def lookup (name : String) (ss : List Scope) : Option Slot := ss.findSome? (·.find? name)

theorem find?_eq_lookup (c : Context) (name : String) : c.find? name = lookup name c.scopes := rfl

theorem lookup_cons (name : String) (s : Scope) (ss : List Scope) :
    lookup name (s :: ss) = (s.find? name).or (lookup name ss) := by
  unfold lookup
  rw [List.findSome?_cons]
  cases s.find? name <;> rfl

@[simp] theorem scopes_push (c : Context) : c.push.scopes = [] :: c.scopes := rfl

theorem scopes_pop {c : Context} {s : Scope} {ss : List Scope} (h : c.scopes = s :: ss)
    (hne : ss ≠ []) : c.pop.scopes = ss := by
  simp only [scopes, List.cons.injEq] at h
  obtain ⟨-, h⟩ := h
  unfold Context.pop
  cases hc : c.enclosing with
  | nil => exact absurd (h ▸ hc) hne
  | cons t rest => rw [← h, hc]; rfl

@[simp] theorem cells_pop (c : Context) : c.pop.cells = c.cells := by
  unfold Context.pop; split <;> rfl

@[simp] theorem calls_pop (c : Context) : c.pop.calls = c.calls := by
  unfold Context.pop; split <;> rfl

@[simp] theorem functions_pop (c : Context) : c.pop.functions = c.functions := by
  unfold Context.pop; split <;> rfl

theorem scopes_bind (c : Context) (name : String) (d : Datum) :
    (c.bind name d).scopes = c.innermost.insert name (.plain d) :: c.enclosing := rfl

@[simp] theorem cells_bind (c : Context) (name : String) (d : Datum) :
    (c.bind name d).cells = c.cells := rfl

theorem replaceNearest_cons (name : String) (slot : Slot) (s : Scope) (ss : List Scope) :
    replaceNearest name slot (s :: ss) =
      if (s.find? name).isSome then s.insert name slot :: ss
      else s :: replaceNearest name slot ss := by
  rw [replaceNearest]
  cases s.find? name <;> rfl

theorem scopes_replace (c : Context) (name : String) (d : Datum) :
    (c.replace name d).scopes = replaceNearest name (.plain d) c.scopes := by
  unfold Context.replace scopes
  rw [replaceNearest_cons]
  cases h : c.innermost.find? name <;> simp

theorem lookup_replaceNearest {name : String} {slot old : Slot} :
    ∀ {ss : List Scope}, lookup name ss = some old → lookup name (replaceNearest name slot ss) = some slot
  | [], h => nomatch h
  | s :: ss, h => by
    rw [lookup_cons] at h
    rw [replaceNearest_cons]
    cases hs : s.find? name with
    | some _ => rw [Option.isSome_some, if_pos rfl, lookup_cons, Scope.find?_insert_self, Option.some_or]
    | none =>
      rw [hs, Option.none_or] at h
      rw [Option.isSome_none, if_neg Bool.false_ne_true, lookup_cons, hs, Option.none_or]
      exact lookup_replaceNearest h

theorem find?_replace_self {c : Context} {name : String} {old : Slot} (d : Datum)
    (h : c.find? name = some old) : (c.replace name d).find? name = some (.plain d) := by
  rw [find?_eq_lookup, scopes_replace]
  exact lookup_replaceNearest h

@[simp] theorem cells_replace (c : Context) (name : String) (d : Datum) :
    (c.replace name d).cells = c.cells := by
  unfold Context.replace; split <;> rfl

@[simp] theorem calls_replace (c : Context) (name : String) (d : Datum) :
    (c.replace name d).calls = c.calls := by
  unfold Context.replace; split <;> rfl

@[simp] theorem functions_replace (c : Context) (name : String) (d : Datum) :
    (c.replace name d).functions = c.functions := by
  unfold Context.replace; split <;> rfl

theorem cellAt_congr {c d : Context} (h : c.cells = d.cells) (a : Nat) : c.cellAt a = d.cellAt a := by
  unfold Context.cellAt; rw [h]

theorem cellAt_setCell_self (c : Context) {a : Nat} (n : Int32) (ha : a < c.cells.size) :
    (c.setCell a n).cellAt a = n := by
  simp [cellAt, setCell, ha]

theorem cellAt_setCell_ne (c : Context) {a b : Nat} (n : Int32) (h : b ≠ a) :
    (c.setCell a n).cellAt b = c.cellAt b := by
  simp [cellAt, setCell, Array.getElem?_setIfInBounds_ne (Ne.symm h)]

@[simp] theorem size_setCell (c : Context) (a : Nat) (n : Int32) :
    (c.setCell a n).cells.size = c.cells.size := by
  simp [Context.setCell]

@[simp] theorem calls_setCell (c : Context) (a : Nat) (n : Int32) : (c.setCell a n).calls = c.calls := rfl

@[simp] theorem functions_setCell (c : Context) (a : Nat) (n : Int32) :
    (c.setCell a n).functions = c.functions := rfl

@[simp] theorem cellAt_replace (c : Context) (name : String) (d : Datum) (a : Nat) :
    (c.replace name d).cellAt a = c.cellAt a :=
  cellAt_congr (cells_replace c name d) a

@[simp] theorem scopes_setCell (c : Context) (a : Nat) (n : Int32) :
    (c.setCell a n).scopes = c.scopes := rfl

end Context

end ScriptTree

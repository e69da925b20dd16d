import Mathlib.Data.List.Induction
import Mathlib.Data.List.Perm.Basic
import ScriptTree.Optimize.Tally

/-!
Tallies added up. The names of a tally are in ascending order, so each occurs once, and adding a count changes
the count of its name alone. The total of tallies has the sum of their counts under each name and lists the names
that any of them lists: it does not depend on the order in which they are added.
-/

namespace ScriptTree.Tally

variable {counts counts' : List (String × Int64)} {name m : String} {n : Int64} {tallies : List Tally} {s t : Tally}

/-! ### Counts under names -/

def names (counts : List (String × Int64)) : List String := counts.map (·.1)

def Ascending (counts : List (String × Int64)) : Prop := (names counts).Pairwise (· < ·)

/-- The count under a name; zero if it is not listed. -/
def countOf (counts : List (String × Int64)) (name : String) : Int64 := (counts.lookup name).getD 0

theorem countOf_cons (m : String) (k : Int64) (counts : List (String × Int64)) (name : String) :
    countOf ((m, k) :: counts) name = if name = m then k else countOf counts name := by
  rw [countOf, List.lookup_cons]
  split <;> simp_all [countOf]

theorem countOf_eq_zero (h : name ∉ names counts) : countOf counts name = 0 := by
  induction counts with
  | nil => rfl
  | cons c counts ih =>
    rw [names, List.map_cons, List.mem_cons, not_or] at h
    rw [countOf_cons, if_neg h.1]
    exact ih h.2

theorem ascending_cons {c : String × Int64} : Ascending (c :: counts) ↔
    (∀ m ∈ names counts, c.1 < m) ∧ Ascending counts := List.pairwise_cons

/-- Of two names that are neither equal nor in order, the order is the other one. -/
theorem lt_of_not_lt (hne : m ≠ name) (hlt : ¬ name < m) : m < name :=
  String.not_le.1 fun hle => hne (String.le_antisymm (String.not_lt.1 hlt) hle)

theorem mem_names_addCount : m ∈ names (addCount name n counts) ↔ m = name ∨ m ∈ names counts := by
  induction counts with
  | nil => simp [addCount, names]
  | cons c counts ih =>
    obtain ⟨k, j⟩ := c
    rw [addCount]
    split
    · rename_i heq
      simp [names, heq]
    split
    · simp [names]
    · rw [names, List.map_cons, List.mem_cons, ← names, ih, names, names, List.map_cons, List.mem_cons]
      exact or_left_comm

theorem Ascending.addCount (h : Ascending counts) (name : String) (n : Int64) : Ascending (addCount name n counts) := by
  induction counts with
  | nil => exact List.pairwise_singleton ..
  | cons c counts ih =>
    obtain ⟨m, k⟩ := c
    obtain ⟨hhead, htail⟩ := ascending_cons.1 h
    rw [Tally.addCount]
    split
    · exact ascending_cons.2 ⟨hhead, htail⟩
    rename_i hne
    split
    · rename_i hlt
      refine ascending_cons.2 ⟨fun k hk => ?_, h⟩
      rcases List.mem_cons.1 hk with rfl | hk
      · exact hlt
      · exact String.lt_trans hlt (hhead k hk)
    · rename_i hlt
      refine ascending_cons.2 ⟨fun k hk => ?_, ih htail⟩
      rcases mem_names_addCount.1 hk with rfl | hk
      · exact lt_of_not_lt hne hlt
      · exact hhead k hk

theorem countOf_addCount (h : Ascending counts) (name m : String) (n : Int64) :
    countOf (addCount name n counts) m = countOf counts m + if m = name then n else 0 := by
  induction counts with
  | nil =>
    rw [addCount, countOf_cons]
    split <;> simp [countOf]
  | cons c counts ih =>
    obtain ⟨k, j⟩ := c
    obtain ⟨hhead, htail⟩ := ascending_cons.1 h
    rw [addCount]
    split
    · rename_i heq
      subst heq
      rw [countOf_cons, countOf_cons]
      split <;> simp
    rename_i hne
    split
    · rename_i hlt
      rw [countOf_cons]
      split
      · rename_i heq
        subst heq
        have hnone : countOf ((k, j) :: counts) m = 0 := countOf_eq_zero fun hmem => by
          rcases List.mem_cons.1 hmem with heq | hmem
          · exact hne heq.symm
          · exact String.lt_asymm hlt (hhead m hmem)
        rw [hnone, Int64.zero_add]
      · rw [Int64.add_zero]
    · rw [countOf_cons, countOf_cons, ih htail]
      split
      · rename_i heq
        rw [if_neg fun heq' => hne (heq.symm.trans heq'), Int64.add_zero]
      · rfl

/-! ### The sum of two tallies -/

def addCounts (counts added : List (String × Int64)) : List (String × Int64) :=
  added.foldl (fun counts c => addCount c.1 c.2 counts) counts

theorem add_steps (s t : Tally) : (s.add t).steps = addCounts s.steps t.steps := rfl

theorem Ascending.addCounts (h : Ascending counts) (added : List (String × Int64)) :
    Ascending (addCounts counts added) := by
  induction added generalizing counts with
  | nil => exact h
  | cons c added ih => exact ih (h.addCount c.1 c.2)

theorem mem_names_addCounts (counts added : List (String × Int64)) :
    m ∈ names (addCounts counts added) ↔ m ∈ names counts ∨ m ∈ names added := by
  induction added generalizing counts with
  | nil => simp [addCounts, names]
  | cons c added ih =>
    rw [addCounts, List.foldl_cons, ← addCounts, ih, mem_names_addCount]
    simp only [names, List.map_cons, List.mem_cons]
    tauto

theorem countOf_addCounts (h : Ascending counts) {added : List (String × Int64)} (hadded : Ascending added) (m : String) :
    countOf (addCounts counts added) m = countOf counts m + countOf added m := by
  induction added generalizing counts with
  | nil => exact (Int64.add_zero _).symm
  | cons c added ih =>
    obtain ⟨hhead, htail⟩ := ascending_cons.1 hadded
    rw [addCounts, List.foldl_cons, ← addCounts, ih (h.addCount c.1 c.2) htail, countOf_addCount h, countOf_cons]
    split
    · rename_i heq
      have hnone : countOf added m = 0 := countOf_eq_zero fun hmem => String.lt_irrefl _ (hhead c.1 (heq ▸ hmem))
      rw [hnone, Int64.add_zero]
    · rw [Int64.add_zero]

/-! ### The total of many -/

/-- A tally whose names are in ascending order. -/
def Sorted (t : Tally) : Prop := Ascending t.steps

/-- The count of a pass; zero if it is not listed. -/
def count (t : Tally) (name : String) : Int64 := countOf t.steps name

/-- The total of tallies: it has the sums of their counts and lists, in order, the names that any of them lists. -/
structure Totals (tallies : List Tally) (total : Tally) : Prop where
  visited : total.visited = (tallies.map (·.visited)).sum
  count : ∀ name, total.count name = (tallies.map (·.count name)).sum
  listed : ∀ name, name ∈ names total.steps ↔ ∃ t ∈ tallies, name ∈ names t.steps
  sorted : total.Sorted

theorem count_add (hs : s.Sorted) (ht : t.Sorted) (name : String) : (s.add t).count name = s.count name + t.count name :=
  countOf_addCounts hs ht name

theorem sorted_ofWalked (w : Walked) : (ofWalked w).Sorted := by
  have hfold (steps : List Step) : ∀ counts, Ascending counts →
      Ascending (steps.foldl (fun counts s => addCount s.pass.name 1 counts) counts) := by
    induction steps with
    | nil => exact fun _ h => h
    | cons s steps ih => exact fun counts h => ih _ (h.addCount ..)
  exact hfold w.steps [] List.Pairwise.nil

theorem totals_nil : Totals [] empty := ⟨rfl, fun _ => rfl, by simp [names, empty], List.Pairwise.nil⟩

theorem Totals.concat (h : Totals tallies s) (ht : t.Sorted) : Totals (tallies ++ [t]) (s.add t) where
  visited := by
    have hsum : (s.add t).visited = s.visited + t.visited := rfl
    rw [hsum, h.visited, List.map_append, List.sum_append]
    simp
  count name := by
    rw [count_add h.sorted ht, h.count, List.map_append, List.sum_append]
    simp
  listed name := by
    rw [add_steps, mem_names_addCounts, h.listed]
    simp [or_and_right, exists_or]
  sorted := h.sorted.addCounts t.steps

/-- Adding tallies one by one to an empty one gives their total. -/
theorem totals_foldl (h : ∀ t ∈ tallies, t.Sorted) : Totals tallies (tallies.foldl add empty) := by
  induction tallies using List.reverseRecOn with
  | nil => exact totals_nil
  | append_singleton tallies t ih =>
    rw [List.foldl_append]
    exact (ih fun u hu => h u (List.mem_append_left _ hu)).concat (h t List.mem_concat_self)

/-! ### The order of adding does not matter -/

theorem Ascending.nodup (h : Ascending counts) : (names counts).Nodup :=
  List.Pairwise.imp (fun {a b} (hlt : a < b) (heq : a = b) => String.lt_irrefl b (heq ▸ hlt)) h

/-- A list in ascending order is given by its names and their counts. -/
theorem Ascending.eq_map (h : Ascending counts) : (names counts).map (fun m => (m, countOf counts m)) = counts := by
  induction counts with
  | nil => rfl
  | cons c counts ih =>
    obtain ⟨hhead, htail⟩ := ascending_cons.1 h
    have hrest : (names counts).map (fun m => (m, countOf (c :: counts) m)) = counts := by
      refine (List.map_congr_left fun m hm => ?_).trans (ih htail)
      rw [countOf_cons, if_neg fun heq => String.lt_irrefl _ (heq ▸ hhead m hm)]
    rw [names, List.map_cons, ← names, List.map_cons, hrest, countOf_cons, if_pos rfl]

/-- Ascending lists with the same names and counts are the same. -/
theorem Ascending.ext (h : Ascending counts) (h' : Ascending counts') (hnames : ∀ m, m ∈ names counts ↔ m ∈ names counts')
    (hcounts : ∀ m, countOf counts m = countOf counts' m) : counts = counts' := by
  have heq : names counts = names counts' :=
    ((List.perm_ext_iff_of_nodup h.nodup h'.nodup).2 hnames).eq_of_pairwise
      (fun _ _ _ _ hlt hgt => absurd hgt (String.lt_asymm hlt)) h h'
  rw [← h.eq_map, ← h'.eq_map, heq]
  exact List.map_congr_left fun m _ => by rw [hcounts]

theorem sum_perm {ns ms : List Int64} (h : ns.Perm ms) : ns.sum = ms.sum := by
  induction h with
  | nil => rfl
  | cons n _ ih => rw [List.sum_cons, List.sum_cons, ih]
  | swap n m ns => rw [List.sum_cons, List.sum_cons, List.sum_cons, List.sum_cons, ← Int64.add_assoc, Int64.add_comm m,
    Int64.add_assoc]
  | trans _ _ ih ih' => exact ih.trans ih'

/-- In whatever order tallies are added, the text of their total is the same. -/
theorem Totals.describeWith_eq {tallies' : List Tally} (h : Totals tallies s) (h' : Totals tallies' t)
    (hperm : tallies.Perm tallies') (time : String) : s.describeWith time = t.describeWith time := by
  have hvisited : s.visited = t.visited := by
    rw [h.visited, h'.visited]
    exact sum_perm (hperm.map _)
  have hsteps : s.steps = t.steps := by
    refine h.sorted.ext h'.sorted (fun m => ?_) fun m => ?_
    · rw [h.listed, h'.listed]
      exact exists_congr fun u => and_congr_left' hperm.mem_iff
    · exact (h.count m).trans ((sum_perm (hperm.map _)).trans (h'.count m).symm)
  -- The lengths of time may differ: the text takes its time from outside.
  cases s; cases t
  cases hvisited; cases hsteps
  rfl

end ScriptTree.Tally

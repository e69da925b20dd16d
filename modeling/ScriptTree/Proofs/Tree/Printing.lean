import Mathlib.Data.List.Lex
import ScriptTree.Proofs.Optimize.Coherence
import ScriptTree.Tree.Outline

/-!
Printing an outline to a device. A tree is printed as its lines are written one after another, so all that matters
is how far the device goes along: what it has taken when it refuses is the front of the outline, and it is offered
nothing after that. The lines are those of the nodes in the order of the ways to them, which puts a node before all
that is below it and a child before all that is below later ones.
-/

namespace ScriptTree

/-! ### The nodes of a tree in order -/

namespace Node

variable {m n : Node} {path : List Nat}

mutual

/-- The nodes of a tree, each with the child indexes on the way to it. -/
def places : Node → List (List Nat × Node)
  | .construct form text span children => ([], .construct form text span children) :: placesAll 0 children
  | .constant value text span children => ([], .constant value text span children) :: placesAll 0 children
  | .counted loop generic text span children =>
    ([], .counted loop generic text span children) :: placesAll 0 children

/-- The nodes of several trees that are children of one node, from child `i` on. -/
def placesAll (i : Nat) : List Node → List (List Nat × Node)
  | [] => []
  | n :: ns => (places n).map (fun q => (i :: q.1, q.2)) ++ placesAll (i + 1) ns

end

theorem places_eq (n : Node) : n.places = ([], n) :: placesAll 0 n.children := by
  cases n <;> rfl

theorem mem_placesAll : ∀ {i : Nat} {ns : List Node}, (path, m) ∈ placesAll i ns ↔
    ∃ j rest n, path = (i + j) :: rest ∧ ns[j]? = some n ∧ (rest, m) ∈ n.places
  | _, [] => by simp [placesAll]
  | i, n :: ns => by
    rw [placesAll, List.mem_append, mem_placesAll, List.mem_map]
    constructor
    · rintro (⟨⟨rest, m⟩, hmem, heq⟩ | ⟨j, rest, c, rfl, hc, hmem⟩)
      · cases heq
        exact ⟨0, rest, n, rfl, rfl, hmem⟩
      · exact ⟨j + 1, rest, c, by rw [Nat.add_assoc, Nat.add_comm 1], hc, hmem⟩
    · rintro ⟨j, rest, c, rfl, hc, hmem⟩
      cases j with
      | zero =>
        cases hc
        exact .inl ⟨(rest, m), hmem, rfl⟩
      | succ j => exact .inr ⟨j, rest, c, by rw [Nat.add_assoc, Nat.add_comm 1], hc, hmem⟩

/-- The places of a tree are what the ways through it lead to. -/
theorem mem_places : (path, m) ∈ n.places ↔ n.follow? path = some m := by
  induction path generalizing n with
  | nil =>
    have hbelow : ([], m) ∉ placesAll 0 n.children := fun hmem => by
      obtain ⟨_, _, _, heq, -⟩ := mem_placesAll.1 hmem
      cases heq
    simp [places_eq, hbelow, follow?, eq_comm]
  | cons i path ih =>
    rw [places_eq, List.mem_cons, mem_placesAll, follow?]
    cases hc : n.children[i]? with
    | none => simp [hc]
    | some c => simp [hc, ih]

mutual

/-- The order is pre-order: the ways are in their lexicographic order. -/
theorem pairwise_places : ∀ n : Node, n.places.Pairwise fun p q => p.1 < q.1
  | .construct _ _ _ children | .constant _ _ _ children | .counted _ _ _ _ children => by
    refine List.pairwise_cons.2 ⟨fun q hq => ?_, pairwise_placesAll 0 children⟩
    obtain ⟨j, rest, n, heq, -⟩ := mem_placesAll.1 hq
    rw [heq]
    exact List.nil_lt_cons _ _

theorem pairwise_placesAll : ∀ (i : Nat) (ns : List Node), (placesAll i ns).Pairwise fun p q => p.1 < q.1
  | _, [] => .nil
  | i, n :: ns => by
    refine List.pairwise_append.2 ⟨?_, pairwise_placesAll (i + 1) ns, fun p hp q hq => ?_⟩
    · refine List.pairwise_map.2 ((pairwise_places n).imp fun h => ?_)
      exact List.cons_lt_cons_iff.2 (.inr ⟨rfl, h⟩)
    · obtain ⟨p, -, rfl⟩ := List.mem_map.1 hp
      obtain ⟨j, rest, c, heq, -⟩ := mem_placesAll.1 hq
      rw [heq]
      exact List.cons_lt_cons_iff.2 (.inl (by omega))

end

mutual

theorem length_places : ∀ n : Node, n.places.length = n.count
  | .construct _ _ _ children | .constant _ _ _ children | .counted _ _ _ _ children => by
    rw [places, count, List.length_cons, length_placesAll, Nat.add_comm]

theorem length_placesAll : ∀ (i : Nat) (ns : List Node), (placesAll i ns).length = countAll ns
  | _, [] => rfl
  | i, n :: ns => by
    rw [placesAll, countAll, List.length_append, List.length_map, length_places, length_placesAll]

end

/-! ### The lines of an outline -/

def indentation (depth : Nat) : String := String.ofList (List.replicate (2 * depth) ' ')

theorem outlineLine_eq (depth : Nat) (n : Node) : n.outlineLine depth = indentation depth ++ n.outlineLine 0 := by
  simp [outlineLine, indentation, String.append_assoc]

mutual

theorem outlineFrom_eq (depth : Nat) : ∀ n : Node,
    n.outlineFrom depth = n.places.map fun q => q.2.outlineLine (depth + q.1.length)
  | .construct _ _ _ children | .constant _ _ _ children | .counted _ _ _ _ children => by
    rw [outlineFrom, places, List.map_cons, outlineAll_eq depth 0]
    rfl

theorem outlineAll_eq (depth i : Nat) : ∀ ns : List Node,
    outlineAll (depth + 1) ns = (placesAll i ns).map fun q => q.2.outlineLine (depth + q.1.length)
  | [] => rfl
  | n :: ns => by
    have hline (q : List Nat × Node) : q.2.outlineLine (depth + 1 + q.1.length) =
        q.2.outlineLine (depth + (i :: q.1).length) := by
      rw [List.length_cons, Nat.add_assoc, Nat.add_comm 1]
    rw [outlineAll, placesAll, outlineFrom_eq (depth + 1), outlineAll_eq depth (i + 1), List.map_append, List.map_map]
    exact congrArg (· ++ _) (List.map_congr_left fun q _ => hline q)

end

theorem outline_eq (n : Node) : n.outline = n.places.map fun q => indentation q.1.length ++ q.2.outlineLine 0 := by
  rw [outline, outlineFrom_eq]
  refine List.map_congr_left fun q _ => ?_
  rw [Nat.zero_add, outlineLine_eq]

theorem length_outline (n : Node) : n.outline.length = n.count := by
  rw [outline_eq, List.length_map, length_places]

/-! ### Printing as writing line after line -/

mutual

theorem printFrom_eq (d : Device) (depth : Nat) : ∀ n : Node, n.printFrom d depth = forM (n.outlineFrom depth) d.write
  | .construct _ _ _ children | .constant _ _ _ children | .counted _ _ _ _ children => by
    rw [printFrom, outlineFrom, List.forM_cons, printAll_eq d (depth + 1) children]

theorem printAll_eq (d : Device) (depth : Nat) : ∀ ns : List Node, printAll d depth ns = forM (outlineAll depth ns) d.write
  | [] => rfl
  | n :: ns => by
    rw [printAll, outlineAll, List.forM_append, printFrom_eq d depth n, printAll_eq d depth ns]

end

end Node

/-! ### What a device takes -/

namespace Device

variable {d : Device} {k : Nat}

/-- The transcript of pieces of text that were all taken. -/
def allTaken (texts : List String) : Transcript := texts.map fun text => (text, true)

/-- The device takes the first `k` pieces of text, whatever they are. -/
def TakesUpTo (d : Device) (k : Nat) : Prop :=
  ∀ (texts : List String) (text : String), texts.length < k → d.takes (allTaken texts) text = true

/-- The device takes the first `k` pieces of text, whatever they are, and refuses the next one; it may do as it likes
after that. -/
structure StopsAfter (d : Device) (k : Nat) : Prop where
  takes : d.TakesUpTo k
  refuses : ∀ (texts : List String) (text : String), texts.length = k → d.takes (allTaken texts) text = false

theorem takesUpTo_unlimited (k : Nat) : unlimited.TakesUpTo k := fun _ _ _ => rfl

theorem stopsAfter_limited (k : Nat) : (limited k).StopsAfter k where
  takes texts text h := by simpa [limited, allTaken] using h
  refuses texts text h := by simp [limited, allTaken, h]

theorem run_write (d : Device) (before : Transcript) (text : String) : (d.write text).run before =
    if d.takes before text then .ok () (before ++ [(text, true)]) else .error () (before ++ [(text, false)]) := by
  cases h : d.takes before text <;> simp [write, h]

/-- As long as the device takes what it is offered, writing goes on. -/
theorem run_forM_taken (h : d.TakesUpTo k) (texts lines : List String) (hle : texts.length + lines.length ≤ k) :
    (forM lines d.write).run (allTaken texts) = .ok () (allTaken (texts ++ lines)) := by
  induction lines generalizing texts with
  | nil =>
    rw [List.append_nil]
    rfl
  | cons line lines ih =>
    rw [List.length_cons] at hle
    have hlines := ih (texts ++ [line]) (by rw [List.length_append, List.length_singleton]; omega)
    rw [List.forM_cons, EStateM.run_bind, run_write, h texts line (by omega), if_pos rfl]
    simpa [allTaken] using hlines

/-- The line that is refused is the last one that is offered. -/
theorem run_forM_refused (h : d.StopsAfter k) {front rest : List String} (line : String) (hlength : front.length = k) :
    (forM (front ++ line :: rest) d.write).run [] = .error () (allTaken front ++ [(line, false)]) := by
  have hfront : (forM front d.write).run [] = .ok () (allTaken front) :=
    run_forM_taken h.takes [] front (by simp [hlength])
  rw [List.forM_append, List.forM_cons, EStateM.run_bind, hfront]
  dsimp only
  rw [EStateM.run_bind, run_write, h.refuses front line hlength]
  rfl

end Device

namespace Printed

@[simp] theorem taken_allTaken (texts : List String) (failed : Bool) :
    (Printed.mk (Device.allTaken texts) failed).taken = texts := by
  simp [taken, Device.allTaken, List.filter_map, Function.comp_def]

@[simp] theorem taken_refused (texts : List String) (line : String) (failed : Bool) :
    (Printed.mk (Device.allTaken texts ++ [(line, false)]) failed).taken = texts := by
  simp [taken, Device.allTaken, List.filter_map, Function.comp_def]

end Printed

/-! ### Printing an outline -/

namespace Node

variable {d : Device} {k : Nat} {n : Node}

theorem run_printFrom (d : Device) (n : Node) : (n.printFrom d 0).run [] = (forM n.outline d.write).run [] := by
  rw [printFrom_eq, outline]

/-- A device that takes enough lines has the whole outline. -/
theorem print_taken (h : d.TakesUpTo k) (hle : n.count ≤ k) : n.print d = ⟨Device.allTaken n.outline, false⟩ := by
  have hlines := Device.run_forM_taken h [] n.outline (by simpa [length_outline] using hle)
  have hrun : (n.printFrom d 0).run [] = .ok () (Device.allTaken n.outline) := (run_printFrom d n).trans hlines
  rw [print, hrun]

/-- A device that stops before the end has the front of the outline, and was offered one line more. -/
theorem print_refused (h : d.StopsAfter k) (hlt : k < n.count) :
    ∃ line, n.print d = ⟨Device.allTaken (n.outline.take k) ++ [(line, false)], true⟩ := by
  rw [← length_outline] at hlt
  obtain ⟨front, line, rest, hsplit, hlength⟩ : ∃ front line rest, n.outline = front ++ line :: rest ∧ front.length = k :=
    ⟨n.outline.take k, n.outline[k], n.outline.drop (k + 1), by simp, List.length_take_of_le hlt.le⟩
  have hfront : n.outline.take k = front := by rw [hsplit, List.take_left' hlength]
  have hrun : (n.printFrom d 0).run [] = .error () (Device.allTaken front ++ [(line, false)]) := by
    rw [run_printFrom, hsplit]
    exact Device.run_forM_refused h line hlength
  exact ⟨line, by rw [print, hrun, hfront]⟩

theorem print_unlimited (n : Node) : n.print .unlimited = ⟨Device.allTaken n.outline, false⟩ :=
  print_taken (Device.takesUpTo_unlimited n.count) le_rfl

/-- What a device has that stops after so many pieces of text. -/
theorem print_stopping (h : d.StopsAfter k) (n : Node) : (n.print d).taken = n.outline.take k ∧
    ((n.print d).failed = true ↔ k < n.count) ∧ (n.print d).offered.length = min (k + 1) n.count := by
  rcases Nat.lt_or_ge k n.count with hlt | hle
  · obtain ⟨line, hprint⟩ := print_refused h hlt
    have hlength : (n.outline.take k).length = k := List.length_take_of_le (length_outline n ▸ hlt.le)
    rw [hprint]
    refine ⟨Printed.taken_refused _ line true, iff_of_true rfl hlt, ?_⟩
    rw [List.length_append, Device.allTaken, List.length_map, hlength, List.length_singleton, Nat.min_eq_left hlt]
  · have hlength : n.outline.length ≤ k := length_outline n ▸ hle
    rw [print_taken h.takes hle, List.take_of_length_le hlength]
    refine ⟨Printed.taken_allTaken n.outline false, iff_of_false Bool.false_ne_true hle.not_gt, ?_⟩
    rw [Device.allTaken, List.length_map, length_outline, Nat.min_eq_right (Nat.le_succ_of_le hle)]

theorem printTo_limit (limit : Nat) (n : Node) : (n.printTo limit).taken = n.outline.take limit ∧
    ((n.printTo limit).failed = true ↔ limit < n.count) :=
  have ⟨htaken, hfailed, _⟩ := print_stopping (Device.stopsAfter_limited limit) n
  ⟨htaken, hfailed⟩

end Node

/-- An unlimited device has one line for each node, in pre-order, with two spaces for each step of the way to the
node; together they are the formatted tree. A device that takes `k` pieces of text and then refuses one has the first
`k` of these lines, or all if there are no more. Printing fails just if there are more, and the line that is refused
is the last one that is offered. -/
theorem printing_stops (n : Node) :
    (n.places.Pairwise (fun p q => p.1 < q.1) ∧ n.places.length = n.count ∧
      ∀ path m, (path, m) ∈ n.places ↔ n.follow? path = some m) ∧
    ((n.print .unlimited).taken = n.places.map (fun q => Node.indentation q.1.length ++ q.2.outlineLine 0) ∧
      (n.print .unlimited).failed = false ∧ (n.print .unlimited).written = n.format) ∧
    ∀ (d : Device) (k : Nat), d.StopsAfter k →
      (n.print d).taken = (n.print .unlimited).taken.take (min k n.count) ∧
      (n.print d).taken.length = min k n.count ∧ ((n.print d).failed = true ↔ k < n.count) ∧
      (n.print d).offered.length = min (k + 1) n.count := by
  have hunlimited : (n.print .unlimited).taken = n.outline := by
    rw [Node.print_unlimited, Printed.taken_allTaken]
  refine ⟨⟨n.pairwise_places, n.length_places, fun _ _ => Node.mem_places⟩, ⟨?_, ?_, ?_⟩, fun d k h => ?_⟩
  · rw [hunlimited, Node.outline_eq]
  · rw [Node.print_unlimited]
  · rw [Printed.written, hunlimited, Node.format]
  · obtain ⟨htaken, hfailed, hoffered⟩ := Node.print_stopping h n
    have hlength : n.outline.length = n.count := n.length_outline
    refine ⟨?_, ?_, hfailed, hoffered⟩
    · rw [htaken, hunlimited, ← hlength, ← List.take_eq_take_min]
    · rw [htaken, List.length_take, hlength]

/-- A native loop, of which the body alone is printed, on a device that refuses the third line and no other. -/
theorem printing_stops_native :
    let n := Pipeline.walks [[.countedLoop]] .sumInLoop
    let d : Device := ⟨fun before _ => before.length != 2⟩
    d.StopsAfter 2 ∧ n.count = 7 ∧ (n.print d).taken = ["Specialized(For)\n", "  FunCall\n"] ∧
      (n.print d).failed = true ∧ (n.print d).offered.length = 3 := by
  intro n d
  have hstops : d.StopsAfter 2 := by
    refine ⟨fun texts text h => ?_, fun texts text h => ?_⟩
    · simpa [d, Device.allTaken] using h.ne
    · simp [d, Device.allTaken, h]
  have hcount : n.count = 7 := by decide
  have hfront : (n.print .unlimited).taken.take 2 = ["Specialized(For)\n", "  FunCall\n"] := by decide +kernel
  obtain ⟨-, -, hprint⟩ := printing_stops n
  obtain ⟨htaken, -, hfailed, hoffered⟩ := hprint d 2 hstops
  rw [hcount] at htaken hfailed hoffered
  exact ⟨hstops, hcount, htaken.trans hfront, hfailed.2 (by decide), hoffered⟩

end ScriptTree

import Mathlib.Data.Prod.Lex
import Mathlib.Data.String.Basic
import ScriptTree.Source.Span

/-!
Unions of spans. Positions are in a total order, and of the valid spans of one file one covers another if neither
end of the other lies outside it. The union of two of them is the least one that covers both, so the valid spans of
a file are a semilattice. Spans taken together one after another keep to the file of the first valid one: what
comes of them is the least span of that file over the valid ones in it, whatever else is among them.
-/

namespace ScriptTree

/-! ### The order of positions -/

namespace Position

variable {p q : Position}

/-- File, line and column, in the order in which positions are compared. -/
def key (p : Position) : String ×ₗ ℤ ×ₗ ℤ := toLex (p.file, toLex (p.line, p.column))

theorem key_injective : Function.Injective key := by
  rintro ⟨_, _, _⟩ ⟨_, _, _⟩ h
  cases h
  rfl

theorem before_iff : p.before q ↔ p.key < q.key := by
  unfold before key
  simp only [Prod.Lex.toLex_lt_toLex]
  split
  · rename_i hfile
    simp only [decide_eq_true_eq, hfile, false_and, or_false]
  · rename_i hfile
    rw [not_not] at hfile
    split
    · rename_i hline
      simp only [decide_eq_true_eq, hfile, lt_irrefl, hline, false_and, or_false, false_or, true_and]
    · rename_i hline
      rw [not_not] at hline
      simp only [decide_eq_true_eq, hfile, lt_irrefl, hline, false_or, true_and]

/-- Positions are in a strict total order. -/
theorem isStrictTotalOrder_before : IsStrictTotalOrder Position fun p q => p.before q = true where
  trichotomous p q hpq hqp := by
    rw [before_iff, not_lt] at hpq hqp
    exact key_injective (le_antisymm hqp hpq)
  irrefl p h := lt_irrefl _ (before_iff.1 h)
  trans p q r hpq hqr := before_iff.2 ((before_iff.1 hpq).trans (before_iff.1 hqr))

end Position

/-! ### Spans of a file -/

namespace Span

variable {file : String} {r s t u v : Span} {members : List Span}

/-- A valid span in a file. -/
structure In (s : Span) (file : String) : Prop where
  valid : s.isValid = true
  file_eq : s.start.file = file

/-- A span covers another if neither end of the other lies outside it. -/
structure Covers (s t : Span) : Prop where
  start : ¬ t.start.before s.start
  stop : ¬ s.stop.before t.stop

theorem covers_iff : s.Covers t ↔ s.start.key ≤ t.start.key ∧ t.stop.key ≤ s.stop.key := by
  rw [← not_lt, ← not_lt, ← Position.before_iff, ← Position.before_iff]
  exact ⟨fun h => ⟨h.start, h.stop⟩, fun h => ⟨h.1, h.2⟩⟩

theorem Covers.refl (s : Span) : s.Covers s := covers_iff.2 ⟨le_rfl, le_rfl⟩

theorem Covers.trans (h : r.Covers s) (h' : s.Covers t) : r.Covers t := by
  rw [covers_iff] at h h' ⊢
  exact ⟨h.1.trans h'.1, h'.2.trans h.2⟩

theorem Covers.antisymm (h : s.Covers t) (h' : t.Covers s) : s = t := by
  rw [covers_iff] at h h'
  have hstart : s.start = t.start := Position.key_injective (le_antisymm h.1 h'.1)
  have hstop : s.stop = t.stop := Position.key_injective (le_antisymm h'.2 h.2)
  cases s
  cases t
  cases hstart
  cases hstop
  rfl

theorem isValid_iff : s.isValid ↔ s.start.isValid ∧ s.stop.isValid ∧ s.start.file = s.stop.file ∧
    s.start.key ≤ s.stop.key := by
  rw [← not_lt, ← Position.before_iff, isValid]
  simp [and_assoc]

theorem In.stop_file (h : s.In file) : s.stop.file = file := (isValid_iff.1 h.valid).2.2.1.symm.trans h.file_eq

/-! ### Unions of two spans -/

theorem union_of_not_valid_left (h : s.isValid = false) (t : Span) : s.union t = t := by
  simp [union, h]

theorem union_of_not_valid_right (h : s.isValid) (h' : t.isValid = false) : s.union t = s := by
  simp [union, h, h']

/-- The earlier of the starts and the later of the ends. -/
theorem union_eq (hs : s.In file) (ht : t.In file) : s.union t =
    ⟨if t.start.before s.start then t.start else s.start, if s.stop.before t.stop then t.stop else s.stop⟩ := by
  simp [union, hs.valid, ht.valid, hs.file_eq, ht.file_eq]

/-- What is not in the file of a span adds nothing to it. -/
theorem union_of_not_in (hs : s.In file) (ht : ¬ t.In file) : s.union t = s := by
  cases hvalid : t.isValid with
  | false => exact union_of_not_valid_right hs.valid hvalid
  | true =>
    have hfile : s.start.file ≠ t.start.file := fun heq => ht ⟨hvalid, heq.symm.trans hs.file_eq⟩
    simp [union, hs.valid, hvalid, hfile]

theorem start_union (hs : s.In file) (ht : t.In file) :
    ((s.union t).start = s.start ∨ (s.union t).start = t.start) ∧
      (s.union t).start.key = min s.start.key t.start.key := by
  rw [union_eq hs ht]
  dsimp only
  split
  · rename_i h
    exact ⟨.inr rfl, (min_eq_right (Position.before_iff.1 h).le).symm⟩
  · rename_i h
    exact ⟨.inl rfl, (min_eq_left (not_lt.1 (mt Position.before_iff.2 h))).symm⟩

theorem stop_union (hs : s.In file) (ht : t.In file) :
    ((s.union t).stop = s.stop ∨ (s.union t).stop = t.stop) ∧
      (s.union t).stop.key = max s.stop.key t.stop.key := by
  rw [union_eq hs ht]
  dsimp only
  split
  · rename_i h
    exact ⟨.inr rfl, (max_eq_right (Position.before_iff.1 h).le).symm⟩
  · rename_i h
    exact ⟨.inl rfl, (max_eq_left (not_lt.1 (mt Position.before_iff.2 h))).symm⟩

theorem In.union (hs : s.In file) (ht : t.In file) : (s.union t).In file := by
  obtain ⟨hsstart, hsstop, -, hsle⟩ := isValid_iff.1 hs.valid
  obtain ⟨htstart, htstop, -, -⟩ := isValid_iff.1 ht.valid
  obtain ⟨hstart, hstartKey⟩ := start_union hs ht
  obtain ⟨hstop, hstopKey⟩ := stop_union hs ht
  have hstartIn : (s.union t).start.isValid ∧ (s.union t).start.file = file := by
    rcases hstart with h | h <;> rw [h]
    exacts [⟨hsstart, hs.file_eq⟩, ⟨htstart, ht.file_eq⟩]
  have hstopIn : (s.union t).stop.isValid ∧ (s.union t).stop.file = file := by
    rcases hstop with h | h <;> rw [h]
    exacts [⟨hsstop, hs.stop_file⟩, ⟨htstop, ht.stop_file⟩]
  have hle : (s.union t).start.key ≤ (s.union t).stop.key := by
    rw [hstartKey, hstopKey]
    exact (min_le_left _ _).trans (hsle.trans (le_max_left _ _))
  exact ⟨isValid_iff.2 ⟨hstartIn.1, hstopIn.1, hstartIn.2.trans hstopIn.2.symm, hle⟩, hstartIn.2⟩

/-- A span covers a union just if it covers both of its members. -/
theorem covers_union_iff (hs : s.In file) (ht : t.In file) : v.Covers (s.union t) ↔ v.Covers s ∧ v.Covers t := by
  simp only [covers_iff, (start_union hs ht).2, (stop_union hs ht).2, le_min_iff, max_le_iff]
  tauto

theorem union_covers (hs : s.In file) (ht : t.In file) : (s.union t).Covers s ∧ (s.union t).Covers t :=
  (covers_union_iff hs ht).1 (.refl _)

abbrev OfFile (file : String) : Type := { s : Span // s.In file }

/-- The valid spans of a file under covering; the least one over two is their union. -/
instance (file : String) : SemilatticeSup (OfFile file) where
  le s t := t.1.Covers s.1
  le_refl s := .refl s.1
  le_trans _ _ _ h h' := h'.trans h
  le_antisymm _ _ h h' := Subtype.ext (h'.antisymm h)
  sup s t := ⟨s.1.union t.1, s.2.union t.2⟩
  le_sup_left s t := (union_covers s.2 t.2).1
  le_sup_right s t := (union_covers s.2 t.2).2
  sup_le s t _ h h' := (covers_union_iff s.2 t.2).2 ⟨h, h'⟩

/-! ### Unions of many spans -/

/-- The least span of a file over those of some spans that are valid and in the file. -/
structure LeastOver (file : String) (members : List Span) (u : Span) : Prop where
  mem : u.In file
  covers : ∀ t ∈ members, t.In file → u.Covers t
  least : ∀ v : Span, v.In file → (∀ t ∈ members, t.In file → v.Covers t) → v.Covers u

theorem LeastOver.unique (h : LeastOver file members u) (h' : LeastOver file members v) : u = v :=
  (h.least v h'.mem h'.covers |>.antisymm (h'.least u h.mem h.covers)).symm

theorem In.leastOver (h : s.In file) : LeastOver file [s] s where
  mem := h
  covers _ ht _ := List.mem_singleton.1 ht ▸ .refl s
  least _ _ hcovers := hcovers s (.head _) h

/-- A member that is not in the file does not matter. -/
theorem LeastOver.cons (h : LeastOver file members u) (hs : ¬ s.In file) : LeastOver file (s :: members) u where
  mem := h.mem
  covers t ht hin := by
    rcases List.mem_cons.1 ht with rfl | ht
    exacts [absurd hin hs, h.covers t ht hin]
  least v hv hcovers := h.least v hv fun t ht => hcovers t (.tail _ ht)

/-- One more member. -/
theorem LeastOver.step (h : LeastOver file members u) (t : Span) : LeastOver file (members ++ [t]) (u.union t) := by
  by_cases ht : t.In file
  · refine ⟨h.mem.union ht, fun w hw hin => ?_, fun v hv hcovers => ?_⟩
    · rcases List.mem_append.1 hw with hw | hw
      · exact (union_covers h.mem ht).1.trans (h.covers w hw hin)
      · exact List.mem_singleton.1 hw ▸ (union_covers h.mem ht).2
    · refine (covers_union_iff h.mem ht).2 ⟨h.least v hv fun w hw => hcovers w (List.mem_append_left _ hw), ?_⟩
      exact hcovers t (List.mem_append_right _ (.head _)) ht
  · rw [union_of_not_in h.mem ht]
    refine ⟨h.mem, fun w hw hin => ?_, fun v hv hcovers => ?_⟩
    · rcases List.mem_append.1 hw with hw | hw
      · exact h.covers w hw hin
      · exact absurd (List.mem_singleton.1 hw ▸ hin) ht
    · exact h.least v hv fun w hw => hcovers w (List.mem_append_left _ hw)

theorem LeastOver.foldl (h : LeastOver file members u) (ts : List Span) :
    LeastOver file (members ++ ts) (ts.foldl union u) := by
  induction ts generalizing members u with
  | nil => rwa [List.append_nil]
  | cons t ts ih => simpa using ih (h.step t)

/-- Up to the first valid span there is nothing to cover, and its file is the one that counts from there on. -/
theorem leastOver_foldl {first : Span} (h : (s :: members).find? isValid = some first) :
    LeastOver first.start.file (s :: members) (members.foldl union s) := by
  induction members generalizing s with
  | nil =>
    obtain rfl : first = s := by
      simpa using List.mem_of_find?_eq_some h
    exact In.leastOver ⟨List.find?_some h, rfl⟩
  | cons t ts ih =>
    cases hs : s.isValid with
    | true =>
      obtain rfl : s = first := by
        simpa [List.find?_cons, hs] using h
      exact (In.leastOver ⟨hs, rfl⟩).foldl (t :: ts)
    | false =>
      rw [List.find?_cons, hs] at h
      rw [List.foldl_cons, union_of_not_valid_left hs]
      exact (ih h).cons fun hin => Bool.false_ne_true (hs.symm.trans hin.valid)

/-- What comes of spans is valid just if one of them is. -/
theorem isValid_foldl_iff : (members.foldl union s).isValid ↔ ∃ t ∈ s :: members, t.isValid := by
  induction members generalizing s with
  | nil => simp
  | cons t ts ih =>
    cases hs : s.isValid with
    | true =>
      have hfirst : (s :: t :: ts).find? isValid = some s := by
        rw [List.find?_cons, hs]
      exact iff_of_true (leastOver_foldl hfirst).mem.valid ⟨s, .head _, hs⟩
    | false =>
      rw [List.foldl_cons, union_of_not_valid_left hs, ih]
      simp [hs]

end Span

/-- Positions are in a strict total order. On the valid spans of a file, union is commutative, associative and
idempotent, and gives the least valid span of the file that covers both; beside a valid span an invalid one counts
for nothing, on either side. What comes of a list of spans by unions from the left is valid just if one of them is,
and is then the least span over those valid ones that are in the file of the first valid one. -/
theorem union_is_least :
    (IsStrictTotalOrder Position fun p q => p.before q = true) ∧
    (∀ file (s t : Span), s.In file → t.In file →
      s.union t = t.union s ∧ (∀ r : Span, r.In file → (r.union s).union t = r.union (s.union t)) ∧ s.union s = s ∧
      (s.union t).In file ∧ (s.union t).Covers s ∧ (s.union t).Covers t ∧
      ∀ v : Span, v.In file → v.Covers s → v.Covers t → v.Covers (s.union t)) ∧
    (∀ s t : Span, s.isValid = true → t.isValid = false → s.union t = s ∧ t.union s = s) ∧
    (∀ (s : Span) (ss : List Span), ((ss.foldl Span.union s).isValid = true ↔ ∃ t ∈ s :: ss, t.isValid = true) ∧
      ∀ first, (s :: ss).find? Span.isValid = some first →
        ∀ u, u = ss.foldl Span.union s ↔ Span.LeastOver first.start.file (s :: ss) u) := by
  refine ⟨Position.isStrictTotalOrder_before, fun file s t hs ht => ?_, fun s t hs ht => ?_, fun s ss => ?_⟩
  · let a : Span.OfFile file := ⟨s, hs⟩
    let b : Span.OfFile file := ⟨t, ht⟩
    refine ⟨congrArg Subtype.val (sup_comm a b), fun r hr => ?_, congrArg Subtype.val (sup_idem a), hs.union ht,
      (Span.union_covers hs ht).1, (Span.union_covers hs ht).2, fun v _ hvs hvt => ?_⟩
    · exact congrArg Subtype.val (sup_assoc (⟨r, hr⟩ : Span.OfFile file) a b)
    · exact (Span.covers_union_iff hs ht).2 ⟨hvs, hvt⟩
  · exact ⟨Span.union_of_not_valid_right hs ht, Span.union_of_not_valid_left ht s⟩
  · refine ⟨Span.isValid_foldl_iff, fun first hfirst u => ⟨?_, fun hu => ?_⟩⟩
    · rintro rfl
      exact Span.leastOver_foldl hfirst
    · exact hu.unique (Span.leastOver_foldl hfirst)

/-- Three spans of one file, the first two apart from each other; and a list in which a span that ends before it
starts comes first and one of another file lies between those that count. -/
theorem union_is_least_apart :
    let s : Span := ⟨⟨"a", 3, 1⟩, ⟨"a", 4, 1⟩⟩
    let t : Span := ⟨⟨"a", 1, 7⟩, ⟨"a", 2, 2⟩⟩
    let r : Span := ⟨⟨"a", 1, 9⟩, ⟨"a", 3, 9⟩⟩
    let other : Span := ⟨⟨"b", 1, 1⟩, ⟨"b", 9, 9⟩⟩
    let reversed : Span := ⟨⟨"a", 2, 1⟩, ⟨"a", 1, 1⟩⟩
    s.In "a" ∧ t.In "a" ∧ r.In "a" ∧ s.union t = t.union s ∧ (r.union s).union t = r.union (s.union t) ∧
    s.isValid = true ∧ reversed.isValid = false ∧ s.union reversed = s ∧ reversed.union s = s ∧
    [reversed, s, other, t].find? Span.isValid = some s ∧
    Span.LeastOver "a" [reversed, s, other, t] ⟨⟨"a", 1, 7⟩, ⟨"a", 4, 1⟩⟩ := by
  intro s t r other reversed
  have hs : s.In "a" := ⟨by decide, rfl⟩
  have ht : t.In "a" := ⟨by decide, rfl⟩
  have hr : r.In "a" := ⟨by decide, rfl⟩
  have hvalid : s.isValid = true := hs.valid
  have hreversed : reversed.isValid = false := by decide
  have hfirst : [reversed, s, other, t].find? Span.isValid = some s := by decide
  obtain ⟨-, hlaws, hneutral, hfold⟩ := union_is_least
  obtain ⟨hcomm, hassoc, -⟩ := hlaws "a" s t hs ht
  obtain ⟨hleft, hright⟩ := hneutral s reversed hvalid hreversed
  refine ⟨hs, ht, hr, hcomm, hassoc r hr, hvalid, hreversed, hleft, hright, hfirst, ?_⟩
  exact ((hfold reversed [s, other, t]).2 s hfirst _).1 (by decide)

end ScriptTree

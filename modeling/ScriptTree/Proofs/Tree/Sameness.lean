import ScriptTree.Proofs.Optimize.Coherence
import ScriptTree.Proofs.Optimize.Specialization
import ScriptTree.Proofs.Tree.Matching

/-!
Structural equality. Two trees are equal just if they have a canonical form in common: without spans, with a single
zero for each floating point type, and without the counters of native loops, which the loops that these keep have as
well. A tree has a canonical form unless a NaN can be reached in it. Equality is finer than what runs look at, for it
compares the loops that native loops keep, and coarser, for it takes the two zeros for one; without zeros, equal trees
that were read and walked match.
-/

namespace ScriptTree

/-! ### Constants -/

/-- The number with a zero that has no sign; a NaN has no canonical form. -/
def Floating.canonical? {f : FloatFormat} : Floating f → Option (Floating f)
  | .nan => none
  | .infinite s => some (.infinite s)
  | .finite s n h => some (if n = 0 then .zero false else .finite s n h)

/-- The constant with a zero that has no sign. -/
def Literal.canonical? : Literal → Option Literal
  | .plain (.number (.float x)) => x.canonical?.map fun y => .plain (.number (.float y))
  | .plain (.number (.double x)) => x.canonical?.map fun y => .plain (.number (.double y))
  | value => some value

theorem Floating.signed_eq_iff {s t : Bool} {m n : Nat} :
    signed s m = signed t n ↔ m = n ∧ (m = 0 ∨ s = t) := by
  cases s <;> cases t <;> simp only [signed] <;> constructor <;> intro h <;> simp_all <;> omega

/-- A number has at most one sign but for zero, so what compares as equal has one canonical form. -/
theorem Floating.same_iff {f : FloatFormat} {x y : Floating f} :
    x.same y ↔ ∃ z, x.canonical? = some z ∧ y.canonical? = some z := by
  unfold same
  rw [beq_iff_eq]
  cases x with
  | nan => simp [compare?, canonical?]
  | infinite s =>
    cases y with
    | nan => simp [compare?, canonical?]
    | infinite t => cases s <;> cases t <;> simp [compare?, canonical?]
    | finite t n h => cases s <;> simp [compare?, canonical?, zero] <;> split <;> simp
  | finite s m h =>
    cases y with
    | nan => simp [compare?, canonical?]
    | infinite t => cases t <;> simp [compare?, canonical?, zero] <;> split <;> simp
    | finite t n h' =>
      have hcompare : compare? (finite s m h) (finite t n h') = some .eq ↔ m = n ∧ (m = 0 ∨ s = t) := by
        rw [compare?, Option.some_inj, compare_eq_iff_eq, signed_eq_iff]
      rw [hcompare]
      simp only [canonical?, Option.some.injEq, exists_eq_left', zero]
      grind

/-- The constants are gone through by their types; those of two types have no form in common. -/
theorem Literal.sameConstant_iff {u v : Literal} :
    u.sameConstant v ↔ ∃ w, u.canonical? = some w ∧ v.canonical? = some w := by
  rcases u with (_ | _ | _ | (_ | _ | _ | _) | _ | _ | _) | _ <;>
  rcases v with (_ | _ | _ | (_ | _ | _ | _) | _ | _ | _) | _ <;>
  simp [sameConstant, canonical?, Datum.same, Datum.sameContent, Number.same, Floating.same_iff] <;>
  exact eq_comm

/-- A NaN of either type. -/
def Datum.IsNaN (d : Datum) : Prop := d = .number (.float .nan) ∨ d = .number (.double .nan)

/-- A floating point zero of either type and sign. -/
def Datum.IsZero (d : Datum) : Prop := ∃ s, d = .number (.float (.zero s)) ∨ d = .number (.double (.zero s))

instance : DecidablePred Datum.IsZero := fun _ => inferInstanceAs (Decidable (∃ _, _))

theorem Literal.canonical?_eq_none_iff {v : Literal} : v.canonical? = none ↔ v.datum.IsNaN := by
  rcases v with (_ | _ | _ | (_ | _ | x | x) | _ | _ | _) | _ <;> simp [canonical?, datum, Datum.IsNaN]
  · cases x <;> simp [Floating.canonical?]
  · cases x <;> simp [Floating.canonical?]

theorem Floating.canonical?_eq_some {f : FloatFormat} {x y : Floating f} (h : x.canonical? = some y) :
    y = x ∨ (∃ s, x = .zero s) ∧ y = .zero false := by
  cases x with
  | nan => cases h
  | infinite s => exact .inl (Option.some.inj h).symm
  | finite s n hn =>
    rw [canonical?, Option.some.injEq] at h
    split at h
    · rename_i hzero
      subst hzero
      exact .inr ⟨⟨s, rfl⟩, h.symm⟩
    · exact .inl h.symm

/-- The canonical form holds the same datum, unless it is a zero. -/
theorem Literal.datum_canonical {u v : Literal} (h : u.canonical? = some v) :
    v.datum = u.datum ∨ u.datum.IsZero ∧ v.datum.IsZero := by
  unfold canonical? at h
  split at h
  · obtain ⟨y, hy, rfl⟩ := Option.map_eq_some_iff.1 h
    rcases Floating.canonical?_eq_some hy with rfl | ⟨⟨s, rfl⟩, rfl⟩
    · exact .inl rfl
    · exact .inr ⟨⟨s, .inl rfl⟩, ⟨false, .inl rfl⟩⟩
  · obtain ⟨y, hy, rfl⟩ := Option.map_eq_some_iff.1 h
    rcases Floating.canonical?_eq_some hy with rfl | ⟨⟨s, rfl⟩, rfl⟩
    · exact .inl rfl
    · exact .inr ⟨⟨s, .inr rfl⟩, ⟨false, .inr rfl⟩⟩
  · exact .inl (congrArg datum (Option.some.inj h).symm)

/-- Constants that are the same hold the same datum, unless it is a zero. -/
theorem Literal.datum_of_sameConstant {u v : Literal} (h : u.sameConstant v) (hzero : ¬u.datum.IsZero) :
    u.datum = v.datum := by
  obtain ⟨w, hu, hv⟩ := sameConstant_iff.1 h
  rcases datum_canonical hu with hwu | ⟨hu, -⟩
  · rcases datum_canonical hv with hwv | ⟨-, hw⟩
    · exact hwu.symm.trans hwv
    · exact absurd (hwu ▸ hw) hzero
  · exact absurd hu hzero

namespace Node

/-! ### Canonical forms -/

mutual

/-- The tree without spans and counters of native loops, with canonical constants. -/
def canonical? : Node → Option Node
  | .construct form text _ children => do return .construct form text .unknown (← canonicalAll? children)
  | .constant value text _ children => do return .constant (← value.canonical?) text .unknown (← canonicalAll? children)
  | .counted _ generic text _ children => do
    return .counted ⟨"", 0, 0⟩ (← canonical? generic) text .unknown (← canonicalAll? children)

/-- The trees in canonical form, if all of them have one. -/
def canonicalAll? : List Node → Option (List Node)
  | [] => some []
  | n :: ns => do return (← canonical? n) :: (← canonicalAll? ns)

end

variable {a b c k n m : Node} {ks ms ns : List Node} {φ : Span → Span}

theorem canonical?_construct {form : Form} {text : String} {span : Span} :
    (construct form text span ns).canonical? = some k ↔
      ∃ ks, canonicalAll? ns = some ks ∧ construct form text .unknown ks = k := by
  simp [canonical?, Option.bind_eq_some_iff]

theorem canonical?_constant {value : Literal} {text : String} {span : Span} :
    (constant value text span ns).canonical? = some k ↔
      ∃ v ks, value.canonical? = some v ∧ canonicalAll? ns = some ks ∧ constant v text .unknown ks = k := by
  simp [canonical?, Option.bind_eq_some_iff]

theorem canonical?_counted {loop : CountedLoop} {generic : Node} {text : String} {span : Span} :
    (counted loop generic text span ns).canonical? = some k ↔
      ∃ g ks, generic.canonical? = some g ∧ canonicalAll? ns = some ks ∧ counted ⟨"", 0, 0⟩ g text .unknown ks = k := by
  simp [canonical?, Option.bind_eq_some_iff]

theorem canonicalAll?_cons : canonicalAll? (n :: ns) = some ks ↔
    ∃ k rest, n.canonical? = some k ∧ canonicalAll? ns = some rest ∧ k :: rest = ks := by
  simp [canonicalAll?, Option.bind_eq_some_iff]

mutual

/-- By induction on the tree on the left. -/
theorem same_iff : ∀ a b : Node, a.same b ↔ ∃ k, a.canonical? = some k ∧ b.canonical? = some k
  | .construct f s _ ms, .construct g t _ ns => by
    simp only [same, Bool.and_eq_true, beq_iff_eq, sameAll_iff ms, canonical?_construct]
    constructor
    · rintro ⟨⟨rfl, rfl⟩, ks, hms, hns⟩
      exact ⟨_, ⟨ks, hms, rfl⟩, ⟨ks, hns, rfl⟩⟩
    · rintro ⟨_, ⟨ks, hms, rfl⟩, ⟨_, hns, he⟩⟩
      cases he
      exact ⟨⟨rfl, rfl⟩, ks, hms, hns⟩
  | .constant u s _ ms, .constant v t _ ns => by
    simp only [same, Bool.and_eq_true, beq_iff_eq, sameAll_iff ms, Literal.sameConstant_iff,
      canonical?_constant]
    constructor
    · rintro ⟨⟨rfl, w, hu, hv⟩, ks, hms, hns⟩
      exact ⟨_, ⟨w, ks, hu, hms, rfl⟩, ⟨w, ks, hv, hns, rfl⟩⟩
    · rintro ⟨_, ⟨w, ks, hu, hms, rfl⟩, ⟨_, _, hv, hns, he⟩⟩
      cases he
      exact ⟨⟨rfl, w, hu, hv⟩, ks, hms, hns⟩
  | .counted _ a s _ ms, .counted _ b t _ ns => by
    simp only [same, Bool.and_eq_true, beq_iff_eq, sameAll_iff ms, same_iff a, canonical?_counted]
    constructor
    · rintro ⟨⟨rfl, k, ha, hb⟩, ks, hms, hns⟩
      exact ⟨_, ⟨k, ks, ha, hms, rfl⟩, ⟨k, ks, hb, hns, rfl⟩⟩
    · rintro ⟨_, ⟨k, ks, ha, hms, rfl⟩, ⟨_, _, hb, hns, he⟩⟩
      cases he
      exact ⟨⟨rfl, k, ha, hb⟩, ks, hms, hns⟩
  | .construct .., .constant .. => by simp [same, canonical?_construct, canonical?_constant]
  | .construct .., .counted .. => by simp [same, canonical?_construct, canonical?_counted]
  | .constant .., .construct .. => by simp [same, canonical?_construct, canonical?_constant]
  | .constant .., .counted .. => by simp [same, canonical?_constant, canonical?_counted]
  | .counted .., .construct .. => by simp [same, canonical?_construct, canonical?_counted]
  | .counted .., .constant .. => by simp [same, canonical?_constant, canonical?_counted]

theorem sameAll_iff : ∀ as bs : List Node,
    sameAll as bs ↔ ∃ ks, canonicalAll? as = some ks ∧ canonicalAll? bs = some ks
  | [], [] => by simp [sameAll, canonicalAll?]
  | a :: as, b :: bs => by
    simp only [sameAll, Bool.and_eq_true, sameAll_iff as, same_iff a, canonicalAll?_cons]
    constructor
    · rintro ⟨⟨k, ha, hb⟩, ks, has, hbs⟩
      exact ⟨_, ⟨k, ks, ha, has, rfl⟩, ⟨k, ks, hb, hbs, rfl⟩⟩
    · rintro ⟨_, ⟨k, ks, ha, has, rfl⟩, ⟨_, _, hb, hbs, he⟩⟩
      cases he
      exact ⟨⟨k, ha, hb⟩, ks, has, hbs⟩
  | [], _ :: _ => by simp [sameAll, canonicalAll?, Option.bind_eq_some_iff]
  | _ :: _, [] => by simp [sameAll, canonicalAll?, Option.bind_eq_some_iff]

end

/-! ### What equality sees -/

theorem same_comm (a b : Node) : a.same b = b.same a := by
  rw [Bool.eq_iff_iff, same_iff, same_iff]
  exact exists_congr fun _ => and_comm

theorem same_trans (hab : a.same b) (hbc : b.same c) : a.same c := by
  obtain ⟨k, ha, hb⟩ := (same_iff a b).1 hab
  obtain ⟨k', hb', hc⟩ := (same_iff b c).1 hbc
  obtain rfl : k = k' := Option.some.inj (hb.symm.trans hb')
  exact (same_iff a c).2 ⟨k, ha, hc⟩

mutual

theorem canonical?_mapSpan : ∀ n : Node, (n.mapSpan φ).canonical? = n.canonical?
  | .construct _ _ _ ns => by rw [mapSpan, canonical?, canonical?, canonicalAll?_mapSpan ns]
  | .constant _ _ _ ns => by rw [mapSpan, canonical?, canonical?, canonicalAll?_mapSpan ns]
  | .counted _ g _ _ ns => by rw [mapSpan, canonical?, canonical?, canonical?_mapSpan g, canonicalAll?_mapSpan ns]

theorem canonicalAll?_mapSpan : ∀ ns : List Node, canonicalAll? (mapSpanAll φ ns) = canonicalAll? ns
  | [] => rfl
  | n :: ns => by rw [mapSpanAll, canonicalAll?, canonicalAll?, canonical?_mapSpan n, canonicalAll?_mapSpan ns]

end

/-- Trees that differ in their spans only. -/
def SameButSpans (n m : Node) : Prop := n.mapSpan (fun _ => .unknown) = m.mapSpan fun _ => .unknown

theorem SameButSpans.canonical?_eq (h : n.SameButSpans m) : n.canonical? = m.canonical? :=
  (canonical?_mapSpan n).symm.trans ((congrArg canonical? h).trans (canonical?_mapSpan m))

/-- A constant that holds such a datum. -/
def Holds (P : Datum → Prop) (n : Node) : Prop := ∃ v, n.value? = some v ∧ P v.datum

instance (P : Datum → Prop) [DecidablePred P] : DecidablePred (Holds P) := fun n =>
  decidable_of_iff (n.value?.any fun v => decide (P v.datum)) (by simp [Holds, Option.any_eq_true])

/-- What holds of all that is reached holds of the node, and of all that is reached from its children and from the
loop that it keeps. -/
theorem forall_reaches {P : Node → Prop} : (∀ a, n.Reaches a → P a) ↔ P n ∧
    (∀ m ∈ n.children, ∀ a, m.Reaches a → P a) ∧ ∀ g, n.generic? = some g → ∀ a, g.Reaches a → P a := by
  constructor
  · exact fun h => ⟨h n (.refl n), fun m hm a ha => h a (.child hm ha), fun g hg a ha => h a (.generic hg ha)⟩
  · rintro ⟨hn, hchildren, hgeneric⟩ a ha
    cases ha with
    | refl => exact hn
    | child hm ha => exact hchildren _ hm a ha
    | generic hg ha => exact hgeneric _ hg a ha

mutual

/-- A tree has a canonical form if no NaN is reached in it. -/
theorem exists_canonical?_iff : ∀ n : Node, (∃ k, n.canonical? = some k) ↔ ∀ a, n.Reaches a → ¬a.Holds Datum.IsNaN
  | .construct form text span ns => by
    rw [forall_reaches]
    simp only [children, ← exists_canonicalAll?_iff ns, generic?, canonical?_construct]
    simp [Holds, value?]
  | .constant value text span ns => by
    rw [forall_reaches]
    simp only [children, ← exists_canonicalAll?_iff ns, generic?, canonical?_constant]
    simp [Holds, value?, ← Literal.canonical?_eq_none_iff, Option.ne_none_iff_exists']
  | .counted loop g text span ns => by
    rw [forall_reaches]
    simp only [children, ← exists_canonicalAll?_iff ns, generic?, canonical?_counted, Option.some.injEq, forall_eq',
      ← exists_canonical?_iff g]
    simp [Holds, value?, and_comm]

theorem exists_canonicalAll?_iff : ∀ ns : List Node, (∃ ks, canonicalAll? ns = some ks) ↔
    ∀ n ∈ ns, ∀ a, n.Reaches a → ¬a.Holds Datum.IsNaN
  | [] => by simp [canonicalAll?]
  | n :: ns => by
    rw [List.forall_mem_cons, ← exists_canonical?_iff n, ← exists_canonicalAll?_iff ns]
    simp [canonicalAll?_cons]

end

/-- A tree equals itself if no NaN is reached in it. -/
theorem same_self_iff : n.same n ↔ ∀ a, n.Reaches a → ¬a.Holds Datum.IsNaN := by
  rw [same_iff, ← exists_canonical?_iff]
  simp

/-! ### What runs see -/

/-- Heads of counting loops that are equal count the same. -/
theorem loop_eq_of_same {setup test step setup' test' step' : Node} {loop loop' : CountedLoop}
    (h : CountingHead setup test step loop) (h' : CountingHead setup' test' step' loop') (hsetup : setup.same setup')
    (htest : test.same test') : loop = loop' := by
  cases h with
  | mk hx =>
    cases h' with
    | mk hx' =>
      simp [same, sameAll, Literal.sameConstant, Datum.same, Datum.sameContent, Number.same] at hsetup htest
      simp [hsetup, htest]

mutual

/-- Equal trees match, if their native loops are coherent and there is no zero in them. -/
theorem matches_of_same {among : List Pipeline → Prop} : ∀ {a b : Node}, a.same b → (∀ x ∈ a.parts, x.Coheres among) →
    (∀ x ∈ b.parts, x.Coheres among) → (∀ x ∈ a.parts, ¬x.Holds Datum.IsZero) → a.Matches b
  | .construct f s _ ms, .construct g t _ ns, h, ha, hb, hzero => by
    simp only [same, Bool.and_eq_true, beq_iff_eq] at h
    obtain ⟨⟨rfl, rfl⟩, h⟩ := h
    exact .construct (matchesAll_of_same h (forall_parts.1 ha).2 (forall_parts.1 hb).2 (forall_parts.1 hzero).2)
  | .constant u s _ ms, .constant v t _ ns, h, ha, hb, hzero => by
    simp only [same, Bool.and_eq_true, beq_iff_eq] at h
    obtain ⟨⟨rfl, huv⟩, h⟩ := h
    have hu : ¬u.datum.IsZero := fun hu => (forall_parts.1 hzero).1 ⟨u, rfl, hu⟩
    exact .constant (Literal.datum_of_sameConstant huv hu)
      (matchesAll_of_same h (forall_parts.1 ha).2 (forall_parts.1 hb).2 (forall_parts.1 hzero).2)
  | .counted loop g s _ ms, .counted loop' g' t _ ns, h, ha, hb, hzero => by
    simp only [same, Bool.and_eq_true, beq_iff_eq] at h
    obtain ⟨⟨rfl, hgeneric⟩, h⟩ := h
    obtain ⟨setup, test, step, body, -, rfl, hhead, -⟩ := (forall_parts.1 ha).1
    obtain ⟨setup', test', step', body', -, rfl, hhead', -⟩ := (forall_parts.1 hb).1
    simp only [same, sameAll, Bool.and_eq_true] at hgeneric
    obtain rfl := loop_eq_of_same hhead hhead' hgeneric.2.1 hgeneric.2.2.1
    exact .counted (matchesAll_of_same h (forall_parts.1 ha).2 (forall_parts.1 hb).2 (forall_parts.1 hzero).2)
  | .construct .., .constant .., h, _, _, _ | .construct .., .counted .., h, _, _, _
  | .constant .., .construct .., h, _, _, _ | .constant .., .counted .., h, _, _, _
  | .counted .., .construct .., h, _, _, _ | .counted .., .constant .., h, _, _, _ => by simp [same] at h

theorem matchesAll_of_same {among : List Pipeline → Prop} : ∀ {as bs : List Node}, sameAll as bs →
    (∀ n ∈ as, ∀ x ∈ n.parts, x.Coheres among) → (∀ n ∈ bs, ∀ x ∈ n.parts, x.Coheres among) →
      (∀ n ∈ as, ∀ x ∈ n.parts, ¬x.Holds Datum.IsZero) → List.Forall₂ Matches as bs
  | [], [], _, _, _, _ => .nil
  | a :: as, b :: bs, h, ha, hb, hzero => by
    rw [sameAll, Bool.and_eq_true] at h
    rw [List.forall_mem_cons] at ha hb hzero
    exact .cons (matches_of_same h.1 ha.1 hb.1 hzero.1) (matchesAll_of_same h.2 ha.2 hb.2 hzero.2)
  | [], _ :: _, h, _, _, _ | _ :: _, [], h, _, _, _ => by simp [sameAll] at h

end

end Node

/-- Runs of trees that match. -/
def matchSetting : Setting :=
  ⟨fun f g => f.name = g.name ∧ f.parameters = g.parameters ∧ f.body.Matches g.body, fun _ => False, fun _ => false,
    fun _ => false, 0, 0⟩

theorem match_similarity : Similarity matchSetting fun _ n m => n.Matches m where
  step _ n m h := by
    refine .congruent (.of_matches h (fun _ h => h) ?_ (fun f g hf hg => ?_) fun _ _ _ _ _ => rfl)
    · exact h.children.imp fun _ _ h => ⟨fun _ => h, h.children⟩
    · have hfunctions := functionOf?_matches h.children
      rw [hf, hg] at hfunctions
      cases hfunctions
      assumption
  name _ _ h := h.1
  parameters _ _ h := h.2.1
  unreserved _ _ _ _ _ hr := hr
  body _ _ h := h.2.2

/-- Trees that match do the same in every context. -/
theorem Node.Matches.equivalent {n m : Node} {c : Context} (h : n.Matches m) (hc : c.Backed) (host : Host) :
    n.Equivalent (Node.eval host) (Node.eval host) m c := by
  have hA : Agree matchSetting c.mirror c c :=
    hc.agree (fun _ h => h) (fun f => ⟨rfl, rfl, .refl _⟩) fun _ _ => rfl
  have hadm : c.mirror.Admits matchSetting m.introduces :=
    ⟨Nat.zero_le _, Nat.zero_le _, fun _ x _ => ⟨_, rfl, fun _ => c.not_pins_mirror _ x⟩⟩
  intro s
  have := match_similarity.shows_iff host h hA hadm (fun l hl => List.eq_of_mem_replicate hl) s
  rwa [show Node.evalEarly matchSetting.earlyLeft host = Node.eval host from Node.evalEarly_never host,
    show Node.evalEarly matchSetting.earlyRight host = Node.eval host from Node.evalEarly_never host] at this

/-- A tree that was read and then walked any number of times. -/
def Node.Built (n : Node) : Prop := ∃ source ps, source.Decoded ∧ n = Pipeline.walks ps source

theorem Node.Built.coherent {n : Node} (h : n.Built) : ∀ a ∈ n.parts, a.Coheres fun _ => True := by
  obtain ⟨source, ps, hsource, rfl⟩ := h
  exact fun a ha => ((current_walks hsource.writable.2 ps) a ha).1.imp fun _ _ => trivial

/-- Equality of trees is symmetric and transitive, a tree equals a copy of itself if no NaN is reached in it, and spans
do not matter. Of two trees that were read and walked, equal and without zeros, one does what the other does. -/
theorem same_respected :
    (∀ a b : Node, a.same b = b.same a) ∧
    (∀ a b c : Node, a.same b → b.same c → a.same c) ∧
    (∀ a : Node, a.same a ↔ ∀ x, a.Reaches x → ¬x.Holds Datum.IsNaN) ∧
    (∀ a a' b b' : Node, a.SameButSpans a' → b.SameButSpans b' → a.same b = a'.same b') ∧
    ∀ a b : Node, a.Built → b.Built → a.same b → (∀ x ∈ a.parts, ¬x.Holds Datum.IsZero) →
      ∀ (c : Context) (host : Host), c.Backed → a.Equivalent (Node.eval host) (Node.eval host) b c := by
  refine ⟨Node.same_comm, fun _ _ _ => Node.same_trans, fun _ => Node.same_self_iff, fun a a' b b' ha hb => ?_,
    fun a b ha hb hsame hzero c host hc => ?_⟩
  · rw [Bool.eq_iff_iff, Node.same_iff, Node.same_iff, ha.canonical?_eq, hb.canonical?_eq]
  · exact (Node.matches_of_same hsame ha.coherent hb.coherent hzero).equivalent hc host

/-- A loop that calls the host with a sum, each node in the same place. -/
def Node.placedLoop : Node := Node.sumInLoop.mapSpan fun _ => ⟨⟨"a", 1, 1⟩, ⟨"a", 2, 1⟩⟩

theorem Node.decoded_placedLoop : Node.placedLoop.Decoded := by
  have hspan {depth : Nat} (h : 3 ≤ depth) : Span.Writable depth ⟨⟨"a", 1, 1⟩, ⟨"a", 2, 1⟩⟩ :=
    ⟨by decide, by decide, fun _ => h⟩
  refine decoded_of_writable ?_ rfl
  simp [placedLoop, sumInLoop, countTo, callOn, ofName, ofInt, mapSpan, mapSpanAll, writable_construct_iff,
    writable_constant_iff, hspan, Datum.Writable, Json.nestingLimit]

/-- The loop with places and the one without, both made native and folded, are equal and do the same. -/
theorem same_respected_placedLoop :
    let ps := [[.countedLoop], [.constantFolding]]
    let a := Pipeline.walks ps .sumInLoop
    let b := Pipeline.walks ps .placedLoop
    a.Built ∧ b.Built ∧ a.same b ∧ (∀ x ∈ a.parts, ¬x.Holds Datum.IsZero) ∧ (Context.ofBindings []).Backed ∧
      a.Equivalent (Node.eval .silent) (Node.eval .silent) b (.ofBindings []) := by
  intro ps a b
  have ha : a.Built := ⟨_, ps, Node.decoded_sumInLoop, rfl⟩
  have hb : b.Built := ⟨_, ps, Node.decoded_placedLoop, rfl⟩
  have hsame : a.same b := by decide +kernel
  have hzero : ∀ x ∈ a.parts, ¬x.Holds Datum.IsZero := by decide +kernel
  have hbacked : (Context.ofBindings []).Backed := by
    intro s hs x _ hx
    obtain rfl := List.mem_singleton.1 hs
    cases hx
  exact ⟨ha, hb, hsame, hzero, hbacked, same_respected.2.2.2.2 a b ha hb hsame hzero _ .silent hbacked⟩

end ScriptTree

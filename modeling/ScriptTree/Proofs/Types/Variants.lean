import Mathlib.Data.List.Induction
import ScriptTree.Proofs.Types.Registry

/-!
What a qualified variant says of the type it was made of. Every registered type was made of an unqualified
one, its base, by qualifiers in turn: they make up its name and its traits, and its bare key is the base's
key. The name of a base and a qualified form of it tell which qualifiers were applied, though not always in
what order (a const reference is a reference to a const). So what is registered under the name of a variant
describes the type if it has the right base. It has another one only if two bases have a qualified name in
common, as `int` and a type registered as `const int` have.
-/

namespace ScriptTree

/-- The character has every trait of another. -/
def Traits.Within (s t : Traits) : Prop := s.union t = t

/-- A variant has the trait of the qualifier, every trait of the type, and the same bare type. -/
structure Qualifier.Describes (q : Qualifier) (t x : TypeIdentity) : Prop where
  qualified : q.traits.Within x.traits
  kept : t.traits.Within x.traits
  bare : x.sameBare t = true

namespace TypeRegistry

open Relation (ReflTransGen)

variable {r s : TypeRegistry} {t x : TypeIdentity} {q : Qualifier} {qs qs' : List Qualifier} {name : String}
  {a b : RegisteredType}

/-! ### Qualifiers in turn -/

def qualifiedName (qs : List Qualifier) (name : String) : String := qs.foldl (fun name q => q.rename name) name

def qualifiedTraits (qs : List Qualifier) (traits : Traits) : Traits := qs.foldl (fun t q => t.union q.traits) traits

/-- The character that a qualifier puts after a name. -/
def mark? : Qualifier → Option Char
  | .const => none
  | .reference => some '&'
  | .pointer => some '*'

theorem qualifiedName_concat (qs : List Qualifier) (q : Qualifier) (name : String) :
    qualifiedName (qs ++ [q]) name = q.rename (qualifiedName qs name) := List.foldl_concat ..

theorem qualifiedTraits_concat (qs : List Qualifier) (q : Qualifier) (traits : Traits) :
    qualifiedTraits (qs ++ [q]) traits = (qualifiedTraits qs traits).union q.traits := List.foldl_concat ..

theorem qualifiedTraits_eq (qs : List Qualifier) (t : Traits) : qualifiedTraits qs t =
    ⟨t.isConst || qs.contains .const, t.isReference || qs.contains .reference, t.isPointer || qs.contains .pointer,
      t.isVoid, t.isArithmetic⟩ := by
  induction qs using List.reverseRecOn with
  | nil => simp [qualifiedTraits]
  | append_singleton qs q ih =>
    rw [qualifiedTraits_concat, ih]
    cases q <;> simp [Traits.union, Qualifier.traits]

/-- The consts stand before the name, the other qualifiers behind it. -/
theorem toList_qualifiedName (qs : List Qualifier) (name : String) : (qualifiedName qs name).toList =
    (List.replicate (qs.count .const) "const ".toList).flatten ++ name.toList ++ qs.filterMap mark? := by
  induction qs using List.reverseRecOn with
  | nil => simp [qualifiedName]
  | append_singleton qs q ih =>
    rw [qualifiedName_concat]
    cases q with
    | const => simp [Qualifier.rename, ih, mark?, List.replicate_succ]
    | reference => simp [Qualifier.rename, ih, mark?]
    | pointer => simp [Qualifier.rename, ih, mark?]

/-- Each const adds one letter `c` to a name, and no other qualifier does. -/
theorem count_qualifiedName (qs : List Qualifier) (name : String) :
    (qualifiedName qs name).toList.count 'c' = qs.count .const + name.toList.count 'c' := by
  induction qs using List.reverseRecOn with
  | nil => simp [qualifiedName]
  | append_singleton qs q ih =>
    rw [qualifiedName_concat]
    cases q with
    | const =>
      have hconst : ("const ".toList).count 'c' = 1 := by decide
      rw [Qualifier.rename, String.toList_append, List.count_append, hconst, ih, List.count_append, List.count_singleton_self]
      omega
    | reference | pointer => simp [Qualifier.rename, ih]

theorem mark?_inj {q q' : Qualifier} {c : Char} (hq : mark? q = some c) (hq' : mark? q' = some c) : q = q' := by
  have hsame : mark? q = mark? q' := hq.trans hq'.symm
  revert hq hsame
  cases q <;> cases q' <;> simp [mark?]

theorem mem_marks {c : Char} (hq : mark? q = some c) : c ∈ qs.filterMap mark? ↔ q ∈ qs := by
  refine ⟨fun hc => ?_, fun hmem => List.mem_filterMap.2 ⟨q, hmem, hq⟩⟩
  obtain ⟨q', hmem, hq'⟩ := List.mem_filterMap.1 hc
  rwa [mark?_inj hq hq']

/-- A name and a qualified form of it tell which qualifiers were applied. -/
theorem qualifiers_determined (h : qualifiedName qs name = qualifiedName qs' name) (q : Qualifier) :
    q ∈ qs ↔ q ∈ qs' := by
  have hconsts : qs.count .const = qs'.count .const := by
    have hcount := congrArg (fun n : String => n.toList.count 'c') h
    simp only [count_qualifiedName] at hcount
    exact Nat.add_right_cancel hcount
  have hmarks : qs.filterMap mark? = qs'.filterMap mark? := by
    have hlists := congrArg String.toList h
    rw [toList_qualifiedName, toList_qualifiedName, hconsts] at hlists
    exact List.append_cancel_left hlists
  cases hq : mark? q with
  | none =>
    have hconst : q = .const := by cases q <;> simp_all [mark?]
    rw [hconst, ← List.count_pos_iff, ← List.count_pos_iff, hconsts]
  | some c => rw [← mem_marks hq, ← mem_marks hq, hmarks]

theorem qualifiedTraits_congr (h : ∀ q, q ∈ qs ↔ q ∈ qs') (traits : Traits) :
    qualifiedTraits qs traits = qualifiedTraits qs' traits := by
  have hcontains (q : Qualifier) : qs.contains q = qs'.contains q := by
    rw [Bool.eq_iff_iff, List.contains_iff_mem, List.contains_iff_mem, h]
  rw [qualifiedTraits_eq, qualifiedTraits_eq, hcontains, hcontains, hcontains]

/-! ### Where types come from -/

/-- A type without qualifiers: its bare key is its own, and it has no trait of a qualifier. -/
structure Unqualified (b : RegisteredType) : Prop where
  own : b.identity.bareKey = b.identity.key
  plain : b.identity.traits.unqualified = b.identity.traits

/-- A registered type was made of an unqualified one by qualifiers in turn; by none if it is that type itself. -/
structure MadeOf (r : TypeRegistry) (a b : RegisteredType) (qs : List Qualifier) : Prop where
  base : b ∈ r.types
  unqualified : Unqualified b
  name : a.name = qualifiedName qs b.name
  bare : a.identity.bareKey = b.identity.key
  traits : a.identity.traits = qualifiedTraits qs b.identity.traits
  itself : qs = [] ↔ a.identity.bareKey = a.identity.key

/-- Every registered type was made of an unqualified one. -/
def Traced (r : TypeRegistry) : Prop := ∀ a ∈ r.types, ∃ b qs, r.MadeOf a b qs

theorem Traced.empty : empty.Traced := nofun

theorem MadeOf.later (h : r.MadeOf a b qs) (hrs : r.types <+: s.types) : s.MadeOf a b qs :=
  { h with base := hrs.subset h.base }

/-- It stays so if a new type was made of an unqualified one. -/
theorem Traced.intern {fresh : TypeKey → TypeIdentity} (h : r.Traced)
    (hfresh : ∃ b qs, MadeOf ⟨r.types ++ [⟨name, fresh r.nextKey⟩]⟩ ⟨name, fresh r.nextKey⟩ b qs) :
    (r.intern name fresh).2.Traced := by
  obtain ⟨t, -, he⟩ | ⟨-, he⟩ := r.intern_cases name fresh
  · rwa [he]
  rw [he]
  intro c hc
  rcases List.mem_append.1 hc with hc | hc
  · obtain ⟨b, qs, hmade⟩ := h c hc
    exact ⟨b, qs, hmade.later (List.prefix_append ..)⟩
  · rwa [List.mem_singleton.1 hc]

/-- An operation keeps track of where types come from. -/
theorem Returns.traced (hs : Returns r t s) (hr : r.Consistent) (h : r.Traced) : s.Traced := by
  cases hs with
  | register name traits =>
    exact h.intern ⟨_, [], List.mem_append_right _ (.head _), ⟨rfl, rfl⟩, rfl, rfl, rfl, fun _ => rfl, fun _ => rfl⟩
  | qualify hu q =>
    obtain ⟨a, ha, rfl⟩ := hu
    obtain ⟨exact, bare, traits, hid, -, hle⟩ := hr.defined ⟨a, ha, rfl⟩
    obtain ⟨b, qs, hmade⟩ := h a ha
    have hbare := hmade.bare
    have htraits := hmade.traits
    have hname := (hr.name_identity ha).trans hmade.name
    rw [hid] at hbare htraits hname ⊢
    refine h.intern ⟨b, qs ++ [q], List.mem_append_left _ hmade.base, hmade.unqualified, ?_, hbare, ?_, ?_⟩
    · rw [hname, qualifiedName_concat]
    · rw [qualifiedTraits_concat, ← htraits]
      rfl
    · refine ⟨fun hnil => absurd hnil (by simp), fun hkey => ?_⟩
      exact absurd (Nat.lt_succ_of_le hle) (Nat.not_lt_of_ge (Nat.le_of_eq (Eq.symm hkey)))

theorem Leads.traced (hs : r.Leads s) (hr : r.Consistent) (h : r.Traced) : s.Traced := by
  induction hs with
  | refl => exact h
  | tail hfirst hstep ih =>
    obtain ⟨t, hstep⟩ := hstep
    exact hstep.traced (Leads.spec hfirst hr).1 ih

/-- What holds of every registry that operations lead to. -/
theorem Leads.sound (hr : empty.Leads r) : r.Consistent ∧ r.Traced :=
  ⟨(hr.spec .empty).1, hr.traced .empty .empty⟩

/-! ### Types by key and by name -/

theorem Consistent.eq_of_key (hr : r.Consistent) (ha : a ∈ r.types) (hb : b ∈ r.types)
    (h : a.identity.key = b.identity.key) : a = b := by
  obtain ⟨i, hi⟩ := List.mem_iff_getElem?.1 ha
  obtain ⟨j, hj⟩ := List.mem_iff_getElem?.1 hb
  have hij : i + 1 = j + 1 := (hr.keys i a hi).symm.trans (h.trans (hr.keys j b hj))
  rw [Nat.succ.inj hij, hj] at hi
  exact (Option.some.inj hi).symm

theorem Consistent.eq_of_name (hr : r.Consistent) (ha : a ∈ r.types) (hb : b ∈ r.types) (h : a.name = b.name) : a = b :=
  List.inj_on_of_nodup_map hr.names ha hb h

theorem Consistent.sameBare_iff (hr : r.Consistent) (ht : r.Knows t) (hx : r.Knows x) :
    x.sameBare t = true ↔ x.bareKey = t.bareKey := by
  obtain ⟨exact, bare, traits, rfl, -⟩ := hr.defined ht
  obtain ⟨exact', bare', traits', rfl, -⟩ := hr.defined hx
  simp [TypeIdentity.sameBare, TypeIdentity.isUndefined]

/-- A type with its own bare key has no trait of a qualifier. -/
theorem Traced.unqualified (h : r.Traced) (ha : a ∈ r.types) (hown : a.identity.bareKey = a.identity.key) :
    Unqualified a := by
  obtain ⟨b, qs, hmade⟩ := h a ha
  have htraits : a.identity.traits = b.identity.traits := by
    rw [hmade.traits, hmade.itself.2 hown]
    rfl
  exact ⟨hown, by rw [htraits, hmade.unqualified.plain]⟩

/-! ### Single variants -/

/-- What a variant is made of: the type it is a variant of, and the type that is registered under its name. -/
theorem Leads.variant (hr : empty.Leads r) (ht : r.Knows t) (q : Qualifier) : ∃ a c b b' qs qs',
    a.identity = t ∧ c.identity = (r.qualify q t).1 ∧ c ∈ (r.qualify q t).2.types ∧
    MadeOf (r.qualify q t).2 a b qs ∧ MadeOf (r.qualify q t).2 c b' qs' ∧
    qualifiedName qs' b'.name = qualifiedName (qs ++ [q]) b.name := by
  have hstep : r.Returns (r.qualify q t).1 (r.qualify q t).2 := .qualify ht q
  have hafter : empty.Leads (r.qualify q t).2 := hr.tail ⟨_, hstep⟩
  have hmem := mem_types_qualify hr.sound.1 ht q
  obtain ⟨b', qs', hmade'⟩ := hafter.sound.2 _ hmem
  obtain ⟨a, ha, rfl⟩ := ht
  obtain ⟨b, qs, hmade⟩ := hr.sound.2 a ha
  refine ⟨a, _, b, b', qs, qs', rfl, rfl, hmem, hmade.later (hstep.spec hr.sound.1).2.1, hmade', ?_⟩
  rw [← hmade'.name, qualifiedName_concat, ← hmade.name, hr.sound.1.name_identity ha]

/-- A variant with the bare key of the type has the traits of the type and the qualifier's. -/
theorem Leads.variant_traits (hr : empty.Leads r) (ht : r.Knows t) (q : Qualifier)
    (hbare : (r.qualify q t).1.bareKey = t.bareKey) : (r.qualify q t).1.traits = t.traits.union q.traits := by
  obtain ⟨a, c, b, b', qs, qs', rfl, hc, -, hmade, hmade', hname⟩ := hr.variant ht q
  have hkey : b'.identity.key = b.identity.key := by rw [← hmade'.bare, hc, hbare, hmade.bare]
  have hafter : empty.Leads (r.qualify q a.identity).2 := hr.tail ⟨_, .qualify ht q⟩
  obtain rfl : b' = b := hafter.sound.1.eq_of_key hmade'.base hmade.base hkey
  rw [← hc, hmade'.traits, hmade.traits, qualifiedTraits_congr (qualifiers_determined hname), qualifiedTraits_concat]

theorem within_union_left (s t : Traits) : s.Within (s.union t) := by
  simp [Traits.Within, Traits.union]

theorem within_union_right (s t : Traits) : t.Within (s.union t) := by
  simp [Traits.Within, Traits.union, Bool.or_left_comm]

/-- A variant describes its type if it has its bare key. -/
theorem Leads.describes_iff_bareKey (hr : empty.Leads r) (ht : r.Knows t) (q : Qualifier) :
    q.Describes t (r.qualify q t).1 ↔ (r.qualify q t).1.bareKey = t.bareKey := by
  obtain ⟨hafter, happended, hknows⟩ := (Returns.qualify ht q).spec hr.sound.1
  have hsame := hafter.sameBare_iff (ht.later happended) hknows
  refine ⟨fun h => hsame.1 h.bare, fun h => ?_⟩
  have htraits := hr.variant_traits ht q h
  exact ⟨htraits ▸ within_union_right .., htraits ▸ within_union_left .., hsame.2 h⟩

/-- It has it unless a type with another one is registered under its name. -/
theorem Leads.bareKey_iff (hr : empty.Leads r) (ht : r.Knows t) (q : Qualifier) :
    (r.qualify q t).1.bareKey = t.bareKey ↔
      ∀ a ∈ r.types, a.name = q.rename (r.name t) → a.identity.bareKey = t.bareKey := by
  obtain ⟨exact, bare, traits, rfl, -⟩ := hr.sound.1.defined ht
  obtain ⟨x, hlookup, he⟩ | ⟨hnone, he⟩ := r.intern_cases (q.rename (r.name (.defined exact bare traits)))
    fun k => .defined k bare (traits.union q.traits)
  · obtain ⟨c, hc, hname, rfl⟩ := knows_of_lookup hlookup
    rw [TypeRegistry.qualify, he]
    refine ⟨fun hbare a ha haname => ?_, fun hall => hall c hc hname⟩
    rwa [hr.sound.1.eq_of_name ha hc (haname.trans hname.symm)]
  · rw [TypeRegistry.qualify, he]
    refine ⟨fun _ a ha haname => ?_, fun _ => rfl⟩
    exact absurd (haname ▸ List.mem_map_of_mem ha) (lookup_eq_none.1 hnone)

/-- What registration returns is unqualified unless a variant is registered under the name. -/
theorem Leads.register_iff (hr : empty.Leads r) (name : String) (traits : Traits) :
    ((r.register name traits).1.bareKey = (r.register name traits).1.key ∧
        (r.register name traits).1.traits.unqualified = (r.register name traits).1.traits) ↔
      ∀ a ∈ r.types, a.name = name → a.identity.bareKey = a.identity.key := by
  obtain ⟨x, hlookup, he⟩ | ⟨hnone, he⟩ := r.intern_cases name fun k => .defined k k traits.unqualified
  · obtain ⟨c, hc, hname, rfl⟩ := knows_of_lookup hlookup
    rw [register, he]
    refine ⟨fun h a ha haname => ?_, fun hall => ?_⟩
    · rw [hr.sound.1.eq_of_name ha hc (haname.trans hname.symm)]
      exact h.1
    · have hunqualified := hr.sound.2.unqualified hc (hall c hc hname)
      exact ⟨hunqualified.own, hunqualified.plain⟩
  · rw [register, he]
    refine ⟨fun _ a ha haname => ?_, fun _ => ⟨rfl, rfl⟩⟩
    exact absurd (haname ▸ List.mem_map_of_mem ha) (lookup_eq_none.1 hnone)

/-! ### Variants from now on -/

/-- Only variants are asked for from one registry to the other. -/
def Qualifies : TypeRegistry → TypeRegistry → Prop :=
  ReflTransGen fun r s => ∃ t q, r.Knows t ∧ (r.qualify q t).2 = s

/-- No two unqualified types have a qualified name in common. -/
def Separate (r : TypeRegistry) : Prop := ∀ a ∈ r.types, ∀ b ∈ r.types, Unqualified a → Unqualified b →
  ∀ qs qs', qualifiedName qs a.name = qualifiedName qs' b.name → a = b

theorem Qualifies.leads (h : r.Qualifies s) : r.Leads s := by
  induction h with
  | refl => exact .refl
  | tail _ hstep ih =>
    obtain ⟨t, q, ht, rfl⟩ := hstep
    exact ih.tail ⟨_, .qualify ht q⟩

/-- Asking for variants registers no unqualified type. -/
theorem Qualifies.unqualified (h : r.Qualifies s) (hr : empty.Leads r) (hb : b ∈ s.types) (hun : Unqualified b) :
    b ∈ r.types := by
  induction h with
  | refl => exact hb
  | @tail s s' hfirst hstep ih =>
    obtain ⟨t, q, ht, rfl⟩ := hstep
    have hmiddle : empty.Leads s := hr.trans (Qualifies.leads hfirst)
    have hs : s.Consistent := hmiddle.sound.1
    obtain ⟨exact, bare, traits, rfl, -, hle⟩ := hs.defined ht
    obtain ⟨x, -, he⟩ | ⟨-, he⟩ := s.intern_cases (q.rename (s.name (.defined exact bare traits)))
      fun k => .defined k bare (traits.union q.traits)
    · rw [TypeRegistry.qualify, he] at hb
      exact ih hb
    rw [TypeRegistry.qualify, he] at hb
    rcases List.mem_append.1 hb with hb | hb
    · exact ih hb
    obtain rfl := List.mem_singleton.1 hb
    have hown : bare = s.types.length + 1 := hun.own
    exact absurd hown (Nat.ne_of_lt (Nat.lt_succ_of_le hle))

/-- If variants describe their types, every qualified name of a type can be reached with its bare key. -/
theorem qualifies_to (hr : empty.Leads r) (ht : r.Knows t)
    (hlaw : ∀ s, r.Qualifies s → ∀ u, s.Knows u → ∀ q : Qualifier, q.Describes u (s.qualify q u).1) (qs : List Qualifier) :
    ∃ s, r.Qualifies s ∧ ∃ a ∈ s.types, a.name = qualifiedName qs (r.name t) ∧ a.identity.bareKey = t.bareKey := by
  induction qs using List.reverseRecOn with
  | nil =>
    obtain ⟨a, ha, rfl⟩ := ht
    exact ⟨r, .refl, a, ha, (hr.sound.1.name_identity ha).symm, rfl⟩
  | append_singleton qs q ih =>
    obtain ⟨s, hs, a, ha, hname, hbare⟩ := ih
    have hleads : empty.Leads s := hr.trans hs.leads
    have hknows : s.Knows a.identity := ⟨a, ha, rfl⟩
    refine ⟨_, hs.tail ⟨_, q, hknows, rfl⟩, _, mem_types_qualify hleads.sound.1 hknows q, ?_, ?_⟩
    · rw [qualifiedName_concat, ← hname, hleads.sound.1.name_identity ha]
    · exact ((hleads.describes_iff_bareKey hknows q).1 (hlaw s hs _ hknows q)).trans hbare

/-- Variants describe their types from now on exactly if no two unqualified types have a qualified name in
common. -/
theorem Leads.separate_iff (hr : empty.Leads r) :
    (∀ s, r.Qualifies s → ∀ t, s.Knows t → ∀ q : Qualifier, q.Describes t (s.qualify q t).1) ↔ r.Separate := by
  refine ⟨fun hlaw a ha b hb hua hub qs qs' hname => ?_, fun hsep s hs t ht q => ?_⟩
  · obtain ⟨s, hs, c, hc, hcname, hcbare⟩ := qualifies_to hr ⟨a, ha, rfl⟩ hlaw qs
    have hleads : empty.Leads s := hr.trans hs.leads
    obtain ⟨hcons, happended⟩ := hs.leads.spec hr.sound.1
    obtain ⟨s', hs', d, hd, hdname, hdbare⟩ := qualifies_to hleads ⟨b, happended.subset hb, rfl⟩
      (fun s' hs' => hlaw s' (hs.trans hs')) qs'
    obtain ⟨hcons', happended'⟩ := hs'.leads.spec hcons
    rw [hr.sound.1.name_identity ha] at hcname
    rw [hcons.name_identity (happended.subset hb)] at hdname
    have hcd : c = d := hcons'.eq_of_name (happended'.subset hc) hd (by rw [hcname, hname, hdname])
    have hkeys : a.identity.key = b.identity.key := by rw [← hua.own, ← hub.own, ← hcbare, hcd, hdbare]
    exact hr.sound.1.eq_of_key ha hb hkeys
  · have hleads : empty.Leads s := hr.trans hs.leads
    have hafter : r.Qualifies (s.qualify q t).2 := hs.tail ⟨t, q, ht, rfl⟩
    rw [hleads.describes_iff_bareKey ht q]
    obtain ⟨a, c, b, b', qs, qs', rfl, hc, -, hmade, hmade', hname⟩ := hleads.variant ht q
    have hb := hafter.unqualified hr hmade.base hmade.unqualified
    have hb' := hafter.unqualified hr hmade'.base hmade'.unqualified
    have hbb : b' = b := hsep b' hb' b hb hmade'.unqualified hmade.unqualified qs' (qs ++ [q]) hname
    rw [← hc, hmade'.bare, hmade.bare, hbb]

/-! ### Plain names -/

/-- A name that does not look like a qualified one. -/
structure PlainName (name : String) : Prop where
  head : ¬ "const ".toList <+: name.toList
  last : ∀ c ∈ name.toList.getLast?, c ≠ '&' ∧ c ≠ '*'

theorem plainName_iff {name : String} : PlainName name ↔
    ¬ "const ".toList <+: name.toList ∧ ∀ c ∈ name.toList.getLast?, c ≠ '&' ∧ c ≠ '*' :=
  ⟨fun ⟨head, last⟩ => ⟨head, last⟩, fun ⟨head, last⟩ => ⟨head, last⟩⟩

instance (name : String) : Decidable (PlainName name) :=
  decidable_of_iff (¬ "const ".toList <+: name.toList ∧ name.toList.getLast?.all (fun c => c != '&' && c != '*') = true)
    (by simp [plainName_iff, Option.all_eq_true])

theorem eq_mark {c : Char} (h : c ∈ qs.filterMap mark?) : c = '&' ∨ c = '*' := by
  obtain ⟨q, -, hq⟩ := List.mem_filterMap.1 h
  cases q with
  | const => cases hq
  | reference => exact .inl (Option.some.inj hq).symm
  | pointer => exact .inr (Option.some.inj hq).symm

/-- What is put behind a plain name does not make a const of it. -/
theorem PlainName.not_const (h : PlainName name) (qs : List Qualifier) :
    ¬ "const ".toList <+: name.toList ++ qs.filterMap mark? := by
  intro hconst
  rcases List.prefix_or_prefix_of_prefix hconst (List.prefix_append ..) with hname | ⟨rest, hrest⟩
  · exact h.head hname
  have hmarks : rest <+: qs.filterMap mark? := by
    rw [← hrest] at hconst
    exact (List.prefix_append_right_inj _).1 hconst
  rcases List.eq_nil_or_concat' rest with rfl | ⟨rest, c, rfl⟩
  · exact h.head ⟨[], by rw [← hrest, List.append_nil, List.append_nil]⟩
  have hlast : some c = some ' ' := by
    have hends := congrArg List.getLast? hrest
    rw [← List.append_assoc, List.getLast?_concat] at hends
    exact hends.trans (by decide)
  rcases eq_mark (hmarks.subset (List.mem_append_right _ (.head _))) with rfl | rfl <;> cases hlast

/-- A plain name ends in no mark. -/
theorem PlainName.no_marks (h : PlainName name) (qs : List Qualifier) {cs ms : List Char} (hname : name.toList = cs ++ ms)
    (hms : ms ⊆ qs.filterMap mark?) : ms = [] := by
  rcases List.eq_nil_or_concat' ms with rfl | ⟨ms, c, rfl⟩
  · rfl
  have hlast : c ∈ name.toList.getLast? := by rw [hname, ← List.append_assoc, List.getLast?_concat, Option.mem_some]
  obtain ⟨hreference, hpointer⟩ := h.last c hlast
  rcases eq_mark (hms (List.mem_append_right _ (.head _))) with hc | hc
  · exact absurd hc hreference
  · exact absurd hc hpointer

/-- Plain names with a qualified name in common are the same. -/
theorem PlainName.eq_of_qualifiedName {name' : String} (h : PlainName name) (h' : PlainName name')
    (heq : qualifiedName qs name = qualifiedName qs' name') : name = name' := by
  have hlists := congrArg String.toList heq
  rw [toList_qualifiedName, toList_qualifiedName, List.append_assoc, List.append_assoc] at hlists
  generalize qs.count .const = i at hlists
  generalize qs'.count .const = j at hlists
  induction i generalizing j with
  | zero =>
    cases j with
    | zero =>
      rw [List.replicate_zero, List.flatten_nil, List.nil_append, List.nil_append] at hlists
      rcases List.append_eq_append_iff.1 hlists with ⟨ms, hname, hms⟩ | ⟨ms, hname, hms⟩
      · have hnil := h'.no_marks qs hname (hms ▸ List.subset_append_left ..)
        exact String.toList_inj.1 (by rw [hname, hnil, List.append_nil])
      · have hnil := h.no_marks qs' hname (hms ▸ List.subset_append_left ..)
        exact String.toList_inj.1 (by rw [hname, hnil, List.append_nil])
    | succ j =>
      rw [List.replicate_succ, List.flatten_cons, List.append_assoc] at hlists
      exact absurd ⟨_, hlists.symm⟩ (h.not_const qs)
  | succ i ih =>
    rw [List.replicate_succ, List.flatten_cons, List.append_assoc] at hlists
    cases j with
    | zero => exact absurd ⟨_, hlists⟩ (h'.not_const qs')
    | succ j =>
      rw [List.replicate_succ, List.flatten_cons, List.append_assoc] at hlists
      exact ih j (List.append_cancel_left hlists)

/-- Unqualified types with plain names have no qualified name in common. -/
theorem Consistent.separate (hr : r.Consistent) (hplain : ∀ b ∈ r.types, Unqualified b → PlainName b.name) :
    r.Separate := by
  intro a ha b hb hua hub qs qs' hname
  exact hr.eq_of_name ha hb ((hplain a ha hua).eq_of_qualifiedName (hplain b hb hub) hname)

/-! ### When variants describe their types -/

/-- In every registry that operations lead to: a variant describes its type exactly if the type that is
registered under its name, if there is one, has the same bare type. What registration returns is unqualified
exactly if no variant is registered under the name. And all variants that are asked for from now on describe
their types exactly if no two unqualified types have a qualified name in common. As long as there are fewer types than
words of 32 bits, words can stand for the keys in all this. -/
theorem variants_describe_iff (r : TypeRegistry) (hr : empty.Leads r) :
    (∀ t, r.Knows t → ∀ q : Qualifier, q.Describes t (r.qualify q t).1 ↔
      ∀ a ∈ r.types, a.name = q.rename (r.name t) → a.identity.bareKey = t.bareKey) ∧
    (∀ name traits, let t := (r.register name traits).1
      (t.bareKey = t.key ∧ t.traits.unqualified = t.traits) ↔
        ∀ a ∈ r.types, a.name = name → a.identity.bareKey = a.identity.key) ∧
    ((∀ s, r.Qualifies s → ∀ t, s.Knows t → ∀ q : Qualifier, q.Describes t (s.qualify q t).1) ↔ r.Separate) ∧
    (∀ s, r.Leads s → s.types.length < UInt32.size → ∀ t, s.Knows t → t.FitsWords) :=
  ⟨fun _ ht q => (hr.describes_iff_bareKey ht q).trans (hr.bareKey_iff ht q),
    fun name traits => hr.register_iff name traits, hr.separate_iff,
    fun _ hs hfew _ ht => (Leads.spec (hr.trans hs) .empty).1.fitsWords hfew ht⟩

/-- Variants of the built-in types describe them. Once a type is registered as `const int`, the const variant of
`int` does not. -/
theorem variants_describe_builtin :
    let int := (builtinTypes.lookup "int").getD .undefined
    let taken := (builtinTypes.register "const int" .none).2
    empty.Leads builtinTypes ∧ empty.Leads taken ∧ builtinTypes.Knows int ∧
      (∀ s, builtinTypes.Qualifies s → ∀ t, s.Knows t → ∀ q : Qualifier, q.Describes t (s.qualify q t).1) ∧
      ¬ Qualifier.const.Describes int (taken.qualify .const int).1 := by
  intro int taken
  have hbuiltin := leads_builtinTypes
  have htaken : empty.Leads taken := hbuiltin.tail ⟨_, .register ..⟩
  have hint : builtinTypes.Knows int := ⟨_, List.mem_of_getElem? (i := 2) rfl, rfl⟩
  have hknows : taken.Knows int := ⟨_, List.mem_of_getElem? (i := 2) rfl, rfl⟩
  refine ⟨hbuiltin, htaken, hint, ?_, ?_⟩
  · have hplain : ∀ b ∈ builtinTypes.types, b.identity.bareKey = b.identity.key → PlainName b.name := by decide
    have hseparate := hbuiltin.sound.1.separate fun b hb hun => hplain b hb hun.own
    exact (variants_describe_iff builtinTypes hbuiltin).2.2.1.2 hseparate
  · intro hconst
    have hbare := ((variants_describe_iff taken htaken).1 int hknows .const).1 hconst _
      (List.mem_of_getElem? (i := 9) rfl) (by decide)
    exact absurd hbare (by decide)

end TypeRegistry

end ScriptTree

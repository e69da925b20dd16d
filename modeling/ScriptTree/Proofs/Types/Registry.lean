import Mathlib.Data.List.Nodup
import Mathlib.Logic.Relation
import ScriptTree.Value.Basic

/-!
The registry of types over whole runs of operations. A registry is consistent: its names are distinct,
the type at index `i` has the key `i + 1`, and the bare keys are keys. Both operations look a name up and,
only if it is new, append it with the next key; so they keep a registry consistent, and it is a prefix of
all that come after it. In a consistent registry a name and the identity behind it determine each other,
which settles what is returned for a name from then on, and makes variants of one name one identity.
-/

namespace ScriptTree.TypeRegistry

open Relation (ReflTransGen)

/-! ### Runs -/

/-- The identity is one of a registered type. -/
def Knows (r : TypeRegistry) (t : TypeIdentity) : Prop := ∃ u ∈ r.types, u.identity = t

/-- An operation on the registry: the identity it returns and the registry after it. Variants are made of
identities that the registry knows. -/
inductive Returns : TypeRegistry → TypeIdentity → TypeRegistry → Prop
  | register (r : TypeRegistry) (name : String) (traits : Traits) :
    Returns r (r.register name traits).1 (r.register name traits).2
  | qualify {r : TypeRegistry} {t : TypeIdentity} (ht : r.Knows t) (q : Qualifier) :
    Returns r (r.qualify q t).1 (r.qualify q t).2

/-- Operations lead from one registry to the other. -/
def Leads : TypeRegistry → TypeRegistry → Prop := ReflTransGen fun r s => ∃ t, Returns r t s

variable {r s : TypeRegistry} {t u x y : TypeIdentity} {q : Qualifier} {name : String}
  {fresh : TypeKey → TypeIdentity} {i : Nat} {a : RegisteredType}

/-! ### Consistent registries -/

/-- Names and keys are distinct, keys follow the order of registration, and bare keys are keys. -/
structure Consistent (r : TypeRegistry) : Prop where
  names : (r.types.map (·.name)).Nodup
  keys : ∀ i a, r.types[i]? = some a → a.identity.key = i + 1
  bare : ∀ a ∈ r.types, 0 < a.identity.bareKey ∧ a.identity.bareKey ≤ r.types.length

theorem Consistent.empty : Consistent empty := ⟨List.nodup_nil, nofun, nofun⟩

theorem lookup_eq_none : r.lookup name = none ↔ name ∉ r.types.map (·.name) := by
  simp [lookup]

theorem knows_of_lookup (h : r.lookup name = some t) : ∃ a ∈ r.types, a.name = name ∧ a.identity = t := by
  obtain ⟨a, ha, rfl⟩ := Option.map_eq_some_iff.1 h
  exact ⟨a, List.mem_of_find?_eq_some ha, by simpa using List.find?_some ha, rfl⟩

namespace Consistent

/-- A registered name is found. -/
theorem lookup (h : r.Consistent) (ha : a ∈ r.types) : r.lookup a.name = some a.identity := by
  obtain hnone | ⟨t, ht⟩ := Option.eq_none_or_eq_some (r.lookup a.name)
  · exact absurd (List.mem_map_of_mem ha) (lookup_eq_none.1 hnone)
  · obtain ⟨b, hb, hname, rfl⟩ := knows_of_lookup ht
    rw [ht, List.inj_on_of_nodup_map h.names hb ha hname]

/-- The name of the identity of a registered type is the type's. -/
theorem name_identity (h : r.Consistent) (ha : a ∈ r.types) : r.name a.identity = a.name := by
  obtain ⟨i, hi⟩ := List.mem_iff_getElem?.1 ha
  have hkey := h.keys i a hi
  cases hid : a.identity with
  | undefined =>
    rw [hid] at hkey
    cases hkey
  | defined exact bare traits =>
    rw [hid] at hkey
    obtain rfl : exact = i + 1 := hkey
    simp [name, nameOf, hi]

/-- An identity that is known has a type behind it. -/
theorem defined (h : r.Consistent) (ht : r.Knows t) : ∃ exact bare traits,
    t = .defined exact bare traits ∧ 0 < bare ∧ bare ≤ r.types.length := by
  obtain ⟨a, ha, rfl⟩ := ht
  have hbare := h.bare a ha
  cases hid : a.identity with
  | undefined =>
    rw [hid] at hbare
    cases hbare.1
  | defined exact bare traits =>
    rw [hid] at hbare
    exact ⟨exact, bare, traits, rfl, hbare⟩

/-- Every bare key is the key of a registered type. -/
theorem bare_registered (h : r.Consistent) (ha : a ∈ r.types) :
    ∃ b ∈ r.types, b.identity.key = a.identity.bareKey := by
  obtain ⟨hpos, hle⟩ := h.bare a ha
  have hlt : a.identity.bareKey - 1 < r.types.length := Nat.lt_of_lt_of_le (Nat.pred_lt (Nat.ne_of_gt hpos)) hle
  refine ⟨_, List.getElem_mem hlt, ?_⟩
  rw [h.keys _ _ (List.getElem?_eq_getElem hlt)]
  exact Nat.succ_pred (Nat.ne_of_gt hpos)

/-- As long as there are fewer types than words, words can stand for all keys. -/
theorem fitsWords (h : r.Consistent) (hfew : r.types.length < UInt32.size) (ht : r.Knows t) : t.FitsWords := by
  have hword (k : TypeKey) (hle : k ≤ r.types.length) : (TypeKey.word k).toNat = k :=
    UInt32.toNat_ofNat_of_lt' (Nat.lt_of_le_of_lt hle hfew)
  obtain ⟨a, ha, rfl⟩ := ht
  obtain ⟨i, hi⟩ := List.mem_iff_getElem?.1 ha
  have hlt : i < r.types.length := (List.getElem?_eq_some_iff.1 hi).1
  exact ⟨hword _ (h.keys i a hi ▸ hlt), hword _ (h.bare a ha).2⟩

end Consistent

/-! ### Single operations -/

/-- What an operation does: the name is known and nothing changes, or it is appended with the next key. -/
theorem intern_cases (r : TypeRegistry) (name : String) (fresh : TypeKey → TypeIdentity) :
    (∃ t, r.lookup name = some t ∧ r.intern name fresh = (t, r)) ∨
      (r.lookup name = none ∧
        r.intern name fresh = (fresh r.nextKey, ⟨r.types ++ [⟨name, fresh r.nextKey⟩]⟩)) := by
  unfold intern
  cases r.lookup name with
  | none => exact .inr ⟨rfl, rfl⟩
  | some t => exact .inl ⟨t, rfl, rfl⟩

theorem types_intern_appended : r.types <+: (r.intern name fresh).2.types := by
  obtain ⟨t, -, h⟩ | ⟨-, h⟩ := r.intern_cases name fresh
  · exact ⟨[], by rw [h, List.append_nil]⟩
  · exact ⟨[_], by rw [h]⟩

/-- The name is registered afterwards, with the identity that is returned. -/
theorem mem_types_intern : ⟨name, (r.intern name fresh).1⟩ ∈ (r.intern name fresh).2.types := by
  obtain ⟨t, hlookup, h⟩ | ⟨-, h⟩ := r.intern_cases name fresh
  · obtain ⟨a, ha, rfl, rfl⟩ := knows_of_lookup hlookup
    rw [h]
    exact ha
  · rw [h]
    exact List.mem_append_right _ (.head _)

/-- A consistent registry stays so if a new identity has the next key, and a key as its bare key. -/
theorem Consistent.intern (h : r.Consistent) (hkey : (fresh r.nextKey).key = r.nextKey)
    (hbare : 0 < (fresh r.nextKey).bareKey ∧ (fresh r.nextKey).bareKey ≤ r.nextKey) :
    (r.intern name fresh).2.Consistent := by
  obtain ⟨t, -, he⟩ | ⟨hnone, he⟩ := r.intern_cases name fresh
  · rw [he]
    exact h
  rw [he]
  refine ⟨?_, fun i a ha => ?_, fun a ha => ?_⟩
  · rw [List.map_append, List.map_singleton]
    exact List.nodup_append.2 ⟨h.names, List.nodup_singleton _, by simpa using lookup_eq_none.1 hnone⟩
  · rw [List.getElem?_append] at ha
    split at ha
    · exact h.keys i a ha
    · rename_i hi
      obtain ⟨hlt, rfl⟩ := List.getElem?_eq_some_iff.1 ha
      rw [List.length_singleton] at hlt
      rw [List.getElem_singleton, hkey, nextKey]
      omega
  · rw [List.length_append, List.length_singleton]
    rcases List.mem_append.1 ha with ha | ha
    · exact ⟨(h.bare a ha).1, Nat.le_succ_of_le (h.bare a ha).2⟩
    · obtain rfl := List.mem_singleton.1 ha
      exact hbare

/-- The variant of a type that is known is registered under the qualified name. -/
theorem mem_types_qualify (h : r.Consistent) (ht : r.Knows t) (q : Qualifier) :
    ⟨q.rename (r.name t), (r.qualify q t).1⟩ ∈ (r.qualify q t).2.types := by
  obtain ⟨exact, bare, traits, rfl, -⟩ := h.defined ht
  exact mem_types_intern

/-- An operation keeps the registry consistent, appends to it, and what it returns is known then. -/
theorem Returns.spec (hs : Returns r t s) (h : r.Consistent) : s.Consistent ∧ r.types <+: s.types ∧ s.Knows t := by
  cases hs with
  | register name traits =>
    have hnext : 0 < r.nextKey ∧ r.nextKey ≤ r.nextKey := ⟨Nat.succ_pos _, Nat.le_refl _⟩
    exact ⟨h.intern rfl hnext, types_intern_appended, _, mem_types_intern, rfl⟩
  | qualify hu q =>
    obtain ⟨exact, bare, traits, rfl, hpos, hle⟩ := h.defined hu
    exact ⟨h.intern rfl ⟨hpos, Nat.le_succ_of_le hle⟩, types_intern_appended, _, mem_types_intern, rfl⟩

/-! ### Runs of operations -/

/-- By induction on the run, from its end. -/
theorem Leads.spec (hs : r.Leads s) (h : r.Consistent) : s.Consistent ∧ r.types <+: s.types := by
  induction hs with
  | refl => exact ⟨h, List.prefix_rfl⟩
  | tail _ hstep ih =>
    obtain ⟨t, hstep⟩ := hstep
    obtain ⟨hcons, happended, -⟩ := hstep.spec ih.1
    exact ⟨hcons, ih.2.trans happended⟩

theorem Knows.later (h : r.Knows t) (hrs : r.types <+: s.types) : s.Knows t := by
  obtain ⟨a, ha, rfl⟩ := h
  exact ⟨a, hrs.subset ha, rfl⟩

/-- The keys in use keep their names. -/
theorem nameOf_later {k : TypeKey} (hrs : r.types <+: s.types) (hpos : 0 < k) (hle : k ≤ r.types.length) :
    s.nameOf k = r.nameOf k := by
  match k with
  | k + 1 =>
    have hlt : k < r.types.length := hle
    rw [nameOf, nameOf, List.getElem?_eq_getElem hlt, List.getElem?_eq_getElem (Nat.lt_of_lt_of_le hlt hrs.length_le),
      hrs.getElem hlt]

/-- What is known keeps its names, and is what its name stands for. -/
theorem Knows.keeps (h : r.Knows t) (hr : r.Consistent) (hs : s.Consistent) (hrs : r.types <+: s.types) :
    s.name t = r.name t ∧ s.bareName t = r.bareName t ∧ s.lookup (r.name t) = some t := by
  obtain ⟨exact, bare, traits, ht, hpos, hle⟩ := hr.defined h
  refine ⟨?_, ?_, ?_⟩
  · obtain ⟨a, ha, rfl⟩ := h
    rw [hr.name_identity ha, hs.name_identity (hrs.subset ha)]
  · rw [ht]
    exact nameOf_later hrs hpos hle
  · obtain ⟨a, ha, rfl⟩ := h
    rw [hr.name_identity ha, hs.lookup (hrs.subset ha)]

theorem register_of_lookup (h : r.lookup name = some t) (traits : Traits) : r.register name traits = (t, r) := by
  unfold register intern
  rw [h]

/-! ### Variants -/

/-- At some time before, `x` was returned as a variant of a type that was known. -/
def Variant (r : TypeRegistry) (q : Qualifier) (t x : TypeIdentity) : Prop :=
  ∃ a, empty.Leads a ∧ a.Knows t ∧ (a.qualify q t).1 = x ∧ (a.qualify q t).2.Leads r

/-- A variant is what is registered under the qualified name. -/
theorem Variant.registered (h : r.Variant q t x) : r.Consistent ∧ ⟨q.rename (r.name t), x⟩ ∈ r.types := by
  obtain ⟨a, hleads, ht, rfl, hafter⟩ := h
  obtain ⟨ha, -⟩ := hleads.spec .empty
  obtain ⟨hqualify, happended, -⟩ := (Returns.qualify ht q).spec ha
  obtain ⟨hr, hrest⟩ := hafter.spec hqualify
  have hname : r.name t = a.name t := (ht.keeps ha hr (happended.trans hrest)).1
  rw [hname]
  exact ⟨hr, hrest.subset (mem_types_qualify ha ht q)⟩

theorem Variant.lookup (h : r.Variant q t x) : r.lookup (q.rename (r.name t)) = some x := by
  obtain ⟨hr, hmem⟩ := h.registered
  exact hr.lookup hmem

theorem Variant.name_eq (h : r.Variant q t x) : r.name x = q.rename (r.name t) := by
  obtain ⟨hr, hmem⟩ := h.registered
  exact hr.name_identity hmem

/-- A reference or pointer to a const type has the name of the const reference or pointer. -/
theorem rename_const (hq : q ≠ .const) (name : String) :
    q.rename (Qualifier.const.rename name) = Qualifier.const.rename (q.rename name) := by
  cases q with
  | const => exact absurd rfl hq
  | reference | pointer => exact String.append_assoc ..

/-- Four variants that are made in turn: of a type, of what was returned, of the type again, and of what was
returned for that. -/
theorem variants_in_turn (hleads : empty.Leads r) (ht : r.Knows t) (q q' : Qualifier) :
    let x := r.qualify q t
    let y := x.2.qualify q' x.1
    let u := y.2.qualify q' t
    let v := u.2.qualify q u.1
    empty.Leads v.2 ∧ v.2.Variant q t x.1 ∧ v.2.Variant q' x.1 y.1 ∧ v.2.Variant q' t u.1 ∧ v.2.Variant q u.1 v.1 := by
  intro x y u v
  have hx : r.Returns x.1 x.2 := .qualify ht q
  obtain ⟨hxc, hxp, hxk⟩ := hx.spec (hleads.spec .empty).1
  have hy : x.2.Returns y.1 y.2 := .qualify hxk q'
  obtain ⟨hyc, hyp, -⟩ := hy.spec hxc
  have hty : y.2.Knows t := ht.later (hxp.trans hyp)
  have hu : y.2.Returns u.1 u.2 := .qualify hty q'
  obtain ⟨-, -, huk⟩ := hu.spec hyc
  have hv : u.2.Returns v.1 v.2 := .qualify huk q
  have hleadsx : empty.Leads x.2 := hleads.tail ⟨_, hx⟩
  have hleadsy : empty.Leads y.2 := hleadsx.tail ⟨_, hy⟩
  have hleadsu : empty.Leads u.2 := hleadsy.tail ⟨_, hu⟩
  have hafteru : u.2.Leads v.2 := .single ⟨_, hv⟩
  have haftery : y.2.Leads v.2 := .head ⟨_, hu⟩ hafteru
  have hafterx : x.2.Leads v.2 := .head ⟨_, hy⟩ haftery
  exact ⟨hleadsu.tail ⟨_, hv⟩, ⟨r, hleads, ht, rfl, hafterx⟩, ⟨x.2, hleadsx, hxk, rfl, haftery⟩,
    ⟨y.2, hleadsy, hty, rfl, hafteru⟩, ⟨u.2, hleadsu, huk, rfl, .refl⟩⟩

/-! ### The registry over any run -/

theorem leads_registers (types : List (String × Traits)) (r : TypeRegistry) :
    r.Leads (types.foldl (fun r (name, traits) => (r.register name traits).2) r) := by
  induction types generalizing r with
  | nil => exact .refl
  | cons type types ih => exact .head ⟨_, .register r type.1 type.2⟩ (ih _)

theorem leads_builtinTypes : empty.Leads builtinTypes :=
  .tail (leads_registers _ _) ⟨_, .qualify ⟨_, List.mem_of_getElem? (i := 2) rfl, rfl⟩ .reference⟩

/-- Whatever operations are made, starting with no type or with the built-in ones: names are registered once,
under the key that tells their place, and are found there, and every bare key is the key of a type. An identity
that was returned keeps its names, and is what is found under its name and returned when it is registered again,
with whatever traits. A const reference is the reference to a const, and so with pointers, in whatever order the
four are made, and whatever is done in between. All this can be told from words of 32 bits in place of the keys as long
as there are fewer types than words. -/
theorem registry_sound : empty.Leads builtinTypes ∧ ∀ r : TypeRegistry, empty.Leads r →
    (r.types.map (·.name)).Nodup ∧
    (∀ i a, r.types[i]? = some a → r.lookup a.name = some a.identity ∧ a.identity.key = i + 1) ∧
    (∀ a ∈ r.types, ∃ b ∈ r.types, b.identity.key = a.identity.bareKey) ∧
    (∀ t s s', r.Returns t s → s.Leads s' → s'.name t = s.name t ∧ s'.bareName t = s.bareName t ∧
      s'.lookup (s.name t) = some t ∧ ∀ traits, s'.register (s.name t) traits = (t, s')) ∧
    (∀ q, q ≠ .const → ∀ t x y u v, r.Variant q t x → r.Variant .const x y → r.Variant .const t u → r.Variant q u v →
      y = v) ∧
    (r.types.length < UInt32.size → ∀ t, r.Knows t → t.FitsWords) := by
  refine ⟨leads_builtinTypes, fun r hleads => ?_⟩
  have hr : r.Consistent := (hleads.spec .empty).1
  refine ⟨hr.names, fun i a ha => ⟨hr.lookup (List.mem_of_getElem? ha), hr.keys i a ha⟩,
    fun a ha => hr.bare_registered ha, fun t s s' hreturns hlater => ?_, fun q hq t x y u v hx hy hu hv => ?_,
    fun hfew t ht => hr.fitsWords hfew ht⟩
  · obtain ⟨hs, -, ht⟩ := hreturns.spec hr
    obtain ⟨hs', happended⟩ := hlater.spec hs
    obtain ⟨hname, hbare, hlookup⟩ := ht.keeps hs hs' happended
    exact ⟨hname, hbare, hlookup, register_of_lookup hlookup⟩
  · have hy' := hy.lookup
    rw [hx.name_eq, ← rename_const hq, ← hu.name_eq, hv.lookup] at hy'
    exact (Option.some.inj hy').symm

/-- The const reference to an int: the reference is there already, the const int is not. -/
theorem registry_sound_int :
    let int := (builtinTypes.lookup "int").getD .undefined
    let x := builtinTypes.qualify .reference int
    let y := x.2.qualify .const x.1
    let u := y.2.qualify .const int
    let v := u.2.qualify .reference u.1
    empty.Leads v.2 ∧ (v.2.types.map (·.name)).Nodup ∧ y.1 = v.1 := by
  intro int x y u v
  obtain ⟨hbuiltin, hsound⟩ := registry_sound
  have hint : builtinTypes.Knows int := ⟨_, List.mem_of_getElem? (i := 2) rfl, rfl⟩
  obtain ⟨hleads, hx, hy, hu, hv⟩ := variants_in_turn hbuiltin hint .reference .const
  obtain ⟨hnames, -, -, -, hvariants, -⟩ := hsound v.2 hleads
  exact ⟨hleads, hnames, hvariants .reference nofun int x.1 y.1 u.1 v.1 hx hy hu hv⟩

end ScriptTree.TypeRegistry

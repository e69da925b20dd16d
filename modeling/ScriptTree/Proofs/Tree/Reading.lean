import ScriptTree.Proofs.Tree.Decoded

/-!
Which trees are read, and what is wrong with the others. A tree is looked at in the order of its walk, parents
before children and nothing below a constant. It is read if there is nothing wrong with any place that is looked
at, and what is read is what stands there; otherwise the first place with something wrong decides what is
reported. What is wrong with a place can be told from the place alone.
-/

namespace ScriptTree

/-! ### Data -/

/-- Data that are taken for a whole number of so many bits; `null` is taken for zero. -/
inductive Json.SpellsInt (bits : Nat) : Json → Int → Prop
  | null : SpellsInt bits .null 0
  | number {literal : String} {n : Int} (hn : Json.wholeNumber? literal = some n) (hfits : FitsBits bits n) :
    SpellsInt bits (.num literal) n

/-- Data that are taken for a floating point number: a number in range, or a text that spells a value which is
none; `null` is taken for zero. -/
inductive Json.SpellsFloating {f : FloatFormat} : Json → Floating f → Prop
  | null : SpellsFloating .null (.zero false)
  | number {literal : String} {s : Bool} {units : Nat} {h : f.Representable units}
    (hx : Floating.parse? f literal = some (.finite s units h)) : SpellsFloating (.num literal) (.finite s units h)
  | word {w : String} {x : Floating f} (hw : Floating.ofWord? w = some x) (hx : x = .nan ∨ ∃ s, x = .infinite s) :
    SpellsFloating (.str w) x

theorem Json.intoInt_eq_some_iff {bits : Nat} {v : Json} {n : Int} :
    intoInt bits 0 v = some n ↔ v.SpellsInt bits n := by
  constructor
  · intro h
    unfold intoInt at h
    split at h
    · cases h
      exact .null
    · split at h
      · rename_i hn
        dsimp only at h
        split at h
        · cases h
          exact .number hn ‹_›
        · cases h
      · cases h
    · cases h
  · rintro (_ | ⟨hn, hfits⟩)
    · rfl
    · simp only [intoInt, hn]
      exact if_pos hfits

/-- The words of the floating point types, in small letters, and what they spell. -/
def Floating.words (f : FloatFormat) : List (String × Floating f) :=
  [("nan", .nan), ("inf", .infinite false), ("infinity", .infinite false), ("+inf", .infinite false),
    ("+infinity", .infinite false), ("-inf", .infinite true), ("-infinity", .infinite true)]

theorem Floating.ite_infinity_eq_some_iff {f : FloatFormat} {cs : List Char} {x y : Floating f} :
    (if cs == "inf".toList || cs == "infinity".toList then some y else none) = some x ↔
      (cs = "inf".toList ∨ cs = "infinity".toList) ∧ y = x := by
  simp only [Option.ite_none_right_eq_some, Bool.or_eq_true, beq_iff_eq, Option.some.injEq]

/-- The words are recognised in letters of either case, and no other text is. -/
theorem Floating.ofWord?_eq_some_iff {f : FloatFormat} {w : String} {x : Floating f} : ofWord? w = some x ↔
    ∃ word, (word, x) ∈ words f ∧ w.toList.map Char.toLower = word.toList := by
  unfold ofWord?
  dsimp only
  generalize w.toList.map Char.toLower = cs
  constructor
  · intro h
    split at h
    · obtain ⟨rfl | rfl, rfl⟩ := ite_infinity_eq_some_iff.1 h
      · exact ⟨"-inf", by simp [words], rfl⟩
      · exact ⟨"-infinity", by simp [words], rfl⟩
    · obtain ⟨rfl | rfl, rfl⟩ := ite_infinity_eq_some_iff.1 h
      · exact ⟨"+inf", by simp [words], rfl⟩
      · exact ⟨"+infinity", by simp [words], rfl⟩
    · split at h
      · rename_i hw
        cases h
        exact ⟨"nan", by simp [words], eq_of_beq hw⟩
      · obtain ⟨rfl | rfl, rfl⟩ := ite_infinity_eq_some_iff.1 h
        · exact ⟨"inf", by simp [words], rfl⟩
        · exact ⟨"infinity", by simp [words], rfl⟩
  · rintro ⟨word, hmem, rfl⟩
    simp only [words, List.mem_cons, List.not_mem_nil, or_false, Prod.mk.injEq] at hmem
    rcases hmem with ⟨rfl, rfl⟩ | ⟨rfl, rfl⟩ | ⟨rfl, rfl⟩ | ⟨rfl, rfl⟩ | ⟨rfl, rfl⟩ | ⟨rfl, rfl⟩ | ⟨rfl, rfl⟩ <;>
      rfl

/-- A word is NaN or an infinity. -/
theorem Floating.of_ofWord? {f : FloatFormat} {w : String} {x : Floating f} (h : ofWord? w = some x) :
    x = .nan ∨ ∃ s, x = .infinite s := by
  have hwords : ∀ p ∈ words f, p.2 = .nan ∨ ∃ s, p.2 = .infinite s := by simp [words]
  obtain ⟨word, hmem, -⟩ := ofWord?_eq_some_iff.1 h
  exact hwords _ hmem

theorem floatingOf_eq_ok_iff {f : FloatFormat} {type : String} {v : Json} {x : Floating f} :
    floatingOf f type v = .ok x ↔ v.SpellsFloating x := by
  constructor
  · intro h
    unfold floatingOf at h
    split at h
    · split at h
      · rename_i hw
        cases h
        exact .word hw (Floating.of_ofWord? hw)
      · cases h
    · split at h
      · rename_i hx
        cases h
        unfold Json.intoFloating at hx
        split at hx
        · cases hx
          exact .null
        · split at hx
          · rename_i hparse
            cases hx
            exact .number hparse
          · cases hx
        · cases hx
      · cases h
  · rintro (_ | hx | ⟨hw, -⟩)
    · rfl
    · simp only [floatingOf, Json.intoFloating, hx]
    · simp only [floatingOf, hw]

theorem floatingOf_eq_error {f : FloatFormat} {type : String} {v : Json} {e : TreeDefect}
    (h : floatingOf f type v = .error e) :
    (∃ w, v = .str w ∧ e = .notInfinite type w) ∨ (∀ w, v ≠ .str w) ∧ e = .badConstant type := by
  unfold floatingOf at h
  split at h
  · split at h
    · cases h
    · exact .inl ⟨_, rfl, (Except.error.inj h).symm⟩
  · rename_i hno
    split at h
    · cases h
    · exact .inr ⟨fun w hw => hno w hw, (Except.error.inj h).symm⟩

/-! ### Values -/

theorem Except.of_required_eq_ok {ε α : Type} {x : Option α} {e : ε} {a : α}
    (h : (match x with | some a => Except.ok a | none => Except.error e) = .ok a) : x = some a := by
  cases x with
  | none => cases h
  | some a' => exact congrArg some (Except.ok.inj h)

theorem Except.of_required_eq_error {ε α : Type} {x : Option α} {e e' : ε}
    (h : (match x with | some a => Except.ok a | none => Except.error e) = .error e') : x = none ∧ e' = e := by
  cases x with
  | none => exact ⟨rfl, (Except.error.inj h).symm⟩
  | some => cases h

theorem Except.of_map_eq_error {ε α β : Type} {x : Except ε α} {f : α → β} {e : ε} (h : f <$> x = .error e) :
    x = .error e := by
  cases x with
  | error => exact congrArg Except.error (Except.error.inj h)
  | ok => cases h

namespace OuterValue

/-- The types of constants. -/
def types : List String := ["void", "bool", "int", "long", "float", "double", "string"]

/-- The value that a type and data spell. -/
inductive Spells : OuterValue → Datum → Prop
  | void {data : Option Json} : Spells ⟨"void", data⟩ .void
  | bool {b : Bool} : Spells ⟨"bool", some (.bool b)⟩ (.bool b)
  | noBool : Spells ⟨"bool", some .null⟩ (.bool false)
  | int {data : Json} {n : Int} (h : data.SpellsInt 32 n) : Spells ⟨"int", some data⟩ (.number (.int (.ofInt n)))
  | long {data : Json} {n : Int} (h : data.SpellsInt 64 n) : Spells ⟨"long", some data⟩ (.number (.long (.ofInt n)))
  | float {data : Json} {x : Floating .single} (h : data.SpellsFloating x) :
    Spells ⟨"float", some data⟩ (.number (.float x))
  | double {data : Json} {x : Floating .double} (h : data.SpellsFloating x) :
    Spells ⟨"double", some data⟩ (.number (.double x))
  | string {s : String} : Spells ⟨"string", some (.str s)⟩ (.string s)
  | noString : Spells ⟨"string", some .null⟩ (.string "")

/-- What is wrong with a type and data: the type, a text that is no word of a floating point type, or any other
data that the type does not take. -/
inductive Flawed : OuterValue → TreeDefect → Prop
  | type {type : String} {data : Option Json} (htype : type ∉ types) : Flawed ⟨type, data⟩ (.unsupportedType type)
  | word {type w : String} (htype : type = "float" ∨ type = "double") (hno : ∀ d, ¬ Spells ⟨type, some (.str w)⟩ d) :
    Flawed ⟨type, some (.str w)⟩ (.notInfinite type w)
  | data {type : String} {data : Option Json} (htype : type ∈ types) (hno : ∀ d, ¬ Spells ⟨type, data⟩ d)
    (hword : ∀ w, data = some (.str w) → type ≠ "float" ∧ type ≠ "double") : Flawed ⟨type, data⟩ (.badConstant type)

variable {v : OuterValue} {d : Datum} {e e' : TreeDefect}

theorem datum_of_spells (h : v.Spells d) : v.datum = .ok d := by
  cases h with
  | void => rfl
  | bool => rfl
  | noBool => rfl
  | int h => simp only [datum, Option.bind_some, Json.intoInt_eq_some_iff.2 h]; rfl
  | long h => simp only [datum, Option.bind_some, Json.intoInt_eq_some_iff.2 h]; rfl
  | float h => simp only [datum, Option.bind_some, bind, Except.bind, floatingOf_eq_ok_iff.2 h]; rfl
  | double h => simp only [datum, Option.bind_some, bind, Except.bind, floatingOf_eq_ok_iff.2 h]; rfl
  | string => rfl
  | noString => rfl

/-- Only what data spell is read from them. -/
theorem spells_of_datum (h : v.datum = .ok d) : v.Spells d := by
  obtain ⟨type, data⟩ := v
  unfold datum at h
  dsimp only at h
  split at h
  · cases h
    exact .void
  · obtain ⟨b, hb, rfl⟩ := Except.of_map_eq_ok h
    obtain ⟨j, rfl, hj⟩ := Option.bind_eq_some_iff.1 (Except.of_required_eq_ok hb)
    cases j <;> cases hj
    · exact .noBool
    · exact .bool
  · obtain ⟨n, hn, rfl⟩ := Except.of_map_eq_ok h
    obtain ⟨j, rfl, hj⟩ := Option.bind_eq_some_iff.1 (Except.of_required_eq_ok hn)
    exact .int (Json.intoInt_eq_some_iff.1 hj)
  · obtain ⟨n, hn, rfl⟩ := Except.of_map_eq_ok h
    obtain ⟨j, rfl, hj⟩ := Option.bind_eq_some_iff.1 (Except.of_required_eq_ok hn)
    exact .long (Json.intoInt_eq_some_iff.1 hj)
  · obtain ⟨j, hj, hrest⟩ := Except.of_bind_eq_ok h
    obtain ⟨x, hx, hd⟩ := Except.of_bind_eq_ok hrest
    obtain ⟨_, rfl, hsome⟩ := Option.bind_eq_some_iff.1 (Except.of_required_eq_ok hj)
    cases hsome
    cases hd
    exact .float (floatingOf_eq_ok_iff.1 hx)
  · obtain ⟨j, hj, hrest⟩ := Except.of_bind_eq_ok h
    obtain ⟨x, hx, hd⟩ := Except.of_bind_eq_ok hrest
    obtain ⟨_, rfl, hsome⟩ := Option.bind_eq_some_iff.1 (Except.of_required_eq_ok hj)
    cases hsome
    cases hd
    exact .double (floatingOf_eq_ok_iff.1 hx)
  · obtain ⟨s, hs, rfl⟩ := Except.of_map_eq_ok h
    obtain ⟨j, rfl, hj⟩ := Option.bind_eq_some_iff.1 (Except.of_required_eq_ok hs)
    cases j <;> cases hj
    · exact .noString
    · exact .string
  · cases h

/-- Only what is wrong with data is said of them. -/
theorem flawed_of_datum (h : v.datum = .error e) : v.Flawed e := by
  have hno (d : Datum) : ¬ v.Spells d := fun hd => by rw [datum_of_spells hd] at h; cases h
  obtain ⟨type, data⟩ := v
  have hfloating {f : FloatFormat} (make : Floating f → Datum) (htype : type = "float" ∨ type = "double")
      (h : (data.elim (.error (.badConstant type)) fun j => make <$> floatingOf f type j) = .error e) :
      Flawed ⟨type, data⟩ e := by
    have hknown : type ∈ types := by rcases htype with rfl | rfl <;> decide
    cases data with
    | none =>
      cases h
      exact .data hknown hno nofun
    | some j =>
      rcases floatingOf_eq_error (Except.of_map_eq_error h) with ⟨w, rfl, rfl⟩ | ⟨hother, rfl⟩
      · exact .word htype hno
      · exact .data hknown hno fun w hw => absurd (Option.some.inj hw) (hother w)
  unfold datum at h
  dsimp only at h
  split at h
  · cases h
  · obtain ⟨-, rfl⟩ := Except.of_required_eq_error (Except.of_map_eq_error h)
    exact .data (by decide) hno fun _ _ => by decide
  · obtain ⟨-, rfl⟩ := Except.of_required_eq_error (Except.of_map_eq_error h)
    exact .data (by decide) hno fun _ _ => by decide
  · obtain ⟨-, rfl⟩ := Except.of_required_eq_error (Except.of_map_eq_error h)
    exact .data (by decide) hno fun _ _ => by decide
  · exact hfloating (fun x => .number (.float x)) (.inl rfl) (by cases data <;> exact h)
  · exact hfloating (fun x => .number (.double x)) (.inr rfl) (by cases data <;> exact h)
  · obtain ⟨-, rfl⟩ := Except.of_required_eq_error (Except.of_map_eq_error h)
    exact .data (by decide) hno fun _ _ => by decide
  · rename_i htype
    cases h
    refine .type fun hmem => ?_
    simp_all [types]

theorem Flawed.unique (h : v.Flawed e) (h' : v.Flawed e') : e = e' := by
  cases h with
  | type htype =>
    cases h' with
    | type => rfl
    | word hword => rcases hword with rfl | rfl <;> exact absurd (by decide) htype
    | data hknown => exact absurd hknown htype
  | word hword =>
    cases h' with
    | type htype => rcases hword with rfl | rfl <;> exact absurd (by decide) htype
    | word => rfl
    | data _ _ hother => exact (hword.elim (hother _ rfl).1 (hother _ rfl).2).elim
  | data hknown _ hother =>
    cases h' with
    | type htype => exact absurd hknown htype
    | word hword => exact (hword.elim (hother _ rfl).1 (hother _ rfl).2).elim
    | data => rfl

theorem Flawed.not_spells (h : v.Flawed e) : ¬ v.Spells d := by
  intro hd
  cases h with
  | type htype => cases hd <;> exact htype (by decide)
  | word _ hno => exact hno d hd
  | data _ hno => exact hno d hd

end OuterValue

/-! ### Places -/

theorem Kind.name_of_ofName? {name : String} {k : Kind} (h : Kind.ofName? name = some k) : k.name = name := by
  simpa using List.find?_some h

namespace OuterNode

/-- Builds the tree in a place, or reports the first flaw; in an empty place it is that there is no tree. -/
def buildPlace : Option OuterNode → Except TreeDefect Node
  | none => .error .nullNode
  | some o => o.build

mutual

/-- The places that are looked at in a tree, in order: its own, and those below it unless it is a constant. -/
def visibleBelow : OuterNode → List (Option OuterNode)
  | .mk kind text span value children hidden =>
    some (.mk kind text span value children hidden) ::
      if kind = Kind.constant.name then [] else visibleAll children

/-- The places that are looked at from several places. -/
def visibleAll : List (Option OuterNode) → List (Option OuterNode)
  | [] => []
  | none :: ps => none :: visibleAll ps
  | some o :: ps => visibleBelow o ++ visibleAll ps

end

/-- The places that are looked at from a place. -/
def visible : Option OuterNode → List (Option OuterNode)
  | none => [none]
  | some o => o.visibleBelow

/-- There is nothing wrong with the place itself: it is a construct, or a constant with a value. -/
inductive Sound : Option OuterNode → Prop
  | construct {kind text : String} {span : Option Span} {value : Option OuterValue}
    {children hidden : List (Option OuterNode)} {form : Form} (hkind : kind = (Kind.form form).name) :
    Sound (some (.mk kind text span value children hidden))
  | constant {kind text : String} {span : Option Span} {v : OuterValue} {children hidden : List (Option OuterNode)}
    {d : Datum} (hkind : kind = Kind.constant.name) (hd : v.Spells d) :
    Sound (some (.mk kind text span (some v) children hidden))

/-- What is wrong with the place itself. -/
inductive Flawed : Option OuterNode → TreeDefect → Prop
  | null : Flawed none .nullNode
  | kind {kind text : String} {span : Option Span} {value : Option OuterValue}
    {children hidden : List (Option OuterNode)} (hkind : ∀ k : Kind, k ≠ .specialized → kind ≠ k.name) :
    Flawed (some (.mk kind text span value children hidden)) (.unknownKind kind)
  | missing {kind text : String} {span : Option Span} {children hidden : List (Option OuterNode)}
    (hkind : kind = Kind.constant.name) :
    Flawed (some (.mk kind text span none children hidden)) (.missingValue text (span.getD .unknown))
  | value {kind text : String} {span : Option Span} {v : OuterValue} {children hidden : List (Option OuterNode)}
    {e : TreeDefect} (hkind : kind = Kind.constant.name) (he : v.Flawed e) :
    Flawed (some (.mk kind text span (some v) children hidden)) e

/-- The flaw of the first place that has one. -/
inductive FirstFlaw : List (Option OuterNode) → TreeDefect → Prop
  | here {p : Option OuterNode} {ps : List (Option OuterNode)} {e : TreeDefect} (h : Flawed p e) : FirstFlaw (p :: ps) e
  | later {p : Option OuterNode} {ps : List (Option OuterNode)} {e : TreeDefect} (hp : Sound p) (h : FirstFlaw ps e) :
    FirstFlaw (p :: ps) e

mutual

/-- A tree is what stands in a place: each node has the kind, the text and the span of its place, and the trees of
the places below it as its children, or the value of its place and no children. -/
inductive Mirrors : Option OuterNode → Node → Prop
  | construct {kind text : String} {span : Option Span} {value : Option OuterValue}
    {children hidden : List (Option OuterNode)} {form : Form} {ns : List Node} (hkind : kind = (Kind.form form).name)
    (hchildren : MirrorsAll children ns) :
    Mirrors (some (.mk kind text span value children hidden)) (.construct form text (span.getD .unknown) ns)
  | constant {kind text : String} {span : Option Span} {v : OuterValue} {children hidden : List (Option OuterNode)}
    {d : Datum} (hkind : kind = Kind.constant.name) (hd : v.Spells d) :
    Mirrors (some (.mk kind text span (some v) children hidden)) (.constant (.plain d) text (span.getD .unknown) [])

/-- Trees are what stands in places, one by one. -/
inductive MirrorsAll : List (Option OuterNode) → List Node → Prop
  | nil : MirrorsAll [] []
  | cons {p : Option OuterNode} {ps : List (Option OuterNode)} {n : Node} {ns : List Node} (hp : Mirrors p n)
    (hps : MirrorsAll ps ns) : MirrorsAll (p :: ps) (n :: ns)

end

variable {p : Option OuterNode} {ps : List (Option OuterNode)} {n : Node} {e e' : TreeDefect}

theorem kind_ne_of_form {kind : String} {form : Form} (h : kind = (Kind.form form).name) :
    kind ≠ Kind.constant.name := by
  subst h
  cases form <;> decide

theorem Flawed.unique (h : Flawed p e) (h' : Flawed p e') : e = e' := by
  cases h with
  | null =>
    cases h'
    rfl
  | kind hkind =>
    cases h' with
    | kind => rfl
    | missing hconstant => exact absurd hconstant (hkind .constant Kind.noConfusion)
    | value hconstant => exact absurd hconstant (hkind .constant Kind.noConfusion)
  | missing hconstant =>
    cases h' with
    | kind hkind => exact absurd hconstant (hkind .constant Kind.noConfusion)
    | missing => rfl
  | value hconstant he =>
    cases h' with
    | kind hkind => exact absurd hconstant (hkind .constant Kind.noConfusion)
    | value _ he' => exact he.unique he'

theorem Flawed.not_sound (h : Flawed p e) : ¬ Sound p := by
  rintro (⟨hform⟩ | ⟨hconstant, hd⟩)
  · cases h with
    | kind hkind => exact hkind _ Kind.noConfusion hform
    | missing hconstant => exact kind_ne_of_form hform hconstant
    | value hconstant => exact kind_ne_of_form hform hconstant
  · cases h with
    | kind hkind => exact hkind _ Kind.noConfusion hconstant
    | value _ he => exact he.not_spells hd

theorem FirstFlaw.unique (h : FirstFlaw ps e) (h' : FirstFlaw ps e') : e = e' := by
  induction h with
  | here hp =>
    cases h' with
    | here hp' => exact hp.unique hp'
    | later hsound => exact absurd hsound hp.not_sound
  | later hsound _ ih =>
    cases h' with
    | here hp' => exact absurd hsound hp'.not_sound
    | later _ h' => exact ih h'

theorem FirstFlaw.not_sound (h : FirstFlaw ps e) : ¬ ∀ p ∈ ps, Sound p := by
  induction h with
  | here hp => exact fun hall => hp.not_sound (hall _ (.head _))
  | later _ _ ih => exact fun hall => ih fun p hp => hall p (.tail _ hp)

theorem FirstFlaw.append_left (h : FirstFlaw ps e) (qs : List (Option OuterNode)) : FirstFlaw (ps ++ qs) e := by
  induction h with
  | here hp => exact .here hp
  | later hsound _ ih => exact .later hsound ih

theorem FirstFlaw.append_right {qs : List (Option OuterNode)} (hps : ∀ p ∈ ps, Sound p) (h : FirstFlaw qs e) :
    FirstFlaw (ps ++ qs) e := by
  induction ps with
  | nil => exact h
  | cons p ps ih => exact .later (hps p (.head _)) (ih fun q hq => hps q (.tail _ hq))

/-! ### Building -/

variable {kind text : String} {span : Option Span} {value : Option OuterValue}
  {children hidden : List (Option OuterNode)}

theorem buildAll_cons (p : Option OuterNode) (ps : List (Option OuterNode)) :
    buildAll (p :: ps) = (do let n ← buildPlace p; let ns ← buildAll ps; return n :: ns) := by
  cases p <;> rfl

theorem visibleAll_cons (p : Option OuterNode) (ps : List (Option OuterNode)) :
    visibleAll (p :: ps) = visible p ++ visibleAll ps := by
  cases p <;> rfl

theorem buildPlace_construct {form : Form} (hkind : kind = (Kind.form form).name) :
    buildPlace (some (.mk kind text span value children hidden)) =
      (do let ns ← buildAll children; return .construct form text (span.getD .unknown) ns) := by
  subst hkind
  show build _ = _
  unfold build
  dsimp only
  rw [Kind.ofName?_name]

theorem buildPlace_constant {v : OuterValue} (hkind : kind = Kind.constant.name) :
    buildPlace (some (.mk kind text span (some v) children hidden)) =
      (do let d ← v.datum; return .constant (.plain d) text (span.getD .unknown) []) := by
  subst hkind
  show build _ = _
  unfold build
  dsimp only
  rw [Kind.ofName?_name]
  rfl

theorem buildPlace_missing (hkind : kind = Kind.constant.name) :
    buildPlace (some (.mk kind text span none children hidden)) = .error (.missingValue text (span.getD .unknown)) := by
  subst hkind
  show build _ = _
  unfold build
  dsimp only
  rw [Kind.ofName?_name]

theorem buildPlace_unknown (hkind : ∀ k : Kind, k ≠ .specialized → kind ≠ k.name) :
    buildPlace (some (.mk kind text span value children hidden)) = .error (.unknownKind kind) := by
  show build _ = _
  unfold build
  dsimp only
  cases hname : Kind.ofName? kind with
  | none => rfl
  | some k =>
    by_cases hk : k = .specialized
    · subst hk
      rfl
    · exact absurd (Kind.name_of_ofName? hname).symm (hkind k hk)

/-- Only constants have a value. -/
theorem buildPlace_value (hkind : kind ≠ Kind.constant.name) (value value' : Option OuterValue) :
    buildPlace (some (.mk kind text span value children hidden)) =
      buildPlace (some (.mk kind text span value' children hidden)) := by
  show build _ = build _
  unfold build
  dsimp only
  cases hname : Kind.ofName? kind with
  | none => rfl
  | some k =>
    cases k with
    | constant => exact absurd (Kind.name_of_ofName? hname).symm hkind
    | specialized => rfl
    | form => rfl

theorem visible_construct {form : Form} (hkind : kind = (Kind.form form).name) :
    visible (some (.mk kind text span value children hidden)) =
      some (.mk kind text span value children hidden) :: visibleAll children := by
  show visibleBelow _ = _
  rw [visibleBelow, if_neg (kind_ne_of_form hkind)]

theorem visible_constant (hkind : kind = Kind.constant.name) :
    visible (some (.mk kind text span value children hidden)) = [some (.mk kind text span value children hidden)] := by
  show visibleBelow _ = _
  rw [visibleBelow, if_pos hkind]

mutual

/-- A place has what stands in it built, and then all that is looked at is sound, or its first flaw reported; by
induction on the tree in the place. -/
theorem settled_buildPlace : ∀ p : Option OuterNode,
    (∃ n, buildPlace p = .ok n ∧ Mirrors p n ∧ ∀ q ∈ visible p, Sound q) ∨
    ∃ e, buildPlace p = .error e ∧ FirstFlaw (visible p) e
  | none => .inr ⟨.nullNode, rfl, .here .null⟩
  | some (.mk kind text span value children hidden) => by
    by_cases hknown : ∃ k : Kind, k ≠ .specialized ∧ kind = k.name
    case neg =>
      have hunknown (k : Kind) (hk : k ≠ .specialized) (hkind : kind = k.name) : False := hknown ⟨k, hk, hkind⟩
      exact .inr ⟨.unknownKind kind, buildPlace_unknown hunknown, .here (.kind hunknown)⟩
    obtain ⟨k, hk, hkind⟩ := hknown
    cases k with
    | specialized => exact absurd rfl hk
    | constant =>
      cases value with
      | none =>
        rw [buildPlace_missing hkind]
        exact .inr ⟨_, rfl, .here (.missing hkind)⟩
      | some v =>
        rw [buildPlace_constant hkind, visible_constant hkind]
        cases hd : v.datum with
        | ok d =>
          have hspells := OuterValue.spells_of_datum hd
          exact .inl ⟨_, rfl, .constant hkind hspells, List.forall_mem_singleton.2 (.constant hkind hspells)⟩
        | error e => exact .inr ⟨e, rfl, .here (.value hkind (OuterValue.flawed_of_datum hd))⟩
    | form form =>
      rw [buildPlace_construct hkind, visible_construct hkind]
      rcases settled_buildAll children with ⟨ns, hns, hmirrors, hsound⟩ | ⟨e, he, hflaw⟩
      · rw [hns]
        exact .inl ⟨_, rfl, .construct hkind hmirrors, List.forall_mem_cons.2 ⟨.construct hkind, hsound⟩⟩
      · rw [he]
        exact .inr ⟨e, rfl, .later (.construct hkind) hflaw⟩

theorem settled_buildAll : ∀ ps : List (Option OuterNode),
    (∃ ns, buildAll ps = .ok ns ∧ MirrorsAll ps ns ∧ ∀ q ∈ visibleAll ps, Sound q) ∨
    ∃ e, buildAll ps = .error e ∧ FirstFlaw (visibleAll ps) e
  | [] => .inl ⟨[], rfl, .nil, nofun⟩
  | p :: ps => by
    rw [buildAll_cons, visibleAll_cons]
    rcases settled_buildPlace p with ⟨n, hn, hmirrors, hsound⟩ | ⟨e, he, hflaw⟩
    · rw [hn]
      rcases settled_buildAll ps with ⟨ns, hns, hmirrorsAll, hsoundAll⟩ | ⟨e, he, hflaw⟩
      · rw [hns]
        exact .inl ⟨_, rfl, .cons hmirrors hmirrorsAll, List.forall_mem_append.2 ⟨hsound, hsoundAll⟩⟩
      · rw [he]
        exact .inr ⟨e, rfl, .append_right hsound hflaw⟩
    · rw [he]
      exact .inr ⟨e, rfl, hflaw.append_left _⟩

end

mutual

/-- What stands in a place is built. -/
theorem buildPlace_of_mirrors : ∀ {p : Option OuterNode} {n : Node}, Mirrors p n → buildPlace p = .ok n
  | _, _, .construct hkind hchildren => by
    rw [buildPlace_construct hkind, buildAll_of_mirrorsAll hchildren]
    rfl
  | _, _, .constant hkind hd => by
    rw [buildPlace_constant hkind, OuterValue.datum_of_spells hd]
    rfl

theorem buildAll_of_mirrorsAll : ∀ {ps : List (Option OuterNode)} {ns : List Node},
    MirrorsAll ps ns → buildAll ps = .ok ns
  | _, _, .nil => rfl
  | _, _, .cons hp hps => by
    rw [buildAll_cons, buildPlace_of_mirrors hp, buildAll_of_mirrorsAll hps]
    rfl

end

mutual

/-- Nothing that stands in a place is a native loop or a constant with children. -/
theorem Mirrors.plain : ∀ {p : Option OuterNode} {n : Node}, Mirrors p n →
    ∀ a ∈ n.parts, a.kind ≠ .specialized ∧ (a.kind = .constant → a.children = [])
  | _, _, .construct _ hchildren =>
    Node.forall_parts.2 ⟨⟨Kind.noConfusion, Kind.noConfusion⟩, hchildren.plain⟩
  | _, _, .constant _ _ => Node.forall_parts.2 ⟨⟨Kind.noConfusion, fun _ => rfl⟩, List.forall_mem_nil _⟩

theorem MirrorsAll.plain : ∀ {ps : List (Option OuterNode)} {ns : List Node}, MirrorsAll ps ns →
    ∀ n ∈ ns, ∀ a ∈ n.parts, a.kind ≠ .specialized ∧ (a.kind = .constant → a.children = [])
  | _, _, .nil => List.forall_mem_nil _
  | _, _, .cons hp hps => List.forall_mem_cons.2 ⟨hp.plain, hps.plain⟩

end

/-- What is built is what stands in the place. -/
theorem buildPlace_eq_ok_iff : buildPlace p = .ok n ↔ Mirrors p n := by
  refine ⟨fun h => ?_, buildPlace_of_mirrors⟩
  rcases settled_buildPlace p with ⟨m, hm, hmirrors, -⟩ | ⟨e, he, -⟩
  · exact Except.ok.inj (hm.symm.trans h) ▸ hmirrors
  · rw [he] at h
    cases h

/-- What is reported is the first flaw. -/
theorem buildPlace_eq_error_iff : buildPlace p = .error e ↔ FirstFlaw (visible p) e := by
  rcases settled_buildPlace p with ⟨n, hn, -, hsound⟩ | ⟨e', he, hflaw⟩
  · refine ⟨fun h => ?_, fun h => absurd hsound h.not_sound⟩
    rw [hn] at h
    cases h
  · exact ⟨fun h => Except.error.inj (he.symm.trans h) ▸ hflaw, fun h => by rw [he, h.unique hflaw]⟩

theorem exists_buildPlace_iff : (∃ n, buildPlace p = .ok n) ↔ ∀ q ∈ visible p, Sound q := by
  rcases settled_buildPlace p with ⟨n, hn, -, hsound⟩ | ⟨e, he, hflaw⟩
  · exact ⟨fun _ => hsound, fun _ => ⟨n, hn⟩⟩
  · refine ⟨fun ⟨n, hn⟩ => ?_, fun hsound => absurd hsound hflaw.not_sound⟩
    rw [he] at hn
    cases hn

/-! ### Members that say nothing -/

/-- A field matches a name as it matches any spelling of the name in another case. -/
theorem names_eq_of_names {field other key : String} (h : Json.names field key) :
    Json.names other key = Json.names other field := by
  unfold Json.names Text.sameFolded at *
  rw [← eq_of_beq h]

theorem intoMember_specialized {key : String} (h : Json.names "specialized" key) (b : Bool) (o : OuterNode)
    (take : Json.Slots (Option OuterNode) → Option (Json.Slots (Option OuterNode))) :
    Json.intoMember take key (.bool b) o = some o := by
  obtain ⟨kind, text, span, value, children, hidden⟩ := o
  have hother (other : String) (hne : Json.names other "specialized" = false) : ¬ Json.names other key := by
    rw [names_eq_of_names h, hne]
    exact Bool.false_ne_true
  rw [Json.intoMember, if_neg (hother _ (by decide)), if_neg (hother _ (by decide)), if_neg (hother _ (by decide)),
    if_neg (hother _ (by decide)), if_neg (hother _ (by decide)), if_pos h]
  rfl

/-- Wherever a member calls a node specialized, the node is read as it is without it. -/
theorem intoMembers_specialized {key : String} (h : Json.names "specialized" key) (b : Bool)
    (members members' : List (String × Json)) (o : OuterNode) :
    Json.intoMembers (members ++ (key, .bool b) :: members') o = Json.intoMembers (members ++ members') o := by
  rw [intoMembers_append, intoMembers_append]
  refine congrArg (Option.bind _) (funext fun o => ?_)
  rw [intoMembers_cons, intoMember_specialized h]
  rfl

/-- A tree is read exactly if nothing is wrong with any place that is looked at. It is then what stands there; there
is no native loop in it and no constant with children. Otherwise what is wrong with the first place that has something
wrong is reported. Members that call a node specialized say nothing, nor does the value of a node that is no
constant. -/
theorem built_iff_sound (p : Option OuterNode) :
    ((∃ n, buildPlace p = .ok n) ↔ ∀ q ∈ visible p, Sound q) ∧
    (∀ n, buildPlace p = .ok n ↔ Mirrors p n) ∧
    (∀ n, buildPlace p = .ok n → ∀ a ∈ n.parts, a.kind ≠ .specialized ∧ (a.kind = .constant → a.children = [])) ∧
    (∀ e, buildPlace p = .error e ↔ FirstFlaw (visible p) e) ∧
    (∀ (members members' : List (String × Json)) key b o, Json.names "specialized" key →
      Json.intoMembers (members ++ (key, .bool b) :: members') o = Json.intoMembers (members ++ members') o) ∧
    (∀ kind text span value value' children hidden, kind ≠ Kind.constant.name →
      buildPlace (some (.mk kind text span value children hidden)) =
        buildPlace (some (.mk kind text span value' children hidden))) :=
  ⟨exists_buildPlace_iff, fun _ => buildPlace_eq_ok_iff, fun _ h => (buildPlace_eq_ok_iff.1 h).plain,
    fun _ => buildPlace_eq_error_iff, fun members members' _ b o h => intoMembers_specialized h b members members' o,
    fun _ _ _ value value' _ _ hkind => buildPlace_value hkind value value'⟩

/-- A block with a value, and a constant above a place that is not looked at. -/
def oddBlock (more : List (Option OuterNode)) : OuterNode :=
  .mk "Block" "" none (some ⟨"vector", none⟩)
    (some (.mk "Constant" "1" none (some ⟨"int", some (.num "1")⟩) [none] []) :: more) []

/-- The block is read; with an unknown kind and an empty place, the kind is reported. -/
theorem built_iff_sound_block :
    (∃ n, buildPlace (some (oddBlock [])) = .ok n ∧ Mirrors (some (oddBlock [])) n) ∧
    (∀ q ∈ visible (some (oddBlock [])), Sound q) ∧
    FirstFlaw (visible (some (oddBlock [some (.mk "Specialized" "" none none [none] []), none])))
      (.unknownKind "Specialized") ∧
    Json.intoMembers [("kind", .str "Noop"), ("SPECIALIZED", .bool true)] .blank =
      Json.intoMembers [("kind", .str "Noop")] .blank := by
  have hread : buildPlace (some (oddBlock [])) =
      .ok (.construct .block "" .unknown [.ofLiteral "1" .unknown (.plain (.number (.int 1)))]) := rfl
  have hrefused : buildPlace (some (oddBlock [some (.mk "Specialized" "" none none [none] []), none])) =
      .error (.unknownKind "Specialized") := rfl
  obtain ⟨hsound, hmirrors, -, -, hflag, -⟩ := built_iff_sound (some (oddBlock []))
  obtain ⟨-, -, -, hflaw, -⟩ :=
    built_iff_sound (some (oddBlock [some (.mk "Specialized" "" none none [none] []), none]))
  exact ⟨⟨_, hread, (hmirrors _).1 hread⟩, hsound.1 ⟨_, hread⟩, (hflaw _).1 hrefused,
    hflag [("kind", .str "Noop")] [] "SPECIALIZED" true .blank (by decide)⟩

end OuterNode

end ScriptTree

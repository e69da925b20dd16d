import Mathlib.Data.List.Basic
import Mathlib.Data.Prod.Lex
import ScriptTree.Proofs.Settings.Accepted

/-!
From settings to a pipeline. The passes of a pipeline are those of the list, or of the level where there is no
list, that the version of the language has. A release has the passes that came with it or with a release before
it; a pre-release has only those that came with no release, however late it is itself. So the pipelines of
releases grow with the release, and a pre-release of the newest one may have fewer passes than the oldest.
-/

namespace ScriptTree

variable {v w : Version} {pass : String}

/-! ### Versions and passes -/

namespace Version

/-- The numbers of a version, in the order in which releases are compared. -/
def numbers (v : Version) : ℕ ×ₗ ℕ ×ₗ ℕ := toLex (v.major, toLex (v.minor, v.patch))

/-- The version is new enough for a pass, and a release if newness matters. -/
def Has (v : Version) (pass : String) : Prop :=
  ∀ since, since? pass = some since → v.isRelease ∧ since.numbers ≤ v.numbers

theorem releaseLE_iff : v.releaseLE w ↔ v.numbers ≤ w.numbers := by
  unfold releaseLE numbers
  simp only [Prod.Lex.toLex_le_toLex]
  split
  · rename_i hmajor
    simp [hmajor]
  · rename_i hmajor
    rw [not_not] at hmajor
    split
    · rename_i hminor
      simp [hmajor, hminor]
    · rename_i hminor
      rw [not_not] at hminor
      simp [hmajor, hminor]

theorem admits_iff : v.admits pass ↔ v.Has pass := by
  unfold admits Has
  cases since? pass with
  | none => simp
  | some since => simp [supports, releaseLE_iff]

instance (v : Version) : DecidablePred v.Has := fun _ => decidable_of_iff _ admits_iff

theorem admits_eq (v : Version) (pass : String) : v.admits pass = decide (v.Has pass) :=
  Bool.eq_iff_iff.2 (admits_iff.trans decide_eq_true_iff.symm)

/-- A later release has the passes of the release before it. -/
theorem Has.later (h : v.Has pass) (hw : w.isRelease) (hle : v.numbers ≤ w.numbers) : w.Has pass :=
  fun since hsince => ⟨hw, (h since hsince).2.trans hle⟩

/-- A pre-release has a pass only if the pass came with no release. -/
theorem has_iff_of_preRelease (hpre : ¬ v.isRelease) : v.Has pass ↔ since? pass = none := by
  refine ⟨fun h => Option.eq_none_iff_forall_ne_some.2 fun since hsince => hpre (h since hsince).1, ?_⟩
  rintro hnone since hsince
  rw [hnone] at hsince
  cases hsince

end Version

/-! ### Gating -/

section Gate

variable {α : Type}

theorem gate_fst (name : α → String) (passes : List α) (v : Version) :
    (gate name passes v).1 = passes.filter fun p => decide (v.Has (name p)) :=
  List.filter_congr fun p _ => v.admits_eq (name p)

theorem gate_snd (name : α → String) (passes : List α) (v : Version) :
    (gate name passes v).2 = passes.filter fun p => !decide (v.Has (name p)) :=
  List.filter_congr fun p _ => congrArg not (v.admits_eq (name p))

/-- The two sides of a gate for a version: each in the order of the passes, each pass on the side on which it
belongs, and all of them together again the passes. -/
structure Gated (name : α → String) (v : Version) (passes kept dropped : List α) : Prop where
  kept_sublist : kept.Sublist passes
  dropped_sublist : dropped.Sublist passes
  perm : (kept ++ dropped).Perm passes
  kept_has : ∀ p ∈ kept, v.Has (name p)
  dropped_lacks : ∀ p ∈ dropped, ¬ v.Has (name p)

theorem gated_gate (name : α → String) (passes : List α) (v : Version) :
    Gated name v passes (gate name passes v).1 (gate name passes v).2 where
  kept_sublist := List.filter_sublist
  dropped_sublist := List.filter_sublist
  perm := List.filter_append_perm _ passes
  kept_has p hp := Version.admits_iff.1 (List.mem_filter.1 hp).2
  dropped_lacks p hp hhas := by
    have hlacks := (List.mem_filter.1 hp).2
    rw [Version.admits_iff.2 hhas] at hlacks
    cases hlacks

theorem gate_fst_sublist (name : α → String) (passes : List α) (hw : w.isRelease) (hle : v.numbers ≤ w.numbers) :
    (gate name passes v).1.Sublist (gate name passes w).1 :=
  List.monotone_filter_right passes fun _ hp => Version.admits_iff.2 ((Version.admits_iff.1 hp).later hw hle)

/-- A pre-release drops every pass that came with a release, and keeps the others. -/
theorem gate_of_preRelease (name : α → String) (passes : List α) (hpre : ¬ v.isRelease) :
    gate name passes v =
      (passes.filter fun p => (since? (name p)).isNone, passes.filter fun p => (since? (name p)).isSome) := by
  have hhas (p : α) : decide (v.Has (name p)) = (since? (name p)).isNone := by
    rw [Bool.eq_iff_iff, decide_eq_true_iff, Version.has_iff_of_preRelease hpre, Option.isNone_iff_eq_none]
  refine Prod.ext ?_ ?_
  · rw [gate_fst]
    simp only [hhas]
  · rw [gate_snd]
    simp only [hhas, Option.not_isNone]

end Gate

/-! ### Pipelines -/

theorem Pass.name_of_ofName? {name : String} {p : Pass} (h : Pass.ofName? name = some p) : p.name = name := by
  simpa using List.find?_some h

theorem Pipeline.names_gate (p : Pipeline) (v : Version) :
    Pipeline.names (gate Pass.name p v).1 = p.names.filter fun name => decide (v.Has name) := by
  rw [gate_fst, Pipeline.names, Pipeline.names, List.filter_map]
  rfl

namespace Settings

variable {s : Settings} {level : Level}

/-- A list of known passes asks for these passes, in its order and with its repetitions. -/
theorem names_filterMap {names : List String} (h : ∀ name ∈ names, (Pass.ofName? name).isSome) :
    Pipeline.names (names.filterMap Pass.ofName?) = names := by
  induction names with
  | nil => rfl
  | cons name names ih =>
    obtain ⟨p, hp⟩ := Option.isSome_iff_exists.1 (h name List.mem_cons_self)
    rw [List.filterMap_cons_some hp]
    exact congrArg₂ List.cons (Pass.name_of_ofName? hp) (ih fun other hmem => h other (List.mem_cons_of_mem _ hmem))

theorem names_requested (h : s.validate = .ok ()) (hlevel : Level.ofText? s.level = some level) :
    s.requested.names = if s.passes = [] then (Pipeline.ofLevel level).names else s.passes := by
  simp only [requested, List.isEmpty_iff, parsedLevel, hlevel, Option.getD_some]
  split
  · rfl
  · exact names_filterMap (validate_eq_ok_iff.1 h).2.1

/-- Valid settings give the passes that they ask for and that their version has. -/
theorem names_build (h : s.validate = .ok ()) (hlevel : Level.ofText? s.level = some level)
    (hv : Version.parse s.languageVersion = .ok v) : ∃ p, s.build = .ok p ∧
      p.names = (if s.passes = [] then (Pipeline.ofLevel level).names else s.passes).filter fun name => v.Has name := by
  refine ⟨_, build_of_parsed h hv, ?_⟩
  rw [Pipeline.names_gate, names_requested h hlevel]

/-- A level in the place of the settings' own gives its passes, for the version of the settings. -/
theorem names_withLevel {text : String} (h : s.validate = .ok ()) (htext : Level.ofText? text = some level)
    (hv : Version.parse s.languageVersion = .ok v) : ∃ p, (s.withLevel text).build = .ok p ∧
      p.names = (Pipeline.ofLevel level).names.filter fun name => v.Has name := by
  obtain ⟨-, -, hversion, hlog⟩ := validate_eq_ok_iff.1 h
  have hvalid : (s.withLevel text).validate = .ok () :=
    validate_eq_ok_iff.2 ⟨Option.isSome_iff_exists.2 ⟨level, htext⟩, nofun, hversion, hlog⟩
  exact names_build hvalid htext hv

end Settings

/-- Settings that pass their check, as all that are read do, give a pipeline: the passes of the list, or of the
level where there is no list, that the version has. A level in the place of the settings' own, as the command line
puts it there, leaves the version alone. A gate parts the passes in two; the passes of a release are among those of
a later one, and a pre-release has none that came with a release. What a version text spells and when a version has a
pass is as `Version.parse` and `Version.supports` have it, which stand for a library. -/
theorem settings_to_pipeline :
    (∀ s : Settings, s.validate = .ok () → ∃ level v p, Level.ofText? s.level = some level ∧
      Version.parse s.languageVersion = .ok v ∧ s.build = .ok p ∧
      p.names = (if s.passes = [] then (Pipeline.ofLevel level).names else s.passes).filter fun name => v.Has name) ∧
    (∀ text s, Settings.parse text = .ok s → s.validate = .ok ()) ∧
    (∀ (s : Settings) text level, s.validate = .ok () → Level.ofText? text = some level →
      ∃ v p, Version.parse s.languageVersion = .ok v ∧ (s.withLevel text).build = .ok p ∧
        p.names = (Pipeline.ofLevel level).names.filter fun name => v.Has name) ∧
    (∀ fs path s text level, Settings.load fs path = .ok s → text ≠ "" → Level.ofText? text = some level →
      s.validate = .ok () ∧ Settings.loadWithLevel fs path text = .ok (s.withLevel text)) ∧
    (∀ (α : Type) (name : α → String) passes text v, Version.parse text = .ok v → ∃ kept dropped,
      gateText name passes text = .ok (kept, dropped) ∧ Gated name v passes kept dropped ∧
      (¬ v.isRelease → ∀ p ∈ passes, (since? (name p)).isSome → p ∈ dropped ∧ p ∉ kept)) ∧
    (∀ (α : Type) (name : α → String) passes earlier later v w, Version.parse earlier = .ok v →
      Version.parse later = .ok w → v.isRelease → w.isRelease → v.numbers ≤ w.numbers → ∃ kept dropped kept' dropped',
      gateText name passes earlier = .ok (kept, dropped) ∧ gateText name passes later = .ok (kept', dropped') ∧
      kept.Sublist kept') := by
  refine ⟨fun s hvalid => ?_, fun _ _ => Settings.validate_of_parse, fun s text level hvalid htext => ?_,
    fun fs path s text level hload hne htext => ?_, fun α name passes text v hv => ?_,
    fun α name passes earlier later v w hv hw _ hrelease hle => ?_⟩
  · obtain ⟨hlevel, -, ⟨v, hv⟩, -⟩ := Settings.validate_eq_ok_iff.1 hvalid
    obtain ⟨level, hlevel⟩ := Option.isSome_iff_exists.1 hlevel
    obtain ⟨p, hp, hnames⟩ := Settings.names_build hvalid hlevel hv
    exact ⟨level, v, p, hlevel, hv, hp, hnames⟩
  · obtain ⟨-, -, ⟨v, hv⟩, -⟩ := Settings.validate_eq_ok_iff.1 hvalid
    obtain ⟨p, hp, hnames⟩ := Settings.names_withLevel hvalid htext hv
    exact ⟨v, p, hv, hp, hnames⟩
  · have haccepted : Settings.AcceptedLevel text := .inr (Option.isSome_iff_exists.2 ⟨level, htext⟩)
    have hoverridden : s.overridden text = s.withLevel text := if_neg hne
    exact ⟨Settings.validate_of_load hload, hoverridden ▸ Settings.loadWithLevel_of_load hload haccepted⟩
  · refine ⟨(gate name passes v).1, (gate name passes v).2, gateText_of_parse hv name passes,
      gated_gate name passes v, fun hpre p hp hsince => ?_⟩
    have hnone : (since? (name p)).isNone = false := by rw [Option.isNone_eq_false_iff, hsince]
    rw [gate_of_preRelease name passes hpre]
    exact ⟨List.mem_filter.2 ⟨hp, hsince⟩, fun hkept => by simp [hnone] at hkept⟩
  · exact ⟨_, _, _, _, gateText_of_parse hv name passes, gateText_of_parse hw name passes,
      gate_fst_sublist name passes hrelease hle⟩

/-- A list with repetitions under a short version text, and the level that takes its place; a pre-release of the
newest version, which has no pass at all; and two releases. -/
theorem settings_to_pipeline_texts :
    (∃ p, (Settings.mk "none" ["block", "for_loop", "block"] "v1.1" "warn" false).build = .ok p ∧
      p.names = ["block", "block"]) ∧
    (∃ p, ((Settings.mk "none" ["block", "for_loop", "block"] "v1.1" "warn" false).withLevel " 3").build = .ok p ∧
      p.names = ["return", "block", "if", "constant_fold"]) ∧
    (∃ kept dropped, gateText Pass.name Pipeline.standard "1.2.0-rc.1" = .ok (kept, dropped) ∧
      ∀ p ∈ Pipeline.standard, p ∈ dropped ∧ p ∉ kept) ∧
    (∃ kept dropped kept' dropped', gateText Pass.name Pipeline.standard "1" = .ok (kept, dropped) ∧
      gateText Pass.name Pipeline.standard "1.10.0+x" = .ok (kept', dropped') ∧ kept.Sublist kept') := by
  have hvalid : (Settings.mk "none" ["block", "for_loop", "block"] "v1.1" "warn" false).validate = .ok () := by
    decide +kernel
  have hversion : Version.parse "v1.1" = .ok ⟨1, 1, 0, "", ""⟩ := by decide +kernel
  obtain ⟨hbuild, -, hlevel, -, hgate, hgrow⟩ := settings_to_pipeline
  obtain ⟨_, v, p, -, hv, hp, hnames⟩ := hbuild _ hvalid
  obtain ⟨w, q, hw, hq, hlevelNames⟩ := hlevel _ " 3" .aggressive hvalid (by decide +kernel)
  obtain ⟨kept, dropped, hparted, -, hdropped⟩ :=
    hgate Pass Pass.name Pipeline.standard "1.2.0-rc.1" ⟨1, 2, 0, "rc.1", ""⟩ (by decide +kernel)
  cases Except.ok.inj (hv.symm.trans hversion)
  cases Except.ok.inj (hw.symm.trans hversion)
  rw [if_neg (List.cons_ne_nil _ _)] at hnames
  refine ⟨⟨p, hp, hnames.trans (by decide +kernel)⟩, ⟨q, hq, hlevelNames.trans (by decide +kernel)⟩,
    ⟨kept, dropped, hparted, fun pass hpass => hdropped (by decide) pass hpass (by revert pass; decide)⟩, ?_⟩
  exact hgrow Pass Pass.name Pipeline.standard "1" "1.10.0+x" ⟨1, 0, 0, "", ""⟩ ⟨1, 10, 0, "", "x"⟩
    (by decide +kernel) (by decide +kernel) (by decide) (by decide) (Version.releaseLE_iff.1 (by decide))

end ScriptTree

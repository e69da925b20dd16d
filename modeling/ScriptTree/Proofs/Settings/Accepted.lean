import ScriptTree.Settings.Load
import ScriptTree.Proofs.Files.Places

/-!
Settings that pass their check. Every text that is read passes it, and so does a settings file that is loaded,
with or without a level in the place of its own; and settings that pass it give a pipeline.
-/

namespace ScriptTree

theorem gateText_of_parse {α : Type} {text : String} {v : Version} (h : Version.parse text = .ok v) (name : α → String)
    (passes : List α) : gateText name passes text = .ok (gate name passes v) := by
  unfold gateText
  rw [h]

namespace Settings

variable {s : Settings} {fs : FileSystem} {level text path : String}

/-! ### Accepted settings -/

theorem validate_eq_ok_iff : s.validate = .ok () ↔ (Level.ofText? s.level).isSome ∧
    (∀ name ∈ s.passes, (Pass.ofName? name).isSome) ∧ (∃ v, Version.parse s.languageVersion = .ok v) ∧
    (LogLevel.ofText? s.logLevel).isSome := by
  unfold validate
  cases Level.ofText? s.level with
  | none => simp [bind, Except.bind, throw, throwThe, MonadExceptOf.throw]
  | some l =>
  cases hfind : s.passes.find? fun name => (Pass.ofName? name).isNone with
  | some name =>
    have hnone : Pass.ofName? name = none := by simpa using List.find?_some hfind
    have hbad : ¬ ∀ name ∈ s.passes, (Pass.ofName? name).isSome = true := fun hall => by
      simpa [hnone] using hall name (List.mem_of_find?_eq_some hfind)
    simp [bind, Except.bind, throw, throwThe, MonadExceptOf.throw, hbad]
  | none =>
  have hpasses : ∀ name ∈ s.passes, (Pass.ofName? name).isSome = true := fun name hmem => by
    simpa [Option.isSome_iff_ne_none] using List.find?_eq_none.1 hfind name hmem
  cases Version.parse s.languageVersion with
  | error e => simp [bind, Except.bind, throw, throwThe, MonadExceptOf.throw]
  | ok v =>
  cases LogLevel.ofText? s.logLevel with
  | none => simp [throw, throwThe, MonadExceptOf.throw]
  | some log => simpa [pure, Except.pure] using hpasses

theorem validate_of_parse (h : parse text = .ok s) : s.validate = .ok () := by
  unfold parse at h
  split at h
  · cases h
  split at h
  · rename_i hvalid
    cases h
    exact hvalid
  · cases h

/-- Valid settings give the pipeline they ask for, but for the passes that their version is too old for. -/
theorem build_of_parsed {v : Version} (h : s.validate = .ok ()) (hv : Version.parse s.languageVersion = .ok v) :
    s.build = .ok (gate Pass.name s.requested v).1 := by
  rw [build, h, gateText_of_parse hv]
  rfl

/-- Valid settings give a pipeline. -/
theorem build_of_validate (h : s.validate = .ok ()) : ∃ p, s.build = .ok p := by
  obtain ⟨-, -, ⟨v, hv⟩, -⟩ := validate_eq_ok_iff.1 h
  exact ⟨_, build_of_parsed h hv⟩

/-- A level that may be given on the command line; the empty one is none. -/
def AcceptedLevel (level : String) : Prop := level = "" ∨ (Level.ofText? level).isSome

/-- Settings with a level in the place of theirs, unless it is empty. -/
def overridden (s : Settings) (level : String) : Settings := if level = "" then s else s.withLevel level

theorem validate_overridden (h : s.validate = .ok ()) (hlevel : AcceptedLevel level) :
    (s.overridden level).validate = .ok () := by
  unfold overridden
  split
  · exact h
  · rename_i hne
    obtain ⟨-, -, hversion, hlog⟩ := validate_eq_ok_iff.1 h
    exact validate_eq_ok_iff.2 ⟨hlevel.resolve_left hne, nofun, hversion, hlog⟩

/-! ### The pipeline of a settings file -/

/-- What is loaded passes the check, also where there is no file. -/
theorem validate_of_load (h : load fs path = .ok s) : s.validate = .ok () := by
  have hdefault : default.validate = .ok () := by decide +kernel
  unfold load at h
  split at h
  · cases h
    exact hdefault
  split at h
  · split at h
    · cases h
      exact hdefault
    · cases h
  split at h
  · rename_i hparse
    cases h
    exact validate_of_parse hparse
  · cases h

/-- A level that is given takes the place of the one that is loaded. -/
theorem loadWithLevel_of_load (h : load fs path = .ok s) (hlevel : AcceptedLevel level) :
    loadWithLevel fs path level = .ok (s.overridden level) := by
  rw [loadWithLevel, h]
  unfold overridden
  rcases eq_or_ne level "" with heq | hne
  · simp [heq, bind, Except.bind, pure, Except.pure]
  · have hknown := hlevel.resolve_left hne
    simp [hne, bind, Except.bind, pure, Except.pure, Option.isSome_iff_ne_none.1 hknown]

theorem load_of_read (h : fs.read path = .ok text) :
    load fs path = (parse text).mapError fun e => .within path (.fault e) := by
  obtain ⟨l, hlocate, -⟩ := FileSystem.read_eq_ok_iff.1 h
  rw [load, if_neg (FileSystem.locate_eq_ok_iff.1 hlocate).2.1, h]
  dsimp only
  cases parse text <;> rfl

theorem pipelineOf_of_error {e : Fault} (h : fs.read path = .ok text) (hparse : parse text = .error e) (level : String) :
    pipelineOf fs path level = .error (.within path (.fault e)) := by
  rw [pipelineOf, loadWithLevel, load_of_read h, hparse]
  rfl

theorem pipelineOf_of_ok (h : fs.read path = .ok text) (hparse : parse text = .ok s) (hlevel : AcceptedLevel level) :
    ∃ p, (s.overridden level).build = .ok p ∧ pipelineOf fs path level = .ok p := by
  obtain ⟨p, hp⟩ := build_of_validate (validate_overridden (validate_of_parse hparse) hlevel)
  refine ⟨p, hp, ?_⟩
  have hload : load fs path = .ok s := by
    rw [load_of_read h, hparse]
    rfl
  rw [pipelineOf, loadWithLevel_of_load hload hlevel]
  simp only [bind, Except.bind, hp]
  rfl

/-- Start-up accepts a level only if it may be given. -/
theorem acceptedLevel_of_ok {p : Pipeline} (h : pipelineOf fs path level = .ok p) : AcceptedLevel level := by
  unfold pipelineOf loadWithLevel at h
  by_contra hno
  rw [AcceptedLevel, not_or] at hno
  cases hload : load fs path with
  | error e => rw [hload] at h; cases h
  | ok s =>
    rw [hload] at h
    simp [bind, Except.bind, hno.1, Option.not_isSome_iff_eq_none.1 hno.2, throw, throwThe, MonadExceptOf.throw] at h

end Settings

end ScriptTree

import ScriptTree.Command.Program
import ScriptTree.Proofs.Files.Tasks
import ScriptTree.Proofs.Settings.Accepted

/-!
Watching the settings. A new content is first read without the level of the command line, under the clean
path of the settings file, and then, if there is such a level, once more with it, under the path as it was
given. Settings that are valid stay so with a level in the place of theirs, and valid settings always give a
pipeline; so both readings accept the contents that start-up accepts, and what is run is the pipeline that
start-up would build. The path goes on to lead to the settings file whatever the runs in between write.
-/

namespace ScriptTree

open FileSystem (Grows)

/-- What was printed before and what one more step prints, with the exit code and the files of the step. -/
def RunResult.andThen (done next : RunResult) : RunResult :=
  ⟨next.exitCode, ⟨done.printout.out ++ next.printout.out, done.printout.err ++ next.printout.err, next.printout.files⟩⟩

/-- The same but for what was logged. -/
structure RunResult.SameWork (r r' : RunResult) : Prop where
  exitCode : r.exitCode = r'.exitCode
  out : r.printout.out = r'.printout.out
  files : r.printout.files = r'.printout.files

namespace Job

variable {j : Job} {s : Surroundings} {fs fs' : FileSystem} {content : String} {contents : List String}
  {runs : List Pipeline} {p : Pipeline} {done result : RunResult}

/-! ### Start-up and the settings file -/

/-- The files when the settings file has this content. -/
def withContent (j : Job) (fs : FileSystem) (content : String) : FileSystem := fs.put (placeOf j.settingsFile) content

/-- The pipeline that start-up builds when the settings file has this content, or why it refuses. -/
def startUp (j : Job) (fs : FileSystem) (content : String) : Except Failure Pipeline :=
  Settings.pipelineOf (j.withContent fs content) j.settingsFile j.level

/-- The settings file can be written. -/
def HasFile (j : Job) (fs : FileSystem) : Prop := ∃ content fs', fs.write j.settingsFile content = .ok fs'

/-- What is written to the settings file is read under its path and under its clean path. -/
theorem HasFile.read (h : j.HasFile fs) (content : String) : (j.withContent fs content).read j.settingsFile = .ok content ∧
    (j.withContent fs content).read (cleanPath j.settingsFile) = .ok content := by
  obtain ⟨_, _, hwrite⟩ := h
  obtain ⟨l, hlocate, hl, -⟩ := FileSystem.write_eq_ok_iff.1 hwrite
  have hplace := FileSystem.placeOf_of_locate hlocate
  have hgrows : Grows (fun _ => True) fs (fs.put l content) := .put hl trivial content
  have hholds := FileSystem.holds_put fs l content
  unfold withContent
  rw [hplace]
  exact ⟨FileSystem.read_eq_ok_iff.2 ⟨l, hgrows.locate hlocate, hholds⟩,
    FileSystem.read_eq_ok_iff.2 ⟨l, hgrows.locate (FileSystem.locate_cleanPath hlocate hl), hholds⟩⟩

/-- A settings file that could be read can be written, whatever else is written in between. -/
theorem hasFile_of_read {touched : Location → Prop} (h : fs.read j.settingsFile = .ok content) (hgrows : Grows touched fs fs') :
    j.HasFile fs' := by
  obtain ⟨l, hlocate, hholds⟩ := FileSystem.read_eq_ok_iff.1 h
  obtain ⟨content', hholds'⟩ := hgrows.files l content hholds
  exact ⟨content', _, FileSystem.write_eq_ok_iff.2 ⟨l, hgrows.locate hlocate, hholds'.not_directory, rfl⟩⟩

theorem HasFile.later {touched : Location → Prop} (h : j.HasFile fs) (hgrows : Grows touched (j.withContent fs content) fs') :
    j.HasFile fs' := hasFile_of_read (h.read content).1 hgrows

/-- What start-up makes of a content does not depend on the other files. -/
theorem HasFile.startUp_eq (h : j.HasFile fs) (h' : j.HasFile fs') (hlevel : Settings.AcceptedLevel j.level)
    (content : String) : j.startUp fs content = j.startUp fs' content := by
  cases hparse : Settings.parse content with
  | error e =>
    rw [startUp, startUp, Settings.pipelineOf_of_error (h.read content).1 hparse,
      Settings.pipelineOf_of_error (h'.read content).1 hparse]
  | ok settings =>
    obtain ⟨p, hp, he⟩ := Settings.pipelineOf_of_ok (h.read content).1 hparse hlevel
    obtain ⟨p', hp', he'⟩ := Settings.pipelineOf_of_ok (h'.read content).1 hparse hlevel
    rw [startUp, startUp, he, he', Except.ok.inj (hp.symm.trans hp')]

/-! ### A single content -/

/-- The work on the files with a pipeline, while the settings are watched. -/
def rerun (j : Job) (s : Surroundings) (fs : FileSystem) (p : Pipeline) : RunResult :=
  let note := j.log.line s.clock .info ("config reloaded, passes: " ++ passList p)
  let (failure, printed) := j.process s fs p
  let (code, trouble) := j.survive s failure
  ⟨code, ⟨printed.out, note ++ printed.err ++ trouble, printed.files⟩⟩

/-- A content that start-up refuses is reported, and nothing else happens. -/
theorem reload_refused (h : j.HasFile fs) (hlevel : Settings.AcceptedLevel j.level) {e : Failure}
    (hstart : j.startUp fs content = .error e) :
    ∃ note, j.reload s (j.withContent fs content) = ⟨0, ⟨"", note, j.withContent fs content⟩⟩ := by
  cases hparse : Settings.parse content with
  | error e =>
    unfold reload
    rw [Settings.pipelineOf_of_error (h.read content).2 hparse]
    exact ⟨_, rfl⟩
  | ok settings =>
    obtain ⟨p, -, he⟩ := Settings.pipelineOf_of_ok (h.read content).1 hparse hlevel
    rw [startUp, he] at hstart
    cases hstart

/-- A content that start-up accepts makes the files be worked on with the pipeline of start-up. -/
theorem reload_accepted (h : j.HasFile fs) (hlevel : Settings.AcceptedLevel j.level)
    (hstart : j.startUp fs content = .ok p) :
    j.reload s (j.withContent fs content) = j.rerun s (j.withContent fs content) p := by
  cases hparse : Settings.parse content with
  | error e =>
    rw [startUp, Settings.pipelineOf_of_error (h.read content).1 hparse] at hstart
    cases hstart
  | ok settings =>
    obtain ⟨plain, hplain, hclean⟩ := Settings.pipelineOf_of_ok (h.read content).2 hparse (.inl rfl)
    obtain ⟨p', hp', he⟩ := Settings.pipelineOf_of_ok (h.read content).1 hparse hlevel
    rw [startUp, he] at hstart
    cases hstart
    have hchosen : (if j.level = "" then .ok plain else
        Settings.pipelineOf (j.withContent fs content) j.settingsFile j.level) = .ok p := by
      split
      · rename_i hnone
        rw [hnone] at hp'
        rw [Except.ok.inj (hplain.symm.trans hp')]
      · exact he
    unfold reload
    rw [hclean]
    dsimp only
    rw [hchosen]
    rfl

/-! ### Sequences of contents -/

/-- Watching as start-up sees it, with the pipelines of the runs that are made. A content that start-up refuses
leads to no run, and to nothing but a line in the log; any other leads to a run with the pipeline of start-up.
Nothing more is taken up once a run has broken off. -/
inductive Watches (j : Job) (s : Surroundings) : RunResult → List String → List Pipeline → RunResult → Prop
  | done (result : RunResult) : Watches j s result [] [] result
  | ended {result : RunResult} {contents : List String} (hover : result.exitCode ≠ 0) : Watches j s result contents [] result
  | refused {done result : RunResult} {content note : String} {contents : List String} {runs : List Pipeline} {e : Failure}
    (hgoing : done.exitCode = 0) (hstart : j.startUp done.printout.files content = .error e)
    (hrest : Watches j s (done.andThen ⟨0, ⟨"", note, j.withContent done.printout.files content⟩⟩) contents runs result) :
    Watches j s done (content :: contents) runs result
  | accepted {done result : RunResult} {content : String} {contents : List String} {runs : List Pipeline} {p : Pipeline}
    (hgoing : done.exitCode = 0) (hstart : j.startUp done.printout.files content = .ok p)
    (hrest : Watches j s (done.andThen (j.rerun s (j.withContent done.printout.files content) p)) contents runs result) :
    Watches j s done (content :: contents) (p :: runs) result

theorem watchSteps_cons (hgoing : done.exitCode = 0) : j.watchSteps s done (content :: contents) =
    j.watchSteps s (done.andThen (j.reload s (j.withContent done.printout.files content))) contents := by
  rw [watchSteps, if_neg (not_not.2 hgoing)]
  rfl

theorem watchSteps_over (hover : done.exitCode ≠ 0) : j.watchSteps s done contents = done := by
  cases contents with
  | nil => rfl
  | cons content contents => rw [watchSteps, if_pos hover]

/-- The work on the files gives up no file and no directory. -/
theorem process_grows (j : Job) (s : Surroundings) (fs : FileSystem) (p : Pipeline) :
    Grows (fun _ => True) fs (j.process s fs p).2.files := by
  have hrun : Grows (fun _ => True) fs (Batch.run p j.options fs j.arguments.files).files :=
    Batch.run_grows p fs fun _ _ => trivial
  unfold process
  dsimp only
  split <;> exact hrun

/-- The work on the files leaves the settings file where it is. -/
theorem HasFile.rerun (h : j.HasFile fs) (s : Surroundings) (content : String) (p : Pipeline) :
    j.HasFile (j.rerun s (j.withContent fs content) p).printout.files := h.later (j.process_grows s _ p)

/-- The pipelines that start-up builds from those of the contents that it accepts. -/
def accepted (j : Job) (fs : FileSystem) (contents : List String) : List Pipeline :=
  contents.filterMap fun content => (j.startUp fs content).toOption

theorem HasFile.accepted_eq (h : j.HasFile fs) (h' : j.HasFile fs') (hlevel : Settings.AcceptedLevel j.level)
    (contents : List String) : j.accepted fs contents = j.accepted fs' contents := by
  have hsame : (fun content => (j.startUp fs content).toOption) = fun content => (j.startUp fs' content).toOption :=
    funext fun content => congrArg Except.toOption (h.startUp_eq h' hlevel content)
  rw [accepted, accepted, hsame]

/-- By induction on the contents: each step is the one that start-up tells, and the settings file stays. -/
theorem watches_watchSteps (hlevel : Settings.AcceptedLevel j.level) (contents : List String) (done : RunResult)
    (h : j.HasFile done.printout.files) : ∃ runs, j.Watches s done contents runs (j.watchSteps s done contents) ∧
      runs <+: j.accepted done.printout.files contents ∧
      ((j.watchSteps s done contents).exitCode = 0 → runs = j.accepted done.printout.files contents) := by
  induction contents generalizing done with
  | nil => exact ⟨[], .done done, List.nil_prefix, fun _ => rfl⟩
  | cons content contents ih =>
    by_cases hgoing : done.exitCode = 0
    · rw [watchSteps_cons hgoing]
      cases hstart : j.startUp done.printout.files content with
      | error e =>
        obtain ⟨note, hreload⟩ := reload_refused (s := s) h hlevel hstart
        have h' : j.HasFile (done.andThen ⟨0, ⟨"", note, j.withContent done.printout.files content⟩⟩).printout.files :=
          h.later (Grows.refl (fun _ => True) _)
        obtain ⟨runs, hwatches, hprefix, hall⟩ := ih _ h'
        have haccepted : j.accepted done.printout.files (content :: contents) =
            j.accepted done.printout.files contents := List.filterMap_cons_none (by rw [hstart]; rfl)
        rw [hreload, haccepted, h.accepted_eq h' hlevel]
        exact ⟨runs, .refused hgoing hstart hwatches, hprefix, hall⟩
      | ok p =>
        have h' : j.HasFile (done.andThen (j.rerun s (j.withContent done.printout.files content) p)).printout.files :=
          h.rerun s content p
        obtain ⟨runs, hwatches, hprefix, hall⟩ := ih _ h'
        have haccepted : j.accepted done.printout.files (content :: contents) =
            p :: j.accepted done.printout.files contents := List.filterMap_cons_some (by rw [hstart]; rfl)
        rw [reload_accepted h hlevel hstart, haccepted, h.accepted_eq h' hlevel]
        exact ⟨p :: runs, .accepted hgoing hstart hwatches, List.cons_prefix_cons.2 ⟨rfl, hprefix⟩,
          fun hzero => by rw [← hall hzero]⟩
    · rw [watchSteps_over hgoing]
      exact ⟨[], .ended hgoing, List.nil_prefix, fun hzero => absurd hzero hgoing⟩

/-- What was logged before does not matter to what is done. -/
theorem sameWork_watchSteps {done' : RunResult} (contents : List String) (h : done.SameWork done') :
    (j.watchSteps s done contents).SameWork (j.watchSteps s done' contents) := by
  induction contents generalizing done done' with
  | nil => exact h
  | cons content contents ih =>
    by_cases hgoing : done.exitCode = 0
    · rw [watchSteps_cons hgoing, watchSteps_cons (h.exitCode ▸ hgoing), ← h.files]
      exact ih ⟨rfl, congrArg (· ++ _) h.out, rfl⟩
    · rw [watchSteps_over hgoing, watchSteps_over (h.exitCode ▸ hgoing)]
      exact h

theorem watchSteps_append (before after : List String) (done : RunResult) :
    j.watchSteps s done (before ++ after) = j.watchSteps s (j.watchSteps s done before) after := by
  induction before generalizing done with
  | nil => rfl
  | cons content before ih =>
    by_cases hgoing : done.exitCode = 0
    · rw [List.cons_append, watchSteps_cons hgoing, watchSteps_cons hgoing, ih]
    · rw [watchSteps_over hgoing, watchSteps_over hgoing, watchSteps_over hgoing]

/-- The settings file is there after each of the steps that start-up tells. -/
theorem Watches.hasFile (h : j.Watches s done contents runs result) (hfile : j.HasFile done.printout.files) :
    j.HasFile result.printout.files := by
  induction h with
  | done => exact hfile
  | ended => exact hfile
  | refused _ _ _ ih => exact ih (hfile.later (Grows.refl (fun _ => True) _))
  | accepted _ _ _ ih => exact ih (hfile.rerun s _ _)

/-- A content that start-up refuses changes nothing about the steps from the next content on. -/
theorem refused_unaffected (hlevel : Settings.AcceptedLevel j.level) (h : j.HasFile done.printout.files)
    {e : Failure} (hstart : j.startUp done.printout.files content = .error e) (before : List String) (next : String)
    (after : List String) : (j.watchSteps s done (before ++ content :: next :: after)).SameWork
      (j.watchSteps s done (before ++ next :: after)) := by
  obtain ⟨runs, hwatches, -⟩ := watches_watchSteps (s := s) hlevel before done h
  have h' := hwatches.hasFile h
  rw [h.startUp_eq h' hlevel] at hstart
  rw [watchSteps_append, watchSteps_append]
  generalize j.watchSteps s done before = reached at h' hstart
  by_cases hgoing : reached.exitCode = 0
  · obtain ⟨note, hreload⟩ := reload_refused (s := s) h' hlevel hstart
    have hfiles : j.withContent (j.withContent reached.printout.files content) next =
        j.withContent reached.printout.files next := FileSystem.put_put ..
    rw [watchSteps_cons hgoing, hreload, watchSteps_cons rfl, watchSteps_cons hgoing]
    refine sameWork_watchSteps after ⟨?_, ?_, ?_⟩ <;> simp only [RunResult.andThen, String.append_empty, hfiles]
  · rw [watchSteps_over hgoing, watchSteps_over hgoing]
    exact ⟨rfl, rfl, rfl⟩

end Job

/-! ### Start-up as a whole -/

variable {s : Surroundings} {commandLine : List String} {j : Job} {p₀ : Pipeline}

theorem Settings.pipelineOf_eq_ok_iff {fs : FileSystem} {path level : String} {p : Pipeline} :
    Settings.pipelineOf fs path level = .ok p ↔ ∃ settings, Settings.loadWithLevel fs path level = .ok settings ∧
      settings.build = .ok p := by
  unfold Settings.pipelineOf
  cases Settings.loadWithLevel fs path level with
  | error e => simp [bind, Except.bind]
  | ok settings => cases hbuild : settings.build <;>
      simp [bind, Except.bind, hbuild, throw, throwThe, MonadExceptOf.throw, pure, Except.pure]

/-- A command line is worked on if it is sound and the settings file and the level that it means give a pipeline. -/
theorem start_eq_work_iff {p : Pipeline} : (∃ j, start s commandLine = .work j p) ↔
    ∃ a, Arguments.parse commandLine = .ok a ∧ a.version = false ∧ validateCount a.files 1 usageLine = .ok () ∧
      Settings.pipelineOf s.files (s.settingsFile a) (s.level a) = .ok p := by
  unfold start
  cases hparse : Arguments.parse commandLine with
  | error e => cases e <;> simp
  | ok a =>
  cases hversion : a.version with
  | true => simp [hversion]
  | false =>
  cases hcount : validateCount a.files 1 usageLine with
  | error e => simp [hversion, hcount]
  | ok _ =>
  cases hload : Settings.loadWithLevel s.files (s.settingsFile a) (s.level a) with
  | error e => simp [hversion, hcount, hload, Settings.pipelineOf_eq_ok_iff]
  | ok settings => cases hbuild : settings.build <;> simp [hversion, hcount, hload, hbuild, Settings.pipelineOf_eq_ok_iff]

/-- The job is the one that the command line means. -/
theorem start_work_means (h : start s commandLine = .work j p₀) : Arguments.parse commandLine = .ok j.arguments ∧
    j.settingsFile = s.settingsFile j.arguments ∧ j.level = s.level j.arguments := by
  unfold start at h
  split at h
  · cases h
  · cases h
  · rename_i a hparse
    dsimp only at h
    split at h
    · cases h
    split at h
    · cases h
    split at h
    · cases h
    split at h
    · cases h
    cases h
    exact ⟨hparse, rfl, rfl⟩

/-- With other files, start-up gives the pipeline that their settings file and the same level call for, or refuses. -/
theorem start_work_iff (h : start s commandLine = .work j p₀) (fs : FileSystem) (p : Pipeline) :
    (∃ j', start { s with files := fs } commandLine = .work j' p) ↔
      Settings.pipelineOf fs j.settingsFile j.level = .ok p := by
  obtain ⟨a, hparse, hversion, hcount, -⟩ := start_eq_work_iff.1 ⟨j, h⟩
  obtain ⟨hjob, hsettings, hlevel⟩ := start_work_means h
  obtain rfl : j.arguments = a := Except.ok.inj (hjob.symm.trans hparse)
  rw [start_eq_work_iff, hsettings, hlevel]
  constructor
  · rintro ⟨b, hb, -, -, hp⟩
    obtain rfl : j.arguments = b := Except.ok.inj (hjob.symm.trans hb)
    exact hp
  · intro hp
    exact ⟨j.arguments, hjob, hversion, hcount, hp⟩

/-- The first work on the files, of a tool that will watch its settings. -/
def Job.firstRun (j : Job) (s : Surroundings) (p : Pipeline) : RunResult :=
  let note := j.log.line s.clock .info ("passes: " ++ passList p)
  let (failure, printed) := j.process s s.files p
  let (code, trouble) := j.survive s failure
  let watching := if code = 0 then j.log.line s.clock .info ("watching " ++ j.settingsFile) else ""
  ⟨code, ⟨printed.out, note ++ printed.err ++ trouble ++ watching, printed.files⟩⟩

/-- A tool that watches does its first work and takes up the contents then. -/
theorem runTool_of_watch (h : start s commandLine = .work j p₀) (hwatch : j.arguments.watch) (contents : List String) :
    runTool s commandLine contents = j.watchSteps s (j.firstRun s p₀) contents := by
  rw [runTool, h]
  dsimp only
  rw [if_pos hwatch]
  rfl

/-- A tool that watches its settings agrees with start-up. Each content that start-up from the same command line
accepts leads to a run with the pipeline of start-up, in order, until the tool breaks off. Any other leads to no
run, and what is done for the contents after it is the same as without it. -/
theorem watch_agrees_with_start (hstart : start s commandLine = .work j p₀) (hwatch : j.arguments.watch)
    (hfile : j.HasFile (j.firstRun s p₀).printout.files) (contents : List String) :
    (∀ fs content p, j.startUp fs content = .ok p ↔
      ∃ j', start { s with files := j.withContent fs content } commandLine = .work j' p) ∧
    (∃ runs, j.Watches s (j.firstRun s p₀) contents runs (runTool s commandLine contents) ∧
      runs <+: j.accepted (j.firstRun s p₀).printout.files contents ∧
      ((runTool s commandLine contents).exitCode = 0 → runs = j.accepted (j.firstRun s p₀).printout.files contents)) ∧
    (∀ before content next after e, contents = before ++ content :: next :: after →
      j.startUp (j.firstRun s p₀).printout.files content = .error e →
      (runTool s commandLine contents).SameWork (runTool s commandLine (before ++ next :: after))) := by
  have hlevel : Settings.AcceptedLevel j.level :=
    Settings.acceptedLevel_of_ok ((start_work_iff hstart s.files p₀).1 ⟨j, hstart⟩)
  refine ⟨fun fs content p => (start_work_iff hstart _ p).symm, ?_, ?_⟩
  · rw [runTool_of_watch hstart hwatch]
    exact Job.watches_watchSteps hlevel contents _ hfile
  · rintro before content next after e rfl hrefused
    rw [runTool_of_watch hstart hwatch, runTool_of_watch hstart hwatch]
    exact Job.refused_unaffected hlevel hfile hrefused before next after

/-- A settings file that could be read at the start can be written after the first work. -/
theorem Job.hasFile_firstRun {text : String} (h : s.files.read j.settingsFile = .ok text) (p : Pipeline) :
    j.HasFile (j.firstRun s p).printout.files := hasFile_of_read h (j.process_grows s s.files p)

/-- Settings that say nothing, and a tree that does nothing. -/
def Surroundings.blank : Surroundings where
  files := ⟨[(["scriptopt.json"], "\x7b\x7d"), (["t.json"], "\x7b\"kind\": \"Noop\"\x7d")], []⟩
  environment := []
  platform := ⟨"", "", ""⟩
  clock := ""
  elapsed := ""

/-- Half a content that is then written in full: the run is the one for the full content. -/
theorem watch_blank : ∃ j, start .blank ["-watch", "-O", "basic", "t.json"] = .work j (.ofLevel .basic) ∧
    j.arguments.watch ∧ j.HasFile (j.firstRun .blank (.ofLevel .basic)).printout.files ∧
    (∃ runs, j.Watches .blank (j.firstRun .blank (.ofLevel .basic)) ["\x7b", "\x7b\x7d"] runs
      (runTool .blank ["-watch", "-O", "basic", "t.json"] ["\x7b", "\x7b\x7d"])) ∧
    (runTool .blank ["-watch", "-O", "basic", "t.json"] ["\x7b", "\x7b\x7d"]).SameWork
      (runTool .blank ["-watch", "-O", "basic", "t.json"] ["\x7b\x7d"]) := by
  have hparse : Arguments.parse ["-watch", "-O", "basic", "t.json"] =
      .ok { Arguments.none with watch := true, level := some "basic", files := ["t.json"] } := by decide +kernel
  obtain ⟨j, hstart⟩ : ∃ j, start .blank ["-watch", "-O", "basic", "t.json"] = .work j (.ofLevel .basic) :=
    start_eq_work_iff.2 ⟨_, hparse, rfl, rfl, by decide +kernel⟩
  obtain ⟨hjob, hsettings, -⟩ := start_work_means hstart
  have hargs := Except.ok.inj (hjob.symm.trans hparse)
  have hwatch : j.arguments.watch := by rw [hargs]
  have hread : Surroundings.blank.files.read j.settingsFile = .ok "\x7b\x7d" := by
    rw [hsettings, hargs]
    decide +kernel
  have hfile := j.hasFile_firstRun hread (.ofLevel .basic)
  obtain ⟨-, ⟨runs, hwatches, -⟩, hunaffected⟩ :=
    watch_agrees_with_start hstart hwatch hfile ["\x7b", "\x7b\x7d"]
  have hhalf : Settings.parse "\x7b" = .error .unreadableSettings := by decide +kernel
  exact ⟨j, hstart, hwatch, hfile, ⟨runs, hwatches⟩,
    hunaffected [] "\x7b" "\x7b\x7d" [] _ rfl (Settings.pipelineOf_of_error (hfile.read _).1 hhalf _)⟩

end ScriptTree

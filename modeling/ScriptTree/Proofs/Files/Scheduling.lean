import ScriptTree.Proofs.Files.Interleaving
import ScriptTree.Proofs.Optimize.Totals

/-!
The order of the work does not show when trees are not written anywhere and no file by itself breaks off the work.
The files stay as they are then, so that a task comes to the same result whenever it takes its steps, namely to the
result for its file alone. A failure that is recorded is the failure of such a file; if there is none, all reports
are there, and they are printed by their place in the list.

A file that by itself breaks off the work is printed as a blank report, if there is time before the process dies:
nothing says then which file it was, and how much is printed depends on the order of the steps.
-/

namespace ScriptTree.Batch

open Relation (ReflTransGen)

variable {pipeline : Pipeline} {options : BatchOptions} {jobs : Nat} {fs : FileSystem} {paths : List String}
  {path : String} {s s' : Snapshot} {e : Failure}

/-! ### What holds at any moment -/

/-- How far a task has come fits the work on its file alone. -/
def Stage.Fits (pipeline : Pipeline) (options : BatchOptions) (fs : FileSystem) (path : String) : Stage → Prop
  | .waiting | .begun | .settled none => True
  | .walked w | .ready w => ∃ tree, readTree fs path = .ok tree ∧ w = pipeline.walk tree
  | .prepared _ | .created .. => False
  | .returned result => (processFile pipeline options fs path).result = result
  | .settled (some report) => (processFile pipeline options fs path).result = .ok report

/-- The files are as they were, each task fits its file, a task that settles without a report was cancelled or fails
alone, and a failure is that of a file alone. -/
structure Snapshot.Faithful (pipeline : Pipeline) (options : BatchOptions) (fs : FileSystem) (paths : List String)
    (s : Snapshot) : Prop where
  files : s.files = fs
  stages : ∀ (i : Nat) (path : String) (stage : Stage), paths[i]? = some path → s.stages[i]? = some stage →
    stage.Fits pipeline options fs path
  blanks : ∀ (i : Nat) (path : String) (stage : Stage), paths[i]? = some path → s.stages[i]? = some stage →
    stage = .settled none → s.failure.isSome ∨ (processFile pipeline options fs path).result.toOption = none
  failure : ∀ e, s.failure = some e → ∃ path ∈ paths, ∃ inner,
    (processFile pipeline options fs path).result = .error inner ∧ inner.crash? = none ∧ e = .within path inner
  crashes : ∀ e ∈ s.crashes, e.crash?.isSome ∧ ∃ path ∈ paths, (processFile pipeline options fs path).result = .error e
  death : ∀ e, s.death = some e → e ∈ s.crashes

theorem faithful_start : (Snapshot.start fs paths).Faithful pipeline options fs paths := by
  refine ⟨rfl, fun i path stage _ hi => ?_, fun i path stage _ hi hblank => ?_, nofun, nofun, nofun⟩
  · obtain rfl := Snapshot.eq_waiting_of_start (List.mem_of_getElem? hi)
    trivial
  · obtain rfl := Snapshot.eq_waiting_of_start (List.mem_of_getElem? hi)
    cases hblank

/-- A task that takes a step goes on to fit, and leaves the files as they are. -/
theorem Works.fits {stage stage' : Stage} {fs' : FileSystem} (hemit : options.emitDirectory = "")
    (h : Works pipeline options path (stage, fs) (stage', fs')) (hfits : stage.Fits pipeline options fs path) :
    stage'.Fits pipeline options fs path ∧ fs' = fs := by
  cases h with
  | reads htree => exact ⟨⟨_, htree, rfl⟩, rfl⟩
  | unread hread =>
    refine ⟨?_, rfl⟩
    rw [Stage.Fits, (processFile_plain hemit).2, hread]
    rfl
  | spares => exact ⟨hfits, rfl⟩
  | prepares hsome | unprepared hsome => exact absurd hemit hsome
  | creates | uncreated | fills => exact hfits.elim
  | runs hvalue | fails hvalue =>
    obtain ⟨tree, htree, rfl⟩ := hfits
    refine ⟨?_, rfl⟩
    rw [Stage.Fits, (processFile_plain hemit).2, htree]
    simp only [bind, Except.bind, pure, Except.pure, hvalue]

/-- A task that settles does so as its file alone tells. -/
theorem Snapshot.Faithful.settle (hs : s.Faithful pipeline options fs paths) {i : Nat} (hpath : paths[i]? = some path)
    {result : Except Failure FileReport} (hresult : (processFile pipeline options fs path).result = result) :
    (s.settle i path result).Faithful pipeline options fs paths where
  files := hs.files
  stages := forall_stages_set hs.stages fun path' hpath' => by
    obtain rfl := Option.some.inj (hpath.symm.trans hpath')
    cases result with
    | ok report => exact hresult
    | error e => trivial
  blanks := by
    refine forall_stages_set (fun j path' stage hpath' hj hblank => ?_) fun path' hpath' hblank => ?_
    · refine (hs.blanks j path' stage hpath' hj hblank).imp_left fun hsome => ?_
      simp [Snapshot.settle, hsome]
    · obtain rfl := Option.some.inj (hpath.symm.trans hpath')
      exact .inr (hresult ▸ Option.some.inj (Stage.settled.inj hblank ▸ rfl))
  failure e he := by
    obtain he | ⟨-, he⟩ := Option.or_eq_some_iff.1 he
    · exact hs.failure e he
    · obtain ⟨inner, rfl, hcrash, rfl⟩ := failureOf_eq_some_iff.1 he
      exact ⟨path, List.mem_of_getElem? hpath, inner, hresult, hcrash, rfl⟩
  crashes e he := by
    obtain he | he := List.mem_append.1 he
    · obtain ⟨rfl, hcrash⟩ := mem_crashOf_iff.1 he
      exact ⟨hcrash, path, List.mem_of_getElem? hpath, hresult⟩
    · exact hs.crashes e he
  death e he := List.mem_append_right _ (hs.death e he)

theorem Step.faithful (hemit : options.emitDirectory = "") (h : Step pipeline options jobs paths s s')
    (hs : s.Faithful pipeline options fs paths) : s'.Faithful pipeline options fs paths := by
  cases h with
  | begins =>
    exact { hs with
      stages := forall_stages_set hs.stages fun _ _ => trivial
      blanks := forall_stages_set hs.blanks fun _ _ => nofun }
  | cancels _ _ hfailed =>
    exact { hs with
      stages := forall_stages_set hs.stages fun _ _ => trivial
      blanks := forall_stages_set hs.blanks fun _ _ _ => .inl hfailed }
  | @works i path stage stage' fs' _ hi hpath hworks =>
    rw [hs.files] at hworks
    obtain ⟨hfits, rfl⟩ := hworks.fits hemit (hs.stages i path stage hpath hi)
    refine { hs with files := rfl, stages := forall_stages_set hs.stages ?_, blanks := forall_stages_set hs.blanks ?_ }
    · intro path' hpath'
      exact Option.some.inj (hpath.symm.trans hpath') ▸ hfits
    · rintro path' hpath' rfl
      cases hworks
  | @settles i path result _ hi hpath => exact hs.settle hpath (hs.stages i path _ hpath hi)
  | prints => exact { hs with }
  | @dies e _ he => exact { hs with death := fun e' he' => Option.some.inj he' ▸ he }

theorem Reaches.faithful (hemit : options.emitDirectory = "") (h : Reaches pipeline options jobs fs paths s) :
    s.Faithful pipeline options fs paths := by
  induction h with
  | refl => exact faithful_start
  | tail _ hstep ih => exact hstep.faithful hemit ih

/-- Once all tasks have settled without a failure, the reports are those for the files alone, blank where a file
breaks off the work. -/
theorem Reaches.reports_eq (hemit : options.emitDirectory = "") (h : Reaches pipeline options jobs fs paths s)
    (hsettled : s.Settled) (hnone : s.failure = none) :
    s.stages.map Stage.report? = paths.map fun path => (processFile pipeline options fs path).result.toOption := by
  refine List.ext_getElem (by simp [h.length_eq]) fun i hi hi' => ?_
  rw [List.length_map] at hi hi'
  rw [List.getElem_map, List.getElem_map]
  have hstage := List.getElem?_eq_getElem hi
  have hpath := List.getElem?_eq_getElem hi'
  obtain ⟨report, hreport⟩ := hsettled _ (List.getElem_mem hi)
  rw [hreport] at hstage ⊢
  cases report with
  | none =>
    have hblank := (h.faithful hemit).blanks i _ _ hpath hstage rfl
    exact (hblank.resolve_left (by simp [hnone])).symm
  | some report =>
    have hfits : (processFile pipeline options fs paths[i]).result = .ok report := (h.faithful hemit).stages i _ _ hpath hstage
    rw [hfits]
    rfl

/-! ### A file by itself -/

theorem run_singleton_ok {text : String} : (run pipeline options fs [path]).result = .ok text ↔
    ∃ report, (processFile pipeline options fs path).result = .ok report ∧
      text = String.join (reportTexts options (some report)) := by
  rw [run_singleton]
  cases (processFile pipeline options fs path).result <;> simp [eq_comm]

/-- A file that fails by itself is named. -/
theorem run_singleton_within {inner : Failure} (h : (processFile pipeline options fs path).result = .error inner)
    (hcrash : inner.crash? = none) : (run pipeline options fs [path]).result = .error (.within path inner) := by
  rw [run_singleton, h]
  exact congrArg _ (Failure.labelled_of_not_crash hcrash)

/-- A file breaks off the work by itself if and only if its task does. -/
theorem run_singleton_crash (hcrash : e.crash?.isSome) : (run pipeline options fs [path]).result = .error e ↔
    (processFile pipeline options fs path).result = .error e := by
  rw [run_singleton]
  cases hresult : (processFile pipeline options fs path).result with
  | ok report => simp
  | error inner =>
    cases hinner : inner.crash? with
    | some text => simp [Failure.labelled_of_crash (Option.isSome_of_eq_some hinner)]
    | none =>
      have hne : inner ≠ e := fun heq => by simp [← heq, hinner] at hcrash
      have hne' : .within path inner ≠ e := fun heq => by simp [← heq, Failure.crash?] at hcrash
      simp [Failure.labelled_of_not_crash hinner, hne, hne']

/-- A file does not go well by itself if its task fails. -/
theorem run_singleton_ne_ok {inner : Failure} (h : (processFile pipeline options fs path).result = .error inner)
    (text : String) : (run pipeline options fs [path]).result ≠ .ok text := by
  simp [run_singleton, h]

/-! ### What holds in the end -/

/-- A file that fails by itself settles without a report. -/
theorem Reaches.settled_none_mem (hemit : options.emitDirectory = "") (h : Reaches pipeline options jobs fs paths s)
    (hsettled : s.Settled) (hpath : path ∈ paths) (he : (run pipeline options fs [path]).result = .error e) :
    .settled none ∈ s.stages := by
  obtain ⟨i, hi, rfl⟩ := List.getElem_of_mem hpath
  have hi' : i < s.stages.length := h.length_eq ▸ hi
  obtain ⟨report, hreport⟩ := hsettled _ (List.getElem_mem hi')
  have hfits := (h.faithful hemit).stages i _ _ (List.getElem?_eq_getElem hi) (List.getElem?_eq_getElem hi')
  cases report with
  | none => exact hreport ▸ List.getElem_mem hi'
  | some report =>
    rw [hreport] at hfits
    rw [run_singleton_ok.2 ⟨report, hfits, rfl⟩] at he
    cases he

/-- What is printed for reports one by one, and for their total. -/
theorem join_texts (options : BatchOptions) (reports : List FileReport) :
    String.join (texts options (reports.map some)) =
      String.join (reports.map fun r => String.join (reportTexts options (some r))) ++
        if options.statistics && reports.length > 1 then
          heading options "total:" ++ " " ++
            ((reports.map (·.tally)).foldl Tally.add Tally.empty).describeWith options.time ++ "\n"
        else "" := by
  have hsingles : String.join ((reports.map some).flatMap (reportTexts options)) =
      String.join (reports.map fun r => String.join (reportTexts options (some r))) := by
    induction reports with
    | nil => rfl
    | cons r reports ih => simp [ih]
  have hreports : (reports.map some).reduceOption = reports := (List.filterMap_map ..).trans List.filterMap_some
  simp only [texts, hreports, String.join_append, hsingles, List.length_map, List.foldl_map]
  split <;> simp

/-- The reports for files that go well by themselves. -/
theorem exists_reports (hall : ∀ path ∈ paths, ∃ text, (run pipeline options fs [path]).result = .ok text) :
    ∃ reports, List.Forall₂ (fun path report => (processFile pipeline options fs path).result = .ok report) paths reports := by
  induction paths with
  | nil => exact ⟨[], .nil⟩
  | cons path paths ih =>
    rw [List.forall_mem_cons] at hall
    obtain ⟨⟨text, htext⟩, hrest⟩ := hall
    obtain ⟨report, hreport, -⟩ := run_singleton_ok.1 htext
    obtain ⟨reports, hreports⟩ := ih hrest
    exact ⟨report :: reports, .cons hreport hreports⟩

/-- The tallies of reports are those of the walks of the trees in the files. -/
theorem exists_trees {reports : List FileReport}
    (h : List.Forall₂ (fun path report => (processFile pipeline options fs path).result = .ok report) paths reports) :
    ∃ trees, List.Forall₂ (fun path tree => readTree fs path = .ok tree) paths trees ∧
      reports.map (·.tally) = trees.map fun tree => .ofWalked (pipeline.walk tree) := by
  induction h with
  | nil => exact ⟨[], .nil, rfl⟩
  | cons hreport _ ih =>
    obtain ⟨trees, htrees, htallies⟩ := ih
    obtain ⟨tree, d, htree, -, rfl, -⟩ := processFile_ok hreport
    exact ⟨tree :: trees, .cons htree htrees, congrArg (_ :: ·) htallies⟩

/-- What is promised of the work on files that are not written anywhere. If each file by itself goes well, what they
print by themselves is printed in the order of the list, followed by the total of their statistics if it is asked
for; the text of the total is the same in whatever order they are added up. If one fails, nothing is printed, and the
failure names a file that fails by itself. -/
structure Snapshot.Promised (pipeline : Pipeline) (options : BatchOptions) (fs : FileSystem) (paths : List String)
    (s : Snapshot) : Prop where
  prints : (∀ path ∈ paths, ∃ text, (run pipeline options fs [path]).result = .ok text) → ∃ singles trees total,
    List.Forall₂ (fun path text => (run pipeline options fs [path]).result = .ok text) paths singles ∧
    List.Forall₂ (fun path tree => readTree fs path = .ok tree) paths trees ∧
    Tally.Totals (trees.map fun tree => .ofWalked (pipeline.walk tree)) total ∧
    (∀ tallies other, tallies.Perm (trees.map fun tree => .ofWalked (pipeline.walk tree)) → Tally.Totals tallies other →
      other.describeWith options.time = total.describeWith options.time) ∧
    s.outcome = .ok (String.join singles ++ if options.statistics && paths.length > 1 then
      heading options "total:" ++ " " ++ total.describeWith options.time ++ "\n" else "")
  fails : ∀ path ∈ paths, ∀ e, (run pipeline options fs [path]).result = .error e → s.printed = [] ∧
    ∃ path ∈ paths, ∃ inner, (run pipeline options fs [path]).result = .error (.within path inner) ∧
      s.outcome = .error (.within path inner)

/-- Work that ends with a failure recorded is as promised. -/
theorem Reaches.promised_of_failure (hemit : options.emitDirectory = "") (h : Reaches pipeline options jobs fs paths s)
    (hgoing : s.Going) (hfailure : s.failure = some e) : s.Promised pipeline options fs paths := by
  have hdeath : s.death = none := hgoing
  obtain ⟨path, hpath, inner, hinner, hcrash, rfl⟩ := (h.faithful hemit).failure e hfailure
  constructor
  · intro hall
    obtain ⟨text, htext⟩ := hall path hpath
    exact absurd htext (run_singleton_ne_ok hinner text)
  · intro _ _ _ _
    have hnothing : s.printed = [] := h.printed.resolve_right fun ⟨_, hnone, _⟩ => by simp [hfailure] at hnone
    exact ⟨hnothing, path, hpath, inner, run_singleton_within hinner hcrash, by simp [Snapshot.outcome, hdeath, hfailure]⟩

/-- Work that ends without any failure is as promised. -/
theorem Reaches.promised_of_none (hemit : options.emitDirectory = "") (h : Reaches pipeline options jobs fs paths s)
    (hended : s.Ended options) (hgoing : s.Going) (hnone : s.failure = none) : s.Promised pipeline options fs paths := by
  have hdeath : s.death = none := hgoing
  obtain ⟨hsettled, hprinted⟩ := h.settled hended hgoing hnone
  have hreports := h.reports_eq hemit (hended.of_going hgoing).1 hnone
  rw [Snapshot.texts, hreports] at hprinted
  constructor
  · intro hall
    obtain ⟨reports, hall₂⟩ := exists_reports hall
    obtain ⟨trees, htrees, htallies⟩ := exists_trees hall₂
    have htotal : Tally.Totals (trees.map fun tree => .ofWalked (pipeline.walk tree))
        ((reports.map (·.tally)).foldl Tally.add Tally.empty) := by
      rw [htallies]
      refine Tally.totals_foldl fun t ht => ?_
      obtain ⟨tree, -, rfl⟩ := List.mem_map.1 ht
      exact Tally.sorted_ofWalked _
    have hsome : paths.map (fun path => (processFile pipeline options fs path).result.toOption) = reports.map some := by
      rw [← List.forall₂_eq_eq_eq, List.forall₂_map_left_iff, List.forall₂_map_right_iff]
      exact hall₂.imp fun path report hreport => by rw [hreport]; rfl
    have hsingles : List.Forall₂ (fun path text => (run pipeline options fs [path]).result = .ok text) paths
        (reports.map fun r => String.join (reportTexts options (some r))) :=
      List.forall₂_map_right_iff.2 (hall₂.imp fun _ report hreport => run_singleton_ok.2 ⟨report, hreport, rfl⟩)
    refine ⟨_, trees, _, hsingles, htrees, htotal, fun _ _ hperm hother => hother.describeWith_eq htotal hperm _, ?_⟩
    rw [Snapshot.outcome_eq_ok_iff, hprinted, hsome, join_texts, hall₂.length_eq]
    exact ⟨hdeath, hnone, rfl⟩
  · intro path hpath e he
    obtain ⟨report, hreport⟩ := hsettled _ (h.settled_none_mem hemit (hended.of_going hgoing).1 hpath he)
    cases hreport

/-- The work ends as promised, or the process dies of a file that breaks off the work by itself. What it has printed
until then is the start of what it would print for the files, with blank reports for those that break off. -/
theorem Reaches.promised_or_dead (hemit : options.emitDirectory = "") (h : Reaches pipeline options jobs fs paths s)
    (hended : s.Ended options) : s.Promised pipeline options fs paths ∨ ∃ e, s.death = some e ∧ e.crash?.isSome ∧
      (∃ path ∈ paths, (run pipeline options fs [path]).result = .error e) ∧
      s.printed <+: texts options (paths.map fun path => (processFile pipeline options fs path).result.toOption) := by
  cases hdeath : s.death with
  | none =>
    left
    cases hfailure : s.failure with
    | some e => exact h.promised_of_failure hemit hdeath hfailure
    | none => exact h.promised_of_none hemit hended hdeath hfailure
  | some e =>
    right
    obtain ⟨hcrash, path, hpath, hresult⟩ := (h.faithful hemit).crashes e ((h.faithful hemit).death e hdeath)
    refine ⟨e, rfl, hcrash, ⟨path, hpath, (run_singleton_crash hcrash).2 hresult⟩, ?_⟩
    obtain hnothing | ⟨hsettled, hnone, hprefix⟩ := h.printed
    · exact hnothing ▸ List.nil_prefix
    · rw [Snapshot.texts, h.reports_eq hemit hsettled hnone] at hprefix
      exact hprefix

/-! ### A file that breaks off the work -/

/-- If a file by itself breaks off the work, the process may die of it. -/
theorem exists_dead (hjobs : 1 ≤ jobs) (hpath : path ∈ paths) (hcrash : e.crash?.isSome)
    (h : (run pipeline options fs [path]).result = .error e) :
    ∃ s, Reaches pipeline options jobs fs paths s ∧ s.Ended options ∧ s.outcome = .error e := by
  obtain ⟨i, hi⟩ := List.mem_iff_getElem?.1 hpath
  have hwaiting : (Snapshot.start fs paths).stages[i]? = some .waiting := by
    rw [Snapshot.start, List.getElem?_map, hi]
    rfl
  have hslots : (Snapshot.start fs paths).stages.countP Stage.hasSlot < jobs := by
    refine Nat.lt_of_lt_of_le (Nat.lt_one_iff.2 (List.countP_eq_zero.2 fun stage hmem => ?_)) hjobs
    obtain rfl := Snapshot.eq_waiting_of_start hmem
    exact Bool.false_ne_true
  obtain ⟨fs', hworks, -⟩ := works_result pipeline options fs path
  rw [(run_singleton_crash hcrash).1 h] at hworks
  have hsteps := steps_alone (s := .start fs paths) hworks rfl hwaiting hslots hi
  rw [Snapshot.settle_crash _ _ _ hcrash] at hsteps
  exact ⟨_, hsteps.tail (.dies rfl List.mem_cons_self), .inl rfl, rfl⟩

/-- If all files that fail by themselves break off the work, and there is one, any number of texts may be printed. -/
theorem exists_dead_printed (hjobs : 1 ≤ jobs) (hemit : options.emitDirectory = "") (hpath : path ∈ paths)
    (h : (run pipeline options fs [path]).result = .error e)
    (hall : ∀ path ∈ paths, ∀ e, (run pipeline options fs [path]).result = .error e → e.crash?.isSome) (k : Nat) :
    ∃ s, Reaches pipeline options jobs fs paths s ∧ s.Ended options ∧ (∃ e, s.outcome = .error e ∧ e.crash?.isSome) ∧
      s.printed = (texts options (paths.map fun path => (processFile pipeline options fs path).result.toOption)).take k := by
  have hstart : Reaches pipeline options jobs fs paths (.start fs paths) := .refl
  obtain ⟨s, hsteps, hsettled, hgoing, hnothing⟩ := hstart.exists_settled hjobs rfl
  have hs : Reaches pipeline options jobs fs paths s := hsteps
  have hnone : s.failure = none := Option.eq_none_iff_forall_ne_some.2 fun e he => by
    obtain ⟨path, hpath, inner, hinner, hcrash, rfl⟩ := (hs.faithful hemit).failure e he
    simpa [Failure.crash?] using hall path hpath _ (run_singleton_within hinner hcrash)
  have hreports := hs.reports_eq hemit hsettled hnone
  have hblank : .settled none ∈ s.stages := hs.settled_none_mem hemit hsettled hpath h
  obtain ⟨e, he⟩ := List.exists_mem_of_ne_nil _ ((hs.failed_or_crashed hblank).resolve_left (by simp [hnone]))
  have hprints : ReflTransGen (Step pipeline options jobs paths) s _ := steps_prints s hgoing hsettled hnone hnothing k
  refine ⟨_, (hs.trans hprints).tail (.dies hgoing he), .inl rfl, ⟨e, rfl, ((hs.faithful hemit).crashes e he).1⟩, ?_⟩
  simp only [Snapshot.texts, hreports]

/-- Whatever the order of the steps, the work on files that are not written anywhere comes to an end and leaves them
as they are, and it ends as promised unless the process dies of a file that breaks off the work by itself. It ends as
promised in every order if and only if there is no such file. -/
theorem output_scheduling_independent (hjobs : 1 ≤ jobs) (hemit : options.emitDirectory = "") (pipeline : Pipeline)
    (fs : FileSystem) (paths : List String) :
    (WellFounded fun s' s => Step pipeline options jobs paths s s') ∧
    (∀ s, Reaches pipeline options jobs fs paths s →
      (s.Ended options ∨ ∃ s', Step pipeline options jobs paths s s') ∧ s.files = fs) ∧
    (∀ s, Reaches pipeline options jobs fs paths s → s.Ended options → s.Promised pipeline options fs paths ∨
      ∃ e, s.death = some e ∧ e.crash?.isSome ∧ (∃ path ∈ paths, (run pipeline options fs [path]).result = .error e) ∧
        s.printed <+: texts options (paths.map fun path => (processFile pipeline options fs path).result.toOption)) ∧
    ((∀ s, Reaches pipeline options jobs fs paths s → s.Ended options → s.Promised pipeline options fs paths) ↔
      ∀ path ∈ paths, ∀ e, (run pipeline options fs [path]).result = .error e → e.crash? = none) := by
  refine ⟨Step.wellFounded .., fun s hs => ⟨hs.ended_or_step hjobs, (hs.faithful hemit).files⟩,
    fun s hs hended => hs.promised_or_dead hemit hended, fun hpromised path hpath e he => ?_, fun hnone s hs hended => ?_⟩
  · rw [← Option.not_isSome_iff_eq_none]
    intro hcrash
    obtain ⟨s, hs, hended, houtcome⟩ := exists_dead hjobs hpath hcrash he
    obtain ⟨-, _, -, inner, -, hnamed⟩ := (hpromised s hs hended).fails path hpath e he
    obtain rfl : e = .within _ inner := Except.error.inj (houtcome.symm.trans hnamed)
    cases hcrash
  · refine (hs.promised_or_dead hemit hended).resolve_right ?_
    rintro ⟨e, -, hcrash, ⟨path, hpath, he⟩, -⟩
    simp [hnone path hpath e he] at hcrash

def noops : FileSystem :=
  ⟨[(["a.json"], "\x7b\"kind\": \"Noop\"\x7d"), (["b.json"], "\x7b\"kind\": \"Noop\"\x7d")], []⟩

/-- Two trees are printed in the order of the list, whichever is done first. -/
theorem output_noops : (∃ s, Reaches .standard ⟨false, "", false, false, ""⟩ 2 noops ["b.json", "a.json"] s ∧
      s.Ended ⟨false, "", false, false, ""⟩) ∧
    ∀ s, Reaches .standard ⟨false, "", false, false, ""⟩ 2 noops ["b.json", "a.json"] s →
      s.Ended ⟨false, "", false, false, ""⟩ → s.outcome = .ok "b.json:\nNoop\na.json:\nNoop\n" := by
  have hjobs : 1 ≤ 2 := by decide
  have hemit : BatchOptions.emitDirectory ⟨false, "", false, false, ""⟩ = "" := rfl
  have ha : (run .standard ⟨false, "", false, false, ""⟩ noops ["a.json"]).result = .ok "a.json:\nNoop\n" := by
    decide +kernel
  have hb : (run .standard ⟨false, "", false, false, ""⟩ noops ["b.json"]).result = .ok "b.json:\nNoop\n" := by
    decide +kernel
  constructor
  · obtain ⟨s, hs, hended, -⟩ := run_reaches hjobs .standard ⟨false, "", false, false, ""⟩ noops ["b.json", "a.json"]
    exact ⟨s, hs, hended⟩
  intro s hs hended
  obtain ⟨-, -, -, hpromised⟩ := output_scheduling_independent hjobs hemit .standard noops ["b.json", "a.json"]
  obtain ⟨singles, _, _, hsingles, _, _, _, houtcome⟩ :=
    (hpromised.2 (by simp [ha, hb]) s hs hended).prints (by simp [ha, hb])
  rw [houtcome]
  cases hsingles with
  | cons hfirst hrest =>
  cases hrest with
  | cons hsecond hrest =>
  cases hrest
  cases hb.symm.trans hfirst
  cases ha.symm.trans hsecond
  rfl

/-- A sum without operands. -/
def bareSumText : String := "\x7b\"kind\": \"Binary\", \"text\": \"+\"\x7d"

/-- A file with a sum without operands. -/
def bareSum : FileSystem := ⟨[(["a.json"], bareSumText)], []⟩

theorem readTree_bareSum : readTree bareSum "a.json" = .ok (.construct .binary "+" .unknown []) := by
  have hcontent : bareSum.read "a.json" = .ok bareSumText := by decide +kernel
  have hjson : Json.parseFirst bareSumText = some (.obj [("kind", .str "Binary"), ("text", .str "+")]) := by cbv
  rw [readTree, hcontent]
  simp only [Node.decodeFirst, hjson]
  rfl

theorem execute_bareSum : execute (.construct .binary "+" .unknown []) = .error (.missingChild 0 0) := by
  have hfuel : scriptFuel = (scriptFuel - 1) + 1 := by decide
  rw [execute, hfuel]
  rfl

/-- A tree that lacks a child breaks off the work when it runs. Nothing says in which file it is, and the start of a
blank report may be printed. -/
theorem bareSum_dead (k : Nat) : ∃ s, Reaches .standard ⟨true, "", false, false, ""⟩ 1 bareSum ["a.json"] s ∧
    s.Ended ⟨true, "", false, false, ""⟩ ∧ (∃ e, s.outcome = .error e ∧ e.crash?.isSome) ∧
    s.printed = [":\n", "  result: void\n"].take k := by
  have hresult : (processFile .standard ⟨true, "", false, false, ""⟩ bareSum "a.json").result = .error (.missingChild 0 0) := by
    rw [(processFile_plain rfl).2, readTree_bareSum]
    have hwalk : (Pipeline.standard.walk (.construct .binary "+" .unknown [])).tree = .construct .binary "+" .unknown [] := rfl
    simp only [bind, Except.bind, valueOf, if_true, hwalk, execute_bareSum]
  have hrun : (run .standard ⟨true, "", false, false, ""⟩ bareSum ["a.json"]).result = .error (.missingChild 0 0) :=
    (run_singleton_crash rfl).2 hresult
  obtain ⟨s, hs, hended, hdead, hprinted⟩ := exists_dead_printed (Nat.le_refl 1) rfl (List.mem_singleton_self _) hrun
    (fun path hpath e he => by
      obtain rfl := List.mem_singleton.1 hpath
      rw [hrun] at he
      cases he
      rfl) k
  rw [List.map_singleton, hresult] at hprinted
  exact ⟨s, hs, hended, hdead, hprinted⟩

end ScriptTree.Batch

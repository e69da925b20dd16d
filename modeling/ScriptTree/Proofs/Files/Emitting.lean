import ScriptTree.Proofs.Files.Interleaving

/-!
Writing trees into a directory while several files are worked on. Input files outside the directory are not
touched, so each task writes the tree of its own file. Files with the same base name are written to the same
place, and the task that fills it last decides what is there. If all trees that go to a place have the same text,
a place holds this text, or nothing while a task that has created it has yet to fill it.
-/

namespace ScriptTree.Batch

open FileSystem (Grows)

variable {pipeline : Pipeline} {options : BatchOptions} {jobs : Nat} {fs : FileSystem} {paths : List String}
  {tree : String → Node} {path other : String} {s s' : Snapshot}

/-! ### Inputs -/

/-- A place in a directory or below. -/
def Below (directory place : Location) : Prop := ∃ names, (∀ c ∈ names, Ordinary c) ∧ place = directory ++ names

/-- Files with trees, outside the directory that trees are written to. -/
structure Inputs (options : BatchOptions) (fs : FileSystem) (paths : List String) (tree : String → Node) : Prop where
  base : fs.KeepsBase
  directory : options.emitDirectory ≠ ""
  trees : ∀ path ∈ paths, readTree fs path = .ok (tree path)
  outside : ∀ path ∈ paths, ¬ Below (placeOf options.emitDirectory) (placeOf path)

/-- The places that trees are written to. -/
def Targets (options : BatchOptions) (paths : List String) (place : Location) : Prop :=
  ∃ path ∈ paths, place = placeOf (targetOf options path)

theorem Inputs.ordinary (h : Inputs options fs paths tree) (hpath : path ∈ paths) : Ordinary (baseName path) := by
  obtain ⟨content, hread, -⟩ := readTree_eq_ok_iff.1 (h.trees path hpath)
  exact FileSystem.ordinary_baseName h.base hread

theorem Inputs.placeOf_targetOf (h : Inputs options fs paths tree) (hpath : path ∈ paths) :
    placeOf (targetOf options path) = placeOf options.emitDirectory ++ [baseName path] :=
  placeOf_joinPath h.directory (h.ordinary hpath)

/-- Trees go to the same place only if their files have the same base name. -/
theorem Inputs.baseName_eq (h : Inputs options fs paths tree) (hpath : path ∈ paths) (hother : other ∈ paths)
    (heq : placeOf (targetOf options path) = placeOf (targetOf options other)) : baseName path = baseName other := by
  rw [h.placeOf_targetOf hpath, h.placeOf_targetOf hother] at heq
  exact (List.append_singleton_inj.1 heq).2

theorem Inputs.not_targets (h : Inputs options fs paths tree) (hpath : path ∈ paths) :
    ¬ Targets options paths (placeOf path) := by
  rintro ⟨other, hother, heq⟩
  refine h.outside path hpath ⟨[baseName other], ?_, heq.trans (h.placeOf_targetOf hother)⟩
  simpa using h.ordinary hother

/-- The inputs stay readable whatever is written into the directory. -/
theorem Inputs.readTree_eq (h : Inputs options fs paths tree) (hpath : path ∈ paths) {fs' : FileSystem}
    (hgrows : Grows (Targets options paths) fs fs') : readTree fs' path = .ok (tree path) := by
  obtain ⟨content, hread, hdecode⟩ := readTree_eq_ok_iff.1 (h.trees path hpath)
  obtain ⟨l, hlocate, hholds⟩ := FileSystem.read_eq_ok_iff.1 hread
  have hfree : ¬ Targets options paths l := FileSystem.placeOf_of_locate hlocate ▸ h.not_targets hpath
  exact readTree_eq_ok_iff.2 ⟨content, FileSystem.read_eq_ok_iff.2
    ⟨l, hgrows.locate hlocate, hgrows.untouched l content hfree hholds⟩, hdecode⟩

/-! ### What holds at any moment -/

/-- A task that has its tree has the one of its file, and creates the file that the tree goes to. -/
def Stage.Carries (w : Walked) (place : Location) : Stage → Prop
  | .walked v | .prepared v | .ready v => v = w
  | .created v place' => v = w ∧ place' = place
  | _ => True

/-- The task has created the file that its tree goes to. -/
def Stage.Started : Stage → Prop
  | .created .. | .ready _ | .returned (.ok _) | .settled (some _) => True
  | _ => False

/-- The task has created the file at the place and has yet to fill it. -/
def Stage.Opens (place : Location) : Stage → Prop
  | .created _ place' => place' = place
  | _ => False

/-- What the tree of a file is written as. -/
def textOf (pipeline : Pipeline) (n : Node) : String := (pipeline.walk n).tree.encode

/-- The file that a tree goes to holds the text of the tree, or nothing while a task has yet to fill it. -/
def Snapshot.HoldsText (pipeline : Pipeline) (options : BatchOptions) (tree : String → Node) (s : Snapshot)
    (path : String) : Prop :=
  s.files.locate (targetOf options path) = .ok (placeOf (targetOf options path)) ∧
    ∃ c, s.files.Holds (placeOf (targetOf options path)) c ∧ (c = textOf pipeline (tree path) ∨
      c = "" ∧ ∃ stage ∈ s.stages, stage.Opens (placeOf (targetOf options path)))

/-- Only places that trees go to are touched, each task carries the tree of its file, and what it has created holds
the text of this tree. -/
structure Snapshot.Emits (pipeline : Pipeline) (options : BatchOptions) (fs : FileSystem) (paths : List String)
    (tree : String → Node) (s : Snapshot) : Prop where
  grows : Grows (Targets options paths) fs s.files
  carries : ∀ (i : Nat) (path : String) (stage : Stage), paths[i]? = some path → s.stages[i]? = some stage →
    stage.Carries (pipeline.walk (tree path)) (placeOf (targetOf options path))
  holds : ∀ (i : Nat) (path : String) (stage : Stage), paths[i]? = some path → s.stages[i]? = some stage →
    stage.Started → s.HoldsText pipeline options tree path

theorem emits_start : (Snapshot.start fs paths).Emits pipeline options fs paths tree := by
  refine ⟨.refl .., fun i path stage _ hi => ?_, fun i path stage _ hi hstarted => ?_⟩
  · obtain rfl := Snapshot.eq_waiting_of_start (List.mem_of_getElem? hi)
    trivial
  · obtain rfl := Snapshot.eq_waiting_of_start (List.mem_of_getElem? hi)
    exact hstarted.elim

/-- A step that neither creates nor fills a file. -/
theorem Snapshot.Emits.quiet (h : s.Emits pipeline options fs paths tree) {i : Nat} {stage : Stage} {fs' : FileSystem}
    (hi : s.stages[i]? = some stage) (stage' : Stage) (hopens : ∀ place, ¬ stage.Opens place) (hstarted : stage'.Started → stage.Started)
    (hcarries : ∀ path, paths[i]? = some path → stage'.Carries (pipeline.walk (tree path)) (placeOf (targetOf options path)))
    (hgrows : Grows (fun _ => False) s.files fs') (hfiles : s'.files = fs') (hstages : s'.stages = s.stages.set i stage') :
    s'.Emits pipeline options fs paths tree := by
  subst hfiles
  have hkeeps (path : String) (hholds : s.HoldsText pipeline options tree path) :
      s'.HoldsText pipeline options tree path := by
    obtain ⟨hlocate, c, hc, htext⟩ := hholds
    refine ⟨hgrows.locate hlocate, c, hgrows.untouched _ c id hc, htext.imp_right (.imp_right ?_)⟩
    rintro ⟨opener, hmem, hopener⟩
    exact ⟨opener, hstages ▸ mem_set_of_ne hmem hi fun heq => hopens _ (heq ▸ hopener), hopener⟩
  exact ⟨h.grows.trans (hgrows.weaken _), hstages ▸ forall_stages_set h.carries hcarries,
    hstages ▸ forall_stages_set (fun j path stage'' hpath hj hst => hkeeps path (h.holds j path stage'' hpath hj hst))
      fun path hpath hst => hkeeps path (h.holds i path stage hpath hi (hstarted hst))⟩

/-- A file that is put elsewhere by a task that has not opened this one. -/
theorem Snapshot.HoldsText.put_ne (h : s.HoldsText pipeline options tree path) {touched : Location → Prop} {i : Nat}
    {stage stage' : Stage} {place : Location} {content : String} (hi : s.stages[i]? = some stage)
    (hput : Grows touched s.files (s.files.put place content)) (hopens : ∀ place', stage.Opens place' → place = place')
    (hne : place ≠ placeOf (targetOf options path)) :
    ({ s with files := s.files.put place content, stages := s.stages.set i stage' } : Snapshot).HoldsText pipeline options
      tree path := by
  obtain ⟨hlocate, c, hc, htext⟩ := h
  refine ⟨hput.locate hlocate, c, (FileSystem.holds_put_ne hne).2 hc, htext.imp_right (.imp_right ?_)⟩
  rintro ⟨opener, hmem, hopener⟩
  exact ⟨opener, mem_set_of_ne hmem hi fun heq => hne (hopens _ (heq ▸ hopener)), hopener⟩

/-- A file that is created holds nothing, and its task has yet to fill it. -/
theorem Snapshot.Emits.create (h : s.Emits pipeline options fs paths tree) {i : Nat} {w : Walked} {place : Location}
    (hi : s.stages[i]? = some (.prepared w)) (hpath : paths[i]? = some path)
    (hplace : s.files.locate (targetOf options path) = .ok place) (hfree : ¬ s.files.Directory place) :
    ({ s with files := s.files.put place "", stages := s.stages.set i (.created w place) } : Snapshot).Emits pipeline
      options fs paths tree := by
  have htarget : placeOf (targetOf options path) = place := FileSystem.placeOf_of_locate hplace
  have hput : Grows (Targets options paths) s.files (s.files.put place "") :=
    .put hfree ⟨path, List.mem_of_getElem? hpath, htarget.symm⟩ ""
  have hcreated : Stage.created w place ∈ s.stages.set i (.created w place) :=
    List.mem_set (List.getElem?_eq_some_iff.1 hi).1 _
  -- whoever writes to the same place finds nothing there until this task has filled it
  have hempty (other : String) (hlocate : s.files.locate (targetOf options other) = .ok (placeOf (targetOf options other)))
      (heq : place = placeOf (targetOf options other)) : ({ s with
        files := s.files.put place "", stages := s.stages.set i (.created w place) } : Snapshot).HoldsText pipeline
          options tree other :=
    ⟨hput.locate hlocate, "", heq ▸ FileSystem.holds_put .., .inr ⟨rfl, _, hcreated, heq⟩⟩
  refine ⟨h.grows.trans hput, forall_stages_set h.carries fun other hother => ?_,
    forall_stages_set (fun j other stage hother hj hst => ?_) fun other hother _ => ?_⟩
  · obtain rfl := Option.some.inj (hpath.symm.trans hother)
    exact ⟨h.carries i path _ hpath hi, htarget.symm⟩
  · have hholds := h.holds j other stage hother hj hst
    by_cases heq : place = placeOf (targetOf options other)
    · exact hempty other hholds.1 heq
    · exact hholds.put_ne hi hput nofun heq
  · obtain rfl := Option.some.inj (hpath.symm.trans hother)
    exact hempty path (htarget.symm ▸ hplace) htarget.symm

/-- A file that is filled holds the text of the tree, for every task whose tree goes there. -/
theorem Snapshot.Emits.fill (h : s.Emits pipeline options fs paths tree) (hinputs : Inputs options fs paths tree)
    (hagree : ∀ path ∈ paths, ∀ other ∈ paths, baseName path = baseName other →
      textOf pipeline (tree path) = textOf pipeline (tree other))
    {i : Nat} {w : Walked} {place : Location} {content : String} (hi : s.stages[i]? = some (.created w place))
    (hpath : paths[i]? = some path) (hfills : Fills s.files place w.tree.encode content) :
    ({ s with files := s.files.put place content, stages := s.stages.set i (.ready w) } : Snapshot).Emits pipeline
      options fs paths tree := by
  have hmem : path ∈ paths := List.mem_of_getElem? hpath
  obtain ⟨rfl, htarget⟩ := h.carries i path _ hpath hi
  obtain ⟨-, c, hc, htext⟩ := h.holds i path _ hpath hi trivial
  rw [← htarget] at hc
  obtain rfl : content = textOf pipeline (tree path) := by
    refine hfills.eq_of_le c hc ?_
    rcases htext with rfl | ⟨rfl, -⟩
    · exact Nat.le_refl _
    · exact Nat.zero_le _
  have hput : Grows (Targets options paths) s.files (s.files.put place (textOf pipeline (tree path))) :=
    .put hc.not_directory ⟨path, hmem, htarget⟩ _
  have hkeeps (other : String) (hother : other ∈ paths) (hholds : s.HoldsText pipeline options tree other) :
      ({ s with
        files := s.files.put place (textOf pipeline (tree path))
        stages := s.stages.set i (.ready (pipeline.walk (tree path))) } : Snapshot).HoldsText pipeline options tree
          other := by
    by_cases heq : place = placeOf (targetOf options other)
    · have hsame := hagree path hmem other hother (hinputs.baseName_eq hmem hother (htarget.symm.trans heq))
      exact ⟨hput.locate hholds.1, _, heq ▸ FileSystem.holds_put .., .inl hsame⟩
    · exact hholds.put_ne hi hput (fun _ hopens => hopens) heq
  refine ⟨h.grows.trans hput, forall_stages_set h.carries fun other hother => ?_,
    forall_stages_set (fun j other stage hother hj hst => ?_) fun other hother _ => ?_⟩
  · obtain rfl := Option.some.inj (hpath.symm.trans hother)
    rfl
  · exact hkeeps other (List.mem_of_getElem? hother) (h.holds j other stage hother hj hst)
  · obtain rfl := Option.some.inj (hpath.symm.trans hother)
    exact hkeeps path hmem (h.holds i path _ hpath hi trivial)

theorem Step.emits (hinputs : Inputs options fs paths tree)
    (hagree : ∀ path ∈ paths, ∀ other ∈ paths, baseName path = baseName other →
      textOf pipeline (tree path) = textOf pipeline (tree other))
    (h : Step pipeline options jobs paths s s') (hs : s.Emits pipeline options fs paths tree) :
    s'.Emits pipeline options fs paths tree := by
  cases h with
  | begins _ hi => exact hs.quiet hi .begun nofun nofun (fun _ _ => trivial) (.refl ..) rfl rfl
  | cancels _ hi => exact hs.quiet hi (.settled none) nofun nofun (fun _ _ => trivial) (.refl ..) rfl rfl
  | @settles i path result _ hi hpath =>
    cases result with
    | ok report => exact hs.quiet hi (.settled (some report)) nofun (fun _ => trivial) (fun _ _ => trivial) (.refl ..) rfl rfl
    | error e => exact hs.quiet hi (.settled none) nofun nofun (fun _ _ => trivial) (.refl ..) rfl rfl
  | prints | dies => exact ⟨hs.grows, hs.carries, hs.holds⟩
  | @works i path stage stage' fs' _ hi hpath hworks =>
    have hcarries := hs.carries i path stage hpath hi
    generalize hbefore : s.files = before at hworks
    cases hworks with
    | @reads _ n htree =>
      subst hbefore
      refine hs.quiet hi (.walked (pipeline.walk n)) nofun nofun (fun other hother => ?_) (.refl ..) rfl rfl
      obtain rfl := Option.some.inj (hpath.symm.trans hother)
      have heq := (hinputs.readTree_eq (List.mem_of_getElem? hpath) hs.grows).symm.trans htree
      exact congrArg pipeline.walk (Except.ok.inj heq).symm
    | unread => exact hbefore ▸ hs.quiet hi (.returned (.error _)) nofun nofun (fun _ _ => trivial) (.refl ..) rfl rfl
    | spares hnone => exact absurd hnone hinputs.directory
    | @prepares _ _ w _ hmake =>
      subst hbefore
      refine hs.quiet hi (.prepared w) nofun nofun (fun other hother => ?_) (.makeDirectories hmake) rfl rfl
      obtain rfl := Option.some.inj (hpath.symm.trans hother)
      exact hcarries
    | unprepared => exact hbefore ▸ hs.quiet hi (.returned (.error _)) nofun nofun (fun _ _ => trivial) (.refl ..) rfl rfl
    | creates hplace hwrite =>
      subst hbefore
      obtain ⟨l, hl, hfree, rfl⟩ := FileSystem.write_eq_ok_iff.1 hwrite
      obtain rfl := Except.ok.inj (hplace.symm.trans hl)
      exact hs.create hi hpath hplace hfree
    | uncreated => exact hbefore ▸ hs.quiet hi (.returned (.error _)) nofun nofun (fun _ _ => trivial) (.refl ..) rfl rfl
    | fills hfills =>
      subst hbefore
      exact hs.fill hinputs hagree hi hpath hfills
    | runs => exact hbefore ▸ hs.quiet hi (.returned (.ok _)) nofun (fun _ => trivial) (fun _ _ => trivial) (.refl ..) rfl rfl
    | fails => exact hbefore ▸ hs.quiet hi (.returned (.error _)) nofun nofun (fun _ _ => trivial) (.refl ..) rfl rfl

theorem Reaches.emits (hinputs : Inputs options fs paths tree)
    (hagree : ∀ path ∈ paths, ∀ other ∈ paths, baseName path = baseName other →
      textOf pipeline (tree path) = textOf pipeline (tree other))
    (h : Reaches pipeline options jobs fs paths s) : s.Emits pipeline options fs paths tree := by
  induction h with
  | refl => exact emits_start
  | tail _ hstep ih => exact hstep.emits hinputs hagree ih

/-! ### What is there in the end -/

/-- Work that ends well has written every tree for good if and only if trees whose files have the same base name
have the same text. Otherwise some tree is lost, whatever the order of the steps. -/
theorem emitted_files_iff (hinputs : Inputs options fs paths tree) (hreaches : Reaches pipeline options jobs fs paths s)
    (hended : s.Ended options) {text : String} (houtcome : s.outcome = .ok text) :
    (∀ path ∈ paths, s.files.read (targetOf options path) = .ok (textOf pipeline (tree path))) ↔
      ∀ path ∈ paths, ∀ other ∈ paths, baseName path = baseName other →
        textOf pipeline (tree path) = textOf pipeline (tree other) := by
  constructor
  · intro hread path hpath other hother hname
    have htarget : targetOf options other = targetOf options path := by rw [targetOf, targetOf, hname]
    have hlast := hread other hother
    rw [htarget] at hlast
    exact Except.ok.inj ((hread path hpath).symm.trans hlast)
  · intro hagree path hpath
    obtain ⟨hgoing, hnone, -⟩ := Snapshot.outcome_eq_ok_iff.1 houtcome
    obtain ⟨hsettled, -⟩ := hreaches.settled hended hgoing hnone
    obtain ⟨i, hi, rfl⟩ := List.getElem_of_mem hpath
    have hi' : i < s.stages.length := hreaches.length_eq ▸ hi
    obtain ⟨report, hreport⟩ := hsettled _ (List.getElem_mem hi')
    obtain ⟨hlocate, c, hc, htext⟩ := (hreaches.emits hinputs hagree).holds i _ _ (List.getElem?_eq_getElem hi)
      (List.getElem?_eq_getElem hi') (hreport ▸ trivial)
    rcases htext with rfl | ⟨-, opener, hmem, hopens⟩
    · exact FileSystem.read_eq_ok_iff.2 ⟨_, hlocate, hc⟩
    · obtain ⟨other, rfl⟩ := hsettled opener hmem
      exact hopens.elim

def twoFiles : FileSystem :=
  ⟨[(["a", "x.json"], "\x7b\"kind\": \"Noop\"\x7d"), (["b", "y.json"], "\x7b\"kind\": \"Break\"\x7d")], []⟩

def twoTrees (path : String) : Node :=
  if path = "a/x.json" then .construct .noop "" .unknown [] else .construct .breakLoop "" .unknown []

theorem inputs_twoFiles : Inputs ⟨false, "out", false, false, ""⟩ twoFiles ["a/x.json", "b/y.json"] twoTrees where
  base := by decide
  directory := by decide
  trees := by
    have hnoop : Json.parseFirst "\x7b\"kind\": \"Noop\"\x7d" = some (.obj [("kind", .str "Noop")]) := by cbv
    have hbreak : Json.parseFirst "\x7b\"kind\": \"Break\"\x7d" = some (.obj [("kind", .str "Break")]) := by cbv
    have ha : readTree twoFiles "a/x.json" = .ok (twoTrees "a/x.json") := by
      refine readTree_eq_ok_iff.2 ⟨"\x7b\"kind\": \"Noop\"\x7d", by decide +kernel, ?_⟩
      rw [Node.decodeFirst, hnoop]
      rfl
    have hb : readTree twoFiles "b/y.json" = .ok (twoTrees "b/y.json") := by
      refine readTree_eq_ok_iff.2 ⟨"\x7b\"kind\": \"Break\"\x7d", by decide +kernel, ?_⟩
      rw [Node.decodeFirst, hbreak]
      rfl
    simp [ha, hb]
  outside := by
    have hout : placeOf "out" = ["out"] := by decide +kernel
    have ha : placeOf "a/x.json" = ["a", "x.json"] := by decide +kernel
    have hb : placeOf "b/y.json" = ["b", "y.json"] := by decide +kernel
    simp [Below, hout, ha, hb]

/-- Two trees from different directories are both there in the end. -/
theorem emitted_twoFiles : ∃ s, Reaches .standard ⟨false, "out", false, false, ""⟩ 2 twoFiles ["a/x.json", "b/y.json"] s ∧
    s.Ended ⟨false, "out", false, false, ""⟩ ∧ s.outcome = .ok "a/x.json:\nb/y.json:\n" ∧
    ∀ path ∈ ["a/x.json", "b/y.json"], s.files.read (targetOf ⟨false, "out", false, false, ""⟩ path) =
      .ok (textOf .standard (twoTrees path)) := by
  have hrun : (run .standard ⟨false, "out", false, false, ""⟩ twoFiles ["a/x.json", "b/y.json"]).result =
      .ok "a/x.json:\nb/y.json:\n" := by decide +kernel
  have hjobs : 1 ≤ 2 := by decide
  obtain ⟨s, hreaches, hended, houtcome, -⟩ :=
    run_reaches hjobs .standard ⟨false, "out", false, false, ""⟩ twoFiles ["a/x.json", "b/y.json"]
  rw [hrun] at houtcome
  have hnames : baseName "a/x.json" = "x.json" ∧ baseName "b/y.json" = "y.json" := by decide +kernel
  exact ⟨s, hreaches, hended, houtcome, (emitted_files_iff inputs_twoFiles hreaches hended houtcome).2 (by simp [hnames])⟩

end ScriptTree.Batch

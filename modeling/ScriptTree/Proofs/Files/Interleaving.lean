import Mathlib.Logic.Relation
import ScriptTree.Proofs.Files.Tasks

/-!
The work on a list of files when several are worked on at a time. The task for each file waits for one of a
number of slots. Then it reads and walks the tree, makes the directory, creates the file, fills it, and runs the
tree; between these steps other tasks take theirs. The first failure is recorded, and a task that is still
waiting then may be cancelled. When all tasks have settled without a failure, the reports are printed, text by
text.

A tree that lacks a child which its run asks for breaks off everything, but not at once: its task settles without
a report and without a failure, and the others go on, with printing too, until the process dies of it.

No order of the steps goes on for ever or gets stuck, and one of them does what the work in the order of the
list does.
-/

namespace ScriptTree

open Relation (ReflTransGen)

namespace Batch

/-! ### The steps -/

/-- How far the task for a file has come. -/
inductive Stage where
  | waiting
  | begun
  | walked (w : Walked)
  | prepared (w : Walked)
  | created (w : Walked) (place : Location)
  | ready (w : Walked)
  | returned (result : Except Failure FileReport)
  | settled (report : Option FileReport)

def Stage.hasSlot : Stage → Bool
  | .waiting | .returned _ | .settled _ => false
  | _ => true

/-- The report of a task that has settled. -/
def Stage.report? : Stage → Option FileReport
  | .settled report => report
  | _ => none

/-- The work at some moment: the files, how far each task has come, by its place in the list, the failure recorded,
what breaks off the work, the texts printed, and what the process has died of. -/
structure Snapshot where
  files : FileSystem
  stages : List Stage
  failure : Option Failure
  crashes : List Failure
  printed : List String
  death : Option Failure

/-- What a file may hold once it is filled from its start: the text, and after it what was there and is longer. -/
structure Fills (fs : FileSystem) (place : Location) (text content : String) : Prop where
  starts : text.toList <+: content.toList
  eq_of_le : ∀ old, fs.Holds place old → old.utf8ByteSize ≤ text.utf8ByteSize → content = text

/-- The datum that a tree yields, if trees are run. -/
def valueOf (options : BatchOptions) (tree : Node) : Except Failure Datum :=
  if options.execute then execute tree else .ok .undefined

variable {pipeline : Pipeline} {options : BatchOptions} {jobs : Nat} {paths : List String}

/-- A step of a task that has a slot. -/
inductive Works (pipeline : Pipeline) (options : BatchOptions) (path : String) :
    Stage × FileSystem → Stage × FileSystem → Prop
  | reads {fs : FileSystem} {tree : Node} (h : readTree fs path = .ok tree) :
    Works pipeline options path (.begun, fs) (.walked (pipeline.walk tree), fs)
  | unread {fs : FileSystem} {e : Failure} (h : readTree fs path = .error e) :
    Works pipeline options path (.begun, fs) (.returned (.error e), fs)
  | spares {fs : FileSystem} {w : Walked} (hnone : options.emitDirectory = "") :
    Works pipeline options path (.walked w, fs) (.ready w, fs)
  | prepares {fs fs' : FileSystem} {w : Walked} (hsome : options.emitDirectory ≠ "")
    (h : fs.makeDirectories (directoryOf (targetOf options path)) = .ok fs') :
    Works pipeline options path (.walked w, fs) (.prepared w, fs')
  | unprepared {fs : FileSystem} {w : Walked} {e : FileError} (hsome : options.emitDirectory ≠ "")
    (h : fs.makeDirectories (directoryOf (targetOf options path)) = .error e) :
    Works pipeline options path (.walked w, fs) (.returned (.error (.file e)), fs)
  | creates {fs fs' : FileSystem} {w : Walked} {place : Location} (hplace : fs.locate (targetOf options path) = .ok place)
    (h : fs.write (targetOf options path) "" = .ok fs') :
    Works pipeline options path (.prepared w, fs) (.created w place, fs')
  | uncreated {fs : FileSystem} {w : Walked} {e : FileError} (h : fs.write (targetOf options path) "" = .error e) :
    Works pipeline options path (.prepared w, fs) (.returned (.error (.file e)), fs)
  | fills {fs : FileSystem} {w : Walked} {place : Location} {content : String} (h : Fills fs place w.tree.encode content) :
    Works pipeline options path (.created w place, fs) (.ready w, fs.put place content)
  | runs {fs : FileSystem} {w : Walked} {d : Datum} (h : valueOf options w.tree = .ok d) :
    Works pipeline options path (.ready w, fs) (.returned (.ok ⟨path, w.tree, .ofWalked w, d⟩), fs)
  | fails {fs : FileSystem} {w : Walked} {e : Failure} (h : valueOf options w.tree = .error e) :
    Works pipeline options path (.ready w, fs) (.returned (.error e), fs)

/-- The failure that a task records: none if it breaks off the work, since it counts as done then. -/
def failureOf (path : String) : Except Failure FileReport → Option Failure
  | .ok _ => none
  | .error e => if e.crash?.isSome then none else some (e.labelled path)

/-- What a task breaks off the work with, if it does. -/
def crashOf : Except Failure FileReport → List Failure
  | .ok _ => []
  | .error e => if e.crash?.isSome then [e] else []

theorem failureOf_eq_some_iff {path : String} {result : Except Failure FileReport} {e : Failure} :
    failureOf path result = some e ↔ ∃ inner, result = .error inner ∧ inner.crash? = none ∧ e = .within path inner := by
  cases result with
  | ok => simp [failureOf]
  | error inner =>
    cases hcrash : inner.crash? with
    | none => simp [failureOf, hcrash, Failure.labelled_of_not_crash hcrash, eq_comm]
    | some => simp [failureOf, hcrash]

theorem mem_crashOf_iff {result : Except Failure FileReport} {e : Failure} :
    e ∈ crashOf result ↔ result = .error e ∧ e.crash?.isSome := by
  cases result with
  | ok => simp [crashOf]
  | error inner =>
    cases hcrash : inner.crash? with
    | none => simpa [crashOf, hcrash] using fun heq => heq ▸ hcrash
    | some text =>
      have hbreaks : inner.crash?.isSome := by simp [hcrash]
      rw [crashOf, if_pos hbreaks, List.mem_singleton, Except.error.injEq]
      constructor
      · rintro rfl
        exact ⟨rfl, hbreaks⟩
      · exact fun h => h.1.symm

namespace Snapshot

/-- Nothing is done yet. -/
def start (fs : FileSystem) (paths : List String) : Snapshot := ⟨fs, paths.map fun _ => .waiting, none, [], [], none⟩

/-- The process lives. -/
def Going (s : Snapshot) : Prop := s.death = none

def Settled (s : Snapshot) : Prop := ∀ stage ∈ s.stages, ∃ report, stage = .settled report

/-- The texts to print once all tasks have settled. -/
def texts (options : BatchOptions) (s : Snapshot) : List String := Batch.texts options (s.stages.map Stage.report?)

/-- The process has died, or all tasks have settled and either there is a failure or everything is printed. What
breaks off the work is waited for. -/
def Ended (options : BatchOptions) (s : Snapshot) : Prop :=
  s.death.isSome ∨ s.Settled ∧ (s.failure.isSome ∨ s.crashes = [] ∧ s.printed = s.texts options)

/-- Takes the result of a task. A failure after the first one changes nothing. -/
def settle (s : Snapshot) (i : Nat) (path : String) (result : Except Failure FileReport) : Snapshot :=
  { s with
    stages := s.stages.set i (.settled result.toOption)
    failure := s.failure.or (failureOf path result)
    crashes := crashOf result ++ s.crashes }

theorem settle_crash (s : Snapshot) (i : Nat) (path : String) {e : Failure} (h : e.crash?.isSome) :
    s.settle i path (.error e) = { s with stages := s.stages.set i (.settled none), crashes := e :: s.crashes } := by
  simp [settle, failureOf, crashOf, h, Except.toOption]

theorem settle_failure (s : Snapshot) (i : Nat) (path : String) {e : Failure} (h : e.crash? = none) :
    s.settle i path (.error e) =
      { s with stages := s.stages.set i (.settled none), failure := s.failure.or (some (e.labelled path)) } := by
  simp [settle, failureOf, crashOf, h, Except.toOption]

/-- What is printed in the end, or why not all is. -/
def outcome (s : Snapshot) : Except Failure String :=
  match s.death <|> s.failure with
  | some e => .error e
  | none => .ok (String.join s.printed)

end Snapshot

/-- One step of the work, with a number of slots for the tasks. -/
inductive Step (pipeline : Pipeline) (options : BatchOptions) (jobs : Nat) (paths : List String) :
    Snapshot → Snapshot → Prop
  | begins {s : Snapshot} {i : Nat} (hgoing : s.Going) (hi : s.stages[i]? = some .waiting)
    (hslot : s.stages.countP Stage.hasSlot < jobs) :
    Step pipeline options jobs paths s { s with stages := s.stages.set i .begun }
  | cancels {s : Snapshot} {i : Nat} (hgoing : s.Going) (hi : s.stages[i]? = some .waiting) (hfailed : s.failure.isSome) :
    Step pipeline options jobs paths s { s with stages := s.stages.set i (.settled none) }
  | works {s : Snapshot} {i : Nat} {path : String} {stage stage' : Stage} {fs : FileSystem} (hgoing : s.Going)
    (hi : s.stages[i]? = some stage) (hpath : paths[i]? = some path)
    (h : Works pipeline options path (stage, s.files) (stage', fs)) :
    Step pipeline options jobs paths s { s with files := fs, stages := s.stages.set i stage' }
  | settles {s : Snapshot} {i : Nat} {path : String} {result : Except Failure FileReport} (hgoing : s.Going)
    (hi : s.stages[i]? = some (.returned result)) (hpath : paths[i]? = some path) :
    Step pipeline options jobs paths s (s.settle i path result)
  | prints {s : Snapshot} {text : String} (hgoing : s.Going) (hsettled : s.Settled) (hnone : s.failure = none)
    (htext : s.printed ++ [text] <+: s.texts options) :
    Step pipeline options jobs paths s { s with printed := s.printed ++ [text] }
  | dies {s : Snapshot} {e : Failure} (hgoing : s.Going) (he : e ∈ s.crashes) :
    Step pipeline options jobs paths s { s with death := some e }

/-- What some order of the steps leads to. -/
def Reaches (pipeline : Pipeline) (options : BatchOptions) (jobs : Nat) (fs : FileSystem) (paths : List String)
    (s : Snapshot) : Prop := ReflTransGen (Step pipeline options jobs paths) (.start fs paths) s

/-! ### No order of the steps goes on for ever or gets stuck -/

/-- How many steps are left to a task at most. -/
def Stage.left : Stage → Nat
  | .waiting => 7
  | .begun => 6
  | .walked _ => 5
  | .prepared _ => 4
  | .created .. => 3
  | .ready _ => 2
  | .returned _ => 1
  | .settled _ => 0

/-- What is left to do at most: the steps of all tasks, then the texts to print, then dying. The texts are known
only when all tasks have settled, so the earlier numbers count for more. -/
def Snapshot.left (options : BatchOptions) (s : Snapshot) : Nat × Nat × Nat :=
  ((s.stages.map Stage.left).sum, (s.texts options).length - s.printed.length, if s.death.isNone then 1 else 0)

theorem sum_left_set {stages : List Stage} {i : Nat} {stage stage' : Stage} (hi : stages[i]? = some stage)
    (h : stage'.left < stage.left) : ((stages.set i stage').map Stage.left).sum < (stages.map Stage.left).sum := by
  induction stages generalizing i with
  | nil => cases hi
  | cons first stages ih =>
    cases i with
    | zero =>
      cases hi
      simpa using h
    | succ i =>
      have := ih hi
      simpa using this

theorem Works.left_lt {path : String} {t t' : Stage × FileSystem} (h : Works pipeline options path t t') :
    t'.1.left < t.1.left := by
  cases h <;> simp [Stage.left]

theorem Step.left_lt {s s' : Snapshot} (h : Step pipeline options jobs paths s s') :
    Prod.Lex (· < ·) (Prod.Lex (· < ·) (· < ·)) (s'.left options) (s.left options) := by
  cases h with
  | begins _ hi => exact .left _ _ (sum_left_set hi (by simp [Stage.left]))
  | cancels _ hi => exact .left _ _ (sum_left_set hi (by simp [Stage.left]))
  | works _ hi _ hworks => exact .left _ _ (sum_left_set hi hworks.left_lt)
  | settles _ hi => exact .left _ _ (sum_left_set hi (by simp [Stage.left]))
  | @prints text _ _ _ htext =>
    have hle : s.printed.length + 1 ≤ (s.texts options).length := by simpa using htext.length_le
    have hlt : (s.texts options).length - (s.printed ++ [text]).length < (s.texts options).length - s.printed.length := by
      rw [List.length_append, List.length_singleton]
      omega
    exact .right _ (.left _ _ hlt)
  | dies hgoing =>
    have hdeath : s.death = none := hgoing
    exact .right _ (.right _ (by simp [hdeath]))

/-- No order of the steps goes on for ever. -/
theorem Step.wellFounded (pipeline : Pipeline) (options : BatchOptions) (jobs : Nat) (paths : List String) :
    WellFounded fun s' s => Step pipeline options jobs paths s s' :=
  Subrelation.wf (fun h => h.left_lt)
    (InvImage.wf (Snapshot.left options) (Prod.lex Nat.lt_wfRel (Prod.lex Nat.lt_wfRel Nat.lt_wfRel)).wf)

/-- A task that has a slot can take a step. -/
theorem Works.exists {stage : Stage} (h : stage.hasSlot) (pipeline : Pipeline) (options : BatchOptions) (path : String)
    (fs : FileSystem) : ∃ t, Works pipeline options path (stage, fs) t := by
  cases stage with
  | waiting | returned | settled => cases h
  | begun =>
    cases hread : readTree fs path with
    | ok tree => exact ⟨_, .reads hread⟩
    | error e => exact ⟨_, .unread hread⟩
  | walked w =>
    by_cases hnone : options.emitDirectory = ""
    · exact ⟨_, .spares hnone⟩
    · cases hmake : fs.makeDirectories (directoryOf (targetOf options path)) with
      | ok fs' => exact ⟨_, .prepares hnone hmake⟩
      | error e => exact ⟨_, .unprepared hnone hmake⟩
  | prepared w =>
    cases hwrite : fs.write (targetOf options path) "" with
    | ok fs' =>
      obtain ⟨place, hplace, -⟩ := FileSystem.write_eq_ok_iff.1 hwrite
      exact ⟨_, .creates hplace hwrite⟩
    | error e => exact ⟨_, .uncreated hwrite⟩
  | created w place => exact ⟨_, .fills ⟨List.prefix_rfl, fun _ _ _ => rfl⟩⟩
  | ready w =>
    cases hvalue : valueOf options w.tree with
    | ok d => exact ⟨_, .runs hvalue⟩
    | error e => exact ⟨_, .fails hvalue⟩

theorem Step.length_eq {s s' : Snapshot} (h : Step pipeline options jobs paths s s') :
    s'.stages.length = s.stages.length := by
  cases h with
  | prints | dies => rfl
  | _ => exact List.length_set

theorem Reaches.length_eq {fs : FileSystem} {s : Snapshot} (h : Reaches pipeline options jobs fs paths s) :
    s.stages.length = paths.length := by
  induction h with
  | refl => simp [Snapshot.start]
  | tail _ hstep ih => exact hstep.length_eq.trans ih

theorem Snapshot.eq_waiting_of_start {fs : FileSystem} {stage : Stage} (hmem : stage ∈ (Snapshot.start fs paths).stages) :
    stage = .waiting := by
  obtain ⟨_, -, rfl⟩ := List.mem_map.1 hmem
  rfl

/-- There is a file for each task. -/
theorem Reaches.exists_path {fs : FileSystem} {s : Snapshot} (h : Reaches pipeline options jobs fs paths s) {i : Nat}
    {stage : Stage} (hi : s.stages[i]? = some stage) : ∃ path, paths[i]? = some path := by
  have hlt : i < s.stages.length := (List.getElem?_eq_some_iff.1 hi).1
  rw [h.length_eq] at hlt
  exact ⟨paths[i], List.getElem?_eq_getElem hlt⟩

/-- A task that has settled has nothing left to do. -/
theorem Snapshot.Settled.left_eq_zero {s : Snapshot} (h : s.Settled) {i : Nat} {stage : Stage}
    (hi : s.stages[i]? = some stage) : stage.left = 0 := by
  obtain ⟨report, rfl⟩ := h stage (List.mem_of_getElem? hi)
  rfl

/-- Nothing is printed before all tasks have settled without a failure; then the texts are printed in order. -/
theorem Reaches.printed {fs : FileSystem} {s : Snapshot} (h : Reaches pipeline options jobs fs paths s) :
    s.printed = [] ∨ s.Settled ∧ s.failure = none ∧ s.printed <+: s.texts options := by
  induction h with
  | refl => exact .inl rfl
  | @tail s s' _ hstep ih =>
    -- a task that takes a step had not settled, so nothing was printed yet
    have hnothing {i : Nat} {stage : Stage} (hi : s.stages[i]? = some stage) (hleft : 0 < stage.left) : s.printed = [] :=
      ih.resolve_right fun h => Nat.ne_of_gt hleft (h.1.left_eq_zero hi)
    cases hstep with
    | begins _ hi => exact .inl (hnothing hi (by simp [Stage.left]))
    | cancels _ hi => exact .inl (hnothing hi (by simp [Stage.left]))
    | works _ hi _ hworks => exact .inl (hnothing hi (Nat.zero_lt_of_lt hworks.left_lt))
    | settles _ hi => exact .inl (hnothing hi (by simp [Stage.left]))
    | prints _ hsettled hnone htext => exact .inr ⟨hsettled, hnone, htext⟩
    | dies => exact ih

/-- A task settles without a report only if there is a failure or the work is broken off. -/
theorem Reaches.failed_or_crashed {fs : FileSystem} {s : Snapshot} (h : Reaches pipeline options jobs fs paths s) :
    .settled none ∈ s.stages → s.failure.isSome ∨ s.crashes ≠ [] := by
  induction h with
  | refl => simp [Snapshot.start]
  | @tail s _ _ hstep ih =>
    intro hmem
    cases hstep with
    | begins => exact ih ((List.mem_or_eq_of_mem_set hmem).resolve_right nofun)
    | cancels _ _ hfailed => exact .inl hfailed
    | works _ _ _ hworks =>
      refine ih ((List.mem_or_eq_of_mem_set hmem).resolve_right ?_)
      rintro rfl
      cases hworks
    | @settles i path result =>
      cases result with
      | ok report =>
        have hbefore := ih ((List.mem_or_eq_of_mem_set hmem).resolve_right nofun)
        simpa [Snapshot.settle, failureOf, crashOf] using hbefore
      | error e =>
        cases hcrash : e.crash? with
        | none =>
          rw [s.settle_failure i path hcrash]
          cases s.failure <;> simp
        | some text => simp [s.settle_crash i path (Option.isSome_of_eq_some hcrash)]
    | prints | dies => exact ih hmem

theorem Snapshot.outcome_eq_ok_iff {s : Snapshot} {text : String} :
    s.outcome = .ok text ↔ s.death = none ∧ s.failure = none ∧ String.join s.printed = text := by
  rw [Snapshot.outcome]
  cases s.death <;> cases s.failure <;> simp

theorem Snapshot.Ended.of_going {s : Snapshot} (h : s.Ended options) (hgoing : s.Going) :
    s.Settled ∧ (s.failure.isSome ∨ s.crashes = [] ∧ s.printed = s.texts options) :=
  h.resolve_left (by rw [hgoing]; nofun)

/-- Without a failure all tasks have settled with a report in the end, and the reports are printed. -/
theorem Reaches.settled {fs : FileSystem} {s : Snapshot} (h : Reaches pipeline options jobs fs paths s)
    (hended : s.Ended options) (hgoing : s.Going) (hnone : s.failure = none) :
    (∀ stage ∈ s.stages, ∃ report, stage = .settled (some report)) ∧ s.printed = s.texts options := by
  obtain ⟨hsettled, hdone⟩ := hended.of_going hgoing
  obtain ⟨hcrashes, hprinted⟩ := hdone.resolve_left (by simp [hnone])
  refine ⟨fun stage hmem => ?_, hprinted⟩
  obtain ⟨report, rfl⟩ := hsettled stage hmem
  cases report with
  | none => simpa [hnone, hcrashes] using h.failed_or_crashed hmem
  | some report => exact ⟨report, rfl⟩

/-- There is a step to take until all tasks have settled, as long as there is a slot at all. -/
theorem Reaches.exists_step {fs : FileSystem} {s : Snapshot} (h : Reaches pipeline options jobs fs paths s)
    (hjobs : 1 ≤ jobs) (hgoing : s.Going) (hunsettled : ¬ s.Settled) :
    ∃ s', Step pipeline options jobs paths s s' ∧ s'.Going ∧ s'.printed = s.printed := by
  by_cases hslots : s.stages.countP Stage.hasSlot = 0
  · rw [Snapshot.Settled] at hunsettled
    push Not at hunsettled
    obtain ⟨stage, hmem, hsettled⟩ := hunsettled
    obtain ⟨i, hi⟩ := List.mem_iff_getElem?.1 hmem
    obtain ⟨path, hpath⟩ := h.exists_path hi
    have hnone : ¬ stage.hasSlot := List.countP_eq_zero.1 hslots stage hmem
    cases stage with
    | waiting => exact ⟨_, .begins hgoing hi (hslots ▸ hjobs), hgoing, rfl⟩
    | returned result => exact ⟨_, .settles hgoing hi hpath, hgoing, rfl⟩
    | settled report => exact absurd rfl (hsettled report)
    | begun | walked | prepared | created | ready => exact absurd rfl hnone
  · obtain ⟨stage, hmem, hslot⟩ := List.countP_pos_iff.1 (Nat.pos_of_ne_zero hslots)
    obtain ⟨i, hi⟩ := List.mem_iff_getElem?.1 hmem
    obtain ⟨path, hpath⟩ := h.exists_path hi
    obtain ⟨⟨stage', fs'⟩, hworks⟩ := Works.exists hslot pipeline options path s.files
    exact ⟨_, .works hgoing hi hpath hworks, hgoing, rfl⟩

/-- There is a step to take until everything has ended. -/
theorem Reaches.ended_or_step {fs : FileSystem} {s : Snapshot} (h : Reaches pipeline options jobs fs paths s)
    (hjobs : 1 ≤ jobs) : s.Ended options ∨ ∃ s', Step pipeline options jobs paths s s' := by
  cases hdeath : s.death with
  | some e => exact .inl (.inl (by simp [hdeath]))
  | none =>
  by_cases hsettled : s.Settled
  · cases hfailure : s.failure with
    | some e => exact .inl (.inr ⟨hsettled, .inl (by simp [hfailure])⟩)
    | none =>
    have hprinted : s.printed <+: s.texts options := by
      obtain hnil | ⟨-, -, hprefix⟩ := h.printed
      · exact hnil ▸ List.nil_prefix
      · exact hprefix
    obtain ⟨rest, hrest⟩ := hprinted
    cases rest with
    | cons text rest => exact .inr ⟨_, .prints hdeath hsettled hfailure ⟨rest, by simpa using hrest⟩⟩
    | nil =>
      cases hcrashes : s.crashes with
      | nil => exact .inl (.inr ⟨hsettled, .inr ⟨hcrashes, by simpa using hrest⟩⟩)
      | cons e crashes => exact .inr ⟨_, .dies hdeath (hcrashes ▸ List.mem_cons_self)⟩
  · obtain ⟨s', hstep, -⟩ := h.exists_step hjobs hdeath hsettled
    exact .inr ⟨s', hstep⟩

/-- Whatever has been done, all tasks can settle before the process dies. -/
theorem Reaches.exists_settled {fs : FileSystem} {s : Snapshot} (h : Reaches pipeline options jobs fs paths s)
    (hjobs : 1 ≤ jobs) (hgoing : s.Going) :
    ∃ s', ReflTransGen (Step pipeline options jobs paths) s s' ∧ s'.Settled ∧ s'.Going ∧ s'.printed = s.printed := by
  induction s using (Step.wellFounded pipeline options jobs paths).induction with
  | _ s ih =>
    by_cases hsettled : s.Settled
    · exact ⟨s, .refl, hsettled, hgoing, rfl⟩
    · obtain ⟨s', hstep, hgoing', hprinted⟩ := h.exists_step hjobs hgoing hsettled
      obtain ⟨s'', hsteps, hsettled', hgoing'', hprinted'⟩ := ih s' hstep (h.tail hstep) hgoing'
      exact ⟨s'', .head hstep hsteps, hsettled', hgoing'', hprinted'.trans hprinted⟩

/-- Once all tasks have settled without a failure, any number of the texts can be printed. -/
theorem steps_prints (s : Snapshot) (hgoing : s.Going) (hsettled : s.Settled) (hnone : s.failure = none)
    (hnothing : s.printed = []) (k : Nat) :
    ReflTransGen (Step pipeline options jobs paths) s { s with printed := (s.texts options).take k } := by
  induction k with
  | zero =>
    rw [List.take_zero, ← hnothing]
  | succ k ih =>
    rw [List.take_add_one]
    cases htext : (s.texts options)[k]? with
    | none => simpa using ih
    | some text =>
      have hprefix : (s.texts options).take k ++ [text] <+: s.texts options := by
        simpa [List.take_add_one, htext] using List.take_prefix (k + 1) (s.texts options)
      exact ih.tail (.prints hgoing hsettled hnone hprefix)

/-! ### Replacing a stage -/

/-- What is true of each stage stays so when one is replaced by one of which it is true. -/
theorem forall_stages_set {P : String → Stage → Prop} {stages : List Stage} {i : Nat} {stage : Stage}
    (h : ∀ (j : Nat) (path : String) (stage' : Stage), paths[j]? = some path → stages[j]? = some stage' → P path stage')
    (hstage : ∀ path, paths[i]? = some path → P path stage) :
    ∀ (j : Nat) (path : String) (stage' : Stage), paths[j]? = some path → (stages.set i stage)[j]? = some stage' →
      P path stage' := by
  intro j path stage' hpath hj
  rw [List.getElem?_set] at hj
  split at hj
  · rename_i heq
    subst heq
    split at hj
    · cases hj; exact hstage path hpath
    · cases hj
  · exact h j path stage' hpath hj

/-- A stage other than the one that is replaced stays. -/
theorem mem_set_of_ne {stages : List Stage} {i : Nat} {stage stage' new : Stage} (hmem : stage' ∈ stages)
    (hi : stages[i]? = some stage) (hne : stage' ≠ stage) : stage' ∈ stages.set i new := by
  obtain ⟨j, hj⟩ := List.mem_iff_getElem?.1 hmem
  have hij : i ≠ j := fun heq => hne (Option.some.inj (hj.symm.trans (heq ▸ hi)))
  exact List.mem_of_getElem? ((List.getElem?_set_ne hij).trans hj)

/-! ### One task after the other -/

/-- A task can do all its work while the others do nothing. -/
theorem steps_of_works {s : Snapshot} {i : Nat} {path : String} {stage stage' : Stage} {fs fs' : FileSystem}
    (hworks : ReflTransGen (Works pipeline options path) (stage, fs) (stage', fs')) (hgoing : s.Going)
    (hi : i < s.stages.length) (hpath : paths[i]? = some path) :
    ReflTransGen (Step pipeline options jobs paths) { s with files := fs, stages := s.stages.set i stage }
      { s with files := fs', stages := s.stages.set i stage' } := by
  generalize ht' : (stage', fs') = t' at hworks
  induction hworks generalizing stage' fs' with
  | refl => cases ht'; exact .refl
  | @tail t _ _ hstep ih =>
    subst ht'
    have hset : (s.stages.set i t.1)[i]? = some t.1 := by simp [hi]
    have hlast : Step pipeline options jobs paths { s with files := t.2, stages := s.stages.set i t.1 }
        { s with files := fs', stages := (s.stages.set i t.1).set i stage' } := .works hgoing hset hpath hstep
    rw [List.set_set] at hlast
    exact (ih rfl).tail hlast

/-- A task can do all there is to do for its file while no other has a slot. -/
theorem steps_alone {s : Snapshot} {i : Nat} {path : String} {result : Except Failure FileReport} {fs : FileSystem}
    (hworks : ReflTransGen (Works pipeline options path) (.begun, s.files) (.returned result, fs)) (hgoing : s.Going)
    (hi : s.stages[i]? = some .waiting) (hidle : s.stages.countP Stage.hasSlot < jobs) (hpath : paths[i]? = some path) :
    ReflTransGen (Step pipeline options jobs paths) s (({ s with files := fs } : Snapshot).settle i path result) := by
  have hlt := (List.getElem?_eq_some_iff.1 hi).1
  have hset : (s.stages.set i (.returned result))[i]? = some (.returned result) := by simp [hlt]
  have hsettle : Step pipeline options jobs paths { s with files := fs, stages := s.stages.set i (.returned result) } _ :=
    .settles hgoing hset hpath
  refine .head (.begins hgoing hi hidle) ((steps_of_works hworks hgoing hlt hpath).tail ?_)
  simpa [Snapshot.settle, List.set_set] using hsettle

variable {fs : FileSystem} {path : String}

/-- What the work on a file comes to when its tree is not written anywhere. -/
theorem processFile_plain (hemit : options.emitDirectory = "") : (processFile pipeline options fs path).files = fs ∧
    (processFile pipeline options fs path).result = (do
      let tree ← readTree fs path
      let d ← valueOf options (pipeline.walk tree).tree
      return ⟨path, (pipeline.walk tree).tree, .ofWalked (pipeline.walk tree), d⟩) := by
  unfold processFile valueOf
  cases readTree fs path with
  | error e => exact ⟨rfl, rfl⟩
  | ok tree =>
    dsimp only
    rw [if_pos hemit]
    dsimp only [bind, Except.bind]
    cases (if options.execute then execute (pipeline.walk tree).tree else .ok .undefined) <;> exact ⟨rfl, rfl⟩

/-- What the work on a file has done if it succeeds. -/
theorem processFile_ok {report : FileReport} (h : (processFile pipeline options fs path).result = .ok report) :
    ∃ tree d, readTree fs path = .ok tree ∧ valueOf options (pipeline.walk tree).tree = .ok d ∧
      report = ⟨path, (pipeline.walk tree).tree, .ofWalked (pipeline.walk tree), d⟩ ∧
      (if options.emitDirectory = "" then .ok fs else emit fs options.emitDirectory path (pipeline.walk tree).tree) =
        .ok (processFile pipeline options fs path).files := by
  unfold processFile at h ⊢
  cases htree : readTree fs path with
  | error e => rw [htree] at h; cases h
  | ok tree =>
  simp only [htree] at h ⊢
  cases hwritten : (if options.emitDirectory = "" then .ok fs
      else emit fs options.emitDirectory path (pipeline.walk tree).tree) with
  | error e => rw [hwritten] at h; cases h
  | ok fs' =>
  simp only [hwritten] at h ⊢
  cases hvalue : (if options.execute then execute (pipeline.walk tree).tree else .ok .undefined) with
  | error e => rw [hvalue] at h; cases h
  | ok d =>
  rw [hvalue] at h
  cases h
  exact ⟨tree, d, rfl, hvalue, rfl, hwritten⟩

/-- The steps of a task come to what the work on the file comes to, if its tree is not written anywhere. -/
theorem works_plain (hemit : options.emitDirectory = "") : ReflTransGen (Works pipeline options path) (.begun, fs)
    (.returned (processFile pipeline options fs path).result, fs) := by
  rw [(processFile_plain hemit).2]
  cases hread : readTree fs path with
  | error e => exact .single (.unread hread)
  | ok tree =>
    have hready : ReflTransGen (Works pipeline options path) (.begun, fs) (.ready (pipeline.walk tree), fs) :=
      (ReflTransGen.single (.reads hread)).tail (.spares hemit)
    dsimp only [bind, Except.bind]
    cases hvalue : valueOf options (pipeline.walk tree).tree with
    | error e => exact hready.tail (.fails hvalue)
    | ok d => exact hready.tail (.runs hvalue)

/-- A tree is written in three steps. -/
theorem works_emit {w : Walked} {fs' : FileSystem} (hemit : options.emitDirectory ≠ "")
    (h : emit fs options.emitDirectory path w.tree = .ok fs') :
    ReflTransGen (Works pipeline options path) (.walked w, fs) (.ready w, fs') := by
  obtain ⟨fs₁, hmake, hwrite⟩ := emit_eq_ok_iff.1 h
  obtain ⟨place, hplace, hfree, rfl⟩ := FileSystem.write_eq_ok_iff.1 hwrite
  have hempty : fs₁.write (targetOf options path) "" = .ok (fs₁.put place "") :=
    FileSystem.write_eq_ok_iff.2 ⟨place, hplace, hfree, rfl⟩
  rw [← FileSystem.put_put fs₁ place ""]
  exact ((ReflTransGen.single (.prepares hemit hmake)).tail (.creates hplace hempty)).tail
    (.fills ⟨List.prefix_rfl, fun _ _ _ => rfl⟩)

/-- Where a tree cannot be written, a directory may have been made for it. -/
theorem works_emit_error {w : Walked} {e : Failure} (hemit : options.emitDirectory ≠ "")
    (h : emit fs options.emitDirectory path w.tree = .error e) :
    ∃ fs', ReflTransGen (Works pipeline options path) (.walked w, fs) (.returned (.error e), fs') := by
  unfold emit at h
  dsimp only at h
  cases hmake : fs.makeDirectories (directoryOf (joinPath options.emitDirectory (baseName path))) with
  | error e' =>
    rw [hmake] at h
    cases h
    exact ⟨fs, .single (.unprepared hemit hmake)⟩
  | ok fs₁ =>
    simp only [hmake] at h
    cases hwrite : fs₁.write (joinPath options.emitDirectory (baseName path)) w.tree.encode with
    | error e' =>
      rw [hwrite] at h
      cases h
      exact ⟨fs₁, (ReflTransGen.single (.prepares hemit hmake)).tail (.uncreated (FileSystem.write_eq_error hwrite ""))⟩
    | ok fs₂ =>
      rw [hwrite] at h
      cases h

/-- The steps of a task come to what the work on the file comes to. -/
theorem works_result (pipeline : Pipeline) (options : BatchOptions) (fs : FileSystem) (path : String) :
    ∃ fs', ReflTransGen (Works pipeline options path) (.begun, fs)
        (.returned (processFile pipeline options fs path).result, fs') ∧
      ∀ report, (processFile pipeline options fs path).result = .ok report →
        fs' = (processFile pipeline options fs path).files := by
  by_cases hemit : options.emitDirectory = ""
  · have hfiles : (processFile pipeline options fs path).files = fs := (processFile_plain hemit).1
    exact ⟨fs, works_plain hemit, fun _ _ => hfiles.symm⟩
  cases htree : readTree fs path with
  | error e =>
    have hresult : (processFile pipeline options fs path).result = .error e := by rw [processFile, htree]
    rw [hresult]
    exact ⟨fs, .single (.unread htree), fun _ h => by cases h⟩
  | ok tree =>
  have hwalked : ReflTransGen (Works pipeline options path) (.begun, fs) (.walked (pipeline.walk tree), fs) :=
    .single (.reads htree)
  cases hwritten : emit fs options.emitDirectory path (pipeline.walk tree).tree with
  | error e =>
    have hresult : (processFile pipeline options fs path).result = .error e := by
      simp only [processFile, htree, if_neg hemit, hwritten]
    rw [hresult]
    obtain ⟨fs', hworks⟩ := works_emit_error hemit hwritten
    exact ⟨fs', hwalked.trans hworks, fun _ h => by cases h⟩
  | ok fs' =>
  have hready := hwalked.trans (works_emit hemit hwritten)
  cases hvalue : valueOf options (pipeline.walk tree).tree with
  | error e =>
    have hresult : (processFile pipeline options fs path).result = .error e := by
      rw [valueOf] at hvalue
      simp only [processFile, htree, if_neg hemit, hwritten, hvalue]
    rw [hresult]
    exact ⟨fs', hready.tail (.fails hvalue), fun _ h => by cases h⟩
  | ok d =>
    have hdone : (processFile pipeline options fs path).result =
          .ok ⟨path, (pipeline.walk tree).tree, .ofWalked (pipeline.walk tree), d⟩ ∧
        (processFile pipeline options fs path).files = fs' := by
      rw [valueOf] at hvalue
      simp only [processFile, htree, if_neg hemit, hwritten, hvalue, and_self]
    rw [hdone.1, hdone.2]
    exact ⟨fs', hready.tail (.runs hvalue), fun _ _ => rfl⟩

/-- What is left to do once a failure is recorded can be cancelled, if no task is at work. -/
theorem exists_ended_of_failure {s : Snapshot} {e : Failure} (hgoing : s.Going) (hfailure : s.failure = some e)
    (hidle : ∀ stage ∈ s.stages, stage = .waiting ∨ ∃ report, stage = .settled report) :
    ∃ s', ReflTransGen (Step pipeline options jobs paths) s s' ∧ s'.Ended options ∧ s'.outcome = .error e ∧
      s'.failure = some e := by
  induction s using (Step.wellFounded pipeline options jobs paths).induction with
  | _ s ih =>
    by_cases hsettled : s.Settled
    · have hdeath : s.death = none := hgoing
      exact ⟨s, .refl, .inr ⟨hsettled, .inl (by simp [hfailure])⟩, by simp [Snapshot.outcome, hdeath, hfailure], hfailure⟩
    rw [Snapshot.Settled] at hsettled
    push Not at hsettled
    obtain ⟨stage, hmem, hunsettled⟩ := hsettled
    obtain ⟨i, hi⟩ := List.mem_iff_getElem?.1 hmem
    obtain rfl : stage = .waiting := (hidle stage hmem).resolve_right fun ⟨report, hreport⟩ => hunsettled report hreport
    have hcancel : Step pipeline options jobs paths s { s with stages := s.stages.set i (.settled none) } :=
      .cancels hgoing hi (by simp [hfailure])
    obtain ⟨s', hsteps, hdone⟩ := ih _ hcancel hgoing hfailure fun stage' hmem' =>
      (List.mem_or_eq_of_mem_set hmem').elim (hidle stage') fun heq => .inr ⟨none, heq⟩
    exact ⟨s', .head hcancel hsteps, hdone⟩

/-- The tasks at the start of the list have settled, the others wait. -/
def Progress.stages (p : Progress) (paths : List String) (k : Nat) : List Stage :=
  (List.range k).map (fun i => .settled (p.reports.lookup i)) ++ (paths.drop k).map fun _ => .waiting

theorem Progress.stages_getElem? (p : Progress) {k : Nat} {path : String} (hpath : paths[k]? = some path) :
    (p.stages paths k)[k]? = some .waiting := by
  obtain ⟨hlt, -⟩ := List.getElem?_eq_some_iff.1 hpath
  rw [stages, List.drop_eq_getElem_cons hlt, List.map_cons]
  simp

theorem Progress.idle_stages (p : Progress) (k : Nat) :
    ∀ stage ∈ p.stages paths k, stage = .waiting ∨ ∃ report, stage = .settled report := by
  simp only [stages, List.mem_append, List.mem_map]
  rintro stage (⟨i, -, rfl⟩ | ⟨path, -, rfl⟩)
  · exact .inr ⟨_, rfl⟩
  · exact .inl rfl

theorem Progress.set_stages (p p' : Progress) {k : Nat} {path : String} (hpath : paths[k]? = some path)
    (hreports : ∀ i < k, p'.reports.lookup i = p.reports.lookup i) :
    (p.stages paths k).set k (.settled (p'.reports.lookup k)) = p'.stages paths (k + 1) := by
  obtain ⟨hlt, rfl⟩ := List.getElem?_eq_some_iff.1 hpath
  have hmap : (List.range k).map (fun i => Stage.settled (p'.reports.lookup i)) =
      (List.range k).map fun i => Stage.settled (p.reports.lookup i) :=
    List.map_congr_left fun i hi => by rw [hreports i (List.mem_range.1 hi)]
  rw [stages, stages, List.range_succ, List.map_append, hmap, List.drop_eq_getElem_cons hlt, List.map_cons]
  simp

/-- The reports at the start of the list are those of all tasks when all have settled. -/
theorem Progress.texts_stages (p : Progress) :
    (p.stages paths paths.length).map Stage.report? = p.results paths := by
  simp [stages, results, Stage.report?, Function.comp_def]

theorem Progress.settled_stages (p : Progress) : ∀ stage ∈ p.stages paths paths.length, ∃ report, stage = .settled report := by
  simp [stages]

/-- The tasks at the start of the list have settled without a failure. -/
def Progress.snapshot (p : Progress) (paths : List String) (k : Nat) : Snapshot :=
  { Snapshot.start p.files paths with stages := p.stages paths k }

theorem Progress.perform_ok (p : Progress) {i : Nat} {path : String} {report : FileReport} (hnone : p.failure = none)
    (hpath : paths[i]? = some path) (h : (processFile pipeline options p.files path).result = .ok report) :
    p.perform pipeline options paths i = ⟨(processFile pipeline options p.files path).files, (i, report) :: p.reports,
      p.trace ++ (processFile pipeline options p.files path).trace, none⟩ := by
  simp [perform, hpath, h, hnone]

theorem Progress.perform_error (p : Progress) {i : Nat} {path : String} {e : Failure} (hnone : p.failure = none)
    (hpath : paths[i]? = some path) (h : (processFile pipeline options p.files path).result = .error e) :
    p.perform pipeline options paths i = ⟨(processFile pipeline options p.files path).files, p.reports,
      p.trace ++ (processFile pipeline options p.files path).trace, some (e.labelled path)⟩ := by
  simp [perform, hpath, h, hnone]

/-- After a failure nothing changes in how the work ends. -/
theorem Progress.perform_failed (p : Progress) {e : Failure} (h : p.failure = some e) (pipeline : Pipeline)
    (options : BatchOptions) (paths : List String) (i : Nat) : (p.perform pipeline options paths i).failure = some e ∧
      (p.perform pipeline options paths i).spilled options paths = p.spilled options paths := by
  rw [perform]
  split
  · exact ⟨h, rfl⟩
  rename_i hcrash
  rw [h] at hcrash
  split
  · exact ⟨h, rfl⟩
  dsimp only
  split <;> simp_all [spilled]

/-- Where the tasks before it have settled and the others wait, a task does all its work in turn. -/
theorem reaches_settle (hjobs : 1 ≤ jobs) {p : Progress} {k : Nat} {path : String} (hpath : paths[k]? = some path)
    (h : Reaches pipeline options jobs fs paths (p.snapshot paths k)) :
    ∃ fs', Reaches pipeline options jobs fs paths (({ p.snapshot paths k with files := fs' } : Snapshot).settle k path
        (processFile pipeline options p.files path).result) ∧
      ∀ report, (processFile pipeline options p.files path).result = .ok report →
        fs' = (processFile pipeline options p.files path).files := by
  obtain ⟨fs', hworks, hfiles⟩ := works_result pipeline options p.files path
  have hslots : (p.stages paths k).countP Stage.hasSlot = 0 := List.countP_eq_zero.2 fun stage hmem => by
    obtain rfl | ⟨report, rfl⟩ := p.idle_stages k stage hmem <;> simp [Stage.hasSlot]
  exact ⟨fs', h.trans (steps_alone hworks rfl (p.stages_getElem? hpath) (hslots ▸ hjobs) hpath), hfiles⟩

/-- Where such a task has failed, the others are cancelled. -/
theorem exists_ended_of_settle_failure (p : Progress) (fs : FileSystem) (k : Nat) (path : String) {e : Failure}
    (h : e.crash? = none) : ∃ s, ReflTransGen (Step pipeline options jobs paths)
      (({ p.snapshot paths k with files := fs } : Snapshot).settle k path (.error e)) s ∧ s.Ended options ∧
        s.outcome = .error (e.labelled path) ∧ s.failure = some (e.labelled path) := by
  rw [Snapshot.settle_failure _ _ _ h]
  exact exists_ended_of_failure rfl rfl fun stage hmem =>
    (List.mem_or_eq_of_mem_set hmem).elim (p.idle_stages k stage) fun heq => .inr ⟨none, heq⟩

/-- Where such a task has broken off the work, the process dies: after one text if no other task is left to do. -/
theorem exists_ended_of_settle_crash (p : Progress) (fs : FileSystem) {k : Nat} {path : String} (hpath : paths[k]? = some path)
    (hnew : p.reports.lookup k = none) {e : Failure} (h : e.crash?.isSome) :
    ∃ s, ReflTransGen (Step pipeline options jobs paths)
      (({ p.snapshot paths k with files := fs } : Snapshot).settle k path (.error e)) s ∧ s.Ended options ∧
        s.outcome = .error e ∧ s.printed = if k + 1 = paths.length then (texts options (p.results paths)).take 1 else [] := by
  have hstages : (p.stages paths k).set k (.settled none) = p.stages paths (k + 1) :=
    hnew ▸ p.set_stages p hpath fun _ _ => rfl
  have hsettle : (({ p.snapshot paths k with files := fs } : Snapshot).settle k path (.error e)) =
      { p.snapshot paths (k + 1) with files := fs, crashes := [e] } := by
    rw [Snapshot.settle_crash _ _ _ h]
    simp only [Progress.snapshot, hstages]
    rfl
  rw [hsettle]
  split
  · rename_i hlast
    rw [hlast]
    have hprints : ReflTransGen (Step pipeline options jobs paths) _ _ :=
      steps_prints { p.snapshot paths paths.length with files := fs, crashes := [e] } rfl p.settled_stages rfl rfl 1
    refine ⟨_, hprints.tail (.dies rfl (List.mem_singleton_self e)), .inl rfl, rfl, ?_⟩
    rw [← p.texts_stages]
    rfl
  · exact ⟨_, .single (.dies rfl (List.mem_singleton_self e)), .inl rfl, rfl, rfl⟩

/-- The work on the files so far, in the order of the list, as an order of the steps. By induction on how many
tasks are done: until a failure each task does all its work in turn; after it either all are cancelled or the process
dies. -/
theorem reaches_foldl_perform (hjobs : 1 ≤ jobs) (pipeline : Pipeline) (options : BatchOptions) (fs : FileSystem)
    {k : Nat} (hk : k ≤ paths.length) :
    let p := (List.range k).foldl (Progress.perform pipeline options paths) ⟨fs, [], [], none⟩
    (p.failure = none → Reaches pipeline options jobs fs paths (p.snapshot paths k) ∧
        p.reports.map (·.1) = (List.range k).reverse) ∧
      ∀ e, p.failure = some e → ∃ s, Reaches pipeline options jobs fs paths s ∧ s.Ended options ∧
        s.outcome = .error e ∧ s.printed = p.spilled options paths := by
  induction k with
  | zero => exact ⟨fun _ => ⟨.refl, rfl⟩, nofun⟩
  | succ k ih =>
  have hpath : paths[k]? = some paths[k] := List.getElem?_eq_getElem hk
  rw [List.range_succ, List.foldl_append, List.foldl_cons, List.foldl_nil]
  specialize ih (Nat.le_of_succ_le hk)
  generalize (List.range k).foldl (Progress.perform pipeline options paths) ⟨fs, [], [], none⟩ = p at ih ⊢
  obtain ⟨hnone, hsome⟩ := ih
  cases hfailure : p.failure with
  | some e =>
    obtain ⟨hfailed, hspilled⟩ := p.perform_failed hfailure pipeline options paths k
    refine ⟨fun h => by simp [hfailed] at h, fun e' he' => ?_⟩
    obtain rfl : e = e' := Option.some.inj (hfailed.symm.trans he')
    rw [hspilled]
    exact hsome e hfailure
  | none =>
  obtain ⟨hreaches, hindexes⟩ := hnone hfailure
  have hnew : p.reports.lookup k = none := List.lookup_eq_none_iff.2 fun r hr => by
    have hmem : r.1 ∈ (List.range k).reverse := hindexes ▸ List.mem_map_of_mem hr
    rw [List.mem_reverse, List.mem_range] at hmem
    exact bne_iff_ne.2 (Nat.ne_of_gt hmem)
  obtain ⟨fs', hreaches, hfiles⟩ := reaches_settle hjobs hpath hreaches
  cases hresult : (processFile pipeline options p.files paths[k]).result with
  | ok report =>
    rw [p.perform_ok hfailure hpath hresult]
    refine ⟨fun _ => ⟨?_, by simp [hindexes]⟩, nofun⟩
    rw [hresult, hfiles report hresult] at hreaches
    rw [Progress.snapshot, ← p.set_stages _ hpath fun i hi => by rw [List.lookup_cons, beq_false_of_ne (Nat.ne_of_lt hi)]]
    simpa [Snapshot.settle, failureOf, crashOf, Progress.snapshot, Snapshot.start, Except.toOption] using hreaches
  | error e =>
    rw [p.perform_error hfailure hpath hresult]
    refine ⟨nofun, fun e' h => ?_⟩
    obtain rfl : e.labelled paths[k] = e' := Option.some.inj h
    rw [hresult] at hreaches
    cases hcrash : e.crash? with
    | none =>
      obtain ⟨s, hsteps, hended, houtcome, hfailed⟩ := exists_ended_of_settle_failure p fs' k paths[k] hcrash
      have hs : Reaches pipeline options jobs fs paths s := hreaches.trans hsteps
      have hnothing : s.printed = [] := hs.printed.resolve_right fun ⟨_, hno, _⟩ => by simp [hfailed] at hno
      exact ⟨s, hs, hended, houtcome, by simp [hnothing, Progress.spilled, Failure.labelled_of_not_crash hcrash, Failure.crash?]⟩
    | some text =>
      have hbreaks : e.crash?.isSome := by simp [hcrash]
      have hcount : p.reports.length = k := by simpa using congrArg List.length hindexes
      obtain ⟨s, hsteps, hended, houtcome, hprinted⟩ := exists_ended_of_settle_crash p fs' hpath hnew hbreaks
      rw [Failure.labelled_of_crash hbreaks]
      refine ⟨s, hreaches.trans hsteps, hended, houtcome, ?_⟩
      simp [hprinted, Progress.spilled, Progress.results, hcrash, hcount]

/-- The work in the order of the list is one order of the steps. -/
theorem run_reaches (hjobs : 1 ≤ jobs) (pipeline : Pipeline) (options : BatchOptions) (fs : FileSystem)
    (paths : List String) : ∃ s, Reaches pipeline options jobs fs paths s ∧ s.Ended options ∧
      s.outcome = (run pipeline options fs paths).result ∧
      (∀ text, s.outcome = .ok text → s.files = (run pipeline options fs paths).files) ∧
      ∀ e, s.outcome = .error e → String.join s.printed = (run pipeline options fs paths).spilled := by
  have hdone := reaches_foldl_perform hjobs pipeline options fs (le_refl paths.length)
  simp only [run, runScheduled]
  generalize (List.range paths.length).foldl (Progress.perform pipeline options paths) ⟨fs, [], [], none⟩ = p at hdone ⊢
  obtain ⟨hnone, hsome⟩ := hdone
  cases hfailure : p.failure with
  | some e =>
    obtain ⟨s, hs, hended, houtcome, hprinted⟩ := hsome e hfailure
    exact ⟨s, hs, hended, houtcome, fun text h => by simp [houtcome] at h, fun _ _ => by rw [hprinted]⟩
  | none =>
    obtain ⟨hreaches, -⟩ := hnone hfailure
    have hprints : ReflTransGen (Step pipeline options jobs paths) _ _ := steps_prints (p.snapshot paths paths.length) rfl
      p.settled_stages rfl rfl ((p.snapshot paths paths.length).texts options).length
    rw [List.take_length] at hprints
    refine ⟨_, hreaches.trans hprints, .inr ⟨p.settled_stages, .inr ⟨rfl, rfl⟩⟩, ?_, fun _ _ => rfl, nofun⟩
    rw [Snapshot.outcome_eq_ok_iff, ← p.texts_stages]
    exact ⟨rfl, rfl, rfl⟩

/-- A file by itself. -/
theorem run_singleton (pipeline : Pipeline) (options : BatchOptions) (fs : FileSystem) (path : String) :
    (run pipeline options fs [path]).result = match (processFile pipeline options fs path).result with
      | .ok report => .ok (String.join (reportTexts options (some report)))
      | .error e => .error (e.labelled path) := by
  have hrange : List.range [path].length = [0] := rfl
  have hfirst : [path][0]? = some path := rfl
  simp only [run, runScheduled, hrange, List.foldl_cons, List.foldl_nil, Progress.perform, hfirst]
  cases (processFile pipeline options fs path).result with
  | error e => rfl
  | ok report => simp [texts, Progress.results]

end Batch

end ScriptTree

import ScriptTree.Files.Batch
import ScriptTree.Proofs.Files.Places

/-!
What the work on files does to the files. Nothing is given up: directories stay directories and files stay
files, and of these only the ones in the places where trees are written to may change.
-/

namespace ScriptTree.Batch

open FileSystem (Grows)

variable {pipeline : Pipeline} {options : BatchOptions} {fs fs' : FileSystem} {paths : List String} {path : String}
  {touched : Location → Prop}

/-- The path under which the tree of a file is written. -/
def targetOf (options : BatchOptions) (path : String) : String := joinPath options.emitDirectory (baseName path)

theorem readTree_eq_ok_iff {n : Node} : readTree fs path = .ok n ↔
    ∃ content, fs.read path = .ok content ∧ Node.decodeFirst content = .ok n := by
  unfold readTree
  cases fs.read path with
  | error e =>
    dsimp only
    split <;> simp
  | ok content => cases hdecode : Node.decodeFirst content <;> simp [hdecode]

/-- A tree is written in two steps: the directory is made, and the file is written. -/
theorem emit_eq_ok_iff {directory : String} {tree : Node} : emit fs directory path tree = .ok fs' ↔
    ∃ fs₁, fs.makeDirectories (directoryOf (joinPath directory (baseName path))) = .ok fs₁ ∧
      fs₁.write (joinPath directory (baseName path)) tree.encode = .ok fs' := by
  unfold emit
  dsimp only
  cases fs.makeDirectories (directoryOf (joinPath directory (baseName path))) with
  | error e => simp
  | ok fs₁ => cases hwrite : fs₁.write (joinPath directory (baseName path)) tree.encode <;> simp [hwrite]

theorem emit_grows {tree : Node} (h : emit fs options.emitDirectory path tree = .ok fs')
    (htouched : touched (placeOf (targetOf options path))) : Grows touched fs fs' := by
  obtain ⟨fs₁, hmake, hwrite⟩ := emit_eq_ok_iff.1 h
  refine (Grows.makeDirectories hmake).trans (.write hwrite fun l hl => ?_)
  exact FileSystem.placeOf_of_locate hl ▸ htouched

theorem processFile_grows (htouched : touched (placeOf (targetOf options path))) :
    Grows touched fs (processFile pipeline options fs path).files := by
  unfold processFile
  split
  · exact .refl ..
  dsimp only
  split
  · exact .refl ..
  · rename_i fs₁ hwritten
    have hgrows : Grows touched fs fs₁ := by
      split at hwritten
      · cases hwritten; exact .refl ..
      · exact emit_grows hwritten htouched
    split <;> exact hgrows

theorem perform_grows (p : Progress) (i : Nat) (htouched : ∀ path ∈ paths, touched (placeOf (targetOf options path))) :
    Grows touched p.files (p.perform pipeline options paths i).files := by
  unfold Progress.perform
  split
  · exact .refl ..
  split
  · exact .refl ..
  · rename_i path hpath
    have hgrows : Grows touched p.files (processFile pipeline options p.files path).files :=
      processFile_grows (htouched path (List.mem_of_getElem? hpath))
    dsimp only
    split <;> exact hgrows

theorem foldl_perform_grows (pipeline : Pipeline) (schedule : List Nat) (p : Progress)
    (htouched : ∀ path ∈ paths, touched (placeOf (targetOf options path))) :
    Grows touched p.files (schedule.foldl (Progress.perform pipeline options paths) p).files := by
  induction schedule generalizing p with
  | nil => exact .refl ..
  | cons i schedule ih => exact (perform_grows p i htouched).trans (ih _)

theorem run_grows (pipeline : Pipeline) (fs : FileSystem)
    (htouched : ∀ path ∈ paths, touched (placeOf (targetOf options path))) :
    Grows touched fs (run pipeline options fs paths).files :=
  foldl_perform_grows pipeline (List.range paths.length) ⟨fs, [], [], none⟩ htouched

end ScriptTree.Batch

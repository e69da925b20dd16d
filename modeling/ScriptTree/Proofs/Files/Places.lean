import ScriptTree.Proofs.Files.Paths

/-!
What is where in a file system, and what stays there. Looking a path up succeeds if each part is entered
from a directory; what is entered on the way stays a directory when files are written and directories are
made, so a path that leads to a place goes on to lead there. A file that was written can be read under the
path it was written to, and under its clean path.
-/

namespace ScriptTree

namespace FileSystem

variable {fs fs' fs'' : FileSystem} {place l : Location} {path content c : String} {cs : List String}
  {touched : Location → Prop}

def Directory (fs : FileSystem) (place : Location) : Prop := fs.entry? place = some .directory

/-- There is a file with the content at the place. -/
def Holds (fs : FileSystem) (place : Location) (content : String) : Prop := fs.entry? place = some (.file content)

/-! ### Files and directories at places -/

theorem holds_iff : fs.Holds place content ↔ (fs.files.find? (·.1 == place)).map (·.2) = some content := by
  unfold Holds entry?
  cases fs.files.find? (·.1 == place) with
  | none => simp only [Option.map_none, reduceCtorEq, iff_false]; split <;> simp
  | some f => simp

/-- A directory is there because it is always there, or was made, or lies on the way to something. -/
theorem directory_iff : fs.Directory place ↔ fs.files.find? (·.1 == place) = none ∧
    (isBase place = true ∨ place ∈ fs.directories ∨ (∃ f ∈ fs.files, place <+: f.1) ∨
      ∃ d ∈ fs.directories, place <+: d) := by
  unfold Directory entry?
  cases fs.files.find? (·.1 == place) with
  | none =>
    simp only [true_and, Option.ite_none_right_eq_some, and_true, Bool.or_eq_true, List.any_eq_true,
      List.contains_iff_mem, List.isPrefixOf_iff_prefix, or_assoc]
  | some f => simp

theorem Holds.not_directory (h : fs.Holds place content) : ¬ fs.Directory place := by
  intro hdir
  rw [Directory, h] at hdir
  cases hdir

theorem Holds.unique {content' : String} (h : fs.Holds place content) (h' : fs.Holds place content') :
    content = content' := by
  rw [Holds, h] at h'
  exact Entry.file.inj (Option.some.inj h')

/-! ### Putting a file -/

/-- What putting a content at a place makes of an old file. -/
def replaced (place : Location) (content : String) (f : Location × String) : Location × String :=
  if f.1 == place then (f.1, content) else f

theorem put_eq (fs : FileSystem) (place : Location) (content : String) : fs.put place content =
    if fs.files.any (·.1 == place) then { fs with files := fs.files.map (replaced place content) }
    else { fs with files := fs.files ++ [(place, content)] } := rfl

theorem fst_replaced (place : Location) (content : String) (f : Location × String) :
    (replaced place content f).1 = f.1 := by
  unfold replaced
  split <;> rfl

theorem find?_put (fs : FileSystem) (place l : Location) (content : String) :
    (fs.put place content).files.find? (·.1 == l) =
      if place = l then some (place, content) else fs.files.find? (·.1 == l) := by
  rw [put_eq]
  split
  · rename_i hany
    have hfirst : (fun f : Location × String => f.1 == l) ∘ replaced place content = (·.1 == l) :=
      funext fun f => congrArg (· == l) (fst_replaced place content f)
    rw [List.find?_map, hfirst]
    split
    · subst place
      obtain ⟨f, hf⟩ := Option.isSome_iff_exists.1 (List.find?_isSome.2 (List.any_eq_true.1 hany))
      have hl : f.1 = l := by simpa using List.find?_some hf
      rw [hf, Option.map_some, replaced, hl, if_pos (beq_self_eq_true l)]
    · rename_i hne
      cases hf : fs.files.find? (·.1 == l) with
      | none => rfl
      | some f =>
        have hl : f.1 = l := by simpa using List.find?_some hf
        have hplace : ¬ (f.1 == place) = true := fun hp => hne ((eq_of_beq hp).symm.trans hl)
        rw [Option.map_some, replaced, if_neg hplace]
  · rename_i hany
    rw [List.find?_append]
    split
    · subst place
      have hnone : fs.files.find? (·.1 == l) = none := List.find?_eq_none.2 fun f hf hl =>
        hany (List.any_eq_true.2 ⟨f, hf, hl⟩)
      rw [hnone, Option.none_or, List.find?_cons_of_pos (by simp)]
    · rename_i hne
      rw [List.find?_cons_of_neg (by simpa using hne), List.find?_nil, Option.or_none]

theorem directories_put : (fs.put place content).directories = fs.directories := by
  unfold put
  split <;> rfl

/-- Places of files are not given up. -/
theorem mem_files_put {f : Location × String} (h : f ∈ fs.files) : ∃ g ∈ (fs.put place content).files, g.1 = f.1 := by
  rw [put_eq]
  split
  · exact ⟨_, List.mem_map_of_mem h, fst_replaced place content f⟩
  · exact ⟨f, List.mem_append_left _ h, rfl⟩

theorem holds_put (fs : FileSystem) (place : Location) (content : String) : (fs.put place content).Holds place content := by
  rw [holds_iff, find?_put, if_pos rfl]
  rfl

theorem holds_put_ne (hne : place ≠ l) : (fs.put place content).Holds l c ↔ fs.Holds l c := by
  rw [holds_iff, holds_iff, find?_put, if_neg hne]

theorem Directory.put (h : fs.Directory l) (hne : place ≠ l) : (fs.put place content).Directory l := by
  obtain ⟨hnone, hreason⟩ := directory_iff.1 h
  refine directory_iff.2 ⟨by rwa [find?_put, if_neg hne], ?_⟩
  rw [directories_put]
  refine hreason.imp_right (.imp_right (.imp_left fun ⟨f, hf, hprefix⟩ => ?_))
  obtain ⟨g, hg, hfirst⟩ := mem_files_put hf
  exact ⟨g, hg, hfirst ▸ hprefix⟩

/-- A second content takes the place of the first. -/
theorem put_put (fs : FileSystem) (place : Location) (content content' : String) :
    (fs.put place content).put place content' = fs.put place content' := by
  rw [put_eq fs, put_eq fs]
  split
  · rename_i hany
    have hagain : (fs.files.map (replaced place content)).any (·.1 == place) = true := by
      simpa [List.any_map, Function.comp_def, fst_replaced] using hany
    have htwice : replaced place content' ∘ replaced place content = replaced place content' := by
      funext f
      simp only [Function.comp, replaced]
      split <;> simp_all
    rw [put_eq, if_pos hagain, List.map_map, htwice]
  · rename_i hany
    have hself : fs.files.map (replaced place content') = fs.files := by
      refine (List.map_congr_left fun f hf => ?_).trans (List.map_id fs.files)
      exact if_neg fun hplace => hany (List.any_eq_true.2 ⟨f, hf, hplace⟩)
    rw [put_eq, if_pos (by simp), List.map_append, hself]
    simp [replaced]

/-! ### What writing leaves alone -/

/-- Directories and files stay, and files at places that are not touched stay as they are. -/
structure Grows (touched : Location → Prop) (fs fs' : FileSystem) : Prop where
  directories : ∀ l, fs.Directory l → fs'.Directory l
  files : ∀ l c, fs.Holds l c → ∃ c', fs'.Holds l c'
  untouched : ∀ l c, ¬ touched l → fs.Holds l c → fs'.Holds l c

theorem Grows.refl (touched : Location → Prop) (fs : FileSystem) : Grows touched fs fs :=
  ⟨fun _ h => h, fun _ c h => ⟨c, h⟩, fun _ _ _ h => h⟩

theorem Grows.trans (h : Grows touched fs fs') (h' : Grows touched fs' fs'') : Grows touched fs fs'' where
  directories l hl := h'.directories l (h.directories l hl)
  files l c hl := by
    obtain ⟨c', hl'⟩ := h.files l c hl
    exact h'.files l c' hl'
  untouched l c hu hl := h'.untouched l c hu (h.untouched l c hu hl)

theorem Grows.weaken (h : Grows (fun _ => False) fs fs') (touched : Location → Prop) : Grows touched fs fs' :=
  ⟨h.directories, h.files, fun l c _ => h.untouched l c id⟩

theorem Grows.put (hplace : ¬ fs.Directory place) (htouched : touched place) (content : String) :
    Grows touched fs (fs.put place content) where
  directories l hl := hl.put fun heq => hplace (heq ▸ hl)
  files l c hl := by
    by_cases heq : place = l
    · exact ⟨content, heq ▸ holds_put fs place content⟩
    · exact ⟨c, (holds_put_ne heq).2 hl⟩
  untouched l c hu hl := (holds_put_ne fun heq : place = l => hu (heq ▸ htouched)).2 hl

theorem Grows.write (h : fs.write path content = .ok fs') (htouched : ∀ l, fs.locate path = .ok l → touched l) :
    Grows touched fs fs' := by
  unfold FileSystem.write at h
  split at h
  · cases h
  rename_i l hl
  split at h
  · cases h
  rename_i hentry
  cases h
  exact .put hentry (htouched l hl) content

/-- Making a directory. -/
theorem Grows.directory (fs : FileSystem) (place : Location) :
    Grows touched fs { fs with directories := fs.directories ++ [place] } where
  directories l hl := by
    obtain ⟨hnone, hreason⟩ := directory_iff.1 hl
    refine directory_iff.2 ⟨hnone, hreason.imp_right ?_⟩
    rintro (hmem | hfile | ⟨d, hd, hprefix⟩)
    · exact .inl (List.mem_append_left _ hmem)
    · exact .inr (.inl hfile)
    · exact .inr (.inr ⟨d, List.mem_append_left _ hd, hprefix⟩)
  files l c hl := by
    rw [holds_iff] at hl
    exact ⟨c, holds_iff.2 hl⟩
  untouched l c _ hl := by
    rw [holds_iff] at hl ⊢
    exact hl

theorem Grows.makeDirectories (h : fs.makeDirectories path = .ok fs') : Grows touched fs fs' := by
  unfold FileSystem.makeDirectories at h
  generalize ancestors path = ps at h
  induction ps generalizing fs with
  | nil => cases h; exact .refl ..
  | cons p ps ih =>
    rw [List.foldlM_cons] at h
    cases hlocate : fs.locate p with
    | error cause => rw [hlocate] at h; cases h
    | ok l =>
      rw [hlocate] at h
      dsimp only at h
      cases hentry : fs.entry? l with
      | none =>
        rw [hentry] at h
        exact (Grows.directory fs l).trans (ih h)
      | some e =>
        rw [hentry] at h
        cases e with
        | file => cases h
        | directory => exact ih h

/-! ### The way along a path -/

/-- Each part of the way is entered from a directory. -/
theorem walk_eq_ok_iff : fs.walk place cs = .ok l ↔ cs.foldl enter place = l ∧
    ∀ ps c, ps ++ [c] <+: cs → fs.Directory (ps.foldl enter place) ∧ c.utf8ByteSize ≤ nameLimit := by
  induction cs generalizing place with
  | nil => simp [walk]
  | cons c cs ih =>
    have hfirst : (∀ ps d, ps ++ [d] <+: c :: cs → fs.Directory (ps.foldl enter place) ∧ d.utf8ByteSize ≤ nameLimit) ↔
        (fs.Directory place ∧ c.utf8ByteSize ≤ nameLimit) ∧ ∀ ps d, ps ++ [d] <+: cs →
          fs.Directory (ps.foldl enter (enter place c)) ∧ d.utf8ByteSize ≤ nameLimit := by
      refine ⟨fun h => ⟨h [] c ⟨cs, rfl⟩, fun ps d hps => h (c :: ps) d ?_⟩, fun ⟨hc, h⟩ ps d hps => ?_⟩
      · exact List.cons_prefix_cons.2 ⟨rfl, hps⟩
      · match ps with
        | [] => exact (List.cons_prefix_cons.1 hps).1 ▸ hc
        | p :: ps =>
          obtain ⟨rfl, hrest⟩ := List.cons_prefix_cons.1 hps
          exact h ps d hrest
    rw [hfirst, walk, List.foldl_cons]
    unfold Directory at *
    cases fs.entry? place with
    | none => simp
    | some e =>
      cases e with
      | file => simp
      | directory =>
        dsimp only
        split
        · rename_i hlong
          simp [Nat.not_le_of_gt hlong]
        · rename_i hshort
          rw [ih]
          simp [Nat.le_of_not_gt hshort]

/-- There are directories all the way to the place. -/
def Open (fs : FileSystem) (place : Location) : Prop := ∀ p, p <+: place → p ≠ place → fs.Directory p

theorem open_nil : fs.Open [] := fun _ hp hne => absurd (List.prefix_nil.1 hp) hne

theorem Open.enter (h : fs.Open place) (hplace : fs.Directory place) (c : String) : fs.Open (enter place c) := by
  have hadd (d : String) : fs.Open (place ++ [d]) := by
    intro p hp hne
    rcases List.prefix_concat_iff.1 hp with heq | hp
    · exact absurd heq hne
    · by_cases heq : p = place
      · exact heq ▸ hplace
      · exact h p hp heq
  have hdrop : fs.Open place.dropLast := by
    intro p hp hne
    refine h p (hp.trans (List.dropLast_prefix place)) fun heq => hne ?_
    exact hp.eq_of_length_le (heq ▸ (List.dropLast_prefix place).length_le)
  unfold ScriptTree.enter
  split
  · exact h
  split
  · split
    · exact hadd ".."
    · exact hadd ".."
    · exact h
    · exact hdrop
  · exact hadd c

theorem open_walk (h : fs.Open place) (hwalk : fs.walk place cs = .ok l) : fs.Open l := by
  induction cs generalizing place with
  | nil => cases hwalk; exact h
  | cons c cs ih =>
    obtain ⟨rfl, hway⟩ := walk_eq_ok_iff.1 hwalk
    refine ih (h.enter (hway [] c ⟨cs, rfl⟩).1 c) (walk_eq_ok_iff.2 ⟨rfl, fun ps d hps => ?_⟩)
    exact hway (c :: ps) d (List.cons_prefix_cons.2 ⟨rfl, hps⟩)

theorem locate_eq_ok_iff : fs.locate path = .ok l ↔
    '\x00' ∉ path.toList ∧ path ≠ "" ∧ path.utf8ByteSize ≤ pathLimit ∧ fs.walk [] (pathComponents path) = .ok l := by
  unfold locate
  split
  · rename_i hnul
    simp [List.contains_iff_mem.1 hnul]
  · rename_i hnul
    split
    · simp_all
    · split
      · rename_i hlong
        simp [Nat.not_le_of_gt hlong]
      · rename_i hshort
        simp_all

theorem placeOf_of_locate (h : fs.locate path = .ok l) : placeOf path = l :=
  (walk_eq_ok_iff.1 (locate_eq_ok_iff.1 h).2.2.2).1

theorem Grows.locate (hg : Grows touched fs fs') (h : fs.locate path = .ok l) : fs'.locate path = .ok l := by
  obtain ⟨hnul, hne, hsize, hwalk⟩ := locate_eq_ok_iff.1 h
  obtain ⟨hplace, hway⟩ := walk_eq_ok_iff.1 hwalk
  refine locate_eq_ok_iff.2 ⟨hnul, hne, hsize, walk_eq_ok_iff.2 ⟨hplace, fun ps c hps => ?_⟩⟩
  exact ⟨hg.directories _ (hway ps c hps).1, (hway ps c hps).2⟩

/-- A path that leads back to where it started goes through a directory there. -/
theorem directory_start (hne : path ≠ "") (hkept : keptParts path = [])
    (hway : ∀ ps c, ps ++ [c] <+: pathComponents path → fs.Directory (ps.foldl ScriptTree.enter []) ∧
      c.utf8ByteSize ≤ nameLimit) : fs.Directory (placeOf path) := by
  obtain ⟨-, -, -, -, hplace⟩ := keptParts_spec hne
  rw [hplace, hkept, List.append_nil]
  cases hrooted : isRooted path with
  | true =>
    obtain ⟨rest, hrest, hparts⟩ := partsOf_rooted hrooted
    obtain ⟨c, rest, rfl⟩ := List.exists_cons_of_ne_nil hrest
    exact (hway ["/"] c ⟨rest, by rw [pathComponents_rooted hparts]; rfl⟩).1
  | false =>
    obtain ⟨c, rest, hc, hparts⟩ := partsOf_unrooted hrooted hne
    exact (hway [] c ⟨rest, by rw [pathComponents_unrooted hc hparts]; rfl⟩).1

/-- Where a path leads to a place that is no directory, its clean path does too. -/
theorem locate_cleanPath (h : fs.locate path = .ok l) (hl : ¬ fs.Directory l) : fs.locate (cleanPath path) = .ok l := by
  obtain ⟨hnul, hne, hsize, hwalk⟩ := locate_eq_ok_iff.1 h
  obtain ⟨hplace, hway⟩ := walk_eq_ok_iff.1 hwalk
  have hplace : placeOf path = l := hplace
  have hopen : fs.Open l := open_walk open_nil hwalk
  have hkept : keptParts path ≠ [] := fun hnil => hl (hplace ▸ directory_start hne hnil hway)
  have hstraight : Straight l := hplace ▸ straight_placeOf hne
  refine locate_eq_ok_iff.2 ⟨fun hmem => ?_, cleanPath_ne_empty path, ?_, ?_⟩
  · rcases of_mem_cleanPath hmem with heq | heq | hmem
    · cases heq
    · cases heq
    · exact hnul hmem
  · exact Nat.le_trans (utf8ByteSize_cleanPath_le hne) hsize
  · rw [pathComponents_cleanPath hne hkept, hplace]
    refine walk_eq_ok_iff.2 ⟨hstraight.foldl List.prefix_rfl, fun ps c hps => ⟨?_, ?_⟩⟩
    · rw [hstraight.foldl ((List.prefix_append ..).trans hps)]
      exact hopen ps ((List.prefix_append ..).trans hps) fun heq => by simpa [heq] using hps.length_le
    · have hmem : c ∈ placeOf path := hplace ▸ hps.subset (List.mem_append_right _ (.head _))
      obtain ⟨before, after, hsplit⟩ := List.append_of_mem (mem_pathComponents hne hmem)
      exact (hway before c ⟨after, by rw [hsplit]; simp⟩).2

/-! ### Reading and writing -/

theorem read_eq_ok_iff : fs.read path = .ok content ↔ ∃ l, fs.locate path = .ok l ∧ fs.Holds l content := by
  unfold FileSystem.read find Holds
  cases fs.locate path with
  | error cause => simp [bind, Except.bind]
  | ok l =>
    dsimp only [bind, Except.bind]
    cases hentry : fs.entry? l with
    | none => simp [throw, throwThe, MonadExceptOf.throw, hentry]
    | some e => cases e <;> simp [pure, Except.pure, hentry, eq_comm]

theorem write_eq_ok_iff : fs.write path content = .ok fs' ↔
    ∃ l, fs.locate path = .ok l ∧ ¬ fs.Directory l ∧ fs.put l content = fs' := by
  unfold FileSystem.write Directory
  cases fs.locate path with
  | error cause => simp
  | ok l =>
    dsimp only
    split
    · rename_i hentry
      simp [hentry]
    · rename_i hentry
      simpa using fun _ => hentry

/-- What is written is read back. -/
theorem read_write (h : fs.write path content = .ok fs') : fs'.read path = .ok content := by
  have hgrows : Grows (fun l => fs.locate path = .ok l) fs fs' := .write h fun _ hl => hl
  obtain ⟨l, hlocate, -, rfl⟩ := write_eq_ok_iff.1 h
  exact read_eq_ok_iff.2 ⟨l, hgrows.locate hlocate, holds_put fs l content⟩

/-- Whether a file can be written does not depend on what is written. -/
theorem write_eq_error {e : FileError} (h : fs.write path content = .error e) (content' : String) :
    fs.write path content' = .error e := by
  unfold FileSystem.write at h ⊢
  cases hlocate : fs.locate path with
  | error cause => simpa [hlocate] using h
  | ok l =>
    simp only [hlocate] at h ⊢
    split at h
    · exact h
    · cases h

/-! ### Names of files -/

/-- No file is where there is always a directory. -/
def KeepsBase (fs : FileSystem) : Prop := ∀ f ∈ fs.files, isBase f.1 = false

instance (fs : FileSystem) : Decidable fs.KeepsBase := inferInstanceAs (Decidable (∀ f ∈ fs.files, isBase f.1 = false))

theorem KeepsBase.directory (h : fs.KeepsBase) (hbase : isBase l = true) : fs.Directory l := by
  refine directory_iff.2 ⟨List.find?_eq_none.2 fun f hf hl => ?_, .inl hbase⟩
  have hfree := h f hf
  rw [eq_of_beq hl, hbase] at hfree
  cases hfree

/-- A place that ends with the way up lies above the working directory. -/
theorem isBase_of_getLast? (hne : path ≠ "") (hlast : (placeOf path).getLast? = some "..") : isBase (placeOf path) = true := by
  obtain ⟨ups, names, hkept, h, hplace⟩ := keptParts_spec hne
  rw [hkept] at hplace
  rcases List.eq_nil_or_concat names with rfl | ⟨names, c, rfl⟩
  · cases hrooted : isRooted path with
    | true =>
      rw [hrooted] at hplace h
      simp [hplace, h.down rfl, startOf] at hlast
    | false =>
      rw [hrooted, List.append_nil] at hplace
      rw [hplace]
      simpa [isBase, startOf] using .inl fun c hc => h.dots c hc
  · rw [hplace, List.concat_eq_append, ← List.append_assoc, ← List.append_assoc, List.getLast?_concat] at hlast
    exact absurd (Option.some.inj hlast) (h.ordinary c (by simp)).dots

/-- The last part of a path, and the place to which the parts before it lead. -/
theorem exists_last (hne : path ≠ "") : ∃ cs last init, pathComponents path = cs ++ [last] ∧ partsOf path = init ++ [last] := by
  cases hrooted : isRooted path with
  | true =>
    obtain ⟨rest, hrest, hparts⟩ := partsOf_rooted hrooted
    obtain ⟨before, last, rfl⟩ := (List.eq_nil_or_concat rest).resolve_left hrest
    rw [List.concat_eq_append] at hparts
    exact ⟨"/" :: before, last, "" :: before, pathComponents_rooted hparts, hparts⟩
  | false =>
    obtain ⟨c, rest, hc, hparts⟩ := partsOf_unrooted hrooted hne
    obtain ⟨before, last, hlast⟩ := (List.eq_nil_or_concat (c :: rest)).resolve_left nofun
    rw [List.concat_eq_append] at hlast
    exact ⟨before, last, before, (pathComponents_unrooted hc hparts).trans hlast, hparts.trans hlast⟩

/-- The way up from an open place leads to a directory. -/
theorem Open.directory_up (h : fs.Open place) (hplace : fs.Directory place) (hbase : fs.KeepsBase) (hne : path ≠ "")
    (hpath : placeOf path = ScriptTree.enter place "..") : fs.Directory (placeOf path) := by
  have hup : placeOf path = place ++ [".."] → fs.Directory (placeOf path) := fun heq =>
    hbase.directory (isBase_of_getLast? hne (by rw [heq, List.getLast?_concat]))
  unfold ScriptTree.enter at hpath
  simp only [String.reduceEq, or_self, if_false, if_true] at hpath
  split at hpath
  · exact hup hpath
  · exact hup hpath
  · exact hpath ▸ hplace
  · rename_i last hlast
    rw [hpath]
    refine h _ (List.dropLast_prefix place) fun heq => ?_
    have hlength := congrArg List.length heq
    have hpos : 0 < place.length := List.length_pos_iff.2 fun hnil => by simp [hnil] at hlast
    rw [List.length_dropLast] at hlength
    omega

/-- The base name of a path to a file is the name of the file. -/
theorem ordinary_baseName (hbase : fs.KeepsBase) (h : fs.read path = .ok content) : Ordinary (baseName path) := by
  obtain ⟨l, hlocate, hholds⟩ := read_eq_ok_iff.1 h
  obtain ⟨-, hne, -, hwalk⟩ := locate_eq_ok_iff.1 hlocate
  obtain ⟨cs, last, init, hcomponents, hparts⟩ := exists_last hne
  obtain ⟨hplace, hway⟩ := walk_eq_ok_iff.1 hwalk
  have hbefore : fs.walk [] cs = .ok (cs.foldl ScriptTree.enter []) := walk_eq_ok_iff.2 ⟨rfl, fun ps c hps =>
    hway ps c (hcomponents ▸ hps.trans (List.prefix_append ..))⟩
  have hdirectory := (hway cs last (hcomponents ▸ List.prefix_rfl)).1
  have hpath : placeOf path = ScriptTree.enter (cs.foldl ScriptTree.enter []) last := by
    rw [placeOf, hcomponents, List.foldl_concat]
  have hfile : ¬ fs.Directory (placeOf path) := placeOf_of_locate hlocate ▸ hholds.not_directory
  have hstay : last = "" ∨ last = "." → False := fun heq => hfile <| by
    rw [hpath, ScriptTree.enter, if_pos heq]
    exact hdirectory
  have hdots : last ≠ ".." := fun heq =>
    hfile ((open_walk open_nil hbefore).directory_up hdirectory hbase hne (heq ▸ hpath))
  have hnonempty : last ≠ "" := fun heq => hstay (.inl heq)
  rw [baseName_eq hparts hnonempty]
  exact ⟨hnonempty, fun heq => hstay (.inr heq), hdots, partsOf_slash path last (by simp [hparts])⟩

end FileSystem

end ScriptTree

import ScriptTree.Proofs.Json.RoundTrip
import ScriptTree.Proofs.Settings.Accepted

/-!
Settings that are written. The text names every setting but an empty list of passes, so whatever the settings are
that it is read over, all of them are replaced. Reading checks what it has read, so just those settings come back
that pass their check.
-/

namespace ScriptTree

/-! ### Lists of texts -/

namespace Json

theorem intoTexts_str (texts : List String) : intoTexts (texts.map .str) [] = some texts := by
  induction texts with
  | nil => rfl
  | cons text texts ih =>
    rw [List.map_cons, intoTexts, List.drop_nil, ih]
    rfl

/-- A list of texts is read as it is where there was no list. -/
theorem intoTextList_str (texts : List String) :
    intoTextList .empty (.arr (texts.map .str)) = some ⟨texts, []⟩ := by
  cases texts with
  | nil => rfl
  | cons text texts =>
    show (intoTexts ((text :: texts).map .str) []).map (Slots.cut ((text :: texts).map Json.str).length) = _
    rw [intoTexts_str]
    simp [Slots.cut]

theorem spelledAll_str (texts : List String) : SpelledAll (texts.map .str) := by
  induction texts with
  | nil => trivial
  | cons text texts ih => exact ⟨trivial, ih⟩

theorem depthAll_str (texts : List String) : depthAll (texts.map .str) = 0 :=
  Nat.le_zero.1 (depthAll_le fun v hv => by
    obtain ⟨text, -, rfl⟩ := List.mem_map.1 hv
    exact Nat.le_refl 0)

end Json

/-! ### The members of settings -/

namespace Settings

variable {s : Settings} {fs fs' : FileSystem} {path : String}

/-- The members that settings are written as. -/
def members (s : Settings) : List (String × Json) :=
  [("optimize_level", Json.str s.level)] ++
    (if s.passes.isEmpty then [] else [("passes", Json.arr (s.passes.map Json.str))]) ++
    [("language_version", Json.str s.languageVersion), ("log_level", Json.str s.logLevel),
      ("verbose", Json.bool s.verbose)]

theorem toJson_eq (s : Settings) : s.toJson = .obj s.members := rfl

/-- Only an empty list of passes is left out. -/
theorem passes_mem_members : "passes" ∈ s.members.map Prod.fst ↔ s.passes ≠ [] := by
  unfold members
  cases s.passes <;> simp

theorem spelled_toJson (s : Settings) : s.toJson.Spelled := by
  rw [toJson_eq, members]
  split
  · exact ⟨trivial, trivial, trivial, trivial, trivial⟩
  · exact ⟨trivial, Json.spelledAll_str s.passes, trivial, trivial, trivial, trivial⟩

theorem depth_toJson (s : Settings) : s.toJson.depth ≤ 2 := by
  rw [toJson_eq, members]
  split <;> simp [Json.depth, Json.depthMembers, Json.depthAll_str]

theorem parse_encode_json (s : Settings) : Json.parse s.encode = some (.obj s.members) :=
  Json.parse_pretty s.spelled_toJson (s.depth_toJson.trans (by decide))

/-- Whatever the settings are that the members are taken over, they replace all of them. -/
theorem take_members (old s : Settings) :
    s.members.foldlM (fun (d : Draft) (key, v) => d.take key v) ⟨old, .empty⟩ =
      some ⟨{ s with passes := old.passes }, ⟨s.passes, []⟩⟩ := by
  obtain ⟨level, passes, languageVersion, logLevel, verbose⟩ := s
  cases passes with
  | nil => rfl
  | cons pass passes =>
    show ((Json.intoTextList .empty (.arr ((pass :: passes).map .str))).map _).bind _ = _
    rw [Json.intoTextList_str]
    rfl

theorem ofJson_toJson (s : Settings) : ofJson s.toJson = some s := by
  rw [toJson_eq, ofJson, take_members]
  rfl

/-- What is read back is what was written, if it passes the check; else reading fails as the check does. -/
theorem parse_encode (s : Settings) : parse s.encode = s.validate.map fun _ => s := by
  rw [parse, parse_encode_json, Option.bind_some, ← toJson_eq, ofJson_toJson]
  dsimp only
  cases s.validate <;> rfl

/-! ### Settings files -/

theorem read_save (h : s.save fs path = .ok fs') : fs'.read path = .ok s.encode := by
  unfold save at h
  dsimp only at h
  split at h
  · cases h
  rename_i made hmade
  split at h
  · cases h
  rename_i hwrite
  cases h
  exact FileSystem.read_write hwrite

theorem load_save (h : s.save fs path = .ok fs') (hvalid : s.validate = .ok ()) : load fs' path = .ok s := by
  rw [load_of_read (read_save h), parse_encode, hvalid]
  rfl

end Settings

/-- Settings that pass their check are read back from the text that they are written as, in every field: the text names
a list of passes just if there is one. A file that they were saved to holds this text, and they are loaded from it. -/
theorem settings_read_back :
    (∀ s : Settings, s.validate = .ok () → Settings.parse s.encode = .ok s) ∧
    (∀ s : Settings, ∃ members, Json.parse s.encode = some (.obj members) ∧
      ("passes" ∈ members.map Prod.fst ↔ s.passes ≠ [])) ∧
    ∀ (s : Settings) (fs fs' : FileSystem) (path : String), s.save fs path = .ok fs' →
      fs'.read path = .ok s.encode ∧ (s.validate = .ok () → Settings.load fs' path = .ok s) := by
  refine ⟨fun s hvalid => ?_, fun s => ⟨s.members, s.parse_encode_json, Settings.passes_mem_members⟩,
    fun s fs fs' path hsave => ⟨Settings.read_save hsave, Settings.load_save hsave⟩⟩
  rw [Settings.parse_encode, hvalid]
  rfl

/-- A level between characters of which one is written by its code, a pre-release with metadata, passes with a
repetition and a log level in mixed case, saved in a directory that is not there yet. -/
theorem settings_read_back_spellings :
    let s : Settings := ⟨"\u2028 BAS\u0130c\x0b", ["block", "if", "block"], "v1.2-rc.1+x", "DeBuG", true⟩
    s.validate = .ok () ∧ Settings.parse s.encode = .ok s ∧ ∃ fs, s.save .empty "conf/tool.json" = .ok fs ∧
      fs.read "conf/tool.json" = .ok s.encode ∧ Settings.load fs "conf/tool.json" = .ok s := by
  intro s
  have hvalid : s.validate = .ok () := by decide +kernel
  have hsaved : (s.save .empty "conf/tool.json").isOk = true := by decide +kernel
  obtain ⟨hparse, -, hfile⟩ := settings_read_back
  cases hsave : s.save .empty "conf/tool.json" with
  | error e =>
    rw [hsave] at hsaved
    cases hsaved
  | ok fs =>
    obtain ⟨hread, hload⟩ := hfile s .empty fs "conf/tool.json" hsave
    exact ⟨hvalid, hparse s hvalid, fs, rfl, hread, hload hvalid⟩

end ScriptTree

import Mathlib.Algebra.GroupWithZero.Nat
import Mathlib.Algebra.Order.BigOperators.Group.List
import Mathlib.Algebra.Order.Group.Nat
import Mathlib.Data.List.Induction
import ScriptTree.Files.Basic

/-!
Where paths lead. A path is the parts between its slashes; entering them one by one gives its place. The
clean path keeps the parts that a later `..` does not take back, so it has the same place, is not longer,
and goes through directories that the path goes through as well: whoever can reach a file by a path
reaches it by the clean path. The path of a name in a directory leads to that name in the directory's
place.
-/

namespace ScriptTree

variable {path name : String} {place : Location} {parts kept : List String} {rooted : Bool}

/-- The place that a path names, whatever is there. -/
def placeOf (path : String) : Location := (pathComponents path).foldl enter []

def partsOf (path : String) : List String := (path.toList.splitOn '/').map String.ofList

def isRooted (path : String) : Bool := path.toList.head? == some '/'

def startOf (rooted : Bool) : Location := if rooted then ["/"] else []

/-- A component that is neither empty nor a dot nor two dots, and has no slash. -/
structure Ordinary (c : String) : Prop where
  nonempty : c ≠ ""
  dot : c ≠ "."
  dots : c ≠ ".."
  slash : '/' ∉ c.toList

/-! ### Parts -/

theorem partsOf_ne_nil (path : String) : partsOf path ≠ [] := by
  simp [partsOf, List.splitOn_ne_nil]

theorem intercalate_partsOf (path : String) : "/".intercalate (partsOf path) = path := by
  refine String.toList_inj.1 ?_
  rw [String.toList_intercalate, partsOf, List.map_map]
  have hid : (path.toList.splitOn '/').map (String.toList ∘ String.ofList) = path.toList.splitOn '/' :=
    List.map_id'' (fun _ => String.toList_ofList) _
  rw [hid]
  exact List.intercalate_splitOn '/'

theorem partsOf_intercalate (hne : parts ≠ []) (hslash : ∀ c ∈ parts, '/' ∉ c.toList) :
    partsOf ("/".intercalate parts) = parts := by
  have hsplit : ("/".intercalate parts).toList.splitOn '/' = parts.map String.toList := by
    rw [String.toList_intercalate]
    refine List.splitOn_intercalate '/' ?_ (by simpa using hne)
    simpa using hslash
  rw [partsOf, hsplit, List.map_map]
  exact List.map_id'' (fun _ => String.ofList_toList) _

theorem splitOn_slash (cs : List Char) : ∀ l ∈ cs.splitOn '/', '/' ∉ l := by
  induction cs with
  | nil => simp
  | cons c cs ih =>
    rw [List.splitOn_cons_eq_if_modifyHead]
    split
    · exact List.forall_mem_cons.2 ⟨List.not_mem_nil, ih⟩
    · rename_i hc
      obtain ⟨l, ls, hl⟩ := List.exists_cons_of_ne_nil (List.splitOn_ne_nil '/' cs)
      rw [hl] at ih
      rw [hl, List.modifyHead_cons]
      refine List.forall_mem_cons.2 ⟨?_, fun m hm => ih m (List.mem_cons_of_mem _ hm)⟩
      have hslash : ¬ '/' = c := fun heq => hc (by rw [← heq, beq_self_eq_true])
      exact fun hmem => (List.mem_cons.1 hmem).elim hslash (ih l (.head _))

theorem partsOf_slash (path : String) : ∀ c ∈ partsOf path, '/' ∉ c.toList := by
  simpa [partsOf] using splitOn_slash path.toList

/-- The first part of a path from the root is empty, and others follow it. -/
theorem partsOf_rooted (h : isRooted path = true) : ∃ rest, rest ≠ [] ∧ partsOf path = "" :: rest := by
  obtain ⟨cs, hcs⟩ : ∃ cs, path.toList = '/' :: cs := by
    cases hpath : path.toList with
    | nil => simp [isRooted, hpath] at h
    | cons c cs => simp_all [isRooted]
  refine ⟨(cs.splitOn '/').map String.ofList, by simp, ?_⟩
  rw [partsOf, hcs, List.splitOn_cons_eq_if_modifyHead]
  simp

/-- The first part of any other path is not empty. -/
theorem partsOf_unrooted (h : isRooted path = false) (hne : path ≠ "") :
    ∃ c rest, c ≠ "" ∧ partsOf path = c :: rest := by
  cases hpath : path.toList with
  | nil => exact absurd (String.toList_inj.1 (hpath.trans String.toList_empty.symm)) hne
  | cons c cs =>
    have hc : c ≠ '/' := by simpa [isRooted, hpath] using h
    obtain ⟨l, ls, hl⟩ := List.exists_cons_of_ne_nil (List.splitOn_ne_nil '/' cs)
    refine ⟨String.ofList (c :: l), ls.map String.ofList, ?_, ?_⟩
    · exact fun hempty => by simpa using congrArg String.toList hempty
    · rw [partsOf, hpath, List.splitOn_cons_eq_if_modifyHead, hl]
      simp [hc]

theorem pathComponents_rooted {rest : List String} (h : partsOf path = "" :: rest) :
    pathComponents path = "/" :: rest := by
  unfold pathComponents
  rw [show (path.toList.splitOn '/').map String.ofList = "" :: rest from h]
  rfl

theorem pathComponents_unrooted {c : String} {rest : List String} (hc : c ≠ "") (h : partsOf path = c :: rest) :
    pathComponents path = c :: rest := by
  unfold pathComponents
  rw [show (path.toList.splitOn '/').map String.ofList = c :: rest from h]
  dsimp only
  split
  · rename_i heq
    exact absurd (List.cons.inj heq).1 hc
  · rfl

/-! ### Entering parts -/

theorem enter_ordinary {c : String} (h : Ordinary c) (place : Location) : enter place c = place ++ [c] := by
  simp [enter, h.nonempty, h.dot, h.dots]

theorem enter_up {c : String} (hdots : c ≠ "..") (hroot : c ≠ "/") (place : Location) :
    enter (place ++ [c]) ".." = place := by
  rw [enter, if_neg (by decide), if_pos rfl, List.getLast?_concat]
  split <;> simp_all

theorem placeOf_eq (hne : path ≠ "") : placeOf path = (partsOf path).foldl enter (startOf (isRooted path)) := by
  cases h : isRooted path with
  | true =>
    obtain ⟨rest, -, hparts⟩ := partsOf_rooted h
    rw [placeOf, pathComponents_rooted hparts, hparts]
    rfl
  | false =>
    obtain ⟨c, rest, hc, hparts⟩ := partsOf_unrooted h hne
    rw [placeOf, pathComponents_unrooted hc hparts, hparts]
    rfl

/-! ### What the clean path keeps -/

/-- Takes one more part into the parts that are kept. -/
def keepPart (rooted : Bool) (kept : List String) (part : String) : List String :=
  if part = "" ∨ part = "." then kept
  else if part = ".." then
    match kept.getLast? with
    | some ".." => kept ++ [".."]
    | some _ => kept.dropLast
    | none => if rooted then [] else [".."]
  else kept ++ [part]

theorem keepPart_up {c : String} (hdots : c ≠ "..") (rooted : Bool) (kept : List String) :
    keepPart rooted (kept ++ [c]) ".." = kept := by
  rw [keepPart, if_neg (by decide), if_pos rfl, List.getLast?_concat]
  split <;> simp_all

/-- The parts of a path that its clean path keeps. -/
def keptParts (path : String) : List String := (partsOf path).foldl (keepPart (isRooted path)) []

theorem cleanPath_eq (path : String) : cleanPath path =
    if isRooted path then "/" ++ "/".intercalate (keptParts path)
    else if "/".intercalate (keptParts path) = "" then "." else "/".intercalate (keptParts path) := rfl

/-- The kept parts lead up, if they do not start from the root, and then down. -/
structure Kept (rooted : Bool) (ups names : List String) : Prop where
  dots : ∀ c ∈ ups, c = ".."
  down : rooted = true → ups = []
  ordinary : ∀ c ∈ names, Ordinary c

theorem Kept.nil : Kept rooted [] [] := ⟨nofun, fun _ => rfl, nofun⟩

theorem Kept.slash {ups names : List String} (h : Kept rooted ups names) : ∀ c ∈ ups ++ names, '/' ∉ c.toList := by
  intro c hc
  rcases List.mem_append.1 hc with hc | hc
  · rw [h.dots c hc]
    decide
  · exact (h.ordinary c hc).slash

theorem Kept.nonempty {ups names : List String} (h : Kept rooted ups names) : ∀ c ∈ ups ++ names, c ≠ "" := by
  intro c hc
  rcases List.mem_append.1 hc with hc | hc
  · rw [h.dots c hc]
    decide
  · exact (h.ordinary c hc).nonempty

theorem enter_dots {ups : List String} (h : ∀ c ∈ ups, c = "..") : enter ups ".." = ups ++ [".."] := by
  rw [enter, if_neg (by decide), if_pos rfl]
  cases hups : ups.getLast? with
  | none => rfl
  | some c => rw [h c (List.mem_of_getLast? hups)]; rfl

/-- Going up from where a path started, or from above it. -/
theorem Kept.step_ups {ups : List String} (h : Kept rooted ups []) :
    enter (startOf rooted ++ (ups ++ [])) ".." = startOf rooted ++ keepPart rooted (ups ++ []) ".." ∧
      ∃ ups' names', keepPart rooted (ups ++ []) ".." = ups' ++ names' ∧ Kept rooted ups' names' := by
  rw [List.append_nil]
  cases rooted with
  | true =>
    rw [h.down rfl]
    exact ⟨rfl, [], [], rfl, .nil⟩
  | false =>
    have hkeep : keepPart false ups ".." = ups ++ [".."] := by
      rw [keepPart, if_neg (by decide), if_pos rfl]
      cases hups : ups.getLast? with
      | none => rw [List.getLast?_eq_none_iff.1 hups]; rfl
      | some c => rw [h.dots c (List.mem_of_getLast? hups)]; rfl
    rw [hkeep]
    refine ⟨enter_dots h.dots, ups ++ [".."], [], (List.append_nil _).symm, fun c hc => ?_, nofun, nofun⟩
    rcases List.mem_append.1 hc with hc | hc
    · exact h.dots c hc
    · exact List.mem_singleton.1 hc

/-- Keeping a part is entering it, and what is kept has the same form again. -/
theorem Kept.step {ups names : List String} (h : Kept rooted ups names) {part : String} (hpart : '/' ∉ part.toList) :
    enter (startOf rooted ++ (ups ++ names)) part = startOf rooted ++ keepPart rooted (ups ++ names) part ∧
      ∃ ups' names', keepPart rooted (ups ++ names) part = ups' ++ names' ∧ Kept rooted ups' names' := by
  by_cases hstay : part = "" ∨ part = "."
  · rw [enter, keepPart, if_pos hstay, if_pos hstay]
    exact ⟨rfl, ups, names, rfl, h⟩
  by_cases hup : part = ".."
  · subst hup
    rcases List.eq_nil_or_concat' names with rfl | ⟨names, n, rfl⟩
    · exact h.step_ups
    · have hn : Ordinary n := h.ordinary n (by simp)
      have hroot : n ≠ "/" := fun heq => hn.slash (by rw [heq]; decide)
      rw [← List.append_assoc ups, ← List.append_assoc, enter_up hn.dots hroot, keepPart_up hn.dots]
      exact ⟨rfl, ups, names, rfl, h.dots, h.down,
        fun c hc => h.ordinary c (List.mem_append_left _ hc)⟩
  · rw [not_or] at hstay
    have hpart : Ordinary part := ⟨hstay.1, hstay.2, hup, hpart⟩
    rw [enter_ordinary hpart, keepPart, if_neg (not_or.2 hstay), if_neg hup]
    refine ⟨List.append_assoc .., ups, names ++ [part], List.append_assoc .., h.dots, h.down, fun c hc => ?_⟩
    rcases List.mem_append.1 hc with hc | hc
    · exact h.ordinary c hc
    · rwa [List.mem_singleton.1 hc]

theorem Kept.foldl {ups names : List String} (h : Kept rooted ups names) (hparts : ∀ c ∈ parts, '/' ∉ c.toList) :
    ∃ ups' names', parts.foldl (keepPart rooted) (ups ++ names) = ups' ++ names' ∧ Kept rooted ups' names' ∧
      parts.foldl enter (startOf rooted ++ (ups ++ names)) = startOf rooted ++ (ups' ++ names') := by
  induction parts generalizing ups names with
  | nil => exact ⟨ups, names, rfl, h, rfl⟩
  | cons part parts ih =>
    obtain ⟨hpart, hparts⟩ := List.forall_mem_cons.1 hparts
    obtain ⟨henter, ups', names', hkeep, h'⟩ := h.step hpart
    rw [List.foldl_cons, List.foldl_cons, henter, hkeep]
    exact ih h' hparts

/-- The place of a path is made up of the parts that its clean path keeps. -/
theorem keptParts_spec (hne : path ≠ "") : ∃ ups names, keptParts path = ups ++ names ∧
    Kept (isRooted path) ups names ∧ placeOf path = startOf (isRooted path) ++ keptParts path := by
  have hnil : Kept (isRooted path) [] [] := .nil
  obtain ⟨ups, names, hkeep, h, henter⟩ := hnil.foldl (partsOf_slash path)
  rw [List.append_nil, List.append_nil] at henter
  exact ⟨ups, names, hkeep, h, by rw [placeOf_eq hne, henter, ← hkeep]; rfl⟩

/-! ### Straight places -/

/-- The names of a place lead to it one by one. -/
def Straight (place : Location) : Prop := ∀ ps c, ps ++ [c] <+: place → enter ps c = ps ++ [c]

theorem Straight.concat {c : String} (h : Straight place) (hc : enter place c = place ++ [c]) :
    Straight (place ++ [c]) := by
  intro ps d hprefix
  rcases List.prefix_concat_iff.1 hprefix with heq | hprefix
  · obtain ⟨rfl, rfl⟩ := List.append_singleton_inj.1 heq
    exact hc
  · exact h ps d hprefix

theorem Straight.foldl (h : Straight place) {ps : List String} (hps : ps <+: place) : ps.foldl enter [] = ps := by
  induction ps using List.reverseRecOn with
  | nil => rfl
  | append_singleton ps c ih => rw [List.foldl_concat, ih ((List.prefix_append ..).trans hps), h ps c hps]

theorem Kept.straight {ups names : List String} (h : Kept rooted ups names) :
    Straight (startOf rooted ++ (ups ++ names)) := by
  induction names using List.reverseRecOn with
  | nil =>
    rw [List.append_nil]
    induction ups using List.reverseRecOn with
    | nil =>
      rw [List.append_nil]
      cases rooted with
      | true =>
        have hnil : Straight [] := by simp [Straight]
        exact hnil.concat rfl
      | false => simp [Straight, startOf]
    | append_singleton ups c ih =>
      cases rooted with
      | true => exact absurd (h.down rfl) (by simp)
      | false =>
        have hups : ∀ c ∈ ups, c = ".." := fun c hc => h.dots c (List.mem_append_left _ hc)
        obtain rfl : c = ".." := h.dots c (List.mem_append_right _ (.head _))
        exact (ih ⟨hups, nofun, nofun⟩).concat (enter_dots hups)
  | append_singleton names c ih =>
    have hnames : ∀ c ∈ names, Ordinary c := fun c hc => h.ordinary c (List.mem_append_left _ hc)
    rw [← List.append_assoc ups, ← List.append_assoc]
    exact (ih ⟨h.dots, h.down, hnames⟩).concat (enter_ordinary (h.ordinary c (by simp)) _)

theorem straight_placeOf (hne : path ≠ "") : Straight (placeOf path) := by
  obtain ⟨ups, names, hkept, h, hplace⟩ := keptParts_spec hne
  rw [hplace, hkept]
  exact h.straight

/-! ### The clean path -/

theorem intercalate_ne_empty {parts : List String} (hne : parts ≠ []) (h : ∀ c ∈ parts, c ≠ "") :
    "/".intercalate parts ≠ "" := by
  match parts with
  | [c] => simpa using h c (.head _)
  | c :: d :: rest =>
    intro hempty
    simpa [String.intercalate_cons_cons] using congrArg String.toList hempty

/-- The components of the clean path are the names of its place, unless that is where the path starts. -/
theorem pathComponents_cleanPath (hne : path ≠ "") (hkept : keptParts path ≠ []) :
    pathComponents (cleanPath path) = placeOf path := by
  obtain ⟨ups, names, heq, h, hplace⟩ := keptParts_spec hne
  have hslash := h.slash
  have hnonempty := h.nonempty
  rw [← heq] at hslash hnonempty
  have hempty := intercalate_ne_empty hkept hnonempty
  rw [cleanPath_eq, hplace]
  cases hrooted : isRooted path with
  | true =>
    have hjoin : "/" ++ "/".intercalate (keptParts path) = "/".intercalate ("" :: keptParts path) := by
      obtain ⟨c, rest, hcons⟩ := List.exists_cons_of_ne_nil hkept
      rw [hcons, String.intercalate_cons_cons, String.empty_append]
    rw [if_pos rfl, hjoin]
    refine pathComponents_rooted (partsOf_intercalate (by simp) ?_)
    exact List.forall_mem_cons.2 ⟨by simp, hslash⟩
  | false =>
    rw [if_neg (by simp), if_neg hempty]
    obtain ⟨c, rest, hcons⟩ := List.exists_cons_of_ne_nil hkept
    have hparts := partsOf_intercalate hkept hslash
    rw [hcons] at hparts hnonempty ⊢
    exact pathComponents_unrooted (hnonempty c (.head _)) hparts

theorem placeOf_cleanPath (hne : path ≠ "") : placeOf (cleanPath path) = placeOf path := by
  by_cases hkept : keptParts path = []
  · obtain ⟨-, -, -, -, hplace⟩ := keptParts_spec hne
    rw [hplace, cleanPath_eq, hkept]
    cases isRooted path <;> rfl
  · rw [placeOf, pathComponents_cleanPath hne hkept]
    exact (straight_placeOf hne).foldl List.prefix_rfl

theorem cleanPath_ne_empty (path : String) : cleanPath path ≠ "" := by
  rw [cleanPath_eq]
  split
  · exact fun h => by simpa using congrArg String.toList h
  split
  · decide
  · assumption

/-! ### Length and characters of the clean path -/

theorem keepPart_sublist {before : List String} (h : kept.Sublist before) (rooted : Bool) (part : String) :
    (keepPart rooted kept part).Sublist (before ++ [part]) := by
  have hsame : kept.Sublist (before ++ [part]) := h.trans (List.sublist_append_left ..)
  unfold keepPart
  split
  · exact hsame
  split
  · rename_i hup
    subst hup
    split
    · exact h.append (List.Sublist.refl _)
    · exact (List.dropLast_sublist _).trans hsame
    · split
      · exact List.nil_sublist _
      · exact List.sublist_append_right ..
  · exact h.append (List.Sublist.refl _)

theorem foldl_keepPart_sublist {before : List String} (h : kept.Sublist before) (rooted : Bool) (parts : List String) :
    (parts.foldl (keepPart rooted) kept).Sublist (before ++ parts) := by
  induction parts generalizing kept before with
  | nil => simpa using h
  | cons part parts ih => simpa using ih (keepPart_sublist h rooted part)

theorem utf8ByteSize_intercalate {parts : List String} (hne : parts ≠ []) :
    ("/".intercalate parts).utf8ByteSize + 1 = (parts.map (·.utf8ByteSize + 1)).sum := by
  match parts with
  | [c] => simp
  | c :: d :: rest =>
    have hslash : "/".utf8ByteSize = 1 := by decide
    rw [String.intercalate_cons_cons, String.utf8ByteSize_append, String.utf8ByteSize_append, List.map_cons,
      List.sum_cons, ← utf8ByteSize_intercalate (List.cons_ne_nil d rest), hslash]
    omega

/-- The parts that are kept take no more room than all parts but the first empty one of a path from the root. -/
theorem utf8ByteSize_cleanPath_le (hne : path ≠ "") : (cleanPath path).utf8ByteSize ≤ path.utf8ByteSize := by
  have hsub : (keptParts path).Sublist (partsOf path) := foldl_keepPart_sublist (List.Sublist.refl []) _ _
  have hsize := utf8ByteSize_intercalate (partsOf_ne_nil path)
  rw [intercalate_partsOf] at hsize
  have hpos : 0 < path.utf8ByteSize := by
    refine Nat.pos_of_ne_zero fun hzero => hne ?_
    simpa using hzero
  by_cases hkept : keptParts path = []
  · have hone : (cleanPath path).utf8ByteSize = 1 := by
      rw [cleanPath_eq, hkept]
      cases isRooted path <;> decide
    omega
  have hjoined := utf8ByteSize_intercalate hkept
  have hslash : "/".utf8ByteSize = 1 := by decide
  rw [cleanPath_eq]
  cases hrooted : isRooted path with
  | true =>
    obtain ⟨rest, -, hparts⟩ := partsOf_rooted hrooted
    have hrest : (keptParts path).Sublist rest := by
      have hkeep : keptParts path = rest.foldl (keepPart true) [] := by rw [keptParts, hrooted, hparts]; rfl
      rw [hkeep]
      exact foldl_keepPart_sublist (List.Sublist.refl []) _ _
    have hle := (hrest.map (·.utf8ByteSize + 1)).sum_le_sum (by simp)
    rw [hparts, List.map_cons, List.sum_cons] at hsize
    rw [if_pos rfl, String.utf8ByteSize_append, hslash]
    have hempty : "".utf8ByteSize = 0 := by decide
    omega
  | false =>
    have hle := (hsub.map (·.utf8ByteSize + 1)).sum_le_sum (by simp)
    have hdot : ".".utf8ByteSize = 1 := by decide
    rw [if_neg (by simp)]
    split <;> omega

theorem mem_intercalate {c : Char} {part : String} {parts : List String} (hpart : part ∈ parts) (hc : c ∈ part.toList) :
    c ∈ ("/".intercalate parts).toList := by
  match parts with
  | [d] => simpa [List.mem_singleton.1 hpart] using hc
  | d :: e :: rest =>
    rw [String.intercalate_cons_cons]
    rcases List.mem_cons.1 hpart with rfl | hpart
    · simp [hc]
    · exact String.toList_append ▸ List.mem_append_right _ (mem_intercalate hpart hc)

theorem of_mem_intercalate {c : Char} {parts : List String} (h : c ∈ ("/".intercalate parts).toList) :
    c = '/' ∨ ∃ part ∈ parts, c ∈ part.toList := by
  match parts with
  | [] => simp at h
  | [d] => exact .inr ⟨d, .head _, by simpa using h⟩
  | d :: e :: rest =>
    rw [String.intercalate_cons_cons, String.toList_append, String.toList_append] at h
    rcases List.mem_append.1 h with h | h
    · rcases List.mem_append.1 h with h | h
      · exact .inr ⟨d, .head _, h⟩
      · exact .inl (by simpa using h)
    · rcases of_mem_intercalate h with h | ⟨part, hpart, h⟩
      · exact .inl h
      · exact .inr ⟨part, .tail _ hpart, h⟩

/-- The names of a path's place are components of the path. -/
theorem mem_pathComponents {c : String} (hne : path ≠ "") (hc : c ∈ placeOf path) : c ∈ pathComponents path := by
  obtain ⟨ups, names, heq, h, hplace⟩ := keptParts_spec hne
  have hparts : c ∈ keptParts path → c ∈ partsOf path := fun hc =>
    (foldl_keepPart_sublist (List.Sublist.refl []) (isRooted path) (partsOf path)).subset hc
  rw [hplace] at hc
  cases hrooted : isRooted path with
  | true =>
    obtain ⟨rest, -, hrest⟩ := partsOf_rooted hrooted
    rw [pathComponents_rooted hrest]
    rw [hrooted] at hc
    rcases List.mem_cons.1 hc with rfl | hc
    · exact .head _
    · have hmem := hparts hc
      rw [hrest] at hmem
      exact .tail _ ((List.mem_cons.1 hmem).resolve_left (h.nonempty c (heq ▸ hc)))
  | false =>
    obtain ⟨d, rest, hd, hrest⟩ := partsOf_unrooted hrooted hne
    rw [pathComponents_unrooted hd hrest, ← hrest]
    rw [hrooted] at hc
    exact hparts hc

/-- The clean path has no other characters than the path, a slash and a dot. -/
theorem of_mem_cleanPath {c : Char} (h : c ∈ (cleanPath path).toList) : c = '/' ∨ c = '.' ∨ c ∈ path.toList := by
  have hkept : c ∈ ("/".intercalate (keptParts path)).toList → c = '/' ∨ c ∈ path.toList := by
    intro h
    refine (of_mem_intercalate h).imp_right fun ⟨part, hpart, hc⟩ => ?_
    have hsub := foldl_keepPart_sublist (List.Sublist.refl []) (isRooted path) (partsOf path)
    rw [← intercalate_partsOf path]
    exact mem_intercalate (hsub.subset hpart) hc
  rw [cleanPath_eq] at h
  split at h
  · rw [String.toList_append] at h
    rcases List.mem_append.1 h with h | h
    · exact .inl (by simpa using h)
    · exact (hkept h).imp_right .inr
  · split at h
    · exact .inr (.inl (by simpa using h))
    · exact (hkept h).imp_right .inr

/-! ### Names in directories -/

theorem intercalate_concat {parts : List String} (hne : parts ≠ []) (last : String) :
    "/".intercalate (parts ++ [last]) = "/".intercalate parts ++ ("/" ++ last) := by
  match parts with
  | [c] => simp [String.intercalate_cons_cons, String.append_assoc]
  | c :: d :: rest =>
    rw [List.cons_append, List.cons_append, String.intercalate_cons_cons, String.intercalate_cons_cons,
      ← List.cons_append, intercalate_concat (by simp) last, String.append_assoc, String.append_assoc,
      String.append_assoc]

/-- The last part of a path, if it is not empty, is the path's base name. -/
theorem baseName_eq {init : List String} {last : String} (h : partsOf path = init ++ [last]) (hlast : last ≠ "") :
    baseName path = last := by
  have hslash : ∀ c ∈ last.toList.reverse, (c != '/') = true := by
    intro c hc
    have hmem : c ∈ last.toList := List.mem_reverse.1 hc
    exact bne_iff_ne.2 fun heq => partsOf_slash path last (by simp [h]) (heq ▸ hmem)
  obtain ⟨before, hpath, hbefore⟩ : ∃ before, path.toList.reverse = last.toList.reverse ++ before ∧
      before.takeWhile (· != '/') = [] := by
    rw [← intercalate_partsOf path, h]
    by_cases hinit : init = []
    · exact ⟨[], by simp [hinit], rfl⟩
    · exact ⟨'/' :: ("/".intercalate init).toList.reverse, by simp [intercalate_concat hinit], rfl⟩
  obtain ⟨c, cs, hcs⟩ : ∃ c cs, last.toList.reverse = c :: cs := by
    refine List.exists_cons_of_ne_nil fun hnil => hlast (String.toList_inj.1 ?_)
    rwa [String.toList_empty, ← List.reverse_eq_nil_iff]
  have htrimmed : path.toList.reverse.dropWhile (· == '/') = path.toList.reverse := by
    have hc : c ≠ '/' := bne_iff_ne.1 (hslash c (hcs ▸ .head _))
    rw [hpath, hcs, List.cons_append, List.dropWhile_cons_of_neg (by simpa using hc)]
  have htaken : path.toList.reverse.takeWhile (· != '/') = last.toList.reverse := by
    rw [hpath, List.takeWhile_append_of_pos hslash, hbefore, List.append_nil]
  have hnonempty : path.toList.reverse.isEmpty = false := by
    rw [hpath, hcs]
    rfl
  unfold baseName
  dsimp only
  rw [htrimmed, hnonempty, htaken, List.reverse_reverse]
  exact String.ofList_toList

theorem placeOf_joinPath {directory : String} (hdirectory : directory ≠ "") (hname : Ordinary name) :
    placeOf (joinPath directory name) = placeOf directory ++ [name] := by
  have hne : directory ++ "/" ++ name ≠ "" := fun h => by simpa using congrArg String.toList h
  have hrooted : isRooted (directory ++ "/" ++ name) = isRooted directory := by
    cases hcs : directory.toList with
    | nil => exact absurd (String.toList_inj.1 (hcs.trans String.toList_empty.symm)) hdirectory
    | cons c cs => simp [isRooted, hcs]
  have hparts : partsOf (directory ++ "/" ++ name) = partsOf directory ++ [name] := by
    have hchars : (directory ++ "/" ++ name).toList = directory.toList ++ '/' :: name.toList := by simp
    rw [partsOf, hchars, List.splitOn_append_cons_self, List.splitOn_eq_singleton hname.slash, List.map_append]
    simp [partsOf]
  rw [joinPath, if_neg hdirectory, placeOf_cleanPath hne, placeOf_eq hne, hparts, hrooted, List.foldl_concat,
    ← placeOf_eq hdirectory, enter_ordinary hname]

end ScriptTree

import ScriptTree.Proofs.Json.Literals

/-!
A JSON value that is written is read back: the same members in the same order, every number in its
spelling. All that is asked is that its numbers are spelled as numbers and that it is not nested too
deep, and nothing nested too deep is ever read.
-/

namespace ScriptTree.Json

mutual

/-- How deep the arrays and objects of a value are nested. -/
def depth : Json → Nat
  | .arr vs => depthAll vs + 1
  | .obj ms => depthMembers ms + 1
  | _ => 0

def depthAll : List Json → Nat
  | [] => 0
  | v :: vs => max (depth v) (depthAll vs)

/-- The nesting of the deepest of several members. -/
def depthMembers : List (String × Json) → Nat
  | [] => 0
  | m :: ms => max (depth m.2) (depthMembers ms)

end

mutual

/-- The numbers of a value are spelled as numbers. -/
def Spelled : Json → Prop
  | .num literal => IsNumeral literal.toList
  | .arr vs => SpelledAll vs
  | .obj ms => SpelledMembers ms
  | _ => True

/-- The numbers of several values are spelled as numbers. -/
def SpelledAll : List Json → Prop
  | [] => True
  | v :: vs => Spelled v ∧ SpelledAll vs

/-- The numbers of several members are spelled as numbers. -/
def SpelledMembers : List (String × Json) → Prop
  | [] => True
  | m :: ms => Spelled m.2 ∧ SpelledMembers ms

end

mutual

/-- How many items and members a value has, those of its parts included. -/
def size : Json → Nat
  | .arr vs => sizeAll vs
  | .obj ms => sizeMembers ms
  | _ => 0

/-- How many values these are, those inside them included. -/
def sizeAll : List Json → Nat
  | [] => 0
  | v :: vs => size v + sizeAll vs + 1

/-- How many members these are, those inside them included. -/
def sizeMembers : List (String × Json) → Nat
  | [] => 0
  | m :: ms => size m.2 + sizeMembers ms + 1

end

/-! ### Text lengths -/

theorem length_newLine (level : Nat) (tail : List Char) : tail.length < (newLine level tail).length := by
  simp only [newLine, List.length_cons, List.length_append]
  omega

theorem length_writeString (s : String) (tail : List Char) : tail.length < (writeString s tail).length := by
  simp only [writeString, List.length_cons, List.length_append]
  omega

mutual

/-- A text is at least as long as its value has parts. -/
theorem size_write (level : Nat) : ∀ (v : Json) (tail : List Char),
    v.size + tail.length ≤ (write level v tail).length
  | .null, _ | .bool _, _ | .num _, _ => by
    simp only [size, write, List.length_append]
    omega
  | .str s, tail => by
    have := length_writeString s tail
    simp only [size, write]
    omega
  | .arr [], _ | .obj [], _ => by
    simp only [size, sizeAll, sizeMembers, write, List.length_cons]
    omega
  | .arr (v :: vs), tail => by
    have h₁ := size_write (level + 1) v (writeItems (level + 1) vs (newLine level (']' :: tail)))
    have h₂ := size_writeItems (level + 1) vs (newLine level (']' :: tail))
    have h₃ := length_newLine level (']' :: tail)
    have h₄ := length_newLine (level + 1)
      (write (level + 1) v (writeItems (level + 1) vs (newLine level (']' :: tail))))
    simp only [size, sizeAll, write, List.length_cons] at *
    omega
  | .obj (m :: ms), tail => by
    have h₁ := size_write (level + 1) m.2 (writeMembers (level + 1) ms (newLine level ('\x7d' :: tail)))
    have h₂ := size_writeMembers (level + 1) ms (newLine level ('\x7d' :: tail))
    have h₃ := length_newLine level ('\x7d' :: tail)
    have h₄ := length_writeString m.1 (':' :: ' ' :: write (level + 1) m.2
      (writeMembers (level + 1) ms (newLine level ('\x7d' :: tail))))
    have h₅ := length_newLine (level + 1) (writeString m.1 (':' :: ' ' :: write (level + 1) m.2
      (writeMembers (level + 1) ms (newLine level ('\x7d' :: tail)))))
    simp only [size, sizeMembers, write, List.length_cons] at *
    omega

theorem size_writeItems (level : Nat) : ∀ (vs : List Json) (tail : List Char),
    sizeAll vs + tail.length ≤ (writeItems level vs tail).length
  | [], _ => by simp [sizeAll, writeItems]
  | v :: vs, tail => by
    have h₁ := size_write level v (writeItems level vs tail)
    have h₂ := size_writeItems level vs tail
    have h₃ := length_newLine level (write level v (writeItems level vs tail))
    simp only [sizeAll, writeItems, List.length_cons]
    omega

theorem size_writeMembers (level : Nat) : ∀ (ms : List (String × Json)) (tail : List Char),
    sizeMembers ms + tail.length ≤ (writeMembers level ms tail).length
  | [], _ => by simp [sizeMembers, writeMembers]
  | m :: ms, tail => by
    have h₁ := size_write level m.2 (writeMembers level ms tail)
    have h₂ := size_writeMembers level ms tail
    have h₃ := length_writeString m.1 (':' :: ' ' :: write level m.2 (writeMembers level ms tail))
    have h₄ := length_newLine level
      (writeString m.1 (':' :: ' ' :: write level m.2 (writeMembers level ms tail)))
    simp only [sizeMembers, writeMembers, List.length_cons] at *
    omega

end

/-! ### Reading what was written -/

variable {α : Type} {item : Reader α} {close c : Char} {cs tail : List Char}

theorem skipSpace_cons (hc : isSpace c = false) (cs : List Char) : skipSpace (c :: cs) = c :: cs := by
  rw [skipSpace, List.dropWhile_cons, hc]
  rfl

theorem isSpace_digit (hc : c.isDigit = true) : isSpace c = false := by
  simp only [isSpace, Bool.or_eq_false_iff, beq_eq_false_iff_ne]
  refine ⟨⟨⟨?_, ?_⟩, ?_⟩, ?_⟩ <;> rintro rfl <;> cases hc

theorem skipSpace_newLine (level : Nat) (cs : List Char) : skipSpace (newLine level cs) = skipSpace cs := by
  show ((List.replicate (2 * level) ' ') ++ cs).dropWhile isSpace = _
  rw [List.dropWhile_append_of_pos]
  · rfl
  · intro c hc
    rw [List.eq_of_mem_replicate hc]
    rfl

theorem skipSpace_skipSpace (cs : List Char) : skipSpace (skipSpace cs) = skipSpace cs := by
  induction cs with
  | nil => rfl
  | cons c cs ih =>
    cases hc : isSpace c with
    | true =>
      have : skipSpace (c :: cs) = skipSpace cs := by
        rw [skipSpace, List.dropWhile_cons, hc]
        rfl
      rw [this, ih]
    | false => rw [skipSpace_cons hc, skipSpace_cons hc]

/-- A reader that does not mind white space in front. -/
def SkipsSpace (item : Reader α) : Prop := ∀ cs, item cs = item (skipSpace cs)

theorem skipsSpace_value (fuel depth : Nat) : SkipsSpace (value fuel depth) := by
  intro cs
  cases depth with
  | zero => rw [value, value, skipSpace_skipSpace]
  | succ depth => rw [value, value, skipSpace_skipSpace]

theorem skipsSpace_member (read : Reader Json) : SkipsSpace (member read) := by
  intro cs
  rw [member, member, skipSpace_skipSpace]

theorem SkipsSpace.newLine (h : SkipsSpace item) (level : Nat) (cs : List Char) :
    item (newLine level cs) = item cs := by
  rw [h, skipSpace_newLine, ← h]

theorem separated_newLine (h : SkipsSpace item) (fuel level : Nat) (cs : List Char) :
    separated item close fuel (newLine level cs) = separated item close fuel cs := by
  cases fuel with
  | zero => rfl
  | succ fuel => rw [separated, separated, h.newLine]

/-- Items that are written one a line are read one after another. -/
theorem separated_lines {put : α → List Char → List Char} (inner outer : Nat) (hskip : SkipsSpace item)
    (hclose : close ≠ ',' ∧ isSpace close = false) (x : α) (xs : List α) {fuel : Nat} (hfuel : xs.length < fuel)
    (hitem : ∀ y ∈ x :: xs, ∀ tail, EndsNumber tail → item (put y tail) = some (y, tail)) :
    separated item close fuel (put x (xs.foldr (fun y rest => ',' :: newLine inner (put y rest))
      (newLine outer (close :: tail)))) = some (x :: xs, tail) := by
  obtain ⟨fuel, rfl⟩ := Nat.exists_eq_succ_of_ne_zero (Nat.ne_zero_of_lt hfuel)
  induction xs generalizing x fuel with
  | nil =>
    have hx := hitem x (.head _) (newLine outer (close :: tail)) (endsNumber_cons (by decide) _)
    rw [List.foldr_nil, separated, hx]
    simp only [Option.bind_eq_bind, Option.bind_some]
    rw [skipSpace_newLine, skipSpace_cons hclose.2]
    simp
  | cons y ys ih =>
    obtain ⟨fuel, rfl⟩ := Nat.exists_eq_succ_of_ne_zero (n := fuel) (by rintro rfl; simp at hfuel)
    have hys := ih y (fun z hz => hitem z (.tail _ hz)) fuel (Nat.lt_of_succ_lt_succ hfuel)
    have hx := hitem x (.head _) (',' :: newLine inner (put y (ys.foldr
      (fun y rest => ',' :: newLine inner (put y rest)) (newLine outer (close :: tail)))))
      (endsNumber_cons (by decide) _)
    rw [List.foldr_cons, separated, hx]
    simp only [Option.bind_eq_bind, Option.bind_some]
    rw [skipSpace_cons rfl]
    dsimp only
    rw [if_neg (Ne.symm hclose.1), if_pos rfl, separated_newLine hskip, hys]
    rfl

theorem writeItems_eq (level : Nat) : ∀ (vs : List Json) (tail : List Char),
    writeItems level vs tail = vs.foldr (fun v rest => ',' :: newLine level (write level v rest)) tail
  | [], _ => rfl
  | v :: vs, tail => by rw [writeItems, writeItems_eq level vs tail, List.foldr_cons]

/-- A member and what follows it. -/
def writeMember (level : Nat) (m : String × Json) (tail : List Char) : List Char :=
  writeString m.1 (':' :: ' ' :: write level m.2 tail)

theorem writeMembers_eq (level : Nat) : ∀ (ms : List (String × Json)) (tail : List Char),
    writeMembers level ms tail = ms.foldr (fun m rest => ',' :: newLine level (writeMember level m rest)) tail
  | [], _ => rfl
  | m :: ms, tail => by
    rw [writeMembers, writeMembers_eq level ms tail, List.foldr_cons]
    rfl

theorem length_le_sizeAll : ∀ vs : List Json, vs.length ≤ sizeAll vs
  | [] => Nat.le_refl 0
  | v :: vs => by
    have := length_le_sizeAll vs
    simp only [sizeAll, List.length_cons]
    omega

theorem length_le_sizeMembers : ∀ ms : List (String × Json), ms.length ≤ sizeMembers ms
  | [] => Nat.le_refl 0
  | m :: ms => by
    have := length_le_sizeMembers ms
    simp only [sizeMembers, List.length_cons]
    omega

/-- A member that is written is read back if its value is. -/
theorem member_write {read : Reader Json} {level : Nat} {m : String × Json} (hskip : SkipsSpace read)
    (h : read (write level m.2 tail) = some (m.2, tail)) : member read (writeMember level m tail) = some (m, tail) := by
  have hspace : read (' ' :: write level m.2 tail) = read (write level m.2 tail) := by
    rw [hskip, hskip (write level m.2 tail)]
    rfl
  have hquote := skipSpace_cons (c := '"') rfl
  have hcolon := skipSpace_cons (c := ':') rfl
  simp only [member, writeMember, writeString, hquote, stringTail_write, Option.bind_eq_bind, Option.bind_some,
    hcolon, hspace, h]
  rfl

/-- A value without parts at the front of the text. -/
theorem value_scalar (fuel depth : Nat) (hc : isSpace c = false ∧ c ≠ '[' ∧ c ≠ '\x7b') :
    value fuel depth (c :: cs) = scalar (c :: cs) := by
  cases depth with
  | zero => rw [value, skipSpace_cons hc.1]
  | succ depth =>
    rw [value, skipSpace_cons hc.1]
    split
    · exact absurd (List.head_eq_of_cons_eq ‹_›) hc.2.1
    · exact absurd (List.head_eq_of_cons_eq ‹_›) hc.2.2
    · rfl

theorem value_arr (fuel depth : Nat) (cs : List Char) : value fuel (depth + 1) ('[' :: cs) =
    (enclosed (value fuel depth) ']' fuel cs).map fun r => (.arr r.1, r.2) := by
  rw [value, skipSpace_cons rfl]
  rfl

theorem value_obj (fuel depth : Nat) (cs : List Char) : value fuel (depth + 1) ('\x7b' :: cs) =
    (enclosed (member (value fuel depth)) '\x7d' fuel cs).map fun r => (.obj r.1, r.2) := by
  rw [value, skipSpace_cons rfl]
  rfl

/-- Between two marks there is nothing. -/
theorem enclosed_nil (item : Reader α) (hclose : isSpace close = false) (fuel : Nat) (tail : List Char) :
    enclosed item close fuel (close :: tail) = some ([], tail) := by
  simp only [enclosed, skipSpace_cons hclose, if_pos]

/-- What does not begin with the closing mark is items. -/
theorem enclosed_eq (item : Reader α) (hc : isSpace c = false) (hne : c ≠ close) (fuel level : Nat)
    (cs : List Char) : enclosed item close fuel (newLine level (c :: cs)) = separated item close fuel (c :: cs) := by
  simp only [enclosed, skipSpace_newLine, skipSpace_cons hc, if_neg hne]

/-- A value does not begin with white space or with a closing mark. -/
theorem write_head (level : Nat) {v : Json} (hv : v.Spelled) (tail : List Char) : ∃ c cs,
    write level v tail = c :: cs ∧ isSpace c = false ∧ c ≠ ']' := by
  cases v with
  | num literal =>
    obtain ⟨c, rest, hcs, hc⟩ := IsNumeral.head hv
    refine ⟨c, rest ++ tail, by rw [write, hcs]; rfl, ?_⟩
    rcases hc with hc | rfl
    · exact ⟨isSpace_digit hc, by rintro rfl; cases hc⟩
    · decide
  | bool b => cases b <;> exact ⟨_, _, rfl, by decide⟩
  | arr vs => cases vs <;> exact ⟨_, _, rfl, by decide⟩
  | obj ms => cases ms <;> exact ⟨_, _, rfl, by decide⟩
  | null => exact ⟨_, _, rfl, by decide⟩
  | str s => exact ⟨_, _, rfl, by decide⟩

/-- A number that is written is read back if what follows it does not belong to it. -/
theorem value_number (fuel depth level : Nat) {literal : String} {tail : List Char} (hv : (Json.num literal).Spelled)
    (htail : EndsNumber tail) : value fuel depth (write level (.num literal) tail) = some (.num literal, tail) := by
  have hnumber := scalar_append hv htail
  rw [String.ofList_toList] at hnumber
  obtain ⟨c, rest, hcs, hc⟩ := IsNumeral.head hv
  have hscalar : isSpace c = false ∧ c ≠ '[' ∧ c ≠ '\x7b' := by
    rcases hc with hc | rfl
    · refine ⟨isSpace_digit hc, ?_, ?_⟩ <;> rintro rfl <;> cases hc
    · decide
  rw [write, hcs, List.cons_append, value_scalar fuel depth hscalar, ← List.cons_append, ← hcs, hnumber]

mutual

/-- A value that is written is read back, whatever follows it. -/
theorem value_write {fuel : Nat} : ∀ (v : Json) (depth level : Nat) (tail : List Char), v.Spelled →
    v.depth ≤ depth → v.size ≤ fuel → EndsNumber tail → value fuel depth (write level v tail) = some (v, tail)
  | .null, depth, _, _, _, _, _, _ => value_scalar fuel depth (by decide)
  | .bool true, depth, _, _, _, _, _, _ => value_scalar fuel depth (by decide)
  | .bool false, depth, _, _, _, _, _, _ => value_scalar fuel depth (by decide)
  | .str s, depth, _, tail, _, _, _, _ => by
    refine (value_scalar fuel depth (by decide)).trans ?_
    rw [scalar, stringTail_write]
    rfl
  | .num _, depth, level, _, hv, _, _, htail => value_number fuel depth level hv htail
  | .arr [], depth + 1, _, tail, _, _, _, _ => by
    rw [write, value_arr, enclosed_nil _ rfl]
    rfl
  | .obj [], depth + 1, _, tail, _, _, _, _ => by
    rw [write, value_obj, enclosed_nil _ rfl]
    rfl
  | .arr (v :: vs), depth + 1, level, tail, hv, hdepth, hsize, _ => by
    simp only [Json.depth, size] at hdepth hsize
    have hitems := value_items (v :: vs) hv (Nat.le_of_succ_le_succ hdepth) hsize
    have hlength : vs.length < fuel := Nat.le_trans (length_le_sizeAll (v :: vs)) hsize
    have hread : separated (value fuel depth) ']' fuel _ = some (v :: vs, tail) :=
      separated_lines (level + 1) level (skipsSpace_value fuel depth) (by decide) v vs hlength
        fun u hu => hitems u hu (level + 1)
    rw [← writeItems_eq] at hread
    obtain ⟨c, cs, hcs, hspace, hne⟩ := write_head (level + 1) hv.1
      (writeItems (level + 1) vs (newLine level (']' :: tail)))
    rw [write, value_arr, hcs, enclosed_eq _ hspace hne, ← hcs, hread]
    rfl
  | .obj (m :: ms), depth + 1, level, tail, hv, hdepth, hsize, _ => by
    simp only [Json.depth, size] at hdepth hsize
    have hmembers := value_members (m :: ms) hv (Nat.le_of_succ_le_succ hdepth) hsize
    have hlength : ms.length < fuel := Nat.le_trans (length_le_sizeMembers (m :: ms)) hsize
    have hread : separated (member (value fuel depth)) '\x7d' fuel _ = some (m :: ms, tail) :=
      separated_lines (level + 1) level (skipsSpace_member (value fuel depth)) (by decide) m ms hlength
        fun u hu tail htail => member_write (skipsSpace_value fuel depth) (hmembers u hu (level + 1) tail htail)
    rw [← writeMembers_eq] at hread
    refine (value_obj fuel depth _).trans ?_
    rw [writeString, enclosed_eq _ rfl (by decide)]
    rw [writeMember, writeString] at hread
    rw [hread]
    rfl

theorem value_items {fuel depth : Nat} : ∀ (vs : List Json), SpelledAll vs → depthAll vs ≤ depth →
    sizeAll vs ≤ fuel → ∀ v ∈ vs, ∀ (level : Nat) (tail : List Char), EndsNumber tail →
      value fuel depth (write level v tail) = some (v, tail)
  | [], _, _, _, _, hv => nomatch hv
  | v :: vs, hspelled, hdepth, hsize, u, hu => by
    simp only [depthAll, sizeAll, Nat.max_le] at hdepth hsize
    intro level tail htail
    rcases List.mem_cons.1 hu with hu | hu
    · rw [hu]
      exact value_write v depth level tail hspelled.1 hdepth.1 (by omega) htail
    · exact value_items vs hspelled.2 hdepth.2 (by omega) u hu level tail htail

theorem value_members {fuel depth : Nat} : ∀ (ms : List (String × Json)), SpelledMembers ms → depthMembers ms ≤ depth →
    sizeMembers ms ≤ fuel → ∀ m ∈ ms, ∀ (level : Nat) (tail : List Char), EndsNumber tail →
      value fuel depth (write level m.2 tail) = some (m.2, tail)
  | [], _, _, _, _, hm => nomatch hm
  | (_, v) :: ms, hspelled, hdepth, hsize, u, hu => by
    simp only [depthMembers, sizeMembers, Nat.max_le] at hdepth hsize
    intro level tail htail
    rcases List.mem_cons.1 hu with hu | hu
    · rw [hu]
      exact value_write v depth level tail hspelled.1 hdepth.1 (by omega) htail
    · exact value_members ms hspelled.2 hdepth.2 (by omega) u hu level tail htail

end

mutual

/-- What follows a value is left as it is. -/
theorem write_append (level : Nat) (more : List Char) : ∀ (v : Json) (tail : List Char),
    write level v (tail ++ more) = write level v tail ++ more
  | .null, _ | .bool _, _ | .num _, _ => by simp only [write, List.append_assoc]
  | .str _, _ => by simp only [write, writeString, List.cons_append, List.append_assoc]
  | .arr [], _ | .obj [], _ => rfl
  | .arr (v :: vs), tail => by
    simp only [write, newLine, List.cons_append, List.append_assoc, ← write_append (level + 1) more v,
      ← writeItems_append (level + 1) more vs]
  | .obj ((_, v) :: ms), tail => by
    simp only [write, newLine, writeString, List.cons_append, List.append_assoc,
      ← write_append (level + 1) more v, ← writeMembers_append (level + 1) more ms]

theorem writeItems_append (level : Nat) (more : List Char) : ∀ (vs : List Json) (tail : List Char),
    writeItems level vs (tail ++ more) = writeItems level vs tail ++ more
  | [], _ => rfl
  | v :: vs, tail => by
    simp only [writeItems, newLine, List.cons_append, List.append_assoc, ← write_append level more v,
      writeItems_append level more vs]

theorem writeMembers_append (level : Nat) (more : List Char) : ∀ (ms : List (String × Json)) (tail : List Char),
    writeMembers level ms (tail ++ more) = writeMembers level ms tail ++ more
  | [], _ => rfl
  | (_, v) :: ms, tail => by
    simp only [writeMembers, newLine, writeString, List.cons_append, List.append_assoc,
      ← write_append level more v, writeMembers_append level more ms]

end

/-- The text of a value spells this value. -/
theorem parse_pretty {v : Json} (hv : v.Spelled) (hdepth : v.depth ≤ nestingLimit) :
    parse (v.pretty ++ "\n") = some v := by
  have htext : (v.pretty ++ "\n").toList = write 0 v ['\n'] := by
    rw [String.toList_append, pretty, String.toList_ofList]
    exact (write_append 0 ['\n'] v []).symm
  have hsize := size_write 0 v ['\n']
  have hread := value_write v nestingLimit 0 ['\n'] hv hdepth (Nat.le_of_add_right_le hsize)
    (endsNumber_cons (by decide) _)
  rw [parse, readFirst, htext, hread]
  rfl

/-! ### Nothing nested too deep is read -/

theorem separated_forall {P : α → Prop} (hitem : ∀ cs x rest, item cs = some (x, rest) → P x) :
    ∀ (fuel : Nat) (cs : List Char) (xs : List α) (rest : List Char),
      separated item close fuel cs = some (xs, rest) → ∀ x ∈ xs, P x
  | 0, _, _, _, h => nomatch h
  | fuel + 1, cs, xs, rest, h => by
    rw [separated] at h
    obtain ⟨⟨x, more⟩, hx, h⟩ := Option.bind_eq_some_iff.1 h
    have hP := hitem _ _ _ hx
    dsimp only at h
    split at h
    · cases h
    · split at h
      · cases h
        exact fun y hy => List.mem_singleton.1 hy ▸ hP
      · split at h
        · obtain ⟨⟨ys, rest'⟩, hys, h⟩ := Option.bind_eq_some_iff.1 h
          cases h
          intro y hy
          rcases List.mem_cons.1 hy with rfl | hy
          · exact hP
          · exact separated_forall hitem fuel _ _ _ hys y hy
        · cases h

theorem enclosed_forall {P : α → Prop} (hitem : ∀ cs x rest, item cs = some (x, rest) → P x) {fuel : Nat}
    {cs rest : List Char} {xs : List α} (h : enclosed item close fuel cs = some (xs, rest)) : ∀ x ∈ xs, P x := by
  unfold enclosed at h
  split at h
  · cases h
  · split at h
    · cases h
      exact nofun
    · exact separated_forall hitem _ _ _ _ h

theorem depthAll_le {n : Nat} : ∀ {vs : List Json}, (∀ v ∈ vs, v.depth ≤ n) → depthAll vs ≤ n
  | [], _ => Nat.zero_le n
  | _ :: _, h => Nat.max_le.2 ⟨h _ (.head _), depthAll_le fun v hv => h v (.tail _ hv)⟩

theorem depthMembers_le {n : Nat} : ∀ {ms : List (String × Json)}, (∀ m ∈ ms, m.2.depth ≤ n) → depthMembers ms ≤ n
  | [], _ => Nat.zero_le n
  | _ :: _, h => Nat.max_le.2 ⟨h _ (.head _), depthMembers_le fun m hm => h m (.tail _ hm)⟩

theorem depth_scalar {v : Json} {rest : List Char} (h : scalar cs = some (v, rest)) : v.depth = 0 := by
  unfold scalar at h
  split at h
  · cases h; rfl
  · cases h; rfl
  · cases h; rfl
  · obtain ⟨r, -, h⟩ := Option.map_eq_some_iff.1 h
    cases h; rfl
  · obtain ⟨r, -, h⟩ := Option.map_eq_some_iff.1 h
    cases h; rfl

theorem depth_value (fuel : Nat) : ∀ (depth : Nat) (cs : List Char) (v : Json) (rest : List Char),
    value fuel depth cs = some (v, rest) → v.depth ≤ depth
  | 0, _, _, _, h => Nat.le_of_eq (depth_scalar h)
  | depth + 1, cs, v, rest, h => by
    have ih := depth_value fuel depth
    rw [value] at h
    split at h
    · obtain ⟨⟨vs, r⟩, hvs, h⟩ := Option.map_eq_some_iff.1 h
      cases h
      exact Nat.succ_le_succ (depthAll_le (enclosed_forall ih hvs))
    · obtain ⟨⟨ms, r⟩, hms, h⟩ := Option.map_eq_some_iff.1 h
      cases h
      refine Nat.succ_le_succ (depthMembers_le (enclosed_forall (P := fun m => m.2.depth ≤ depth) ?_ hms))
      intro cs m rest hm
      unfold member at hm
      split at hm
      · obtain ⟨⟨name, r⟩, -, hm⟩ := Option.bind_eq_some_iff.1 hm
        dsimp only at hm
        split at hm
        · obtain ⟨⟨u, r⟩, hu, hm⟩ := Option.bind_eq_some_iff.1 hm
          cases hm
          exact ih _ _ _ hu
        · cases hm
      · cases hm
    · exact Nat.le_trans (Nat.le_of_eq (depth_scalar h)) (Nat.zero_le _)

/-- A value that is read, as a whole text or in front of one, keeps to the nesting limit. -/
theorem depth_parseFirst {text : String} {v : Json} (h : parseFirst text = some v) : v.depth ≤ nestingLimit := by
  obtain ⟨⟨v, rest⟩, hread, rfl⟩ := Option.map_eq_some_iff.1 h
  exact depth_value _ _ _ _ _ hread

theorem parseFirst_of_parse {text : String} {v : Json} (h : parse text = some v) : parseFirst text = some v := by
  obtain ⟨⟨u, rest⟩, hread, h⟩ := Option.bind_eq_some_iff.1 h
  dsimp only at h
  split at h
  · cases h
    rw [parseFirst, hread]
    rfl
  · cases h

end ScriptTree.Json

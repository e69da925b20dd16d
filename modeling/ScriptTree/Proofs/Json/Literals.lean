import ScriptTree.Json.Printer
import ScriptTree.Json.Reader
import ScriptTree.Proofs.Text.Numerals
import Mathlib.Data.List.Forall2

/-!
Strings and numbers in JSON text. A string that is written is read back, whatever characters it has and
whatever follows it. A number is read back as it is spelled if what follows does not go on with it.
-/

namespace ScriptTree.Json

variable {c : Char} {tail : List Char}

/-! ### Strings -/

/-- A piece of a string that stands for a character: the character or its code. -/
def Stands (q : Piece) (c : Char) : Prop := q = .char c ∨ q = .unit c.toNat

/-- The codes of the characters that are written by their code. -/
def codes : List Nat := List.range 0x20 ++ [0x26, 0x3c, 0x3e, 0x2028, 0x2029]

/-- The code that is written in four digits. -/
def unitOf? : List Char → Option Nat
  | [a, b, c, d] => unit? a b c d
  | _ => none

/-- These codes have four digits, which are read back. -/
theorem unit?_hex {n : Nat} (hn : n ∈ codes) :
    ∃ a b c d, Text.hex 4 n = [a, b, c, d] ∧ unit? a b c d = some n := by
  have key : ∀ n ∈ codes, unitOf? (Text.hex 4 n) = some n := by decide
  have h := key n hn
  unfold unitOf? at h
  split at h
  · exact ⟨_, _, _, _, ‹_›, h⟩
  · cases h

/-- A code is one piece. -/
theorem pieces_coded (hc : c.toNat ∈ codes) (rest : List Char) :
    pieces ('\\' :: 'u' :: (Text.hex 4 c.toNat ++ rest)) =
      (pieces rest).map fun r => (.unit c.toNat :: r.1, r.2) := by
  obtain ⟨w, x, y, z, hhex, hunit⟩ := unit?_hex hc
  rw [hhex]
  show pieces ('\\' :: 'u' :: w :: x :: y :: z :: rest) = _
  rw [pieces, hunit]
  cases pieces rest <;> rfl

/-- A character that means itself is one piece. -/
theorem pieces_plain (hquote : c ≠ '"') (hslash : c ≠ '\\') (hcontrol : ¬c.toNat < 0x20) (rest : List Char) :
    pieces (c :: rest) = (pieces rest).map fun r => (.char c :: r.1, r.2) := by
  rw [pieces, if_neg (by simp [hslash, Nat.le_of_not_lt hcontrol])]
  · cases pieces rest <;> rfl
  · exact hquote
  · exact fun _ _ _ _ _ h => absurd h hslash
  · exact fun _ _ h => absurd h hslash

/-- A character as it is written is one piece. -/
theorem pieces_escapeChar (c : Char) (rest : List Char) :
    ∃ q, Stands q c ∧ pieces (escapeChar c ++ rest) = (pieces rest).map fun r => (q :: r.1, r.2) := by
  unfold escapeChar
  split
  case h_8 hquote hslash _ _ _ _ _ =>
    split
    · rename_i h
      refine ⟨.unit c.toNat, .inr rfl, pieces_coded ?_ rest⟩
      simp only [Bool.or_eq_true, decide_eq_true_eq, beq_iff_eq] at h
      rw [codes, List.mem_append, List.mem_range]
      rcases h with ((((h | rfl) | rfl) | rfl) | rfl) | rfl
      · exact .inl h
      all_goals exact .inr (by decide)
    · rename_i h
      simp only [Bool.or_eq_true, decide_eq_true_eq, not_or] at h
      exact ⟨.char c, .inl rfl, pieces_plain hquote hslash h.1.1.1.1.1 rest⟩
  all_goals
    refine ⟨.char _, .inl rfl, ?_⟩
    cases h : pieces rest <;> simp [pieces, escaped?, h]

theorem pieces_flatMap : ∀ (cs tail : List Char),
    ∃ ps, List.Forall₂ Stands ps cs ∧ pieces (cs.flatMap escapeChar ++ '"' :: tail) = some (ps, tail)
  | [], _ => ⟨[], .nil, rfl⟩
  | c :: cs, tail => by
    obtain ⟨ps, hps, htail⟩ := pieces_flatMap cs tail
    obtain ⟨q, hq, hc⟩ := pieces_escapeChar c (cs.flatMap escapeChar ++ '"' :: tail)
    refine ⟨q :: ps, .cons hq hps, ?_⟩
    rw [List.flatMap_cons, List.append_assoc, hc, htail]
    rfl

/-- No character is half a pair. -/
theorem loneUnit_toNat (c : Char) : isHigh c.toNat = false ∧ loneUnit c.toNat = c := by
  have hvalid : c.toNat < 0xd800 ∨ 0xdfff < c.toNat := by
    rcases c.valid with h | h
    · exact .inl h
    · exact .inr h.1
  have hhigh : isHigh c.toNat = false := by
    simp only [isHigh, Bool.and_eq_false_iff, decide_eq_false_iff_not]
    omega
  have hlow : isLow c.toNat = false := by
    simp only [isLow, Bool.and_eq_false_iff, decide_eq_false_iff_not]
    omega
  rw [loneUnit, hhigh, hlow]
  exact ⟨rfl, c.ofNat_toNat⟩

/-- Pieces that stand for characters are joined to these. -/
theorem joinPieces_eq {ps : List Piece} {cs : List Char} (h : List.Forall₂ Stands ps cs) :
    joinPieces ps = cs := by
  induction h with
  | nil => rfl
  | @cons q c ps cs hq h ih =>
    rcases hq with rfl | rfl
    · rw [joinPieces, ih]
    · obtain ⟨hhigh, hlone⟩ := loneUnit_toNat c
      cases h with
      | nil =>
        rw [joinPieces, hlone, joinPieces]
        exact nofun
      | @cons r d ps cs hr h =>
        rcases hr with rfl | rfl
        · rw [joinPieces, hlone, ih]
          exact nofun
        · rw [joinPieces, hhigh, Bool.false_and, if_neg Bool.false_ne_true, hlone, ih]

/-- A string that is written is read back. -/
theorem stringTail_write (s : String) (tail : List Char) :
    stringTail (s.toList.flatMap escapeChar ++ '"' :: tail) = some (s, tail) := by
  obtain ⟨ps, hps, h⟩ := pieces_flatMap s.toList tail
  rw [stringTail, h]
  show some (String.ofList (joinPieces ps), tail) = _
  rw [joinPieces_eq hps, String.ofList_toList]

/-! ### Numbers -/

theorem digits_append {ds : List Char} (h : ∀ d ∈ ds, d.isDigit = true) (htail : EndsDigits tail) :
    digits (ds ++ tail) = (ds, tail) :=
  Prod.ext (takeWhile_digits h htail).1 (takeWhile_digits h htail).2

theorem wholePart_append {ds : List Char} (h : IsDigits ds) (hz : ds.head? = some '0' → ds = ['0'])
    (htail : EndsDigits tail) : wholePart (ds ++ tail) = some (ds, tail) := by
  rw [wholePart, digits_append h.2 htail]
  split
  · rename_i he
    exact absurd (congrArg Prod.fst he) h.1
  · rename_i he
    cases he
    cases hz rfl
  · rename_i he
    cases he
    rfl

theorem fractionPart_append {cs ds : List Char} (h : SpellsFraction cs ds) (hdigits : EndsDigits tail)
    (hpoint : '.' ∉ tail.head?) : fractionPart (cs ++ tail) = some (cs, tail) := by
  cases h with
  | none =>
    show fractionPart tail = _
    unfold fractionPart
    split
    · exact absurd rfl hpoint
    · rfl
  | point h =>
    show fractionPart ('.' :: (ds ++ tail)) = _
    rw [fractionPart, digits_append h.2 hdigits]
    split
    · rename_i he
      exact absurd (congrArg Prod.fst he) h.1
    · rename_i he
      cases he
      rfl

theorem exponentPart_append {cs : List Char} {e : Int} (h : SpellsExponent cs e) (htail : EndsNumber tail) :
    exponentPart (cs ++ tail) = some (cs, tail) := by
  have hread {ds : List Char} (hds : IsDigits ds) :
      ∃ d rest, ds = d :: rest ∧ digits (d :: (rest ++ tail)) = (d :: rest, tail) := by
    obtain ⟨d, rest, rfl⟩ := List.exists_cons_of_ne_nil hds.1
    exact ⟨d, rest, rfl, digits_append hds.2 htail.digits⟩
  cases h with
  | none =>
    cases tail with
    | nil => rfl
    | cons c cs =>
      obtain ⟨-, -, he, hE⟩ := htail c rfl
      exact if_neg (by rintro (rfl | rfl) <;> contradiction)
  | plus h =>
    obtain ⟨d, rest, rfl, hdigits⟩ := hread h
    simp [exponentPart, hdigits]
  | minus h =>
    obtain ⟨d, rest, rfl, hdigits⟩ := hread h
    simp [exponentPart, hdigits]

/-- The parts of a number are read one after another. -/
theorem parts_append {cs : List Char} {d : Decimal} (h : Spells cs d) (htail : EndsNumber tail) (sign : List Char) :
    (do
      let (whole, cs) ← wholePart (cs ++ tail)
      let (fraction, cs) ← fractionPart cs
      let (exponent, cs) ← exponentPart cs
      return (String.ofList (sign ++ whole ++ fraction ++ exponent), cs)) =
        some (String.ofList (sign ++ cs), tail) := by
  obtain @⟨whole, fraction, ds, exponent, e, hw, hz, hf, he⟩ := h
  obtain ⟨hdigits, hpoint⟩ := he.ends htail
  rw [List.append_assoc, List.append_assoc, wholePart_append hw hz (hf.ends hdigits)]
  simp only [Option.bind_eq_bind, Option.bind_some]
  rw [fractionPart_append hf hdigits hpoint]
  simp only [Option.bind_some]
  rw [exponentPart_append he htail]
  simp only [List.append_assoc]
  rfl

/-- A number is read as it is spelled. -/
theorem number_append {cs : List Char} (h : IsNumeral cs) (htail : EndsNumber tail) :
    number (cs ++ tail) = some (String.ofList cs, tail) := by
  cases h with
  | plain h =>
    refine Eq.trans ?_ (parts_append h htail [])
    rw [number]
    intro r hr
    obtain ⟨d, ds, rfl, hd⟩ := h.head
    obtain rfl : d = '-' := List.head_eq_of_cons_eq hr
    cases hd
  | minus h =>
    refine Eq.trans ?_ (parts_append h htail ['-'])
    rw [List.cons_append, number]

/-- A number is a value. -/
theorem scalar_append {cs : List Char} (h : IsNumeral cs) (htail : EndsNumber tail) :
    scalar (cs ++ tail) = some (.num (String.ofList cs), tail) := by
  have hnumber := number_append h htail
  obtain ⟨c, rest, rfl, hc⟩ := h.head
  have hne : c ≠ 'n' ∧ c ≠ 't' ∧ c ≠ 'f' ∧ c ≠ '"' := by
    rcases hc with hc | rfl
    · refine ⟨?_, ?_, ?_, ?_⟩ <;> rintro rfl <;> cases hc
    · decide
  rw [List.cons_append] at hnumber ⊢
  rw [scalar, hnumber]
  · rfl
  · exact fun _ h => hne.1 (List.head_eq_of_cons_eq h)
  · exact fun _ h => hne.2.1 (List.head_eq_of_cons_eq h)
  · exact fun _ h => hne.2.2.1 (List.head_eq_of_cons_eq h)
  · exact fun _ h => hne.2.2.2 (List.head_eq_of_cons_eq h)

end ScriptTree.Json

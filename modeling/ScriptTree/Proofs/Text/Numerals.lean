import ScriptTree.Floating.Decimal
import Mathlib.Algebra.Group.Nat.Defs
import Mathlib.Data.List.Basic

/-!
How numbers are spelled and which decimals they stand for. Integers and decimals are written in such
spellings, in every layout, and a spelling is read as the decimal it stands for.
-/

namespace ScriptTree

open Decimal

variable {ds cs tail : List Char}

/-- One digit at least, and nothing but digits. -/
def IsDigits (ds : List Char) : Prop := ds ≠ [] ∧ ∀ d ∈ ds, d.isDigit = true

/-- The fraction of a number, or nothing, and its digits. -/
inductive SpellsFraction : List Char → List Char → Prop
  | none : SpellsFraction [] []
  | point {ds : List Char} (h : IsDigits ds) : SpellsFraction ('.' :: ds) ds

/-- The exponent of a number, or nothing, and its value. -/
inductive SpellsExponent : List Char → Int → Prop
  | none : SpellsExponent [] 0
  | plus {ds : List Char} (h : IsDigits ds) : SpellsExponent ('e' :: '+' :: ds) (digitsValue ds)
  | minus {ds : List Char} (h : IsDigits ds) : SpellsExponent ('e' :: '-' :: ds) (-digitsValue ds)

/-- A number without a sign, no digit following a leading zero, and its magnitude. -/
inductive Spells : List Char → Decimal → Prop
  | mk {whole fraction ds exponent : List Char} {e : Int} (hw : IsDigits whole)
    (hz : whole.head? = some '0' → whole = ['0']) (hf : SpellsFraction fraction ds) (he : SpellsExponent exponent e) :
    Spells (whole ++ (fraction ++ exponent)) ⟨digitsValue (whole ++ ds), e - ds.length⟩

inductive IsNumeral : List Char → Prop
  | plain {cs : List Char} {d : Decimal} (h : Spells cs d) : IsNumeral cs
  | minus {cs : List Char} {d : Decimal} (h : Spells cs d) : IsNumeral ('-' :: cs)

/-! ### Where a number ends -/

/-- A text that does not go on with digits. -/
def EndsDigits (tail : List Char) : Prop := ∀ c ∈ tail.head?, c.isDigit = false

/-- A text that does not go on with a number. -/
def EndsNumber (tail : List Char) : Prop :=
  ∀ c ∈ tail.head?, c.isDigit = false ∧ c ≠ '.' ∧ c ≠ 'e' ∧ c ≠ 'E'

theorem EndsNumber.digits (h : EndsNumber tail) : EndsDigits tail := fun c hc => (h c hc).1

theorem endsDigits_cons {c : Char} (hc : c.isDigit = false) (cs : List Char) : EndsDigits (c :: cs) :=
  fun _ h => Option.some.inj h ▸ hc

theorem endsNumber_cons {c : Char} (hc : c.isDigit = false ∧ c ≠ '.' ∧ c ≠ 'e' ∧ c ≠ 'E') (cs : List Char) :
    EndsNumber (c :: cs) :=
  fun _ h => Option.some.inj h ▸ hc

theorem endsNumber_nil : EndsNumber [] := nofun

theorem SpellsExponent.ends {e : Int} (h : SpellsExponent cs e) (htail : EndsNumber tail) :
    EndsDigits (cs ++ tail) ∧ '.' ∉ (cs ++ tail).head? := by
  cases h with
  | none => exact ⟨htail.digits, fun h => (htail _ h).2.1 rfl⟩
  | plus => exact ⟨endsDigits_cons rfl _, nofun⟩
  | minus => exact ⟨endsDigits_cons rfl _, nofun⟩

theorem SpellsFraction.ends (h : SpellsFraction cs ds) (htail : EndsDigits tail) : EndsDigits (cs ++ tail) := by
  cases h with
  | none => exact htail
  | point => exact endsDigits_cons rfl _

/-- Digits are taken as far as they go. -/
theorem takeWhile_digits (h : ∀ d ∈ ds, d.isDigit = true) (htail : EndsDigits tail) :
    (ds ++ tail).takeWhile Char.isDigit = ds ∧ (ds ++ tail).dropWhile Char.isDigit = tail := by
  rw [List.takeWhile_append_of_pos h, List.dropWhile_append_of_pos h]
  cases tail with
  | nil => simp
  | cons c cs =>
    have hc := htail c rfl
    rw [List.takeWhile_cons, List.dropWhile_cons, hc]
    simp

/-- A number begins with a digit or a minus sign. -/
theorem Spells.head {d : Decimal} (h : Spells cs d) : ∃ c rest, cs = c :: rest ∧ c.isDigit = true := by
  obtain ⟨hw, -, -, -⟩ := h
  obtain ⟨d, ds, rfl⟩ := List.exists_cons_of_ne_nil hw.1
  exact ⟨d, _, rfl, hw.2 d (.head _)⟩

theorem IsNumeral.head (h : IsNumeral cs) : ∃ c rest, cs = c :: rest ∧ (c.isDigit = true ∨ c = '-') := by
  cases h with
  | plain h =>
    obtain ⟨d, ds, rfl, hd⟩ := h.head
    exact ⟨d, ds, rfl, .inl hd⟩
  | minus => exact ⟨_, _, rfl, .inr rfl⟩

/-! ### Digits -/

theorem isDigits_toDigits (n : Nat) : IsDigits (Nat.toDigits 10 n) :=
  ⟨Nat.toDigits_ne_nil, fun _ h => Nat.isDigit_of_mem_toDigits (by decide) (by decide) h⟩

/-- Digits are read as the number they were written for. -/
theorem digitsValue_toDigits (n : Nat) : digitsValue (Nat.toDigits 10 n) = n :=
  Nat.ofDigitChars_ten_toDigits

theorem digitsValue_append_zeros (ds : List Char) (n : Nat) :
    digitsValue (ds ++ List.replicate n '0') = digitsValue ds * 10 ^ n := by
  show Nat.ofDigitChars 10 _ 0 = Nat.ofDigitChars 10 ds 0 * _
  rw [Nat.ofDigitChars_append, Nat.ofDigitChars_replicate_zero, Nat.mul_comm]

theorem digitsValue_zeros_append (n : Nat) (ds : List Char) :
    digitsValue (List.replicate n '0' ++ ds) = digitsValue ds := by
  show Nat.ofDigitChars 10 _ 0 = Nat.ofDigitChars 10 ds 0
  rw [Nat.ofDigitChars_append, Nat.ofDigitChars_replicate_zero, Nat.mul_zero]

/-- No digit follows a leading zero. -/
theorem head_toDigits (n : Nat) : (Nat.toDigits 10 n).head? = some '0' → Nat.toDigits 10 n = ['0'] := by
  induction n using Nat.strongRecOn with
  | ind n ih =>
    rw [Nat.toDigits_eq_if (by decide)]
    split
    · intro h
      obtain h : n.digitChar = '0' := Option.some.inj h
      rw [h]
    · rename_i hn
      rw [List.head?_append_of_ne_nil _ Nat.toDigits_ne_nil]
      intro h
      have h0 := ih (n / 10) (Nat.div_lt_self (by omega) (by decide)) h
      have hz : n / 10 = 0 := by rw [← digitsValue_toDigits (n / 10), h0]; rfl
      omega

/-- The digits of a positive number do not begin with a zero. -/
theorem head_toDigits_ne {n : Nat} (hn : n ≠ 0) : (Nat.toDigits 10 n).head? ≠ some '0' := fun h =>
  hn (by rw [← digitsValue_toDigits n, head_toDigits n h]; rfl)

theorem isDigits_zeros_append (n : Nat) (h : IsDigits ds) : IsDigits (List.replicate n '0' ++ ds) := by
  refine ⟨fun h' => h.1 (List.append_eq_nil_iff.1 h').2, fun d hd => ?_⟩
  rcases List.mem_append.1 hd with hd | hd
  · rw [List.eq_of_mem_replicate hd]
    rfl
  · exact h.2 d hd

theorem isDigits_append_zeros (n : Nat) (h : IsDigits ds) : IsDigits (ds ++ List.replicate n '0') := by
  refine ⟨fun h' => h.1 (List.append_eq_nil_iff.1 h').1, fun d hd => ?_⟩
  rcases List.mem_append.1 hd with hd | hd
  · exact h.2 d hd
  · rw [List.eq_of_mem_replicate hd]
    rfl

theorem isDigits_take {n : Nat} (hn : n ≠ 0) (h : IsDigits ds) : IsDigits (ds.take n) :=
  ⟨fun h' => (List.take_eq_nil_iff.1 h').elim hn h.1, fun d hd => h.2 d (List.mem_of_mem_take hd)⟩

theorem isDigits_drop {n : Nat} (hn : n < ds.length) (h : IsDigits ds) : IsDigits (ds.drop n) :=
  ⟨fun h' => absurd (List.drop_eq_nil_iff.1 h') (by omega), fun d hd => h.2 d (List.mem_of_mem_drop hd)⟩

/-! ### What is written -/

/-- How integers are written. -/
theorem toList_toString (n : Int) : (toString n).toList =
    if 0 ≤ n then Nat.toDigits 10 n.natAbs else '-' :: Nat.toDigits 10 n.natAbs := by
  rw [Int.toString_eq_repr, Int.repr_eq_if]
  split
  · rw [Nat.toList_repr]
    congr 1
    omega
  · rw [String.toList_append, Nat.toList_repr]
    have : (-n).toNat = n.natAbs := by omega
    rw [this]
    rfl

theorem spells_toDigits (n : Nat) : Spells (Nat.toDigits 10 n) ⟨n, 0⟩ := by
  have := Spells.mk (isDigits_toDigits n) (head_toDigits n) .none .none
  simpa [digitsValue_toDigits] using this

theorem isNumeral_toString (n : Int) : IsNumeral (toString n).toList := by
  rw [toList_toString]
  split
  · exact .plain (spells_toDigits _)
  · exact .minus (spells_toDigits _)

/-- Decimals of the same magnitude. -/
def Decimal.Same (d e : Decimal) : Prop := d.ratio.1 * e.ratio.2 = e.ratio.1 * d.ratio.2

theorem Decimal.Same.refl (d : Decimal) : d.Same d := rfl

theorem spellsExponent_write (width : Nat) (e : Int) :
    SpellsExponent ('e' :: (if e < 0 then '-' else '+') :: DecimalLayout.pad width (Nat.toDigits 10 e.natAbs)) e := by
  have hd : IsDigits (DecimalLayout.pad width (Nat.toDigits 10 e.natAbs)) :=
    isDigits_zeros_append _ (isDigits_toDigits _)
  have hv : digitsValue (DecimalLayout.pad width (Nat.toDigits 10 e.natAbs)) = e.natAbs := by
    rw [DecimalLayout.pad, digitsValue_zeros_append, digitsValue_toDigits]
  split
  · have := SpellsExponent.minus hd
    rwa [hv, show -(e.natAbs : Int) = e by omega] at this
  · have := SpellsExponent.plus hd
    rwa [hv, show (e.natAbs : Int) = e by omega] at this

theorem spells_scientific (layout : DecimalLayout) {n : Nat} (hn : n ≠ 0) (lead : Int) :
    Spells (layout.scientific (Nat.toDigits 10 n) lead) ⟨n, lead - (Nat.toDigits 10 n).length + 1⟩ := by
  have hdigits := isDigits_toDigits n
  have hhead := head_toDigits_ne hn
  have hvalue := digitsValue_toDigits n
  generalize Nat.toDigits 10 n = ds at hdigits hhead hvalue ⊢
  obtain ⟨d, fraction, rfl⟩ := List.exists_cons_of_ne_nil hdigits.1
  have hexponent := spellsExponent_write layout.exponentWidth lead
  have hwhole : IsDigits [d] := isDigits_take (n := 1) Nat.one_ne_zero hdigits
  have hzero : [d].head? = some '0' → [d] = ['0'] := fun h => absurd h hhead
  cases fraction with
  | nil =>
    have := Spells.mk hwhole hzero .none hexponent
    simpa [DecimalLayout.scientific, hvalue] using this
  | cons c cs =>
    have hfraction : IsDigits (c :: cs) := isDigits_drop (n := 1) (by simp) hdigits
    have := Spells.mk hwhole hzero (.point hfraction) hexponent
    have he : lead - ((d :: c :: cs).length : Int) + 1 = lead - (c :: cs).length := by
      simp only [List.length_cons]
      omega
    rw [he]
    rwa [show [d] ++ c :: cs = d :: c :: cs from rfl, hvalue] at this

theorem spells_plain {n : Nat} (hn : n ≠ 0) (e : Int) :
    ∃ d, Spells (DecimalLayout.plain (Nat.toDigits 10 n) e (e + (Nat.toDigits 10 n).length - 1)) d ∧
      d.Same ⟨n, e⟩ := by
  have hdigits := isDigits_toDigits n
  have hhead := head_toDigits_ne hn
  have hvalue := digitsValue_toDigits n
  generalize Nat.toDigits 10 n = ds at hdigits hhead hvalue ⊢
  unfold DecimalLayout.plain
  split
  · rename_i he
    have hzero : (ds ++ List.replicate e.toNat '0').head? = some '0' → ds ++ List.replicate e.toNat '0' = ['0'] := by
      rw [List.head?_append_of_ne_nil _ hdigits.1]
      exact fun h => absurd h hhead
    have := Spells.mk (isDigits_append_zeros e.toNat hdigits) hzero .none .none
    refine ⟨⟨n * 10 ^ e.toNat, 0⟩, by simpa [digitsValue_append_zeros, hvalue] using this, ?_⟩
    simp [Decimal.Same, Decimal.ratio, he, Decimal.tenTo]
  · rename_i he
    split
    · rename_i hlead
      have hlt : (e + ds.length - 1).toNat + 1 < ds.length := by omega
      have hzero : (ds.take ((e + ds.length - 1).toNat + 1)).head? = some '0' →
          ds.take ((e + ds.length - 1).toNat + 1) = ['0'] := by
        rw [List.head?_take, if_neg (Nat.succ_ne_zero _)]
        exact fun h => absurd h hhead
      have := Spells.mk (isDigits_take (Nat.succ_ne_zero _) hdigits) hzero (.point (isDigits_drop hlt hdigits)) .none
      refine ⟨⟨n, e⟩, ?_, .refl _⟩
      rw [List.take_append_drop, hvalue, List.length_drop, List.append_nil] at this
      rwa [show (0 : Int) - ((ds.length - ((e + ds.length - 1).toNat + 1) : Nat) : Int) = e by omega] at this
    · rename_i hlead
      have hwhole : IsDigits ['0'] := ⟨nofun, by simp⟩
      have := Spells.mk hwhole (fun _ => rfl)
        (.point (isDigits_zeros_append (-(e + ds.length - 1) - 1).toNat hdigits)) .none
      refine ⟨⟨n, e⟩, ?_, .refl _⟩
      rw [show ['0'] ++ (List.replicate (-(e + ds.length - 1) - 1).toNat '0' ++ ds) =
        List.replicate ((-(e + ds.length - 1) - 1).toNat + 1) '0' ++ ds from rfl, digitsValue_zeros_append, hvalue,
        List.append_nil, List.length_append, List.length_replicate] at this
      rwa [show (0 : Int) - (((-(e + ds.length - 1) - 1).toNat + ds.length : Nat) : Int) = e by omega] at this

/-- A decimal is written in a spelling of its magnitude, in every layout. -/
theorem spells_write (layout : DecimalLayout) (d : Decimal) : ∃ e, Spells (layout.write d) e ∧ e.Same d := by
  unfold DecimalLayout.write
  split
  · rename_i hd
    exact ⟨⟨0, 0⟩, spells_toDigits 0, by simp [Decimal.Same, Decimal.ratio, hd]; split <;> simp⟩
  · rename_i hd
    dsimp only
    split
    · refine ⟨_, spells_scientific layout hd _, ?_⟩
      have : d.exponent + ((Nat.toDigits 10 d.digits).length : Int) - 1 - (Nat.toDigits 10 d.digits).length + 1 =
        d.exponent := by omega
      rw [this]
      exact .refl d
    · exact spells_plain hd d.exponent

end ScriptTree

import ScriptTree.Proofs.Floating.Rounding
import ScriptTree.Proofs.Text.Numerals

/-!
A floating point number is written, in every layout, as a text that is read as this number. The digits
were chosen because they read back, the layout keeps their magnitude, and reading depends on the
magnitude only.
-/

namespace ScriptTree

variable {f : FloatFormat} {s : Bool} {d e : Decimal} {cs : List Char} {units : Nat}

namespace Decimal

theorem ratio_pos (d : Decimal) : 0 < d.ratio.2 := by
  unfold ratio
  split
  · exact Nat.one_pos
  · exact Nat.pow_pos (by decide)

/-- A factor of ten may stand among the digits or in the exponent. -/
theorem same_div_ten (h : d.digits % 10 = 0) : Same ⟨d.digits / 10, d.exponent + 1⟩ d := by
  obtain ⟨k, hk⟩ := Nat.dvd_of_mod_eq_zero h
  have hdiv : d.digits / 10 = k := by omega
  rw [Same, hdiv]
  simp only [ratio, tenTo, hk]
  rcases Int.lt_trichotomy (d.exponent + 1) 0 with he | he | he
  · rw [if_neg (by omega), if_neg (by omega)]
    have : (-d.exponent).toNat = (-(d.exponent + 1)).toNat + 1 := by omega
    rw [this]
    show k * 10 ^ _ = 10 * k * 10 ^ _
    rw [Nat.pow_succ]
    ring
  · rw [if_pos (by omega), if_neg (by omega), he, show d.exponent = -1 by omega]
    show k * 10 ^ 0 * 10 ^ 1 = 10 * k * 1
    ring
  · rw [if_pos (by omega), if_pos (by omega)]
    have : (d.exponent + 1).toNat = d.exponent.toNat + 1 := by omega
    rw [this]
    show k * 10 ^ _ * 1 = 10 * k * 10 ^ _ * 1
    rw [Nat.pow_succ]
    ring

end Decimal

namespace Floating

/-! ### Reading decimals -/

/-- A decimal of a large size is too large for the format: ten is more than `2 ^ 3`. -/
theorem top_le_ratio (hd : d.digits ≠ 0) (he : 0 ≤ d.exponent)
    (hsize : (f.precision + f.topShift : Int) - f.unitExp ≤ 3 * d.exponent + d.digits.log2) :
    2 ^ (f.precision + f.topShift) * d.ratio.2 ≤ d.ratio.1 * 2 ^ f.unitExp := by
  obtain ⟨k, hk⟩ := Int.eq_ofNat_of_zero_le he
  have hratio : d.ratio = (d.digits * 10 ^ k, 1) := by
    rw [Decimal.ratio, if_pos he, hk]
    rfl
  rw [hratio, Nat.mul_one]
  calc 2 ^ (f.precision + f.topShift) ≤ 2 ^ (d.digits.log2 + 3 * k + f.unitExp) :=
        Nat.pow_le_pow_right (by decide) (by omega)
    _ = 2 ^ d.digits.log2 * 8 ^ k * 2 ^ f.unitExp := by rw [Nat.pow_add, Nat.pow_add, Nat.pow_mul]
    _ ≤ d.digits * 10 ^ k * 2 ^ f.unitExp := by
        gcongr
        · exact Nat.log2_self_le hd
        · decide

/-- A decimal of a small size is less than half a unit. -/
theorem ratio_lt_half (he : d.exponent < 0) (hsize : 3 * d.exponent + d.digits.log2 + 2 < -(f.unitExp : Int)) :
    2 * (d.ratio.1 * 2 ^ f.unitExp) < d.ratio.2 := by
  obtain ⟨k, hk⟩ : ∃ k : Nat, d.exponent = -k := ⟨(-d.exponent).toNat, by omega⟩
  have hratio : d.ratio = (d.digits, 10 ^ k) := by
    rw [Decimal.ratio, if_neg (by omega), hk]
    simp [Decimal.tenTo]
  rw [hratio]
  calc 2 * (d.digits * 2 ^ f.unitExp) < 2 * (2 ^ (d.digits.log2 + 1) * 2 ^ f.unitExp) :=
        Nat.mul_lt_mul_of_pos_left (Nat.mul_lt_mul_of_pos_right Nat.lt_log2_self (Nat.two_pow_pos _)) Nat.two_pos
    _ = 2 ^ (d.digits.log2 + 2 + f.unitExp) := by ring
    _ ≤ 2 ^ (3 * k) := Nat.pow_le_pow_right (by decide) (by omega)
    _ = 8 ^ k := Nat.pow_mul 2 3 k
    _ ≤ 10 ^ k := Nat.pow_le_pow_left (by decide) k

/-- Whether a decimal is judged by its size or not, it is rounded as a quotient. -/
theorem ofDecimal_eq (hf : 0 < f.precision) (s : Bool) (d : Decimal) :
    ofDecimal f s d = round f s (d.ratio.1 * f.unitsInOne) d.ratio.2 := by
  have hunits : f.unitsInOne = 2 ^ f.unitExp := Nat.one_shiftLeft _
  unfold ofDecimal
  dsimp only
  split
  · rename_i hd
    have hzero : d.ratio.1 = 0 := by
      unfold Decimal.ratio
      split <;> simp [hd]
    rw [hzero, Nat.zero_mul]
    exact (round_small hf (by have := d.ratio_pos; omega)).symm
  · rename_i hd
    rw [hunits]
    split
    · rename_i hlarge
      exact (round_large hf d.ratio_pos (top_le_ratio hd hlarge.1 hlarge.2)).symm
    · split
      · rename_i hsmall
        exact (round_small hf (ratio_lt_half hsmall.1 hsmall.2)).symm
      · rfl

/-- Decimals of the same magnitude are read as the same number. -/
theorem ofDecimal_same (hf : 0 < f.precision) (h : d.Same e) : ofDecimal f s d = ofDecimal f s e := by
  rw [ofDecimal_eq hf, ofDecimal_eq hf]
  refine round_congr d.ratio_pos e.ratio_pos ?_
  rw [Nat.mul_right_comm, h, Nat.mul_right_comm]

theorem ofDecimal_normalize (hf : 0 < f.precision) (d : Decimal) :
    ofDecimal f s d.normalize = ofDecimal f s d := by
  have key : ∀ (fuel : Nat) (d : Decimal), ofDecimal f s (Decimal.dropZeros fuel d) = ofDecimal f s d := by
    intro fuel
    induction fuel with
    | zero => exact fun _ => rfl
    | succ fuel ih =>
      intro d
      rw [Decimal.dropZeros]
      split
      · rename_i h
        rw [ih, ofDecimal_same hf (Decimal.same_div_ten h.2)]
      · rfl
  exact key _ d

/-! ### The digits written -/

/-- All digits of a number read as the number. -/
theorem ofDecimal_exact (hf : 0 < f.precision) (h : f.Representable units) :
    ofDecimal f s (exactDecimal f units) = .finite s units h := by
  rw [ofDecimal_eq hf]
  have hunits : f.unitsInOne = 2 ^ f.unitExp := Nat.one_shiftLeft _
  have hnum : (exactDecimal f units).ratio.1 * f.unitsInOne = units * (exactDecimal f units).ratio.2 := by
    rw [hunits]
    unfold exactDecimal Decimal.ratio
    dsimp only
    split
    · have : f.unitExp = 0 := by omega
      simp [this, Decimal.tenTo]
    · rw [Int.neg_neg, Int.toNat_natCast]
      show units * 5 ^ f.unitExp * 2 ^ f.unitExp = units * 10 ^ f.unitExp
      rw [Nat.mul_assoc, ← Nat.mul_pow]
  rw [hnum, round_exact h (Decimal.ratio_pos _)]

/-- The digits chosen read as the number they were chosen for. -/
theorem ofDecimal_shortest (hf : 0 < f.precision) (h : f.Representable units) :
    ofDecimal f s (shortest f units) = .finite s units h := by
  unfold shortest
  dsimp only
  rw [ofDecimal_normalize hf]
  cases hfind : List.find? (readsAs f units) ((List.range 17).flatMap fun n : Nat =>
      neighbours units f.unitsInOne (leadingExponent units f.unitsInOne - n)) with
  | none => exact ofDecimal_exact hf h
  | some d =>
    have hreads := List.find?_some hfind
    unfold readsAs at hreads
    split at hreads
    · rename_i hd
      obtain rfl := beq_iff_eq.1 hreads
      rw [ofDecimal_eq hf] at hd
      rw [Option.getD_some, ofDecimal_eq hf]
      exact round_sign hd s
    · cases hreads

end Floating

/-! ### The text written -/

theorem exponent?_spells {t : Int} (h : SpellsExponent cs t) : Decimal.exponent? cs = some t := by
  have hdigits {ds : List Char} (h : IsDigits ds) : ¬(ds.isEmpty ∨ !ds.all Char.isDigit) := by
    have hall : ds.all Char.isDigit = true := List.all_eq_true.2 h.2
    simp [hall, h.1]
  cases h with
  | none => rfl
  | plus h => exact if_neg (hdigits h)
  | minus h => exact if_neg (hdigits h)

/-- A spelling is read as the decimal it stands for. -/
theorem parse?_spells (h : Spells cs d) : Decimal.parse? cs = some d := by
  obtain @⟨whole, fraction, ds, exponent, t, hw, -, hf, he⟩ := h
  obtain ⟨hdigits, hpoint⟩ := he.ends endsNumber_nil
  rw [List.append_nil] at hdigits hpoint
  have hwhole := takeWhile_digits hw.2 (hf.ends hdigits)
  have hexponent := exponent?_spells he
  have hne : ¬(whole.isEmpty = true ∧ ds.isEmpty = true) := fun h => hw.1 (List.isEmpty_iff.1 h.1)
  unfold Decimal.parse?
  simp only [hwhole.1, hwhole.2]
  cases hf with
  | none =>
    rw [List.nil_append]
    split
    · exact absurd rfl hpoint
    · rw [if_neg hne, hexponent]
      rfl
  | point hds =>
    have hfraction := takeWhile_digits hds.2 hdigits
    simp only [List.cons_append, hfraction.1, hfraction.2, if_neg hne, hexponent]
    rfl

theorem toLower_digit {c : Char} (hc : c.isDigit = true) : c.toLower = c := by
  simp only [Char.isDigit, Bool.and_eq_true, decide_eq_true_eq, ge_iff_le, UInt32.le_iff_toNat_le] at hc
  refine dif_neg ?_
  simp only [ge_iff_le, UInt32.le_iff_toNat_le]
  have h9 : '9'.val.toNat < 'A'.val.toNat := by decide
  omega

/-- No number is spelled like a word. -/
theorem ofWord?_numeral {text : String} (h : IsNumeral text.toList) :
    (Floating.ofWord? text : Option (Floating f)) = none := by
  have hne {d : Char} (hd : d.isDigit = true) : d ≠ 'i' ∧ d ≠ 'n' ∧ d ≠ '-' ∧ d ≠ '+' := by
    refine ⟨?_, ?_, ?_, ?_⟩ <;> rintro rfl <;> cases hd
  unfold Floating.ofWord?
  generalize text.toList = cs at h
  cases h with
  | plain h =>
    obtain ⟨d, ds, rfl, hd⟩ := h.head
    obtain ⟨hi, hn, hminus, hplus⟩ := hne hd
    simp only [List.map_cons, toLower_digit hd]
    split
    · exact absurd (List.head_eq_of_cons_eq ‹_›) hminus
    · exact absurd (List.head_eq_of_cons_eq ‹_›) hplus
    · simp [hi, hn]
  | minus h =>
    obtain ⟨d, ds, rfl, hd⟩ := h.head
    show (if _ then _ else _) = none
    simp [toLower_digit hd, (hne hd).1]

namespace Floating

theorem toText_finite (layout : DecimalLayout) (s : Bool) (h : f.Representable units) :
    ∃ cs d, Spells cs d ∧ d.Same (shortest f units) ∧
      ((finite s units h).toText layout).toList = if s then '-' :: cs else cs := by
  obtain ⟨d, hspells, hsame⟩ := spells_write layout (shortest f units)
  exact ⟨_, d, hspells, hsame, String.toList_ofList⟩

theorem isNumeral_toText (layout : DecimalLayout) (s : Bool) (h : f.Representable units) :
    IsNumeral ((finite s units h).toText layout).toList := by
  obtain ⟨cs, d, hspells, -, htext⟩ := toText_finite layout s h
  rw [htext]
  cases s with
  | false => exact .plain hspells
  | true => exact .minus hspells

/-- A finite number is read back from its text, in every layout. -/
theorem parse?_toText (hf : 0 < f.precision) (layout : DecimalLayout) (s : Bool) (h : f.Representable units) :
    parse? f ((finite s units h).toText layout) = some (.finite s units h) := by
  have hword := ofWord?_numeral (f := f) (isNumeral_toText layout s h)
  obtain ⟨cs, d, hspells, hsame, htext⟩ := toText_finite layout s h
  have hread : ofDecimal f s d = .finite s units h := by
    rw [ofDecimal_same hf hsame, ofDecimal_shortest hf h]
  have hsigned : Decimal.parseSigned? ((finite s units h).toText layout).toList = some (s, d) := by
    rw [htext]
    cases s with
    | true =>
      show (Decimal.parse? cs).map (true, ·) = _
      rw [parse?_spells hspells]
      rfl
    | false =>
      obtain ⟨c, rest, rfl, hc⟩ := hspells.head
      rw [if_neg Bool.false_ne_true, Decimal.parseSigned?, parse?_spells hspells]
      · rfl
      all_goals
        intro r hr
        obtain rfl := List.head_eq_of_cons_eq hr
        cases hc
  rw [parse?, hword, hsigned]
  exact congrArg some hread

/-- A value that is no number is read back from its word. -/
theorem ofWord?_toText (layout : DecimalLayout) :
    ofWord? ((nan : Floating f).toText layout) = some (nan : Floating f) ∧
      ∀ s, ofWord? ((infinite s : Floating f).toText layout) = some (infinite s : Floating f) := by
  refine ⟨by simp [ofWord?, toText], fun s => ?_⟩
  cases s with
  | true => simp [ofWord?, toText]
  | false => simp [ofWord?, toText]

end Floating

end ScriptTree

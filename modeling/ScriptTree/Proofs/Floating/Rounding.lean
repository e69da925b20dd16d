import ScriptTree.Floating.Decimal
import Mathlib.Data.Nat.Log
import Mathlib.Tactic.Ring

/-!
Rounding a quotient depends on its value only, keeps the numbers of the format as they are, and sends
what is far too large to an infinity and what is far too small to zero. So the reader of decimals, which
decides the magnitudes far outside the format by their size, rounds like any other quotient.
-/

namespace ScriptTree

variable {f : FloatFormat} {s : Bool} {num den : Nat}

/-! ### The nearest whole number -/

theorem nearestEven_scale (num den : Nat) {k : Nat} (hk : 0 < k) :
    nearestEven (num * k) (den * k) = nearestEven num den := by
  have hlt : 2 * (num % den * k) < den * k ↔ 2 * (num % den) < den := by
    rw [← Nat.mul_assoc, Nat.mul_lt_mul_right hk]
  have heq : 2 * (num % den * k) = den * k ↔ 2 * (num % den) = den := by
    rw [← Nat.mul_assoc, Nat.mul_left_inj (Nat.ne_of_gt hk)]
  simp only [nearestEven, Nat.mul_div_mul_right _ _ hk, Nat.mul_mod_mul_right, hlt, heq]

theorem nearestEven_mul (n : Nat) (hden : 0 < den) : nearestEven (n * den) den = n := by
  simp [nearestEven, Nat.mul_div_cancel n hden, hden]

theorem div_le_nearestEven (num den : Nat) : num / den ≤ nearestEven num den := by
  unfold nearestEven
  dsimp only
  split <;> omega

theorem nearestEven_small (h : 2 * num < den) : nearestEven num den = 0 := by
  have hlt : num < den := by omega
  simp [nearestEven, Nat.div_eq_of_lt hlt, Nat.mod_eq_of_lt hlt, h]

namespace Floating

/-! ### Rounding -/

theorem round_scale (f : FloatFormat) (s : Bool) (num den : Nat) {k : Nat} (hk : 0 < k) :
    round f s (num * k) (den * k) = round f s num den := by
  have hshift (i : Nat) : (den * k) <<< i = (den <<< i) * k := by
    rw [Nat.shiftLeft_eq, Nat.shiftLeft_eq]
    ring
  simp only [round, Nat.mul_div_mul_right _ _ hk, hshift, nearestEven_scale _ _ hk]

/-- Equal quotients are rounded to the same number. -/
theorem round_congr {num' den' : Nat} (hden : 0 < den) (hden' : 0 < den') (h : num * den' = num' * den) :
    round f s num den = round f s num' den' := by
  rw [← round_scale f s num den hden', ← round_scale f s num' den' hden, h, Nat.mul_comm den den']

/-- A number of the format is kept. -/
theorem round_exact {units : Nat} (h : f.Representable units) (hden : 0 < den) :
    round f s (units * den) den = .finite s units h := by
  have hshift : nearestEven (units * den) (den <<< f.excess units) <<< f.excess units = units := by
    have hunits : units = units / (1 <<< f.excess units) * (1 <<< f.excess units) :=
      (Nat.div_mul_cancel (Nat.dvd_of_mod_eq_zero h.2)).symm
    have hscaled : units * den = units / (1 <<< f.excess units) * (den <<< f.excess units) := by
      conv_lhs => rw [hunits]
      rw [Nat.shiftLeft_eq den, Nat.one_shiftLeft]
      ring
    have hpos : 0 < den <<< f.excess units := by
      rw [Nat.shiftLeft_eq]
      exact Nat.mul_pos hden (Nat.two_pow_pos _)
    rw [hscaled, nearestEven_mul _ hpos, Nat.shiftLeft_eq (units / _), ← Nat.one_shiftLeft, ← hunits]
  simp only [round, Nat.mul_div_cancel units hden, hshift, dif_pos h]

/-- Rounding with the other sign differs in the sign. -/
theorem round_sign {t : Bool} {units : Nat} {h : f.Representable units}
    (hround : round f t num den = .finite s units h) (u : Bool) : round f u num den = .finite u units h := by
  unfold round at hround ⊢
  dsimp only at hround ⊢
  split at hround
  · rename_i hr
    rw [dif_pos hr]
    cases hround
    rfl
  · cases hround

/-- What is not half a unit is rounded to zero. -/
theorem round_small (hf : 0 < f.precision) (h : 2 * num < den) : round f s num den = zero s := by
  have hq : num / den = 0 := Nat.div_eq_of_lt (by omega)
  have hexcess : f.excess 0 = 0 := by
    simp only [FloatFormat.excess, Nat.log2_zero]
    omega
  simp only [round, hq, hexcess, Nat.shiftLeft_zero, nearestEven_small h, dif_pos f.representable_zero]
  rfl

/-- What is at least twice the largest power of two is rounded to an infinity. -/
theorem round_large (hf : 0 < f.precision) (hden : 0 < den) (h : 2 ^ (f.precision + f.topShift) * den ≤ num) :
    round f s num den = .infinite s := by
  have hq : 2 ^ (f.precision + f.topShift) ≤ num / den := (Nat.le_div_iff_mul_le hden).2 h
  generalize hn : num / den = q at hq
  have hq0 : q ≠ 0 := by
    rintro rfl
    have := Nat.two_pow_pos (f.precision + f.topShift)
    omega
  have hlog : f.precision + f.topShift ≤ q.log2 := (Nat.le_log2 hq0).2 hq
  have hexcess : f.precision - 1 + f.excess q = q.log2 := by
    simp only [FloatFormat.excess]
    omega
  -- what is left of the quotient without the low bits has all bits of a significand
  have hunits : 2 ^ q.log2 ≤ nearestEven num (den <<< f.excess q) <<< f.excess q := by
    have hdiv : num / (den <<< f.excess q) = q / 2 ^ f.excess q := by
      rw [Nat.shiftLeft_eq, ← Nat.div_div_eq_div_mul, hn]
    have hlow : 2 ^ (f.precision - 1) ≤ nearestEven num (den <<< f.excess q) := by
      refine Nat.le_trans ?_ (div_le_nearestEven _ _)
      rw [hdiv, Nat.le_div_iff_mul_le (Nat.two_pow_pos _), ← Nat.pow_add, hexcess]
      exact Nat.log2_self_le hq0
    rw [← hexcess, Nat.pow_add, Nat.shiftLeft_eq]
    exact Nat.mul_le_mul_right _ hlow
  have hlargest : f.largest < 2 ^ q.log2 := by
    have hpos := Nat.two_pow_pos f.precision
    have htop := Nat.two_pow_pos f.topShift
    calc f.largest = (2 ^ f.precision - 1) * 2 ^ f.topShift := by
          rw [FloatFormat.largest, Nat.shiftLeft_eq, Nat.one_shiftLeft]
      _ < 2 ^ f.precision * 2 ^ f.topShift := Nat.mul_lt_mul_of_pos_right (by omega) htop
      _ = 2 ^ (f.precision + f.topShift) := (Nat.pow_add ..).symm
      _ ≤ 2 ^ q.log2 := Nat.pow_le_pow_right (by decide) hlog
  have hnot : ¬f.Representable (nearestEven num (den <<< f.excess q) <<< f.excess q) := fun hr =>
    absurd (Nat.lt_of_le_of_lt (Nat.le_trans hunits hr.1) hlargest) (Nat.lt_irrefl _)
  simp only [round, hn, dif_neg hnot]

end Floating

end ScriptTree

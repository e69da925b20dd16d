import Mathlib.Data.Int.Bitwise
import ScriptTree.Eval.Context

/-!
Arithmetic on ints and longs. What an operator makes of two integers is said first without regard to any
width; the operators on words give just that, reduced to the range of the word. A word is told by the
integer it stands for, so for each operator there is one fact about `BitVec.ofInt`, and the cases that look
delicate, the least integer divided by minus one or a shift by the width or more, are no cases of their own.
-/

namespace ScriptTree

/-! ### The operators on integers -/

/-- Whether the comparison holds of two integers. -/
def Comparison.exact (k : Comparison) (a b : Int) : Bool :=
  match k with
  | .equal => a = b
  | .less => a < b
  | .greater => b < a
  | .lessEqual => a ≤ b
  | .greaterEqual => b ≤ a
  | .notEqual => a ≠ b

namespace Arithmetic

/-- What the operator makes of two integers of any size. Division truncates toward zero and leaves a
remainder with the sign of the dividend; a negative integer has infinitely many leading ones. -/
def exact (o : Arithmetic) (a b : Int) : Int :=
  match o with
  | .sum => a + b
  | .difference => a - b
  | .product => a * b
  | .quotient => a.tdiv b
  | .remainder => a.tmod b
  | .bitAnd => a.land b
  | .bitOr => a.lor b
  | .bitXor => Int.xor a b
  | .shiftLeft => a * 2 ^ b.toNat
  | .shiftRight => a.fdiv (2 ^ b.toNat)

/-- The right operands that the operator has no result for. -/
def Undefined (o : Arithmetic) (b : Int) : Prop :=
  match o with
  | .quotient | .remainder => b = 0
  | .shiftLeft | .shiftRight => b < 0
  | _ => False

end Arithmetic

/-- What the operator makes of an integer of any size. -/
def UnaryOperator.exact (o : UnaryOperator) (a : Int) : Int :=
  match o with
  | .minus => -a
  | .plus => a
  | .complement => -a - 1

/-! ### Words that stand for integers -/

section Words

variable {w : Nat} {x y z : BitVec w} {m n : Int}

theorem eq_ofInt (h : z.toInt = n.bmod (2 ^ w)) : z = BitVec.ofInt w n := by
  apply BitVec.eq_of_toInt_eq
  rw [h, BitVec.toInt_ofInt]

theorem getElem_ofInt (n : Int) {i : Nat} (h : i < w) : (BitVec.ofInt w n)[i] = n.testBit i := by
  cases n with
  | ofNat m => simp [Int.testBit, ← BitVec.getLsbD_eq_getElem, BitVec.getLsbD_ofNat, h]
  | negSucc m =>
    simp [BitVec.ofInt_negSucc_eq_not_ofNat, Int.testBit, ← BitVec.getLsbD_eq_getElem, BitVec.getLsbD_ofNat, h]

theorem ofInt_land (m n : Int) : BitVec.ofInt w (m.land n) = BitVec.ofInt w m &&& BitVec.ofInt w n := by
  ext i hi
  simp [getElem_ofInt, Int.testBit_land]

theorem ofInt_lor (m n : Int) : BitVec.ofInt w (m.lor n) = BitVec.ofInt w m ||| BitVec.ofInt w n := by
  ext i hi
  simp [getElem_ofInt, Int.testBit_lor]

theorem ofInt_xor (m n : Int) : BitVec.ofInt w (Int.xor m n) = BitVec.ofInt w m ^^^ BitVec.ofInt w n := by
  ext i hi
  simp [getElem_ofInt, Int.testBit_lxor]

theorem shiftLeft_eq_ofInt (x : BitVec w) (n : Nat) : x <<< n = BitVec.ofInt w (x.toInt * 2 ^ n) := by
  have hpow : BitVec.twoPow w n = BitVec.ofInt w (2 ^ n) := by
    apply BitVec.eq_of_toNat_eq
    have h : ((2 : Int) ^ n) = ((2 ^ n : Nat) : Int) := by push_cast; rfl
    rw [BitVec.toNat_twoPow, h, BitVec.ofInt_natCast, BitVec.toNat_ofNat]
  rw [BitVec.shiftLeft_eq_mul_twoPow, BitVec.ofInt_mul, BitVec.ofInt_toInt, hpow]

/-- A shift to the right by more than the width leaves no more than one by the width. -/
theorem sshiftRight_min (x : BitVec w) (n : Nat) : x.sshiftRight (min n w) = x.sshiftRight n := by
  ext i hi
  have h : min n w + i < w ↔ n + i < w := by omega
  by_cases hn : n + i < w
  · have hmin : min n w = n := by omega
    rw [hmin]
  · simp [BitVec.getElem_sshiftRight, hn, h.not.2 hn]

theorem sshiftRight_eq_ofInt (x : BitVec w) (n : Nat) : x.sshiftRight n = BitVec.ofInt w (x.toInt.fdiv (2 ^ n)) := by
  have h : (x.sshiftRight n).toInt = x.toInt.fdiv (2 ^ n) := by
    rw [BitVec.toInt_sshiftRight, Int.shiftRight_eq_div_pow, Int.fdiv_eq_ediv_of_nonneg _ (Int.pow_nonneg (by decide))]
    push_cast
    rfl
  rw [← h, BitVec.ofInt_toInt]

theorem complement_eq_ofInt (x : BitVec w) : ~~~x = BitVec.ofInt w (-x.toInt - 1) := by
  rw [BitVec.not_eq_neg_add, BitVec.sub_eq_add_neg, Int.sub_eq_add_neg, BitVec.ofInt_add, BitVec.ofInt_neg,
    BitVec.ofInt_neg, BitVec.ofInt_toInt]
  rfl

theorem toInt_eq_zero_iff : x.toInt = 0 ↔ x = 0 := by
  rw [← BitVec.toInt_inj]
  simp

theorem toNat_toInt_of_nonneg (h : 0 ≤ x.toInt) : x.toInt.toNat = x.toNat := by
  have hmsb : x.msb = false := by
    rw [BitVec.msb_eq_toInt]
    simpa using h
  rw [BitVec.toInt_eq_toNat_of_msb hmsb, Int.toNat_natCast]

theorem Comparison.holds_compareWords (k : Comparison) (x y : BitVec w) :
    k.holds (some (Number.compareWords x y)) = k.exact x.toInt y.toInt := by
  unfold Number.compareWords
  rcases Int.lt_trichotomy x.toInt y.toInt with h | h | h
  · have hcompare : compare x.toInt y.toInt = .lt := Std.compare_eq_lt.2 h
    rw [hcompare]
    cases k <;> simp [Comparison.holds, Comparison.exact, h, Int.le_of_lt h, Int.ne_of_lt h]
  · have hcompare : compare x.toInt y.toInt = .eq := Std.compare_eq_iff_eq.2 h
    rw [hcompare]
    cases k <;> simp [Comparison.holds, Comparison.exact, h]
  · have hcompare : compare x.toInt y.toInt = .gt := Std.compare_eq_gt.2 h
    rw [hcompare]
    cases k <;> simp [Comparison.holds, Comparison.exact, h, Int.le_of_lt h, (Int.ne_of_lt h).symm]

/-- Where an operator is defined, its result on words is the exact one, reduced to the range of the words. -/
theorem Arithmetic.onWords_exact (o : Arithmetic) (h : ¬o.Undefined y.toInt) :
    o.onWords x y = .ok (BitVec.ofInt w (o.exact x.toInt y.toInt)) := by
  cases o with
  | sum => exact congrArg Except.ok (eq_ofInt (BitVec.toInt_add x y))
  | difference => exact congrArg Except.ok (eq_ofInt BitVec.toInt_sub)
  | product => exact congrArg Except.ok (eq_ofInt (BitVec.toInt_mul x y))
  | quotient =>
    have hy : y ≠ 0 := fun he => h (toInt_eq_zero_iff.2 he)
    rw [onWords, if_neg hy, eq_ofInt (BitVec.toInt_sdiv x y)]
    rfl
  | remainder =>
    have hy : y ≠ 0 := fun he => h (toInt_eq_zero_iff.2 he)
    rw [onWords, if_neg hy, exact, ← BitVec.toInt_srem, BitVec.ofInt_toInt]
  | bitAnd => rw [exact, ofInt_land, BitVec.ofInt_toInt, BitVec.ofInt_toInt, onWords]
  | bitOr => rw [exact, ofInt_lor, BitVec.ofInt_toInt, BitVec.ofInt_toInt, onWords]
  | bitXor => rw [exact, ofInt_xor, BitVec.ofInt_toInt, BitVec.ofInt_toInt, onWords]
  | shiftLeft =>
    have hy : 0 ≤ y.toInt := Int.not_lt.1 h
    have hmsb : y.msb = false := by simpa [BitVec.msb_eq_toInt] using hy
    have hshift : (if y.toNat < w then x <<< y.toNat else 0) = x <<< y.toNat := by
      split
      · rfl
      · rw [BitVec.shiftLeft_eq_zero (by omega)]
        rfl
    rw [onWords, hmsb, if_neg Bool.false_ne_true, hshift, shiftLeft_eq_ofInt, exact, toNat_toInt_of_nonneg hy]
  | shiftRight =>
    have hy : 0 ≤ y.toInt := Int.not_lt.1 h
    have hmsb : y.msb = false := by simpa [BitVec.msb_eq_toInt] using hy
    rw [onWords, hmsb, if_neg Bool.false_ne_true, sshiftRight_min, sshiftRight_eq_ofInt, exact,
      toNat_toInt_of_nonneg hy]

/-- Where it is not defined, it is refused. -/
theorem Arithmetic.onWords_undefined (o : Arithmetic) (h : o.Undefined y.toInt) :
    ∃ e, o.onWords x y = .error e := by
  cases o with
  | quotient | remainder =>
    have hy : y = 0 := toInt_eq_zero_iff.1 h
    exact ⟨_, by rw [onWords, if_pos hy]⟩
  | shiftLeft | shiftRight =>
    have hy : y.toInt < 0 := h
    have hmsb : y.msb = true := by simpa [BitVec.msb_eq_toInt] using hy
    exact ⟨_, by rw [onWords, if_pos hmsb]⟩
  | _ => exact absurd h id

theorem UnaryOperator.onWord_exact (o : UnaryOperator) (x : BitVec w) :
    o.onWord x = BitVec.ofInt w (o.exact x.toInt) := by
  cases o with
  | minus => exact eq_ofInt BitVec.toInt_neg
  | plus => exact BitVec.ofInt_toInt.symm
  | complement => exact complement_eq_ofInt x

end Words

/-! ### Numbers -/

def NumericType.bits : NumericType → Nat
  | .int => 32
  | _ => 64

namespace Number

/-- The integer that an int or a long stands for. -/
def whole? : Number → Option Int
  | .int n => some n.toInt
  | .long n => some n.toInt
  | _ => none

/-- The number is of this integer type and stands for what the integer is when reduced to the range of
the type, as numbers in two's complement wrap around. -/
structure IsReduced (r : Number) (t : NumericType) (n : Int) : Prop where
  type : r.type = t
  whole : r.whole? = some (n.bmod (2 ^ t.bits))

/-- The type that operators take an int or a long with another one to. -/
def commonType (m n : Number) : NumericType := if m.type = .int ∧ n.type = .int then .int else .long

variable {m n r : Number} {t : NumericType} {a b : Int}

theorem isReduced_int (n : Int) : IsReduced (.int (.ofBitVec (.ofInt 32 n))) .int n :=
  ⟨rfl, congrArg some (BitVec.toInt_ofInt n)⟩

theorem isReduced_long (n : Int) : IsReduced (.long (.ofBitVec (.ofInt 64 n))) .long n :=
  ⟨rfl, congrArg some (BitVec.toInt_ofInt n)⟩

/-- Two operands in their common type stand for the integers that they stood for. -/
theorem promote_whole (ha : m.whole? = some a) (hb : n.whole? = some b) :
    (commonType m n = .int ∧ ∃ x y : Int32, promote m n = .int x y ∧ x.toInt = a ∧ y.toInt = b) ∨
    (commonType m n = .long ∧ ∃ x y : Int64, promote m n = .long x y ∧ x.toInt = a ∧ y.toInt = b) := by
  cases m with
  | float | double => cases ha
  | int x =>
    cases n with
    | float | double => cases hb
    | int y => exact .inl ⟨rfl, x, y, rfl, Option.some.inj ha, Option.some.inj hb⟩
    | long y => exact .inr ⟨rfl, x.toInt64, y, rfl, x.toInt_toInt64.trans (Option.some.inj ha), Option.some.inj hb⟩
  | long x =>
    cases n with
    | float | double => cases hb
    | int y => exact .inr ⟨rfl, x, y.toInt64, rfl, Option.some.inj ha, y.toInt_toInt64.trans (Option.some.inj hb)⟩
    | long y => exact .inr ⟨rfl, x, y, rfl, Option.some.inj ha, Option.some.inj hb⟩

/-- An operand fits the common type. -/
theorem bmod_common (ha : m.whole? = some a) (hb : n.whole? = some b) : a.bmod (2 ^ (commonType m n).bits) = a := by
  rcases promote_whole ha hb with ⟨ht, x, -, -, rfl, -⟩ | ⟨ht, x, -, -, rfl, -⟩
  · rw [ht]
    exact BitVec.toInt_bmod_cancel x.toBitVec
  · rw [ht]
    exact BitVec.toInt_bmod_cancel x.toBitVec

theorem binary_comparison (k : Comparison) (ha : m.whole? = some a) (hb : n.whole? = some b) :
    m.binary (.comparison k) n = .ok (.bool (k.exact a b)) := by
  unfold Number.binary
  rcases promote_whole ha hb with ⟨-, x, y, hp, rfl, rfl⟩ | ⟨-, x, y, hp, rfl, rfl⟩
  · rw [hp, Pair.binary, k.holds_compareWords]
    rfl
  · rw [hp, Pair.binary, k.holds_compareWords]
    rfl

theorem binary_exact (o : Arithmetic) (ha : m.whole? = some a) (hb : n.whole? = some b) (h : ¬o.Undefined b) :
    ∃ r : Number, m.binary (.arithmetic o) n = .ok (.number r) ∧ r.IsReduced (commonType m n) (o.exact a b) := by
  unfold Number.binary
  rcases promote_whole ha hb with ⟨ht, x, y, hp, rfl, rfl⟩ | ⟨ht, x, y, hp, rfl, rfl⟩
  · rw [hp, ht, Pair.binary, o.onWords_exact (x := x.toBitVec) h]
    exact ⟨_, rfl, isReduced_int _⟩
  · rw [hp, ht, Pair.binary, o.onWords_exact (x := x.toBitVec) h]
    exact ⟨_, rfl, isReduced_long _⟩

theorem binary_undefined (o : Arithmetic) (ha : m.whole? = some a) (hb : n.whole? = some b) (h : o.Undefined b) :
    ∃ e, m.binary (.arithmetic o) n = .error e := by
  unfold Number.binary
  rcases promote_whole ha hb with ⟨-, x, y, hp, -, rfl⟩ | ⟨-, x, y, hp, -, rfl⟩
  · obtain ⟨e, he⟩ := o.onWords_undefined (x := x.toBitVec) h
    exact ⟨e, by rw [hp, Pair.binary, he]; rfl⟩
  · obtain ⟨e, he⟩ := o.onWords_undefined (x := x.toBitVec) h
    exact ⟨e, by rw [hp, Pair.binary, he]; rfl⟩

theorem unary_exact (o : UnaryOperator) (ha : m.whole? = some a) :
    ∃ r : Number, m.unary o = .ok (.number r) ∧ r.IsReduced m.type (o.exact a) := by
  cases m with
  | float | double => cases ha
  | int x =>
    obtain rfl : x.toInt = a := Option.some.inj ha
    rw [Number.unary, o.onWord_exact]
    exact ⟨_, rfl, isReduced_int _⟩
  | long x =>
    obtain rfl : x.toInt = a := Option.some.inj ha
    rw [Number.unary, o.onWord_exact]
    exact ⟨_, rfl, isReduced_long _⟩

/-- A conversion to an integer type cuts the integer down to the range of the type. -/
theorem convert_exact (ha : m.whole? = some a) (ht : t = .int ∨ t = .long) : (m.convert t).IsReduced t a := by
  cases m with
  | float | double => cases ha
  | int x =>
    obtain rfl : x.toInt = a := Option.some.inj ha
    rcases ht with rfl | rfl
    · exact ⟨rfl, congrArg some (BitVec.toInt_bmod_cancel x.toBitVec).symm⟩
    · have h : x.toInt64.toInt.bmod (2 ^ 64) = x.toInt64.toInt := BitVec.toInt_bmod_cancel x.toInt64.toBitVec
      rw [x.toInt_toInt64] at h
      exact ⟨rfl, congrArg some (x.toInt_toInt64.trans h.symm)⟩
  | long x =>
    obtain rfl : x.toInt = a := Option.some.inj ha
    rcases ht with rfl | rfl
    · exact ⟨rfl, congrArg some x.toInt_toInt32⟩
    · exact ⟨rfl, congrArg some (BitVec.toInt_bmod_cancel x.toBitVec).symm⟩

/-- With an operand or with one another, results have no wider type than the operands have together. -/
theorem commonType_left (h : r.type = commonType m n) : commonType r n = commonType m n := by
  unfold commonType at h ⊢
  split at h <;> simp_all

theorem commonType_of_eq (hm : m.type = t) (hn : n.type = t) (ht : t = .int ∨ t = .long) : commonType m n = t := by
  unfold commonType
  rcases ht with rfl | rfl <;> simp [hm, hn]

theorem commonType_cases (m n : Number) : commonType m n = .int ∨ commonType m n = .long := by
  unfold commonType
  split
  · exact .inl rfl
  · exact .inr rfl

/-- The quotient times the divisor and the remainder make the dividend, also where the quotient has wrapped
around. -/
theorem quotient_remainder (ha : m.whole? = some a) (hb : n.whole? = some b) (h : b ≠ 0) :
    ∃ q r p s : Number, m.binary (.arithmetic .quotient) n = .ok (.number q) ∧
      m.binary (.arithmetic .remainder) n = .ok (.number r) ∧
      q.binary (.arithmetic .product) n = .ok (.number p) ∧ p.binary (.arithmetic .sum) r = .ok (.number s) ∧
      s.type = commonType m n ∧ s.whole? = some a := by
  obtain ⟨q, hq, hqt, hqa⟩ := binary_exact .quotient ha hb h
  obtain ⟨r, hr, hrt, hra⟩ := binary_exact .remainder ha hb h
  obtain ⟨p, hp, hpt, hpa⟩ := binary_exact .product hqa hb id
  rw [commonType_left hqt] at hpt hpa
  obtain ⟨s, hs, hst, hsa⟩ := binary_exact .sum hpa hra id
  rw [commonType_of_eq hpt hrt (commonType_cases m n)] at hst hsa
  refine ⟨q, r, p, s, hq, hr, hp, hs, hst, hsa.trans (congrArg some ?_)⟩
  simp only [Arithmetic.exact]
  rw [Int.bmod_mul_bmod, Int.bmod_add_bmod, Int.add_bmod_bmod, Int.mul_comm, Int.mul_tdiv_add_tmod]
  exact bmod_common ha hb

end Number

/-! ### Values -/

/-- Operators on values that stand for an int or a long, those of counters among them. A binary operator
fails if it is none, divides by zero or shifts by a negative count, and in no other case. Else a
comparison is that of the integers, and any other operator has the exact result, reduced to 32 bits if both
operands are ints and to 64 bits if not; quotient and remainder belong together. An operator in front of
one operand reduces its exact result to the width of the operand, a conversion to the width of its target,
and an int made a long comes back. -/
theorem integers_exact (c : Context) {u v : Value} {m n : Number} {a b : Int} (hu : c.read u = .number m)
    (hv : c.read v = .number n) (ha : m.whole? = some a) (hb : n.whole? = some b) :
    (∀ op, (∃ e, (c.read u).binary op (c.read v) = .error e) ↔
      op = none ∨ ∃ o : Arithmetic, op = some (.arithmetic o) ∧ o.Undefined b) ∧
    (∀ k : Comparison, (c.read u).binary (some (.comparison k)) (c.read v) = .ok (.bool (k.exact a b))) ∧
    (∀ o : Arithmetic, ¬o.Undefined b → ∃ r : Number,
      (c.read u).binary (some (.arithmetic o)) (c.read v) = .ok (.number r) ∧
        r.IsReduced (m.commonType n) (o.exact a b)) ∧
    (b ≠ 0 → ∃ q r p s : Number,
      (c.read u).binary (some (.arithmetic .quotient)) (c.read v) = .ok (.number q) ∧
      (c.read u).binary (some (.arithmetic .remainder)) (c.read v) = .ok (.number r) ∧
      Datum.binary (some (.arithmetic .product)) (.number q) (c.read v) = .ok (.number p) ∧
      Datum.binary (some (.arithmetic .sum)) (.number p) (.number r) = .ok (.number s) ∧
      s.type = m.commonType n ∧ s.whole? = some a) ∧
    (∀ o : UnaryOperator, ∃ r : Number, (c.read u).unary (some o) = .ok (.number r) ∧
      r.IsReduced m.type (o.exact a)) ∧
    (∀ t : NumericType, t = .int ∨ t = .long → ∃ r : Number, (c.read u).convert t.name = .ok (.number r) ∧
      r.IsReduced t a) ∧
    ∀ x : Int32, ∃ d, Datum.convert "long" (.number (.int x)) = .ok d ∧ d.convert "int" = .ok (.number (.int x)) := by
  rw [hu, hv]
  have hcompare : ∀ k : Comparison, m.binary (.comparison k) n = .ok (.bool (k.exact a b)) :=
    fun k => Number.binary_comparison k ha hb
  refine ⟨fun op => ⟨?_, ?_⟩, hcompare, fun o => Number.binary_exact o ha hb, Number.quotient_remainder ha hb,
    fun o => Number.unary_exact o ha, fun t ht => ?_, fun x => ?_⟩
  · rintro ⟨e, he⟩
    match op with
    | none => exact .inl rfl
    | some (.comparison k) => exact nomatch (hcompare k).symm.trans he
    | some (.arithmetic o) =>
      refine .inr ⟨o, rfl, ?_⟩
      by_contra h
      obtain ⟨r, hr, -⟩ := Number.binary_exact o ha hb h
      exact nomatch hr.symm.trans he
  · rintro (rfl | ⟨o, rfl, ho⟩)
    · exact ⟨_, rfl⟩
    · exact Number.binary_undefined o ha hb ho
  · have hconvert : (Datum.number m).convert t.name = .ok (.number (m.convert t)) := by cases t <;> rfl
    exact ⟨m.convert t, hconvert, Number.convert_exact ha ht⟩
  · refine ⟨.number (.long x.toInt64), rfl, ?_⟩
    show Except.ok (Datum.number (.int x.toInt64.toInt32)) = _
    rw [Int32.toInt32_toInt64]

/-- The least int, which a counter holds, is divided by minus one: the quotient wraps around. -/
theorem integers_exact_least :
    let c : Context := { Context.empty with cells := #[Int32.minValue] }
    let d : Datum := .number (.int (-1))
    c.read (.cell 0) = .number (.int Int32.minValue) ∧ Int32.minValue.toInt = -2147483648 ∧
      ∃ r : Number, (c.read (.cell 0)).binary (some (.arithmetic .quotient)) d = .ok (.number r) ∧
        r.IsReduced .int 2147483648 := by
  intro c d
  have hu : c.read (.cell 0) = .number (.int Int32.minValue) := rfl
  have hleast : Int32.minValue.toInt = -2147483648 := by decide
  have ha : (Number.int Int32.minValue).whole? = some (-2147483648) := congrArg some hleast
  have hb : (Number.int (-1)).whole? = some (-1) := by decide
  obtain ⟨-, -, hexact, -⟩ := integers_exact c (v := .plain d) hu rfl ha hb
  exact ⟨hu, hleast, hexact .quotient (by decide : ¬(-1 : Int) = 0)⟩

end ScriptTree

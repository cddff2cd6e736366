import JavaFold.Program.Words
import Mathlib.Data.Int.Bitwise
import Mathlib.Data.Int.ModEq
import Mathlib.Tactic.Positivity

/-!
# Arithmetic on words

What the operators give on integers, said of the integers that the words stand for (`BinaryOp.Arithmetic`,
`UnaryOp.Arithmetic`, `Word.eval?_exact`). Sums, differences, products and opposites are exact up to whole turns of
`2 ^ 32`, and so is the quotient, which leaves the range once, for the least integer by `-1`. Remainders and signed
shifts to the right are exact. A shift goes as far as the remainder of its second operand by 32 says, which is not
negative (`Word.distance`). The bits of a word are those of its integer, of which all bits from the last one on are the
sign (`Word.testBit_toInt`). A step moves an integer by one (`StepOp.wraps`).

No operation is used where it fails (`BinaryOp.onWords?_eq`).
-/

namespace JavaFold

variable (a b : Int32)

namespace Word

/-! ## Shifts -/

/-- How far a shift by `b` goes: the remainder by the width of a word, which is not negative where `b` is. -/
def distance (b : Int32) : Nat := (b.toInt % 32).toNat

theorem distance_lt : distance b < 32 := by
  rw [distance]
  omega

/-- A word without its sign is the remainder of its integer. -/
theorem toNat_toBitVec : (a.toBitVec.toNat : Int) = a.toInt % 2 ^ 32 := by
  have hlt := a.toBitVec.isLt
  have hsigned : a.toInt = if 2 * a.toBitVec.toNat < 2 ^ 32 then (a.toBitVec.toNat : Int)
      else (a.toBitVec.toNat : Int) - (2 ^ 32 : Nat) := BitVec.toInt_eq_toNat_cond a.toBitVec
  split at hsigned <;> omega

/-- The low five bits of a word are the remainder of its integer. -/
theorem toNat_shiftDistance : (shiftDistance b).toBitVec.toNat = distance b := by
  have hmask : (shiftDistance b).toBitVec.toNat = b.toBitVec.toNat % 2 ^ 5 := by
    rw [← Nat.and_two_pow_sub_one_eq_mod]
    rfl
  have hword := toNat_toBitVec b
  rw [hmask, distance]
  omega

/-- A shift takes its distance as it is: the signed remainder by 32 leaves it alone. -/
theorem smod_shiftDistance : (shiftDistance b).toBitVec.smod 32 = (shiftDistance b).toBitVec := by
  have hlt : (shiftDistance b).toBitVec.toNat < 32 := toNat_shiftDistance b ▸ distance_lt b
  have hmsb : (shiftDistance b).toBitVec.msb = false := by
    rw [BitVec.msb_eq_false_iff_two_mul_lt]
    omega
  have hwidth : (32 : BitVec 32).msb = false := rfl
  rw [BitVec.smod_eq, hmsb, hwidth]
  refine BitVec.eq_of_toNat_eq ?_
  rw [BitVec.umod_eq, BitVec.toNat_umod]
  exact Nat.mod_eq_of_lt hlt

theorem toInt_shiftLeft : (a <<< shiftDistance b).toInt = (a.toInt * 2 ^ distance b).bmod (2 ^ 32) := by
  rw [← Int32.toInt_toBitVec, Int32.toBitVec_shiftLeft, smod_shiftDistance, BitVec.shiftLeft_eq',
    BitVec.toInt_shiftLeft, toNat_shiftDistance, Nat.shiftLeft_eq, ← Int32.toInt_toBitVec,
    BitVec.toInt_eq_toNat_bmod, Int.bmod_mul_bmod]
  push_cast
  rfl

theorem toInt_shiftRight : (a >>> shiftDistance b).toInt = a.toInt.fdiv (2 ^ distance b) := by
  rw [← Int32.toInt_toBitVec, Int32.toBitVec_shiftRight, smod_shiftDistance, BitVec.sshiftRight_eq',
    BitVec.toInt_sshiftRight, toNat_shiftDistance, Int.shiftRight_eq_div_pow, Int32.toInt_toBitVec,
    Int.fdiv_eq_ediv_of_nonneg _ (by positivity)]
  push_cast
  rfl

theorem toInt_shiftRight_toUInt32 :
    (a.toUInt32 >>> (shiftDistance b).toUInt32).toInt32.toInt =
      ((a.toInt % 2 ^ 32).fdiv (2 ^ distance b)).bmod (2 ^ 32) := by
  have hdistance : ((shiftDistance b).toBitVec % 32).toNat = distance b := by
    rw [BitVec.toNat_umod, toNat_shiftDistance]
    exact Nat.mod_eq_of_lt (distance_lt b)
  rw [← Int32.toInt_toBitVec, UInt32.toBitVec_toInt32, UInt32.toBitVec_shiftRight, Int32.toBitVec_toUInt32,
    Int32.toBitVec_toUInt32, BitVec.ushiftRight_eq', hdistance, BitVec.toInt_eq_toNat_bmod, BitVec.toNat_ushiftRight,
    Nat.shiftRight_eq_div_pow, ← toNat_toBitVec, Int.fdiv_eq_ediv_of_nonneg _ (by positivity)]
  push_cast
  rfl

/-! ## Division -/

theorem toInt_ne_zero {b : Int32} (h : b ≠ 0) : b.toInt ≠ 0 := fun hzero =>
  h (Int32.toInt_inj.mp (hzero.trans Int32.toInt_zero.symm))

theorem abs_toInt_rem_lt (a : Int32) {b : Int32} (h : b ≠ 0) : |(a % b).toInt| < |b.toInt| := by
  have hlt : a.toInt.natAbs % b.toInt.natAbs < b.toInt.natAbs :=
    Nat.mod_lt _ (Int.natAbs_pos.mpr (toInt_ne_zero h))
  rw [Int32.toInt_mod, Int.abs_eq_natAbs, Int.abs_eq_natAbs, Int.natAbs_tmod]
  exact_mod_cast hlt

theorem sign_toInt_rem : (a % b).toInt = 0 ∨ (a % b).toInt.sign = a.toInt.sign := by
  rw [Int32.toInt_mod, Int.sign_tmod]
  split
  · next hdvd => exact .inl (Int.tmod_eq_zero_of_dvd hdvd)
  · exact .inr rfl

/-- Quotient and remainder make up the dividend, up to whole turns. -/
theorem toInt_modEq_div_rem : a.toInt ≡ (a / b).toInt * b.toInt + (a % b).toInt [ZMOD 2 ^ 32] := by
  have hquotient : a.toInt.tdiv b.toInt ≡ (a / b).toInt [ZMOD 2 ^ 32] := by
    rw [Int32.toInt_div]
    exact (Int.bmod_emod).symm
  calc a.toInt = a.toInt.tdiv b.toInt * b.toInt + a.toInt.tmod b.toInt := (Int.tdiv_mul_add_tmod _ _).symm
    _ ≡ (a / b).toInt * b.toInt + a.toInt.tmod b.toInt [ZMOD 2 ^ 32] := (hquotient.mul_right _).add_right _
    _ = (a / b).toInt * b.toInt + (a % b).toInt := by rw [Int32.toInt_mod]

/-! ## Bits -/

/-- The bits of a word's integer: those of the word, of which the last one, the sign, goes on at all places behind. -/
theorem testBit_toInt (i : Nat) : a.toInt.testBit i = a.toBitVec.getLsbD (min i 31) := by
  have hmin : min i 31 = if i < 32 then i else 31 := by split <;> omega
  have hsign : a.toBitVec.msb = a.toBitVec.getLsbD 31 := BitVec.msb_eq_getLsbD_last a.toBitVec
  have hbehind : ¬ i < 32 → a.toBitVec.getLsbD i = false := fun hi =>
    BitVec.getLsbD_of_ge a.toBitVec i (Nat.le_of_not_lt hi)
  rw [← Int32.toInt_toBitVec, BitVec.toInt_eq_msb_cond, hmin]
  cases hmsb : a.toBitVec.msb with
  | false =>
    have hnat : (a.toBitVec.toNat : Int).testBit i = a.toBitVec.toNat.testBit i := rfl
    rw [if_neg (by decide), hnat, BitVec.testBit_toNat]
    split
    · rfl
    · next hi => rw [hbehind hi, ← hsign, hmsb]
  | true =>
    have hneg : (a.toBitVec.toNat : Int) - (2 ^ 32 : Nat) = Int.negSucc (2 ^ 32 - (a.toBitVec.toNat + 1)) := by omega
    have hbit : (Int.negSucc (2 ^ 32 - (a.toBitVec.toNat + 1))).testBit i =
        !(2 ^ 32 - (a.toBitVec.toNat + 1)).testBit i := rfl
    rw [if_pos rfl, hneg, hbit, Nat.testBit_two_pow_sub_succ a.toBitVec.isLt, BitVec.testBit_toNat]
    split
    · next hi => simp [hi]
    · next hi => rw [← hsign, hmsb, decide_eq_false hi, Bool.false_and, Bool.not_false]

theorem testBit_and (i : Nat) : (a &&& b).toInt.testBit i = (a.toInt.testBit i && b.toInt.testBit i) := by
  rw [testBit_toInt, testBit_toInt, testBit_toInt, Int32.toBitVec_and, BitVec.getLsbD_and]

theorem testBit_or (i : Nat) : (a ||| b).toInt.testBit i = (a.toInt.testBit i || b.toInt.testBit i) := by
  rw [testBit_toInt, testBit_toInt, testBit_toInt, Int32.toBitVec_or, BitVec.getLsbD_or]

theorem testBit_xor (i : Nat) : (a ^^^ b).toInt.testBit i = (a.toInt.testBit i ^^ b.toInt.testBit i) := by
  rw [testBit_toInt, testBit_toInt, testBit_toInt, Int32.toBitVec_xor, BitVec.getLsbD_xor]

/-- No word leaves the range where all its bits are turned over. -/
theorem toInt_complement : (~~~a).toInt = -a.toInt - 1 := by
  have hlow := Int32.le_toInt a
  have hhigh := Int32.toInt_lt a
  rw [Int32.toInt_not]
  exact Int.bmod_eq_of_le (by omega) (by omega)

end Word

/-! ## Operators -/

/-- The value is the integer `x`. -/
def Gives (v : Option Literal) (x : Int) : Prop := ∃ c : Int32, v = some (.int c) ∧ c.toInt = x

/-- The value is `x`, brought into the range of a word by whole turns. -/
def Wraps (v : Option Literal) (x : Int) : Prop := Gives v (x.bmod (2 ^ 32))

/-- The values of the binary operators at the integers `x` and `y`. -/
structure BinaryOp.Arithmetic (value : BinaryOp → Option Literal) (x y : Int) : Prop where
  add : Wraps (value .add) (x + y)
  sub : Wraps (value .sub) (x - y)
  mul : Wraps (value .mul) (x * y)
  div_eq_none : value .div = none ↔ y = 0
  rem_eq_none : value .rem = none ↔ y = 0
  /-- The quotient goes toward zero, and the remainder makes up for what is missing. -/
  divided : y ≠ 0 → ∃ q r : Int, Gives (value .div) q ∧ Gives (value .rem) r ∧
    q = (x.tdiv y).bmod (2 ^ 32) ∧ |r| < |y| ∧ (r = 0 ∨ r.sign = x.sign) ∧ x ≡ q * y + r [ZMOD 2 ^ 32]
  /-- The distance is not negative where `y` is. Without its sign, `x` is not negative either. -/
  shifted : ∃ d : Nat, d < 32 ∧ (d : Int) = y % 32 ∧ Wraps (value .shl) (x * 2 ^ d) ∧
    Gives (value .shr) (x.fdiv (2 ^ d)) ∧ Wraps (value .ushr) ((x % 2 ^ 32).fdiv (2 ^ d))
  bitAnd : ∃ z : Int, Gives (value .bitAnd) z ∧ ∀ i, z.testBit i = (x.testBit i && y.testBit i)
  bitOr : ∃ z : Int, Gives (value .bitOr) z ∧ ∀ i, z.testBit i = (x.testBit i || y.testBit i)
  bitXor : ∃ z : Int, Gives (value .bitXor) z ∧ ∀ i, z.testBit i = (x.testBit i ^^ y.testBit i)
  lt : value .lt = some (.bool (x < y))
  le : value .le = some (.bool (x ≤ y))
  gt : value .gt = some (.bool (x > y))
  ge : value .ge = some (.bool (x ≥ y))
  eq : value .eq = some (.bool (x = y))
  ne : value .ne = some (.bool (x ≠ y))
  and_eq_none : value .and = none
  or_eq_none : value .or = none

/-- The values of the operators in front of the integer `x`. -/
structure UnaryOp.Arithmetic (value : UnaryOp → Option Literal) (x : Int) : Prop where
  neg : Wraps (value .neg) (-x)
  bitNot : Gives (value .bitNot) (-x - 1)
  not_eq_none : value .not = none
  step_eq_none : ∀ op, value (.step op) = none

namespace BinaryOp

/-- No operation is used where it fails. -/
theorem onWords?_eq (op : BinaryOp) : op.onWords? a b = some (op.eval? (.int a) (.int b)) := by
  cases op with
  | div =>
    by_cases hb : b = 0 <;> simp [onWords?, eval?, onInts?, Word.div?, hb]
  | rem =>
    by_cases hb : b = 0 <;> simp [onWords?, eval?, onInts?, Word.rem?, hb]
  | ushr =>
    have hdistance : (shiftDistance b).toUInt32.toNat = Word.distance b := Word.toNat_shiftDistance b
    have hlt : (shiftDistance b).toUInt32 < 32 := by
      rw [UInt32.lt_iff_toNat_lt, hdistance]
      exact Word.distance_lt b
    simp [onWords?, eval?, onInts?, Word.shiftRight?, hlt]
  | _ => rfl

theorem eval?_eq_none_iff {op : BinaryOp} (h : op = div ∨ op = rem) :
    op.eval? (.int a) (.int b) = none ↔ b.toInt = 0 := by
  rw [← Int32.toInt_zero, Int32.toInt_inj]
  rcases h with rfl | rfl <;> by_cases hb : b = 0 <;> simp [eval?, onInts?, hb]

theorem arithmetic : Arithmetic (fun op => op.eval? (.int a) (.int b)) a.toInt b.toInt where
  add := ⟨_, rfl, Int32.toInt_add a b⟩
  sub := ⟨_, rfl, Int32.toInt_sub a b⟩
  mul := ⟨_, rfl, Int32.toInt_mul a b⟩
  div_eq_none := eval?_eq_none_iff a b (.inl rfl)
  rem_eq_none := eval?_eq_none_iff a b (.inr rfl)
  divided := fun h => by
    have hb : b ≠ 0 := fun hzero => h (hzero ▸ Int32.toInt_zero)
    exact ⟨_, _, ⟨a / b, if_neg hb, rfl⟩, ⟨a % b, if_neg hb, rfl⟩, Int32.toInt_div a b, Word.abs_toInt_rem_lt a hb,
      Word.sign_toInt_rem a b, Word.toInt_modEq_div_rem a b⟩
  shifted := ⟨Word.distance b, Word.distance_lt b, Int.toNat_of_nonneg (Int.emod_nonneg _ (by decide)),
    ⟨_, rfl, Word.toInt_shiftLeft a b⟩, ⟨_, rfl, Word.toInt_shiftRight a b⟩,
    ⟨_, rfl, Word.toInt_shiftRight_toUInt32 a b⟩⟩
  bitAnd := ⟨_, ⟨_, rfl, rfl⟩, Word.testBit_and a b⟩
  bitOr := ⟨_, ⟨_, rfl, rfl⟩, Word.testBit_or a b⟩
  bitXor := ⟨_, ⟨_, rfl, rfl⟩, Word.testBit_xor a b⟩
  lt := by simp only [eval?, onInts?, Int32.lt_iff_toInt_lt]
  le := by simp only [eval?, onInts?, Int32.le_iff_toInt_le]
  gt := by simp only [eval?, onInts?, Int32.lt_iff_toInt_lt, gt_iff_lt]
  ge := by simp only [eval?, onInts?, Int32.le_iff_toInt_le, ge_iff_le]
  eq := by simp only [eval?, onInts?, Int32.toInt_inj]
  ne := by simp only [eval?, onInts?, Int32.toInt_inj, ne_eq]
  and_eq_none := rfl
  or_eq_none := rfl

end BinaryOp

theorem UnaryOp.arithmetic : Arithmetic (fun op => op.eval? (.int a)) a.toInt where
  neg := ⟨_, rfl, Int32.toInt_neg a⟩
  bitNot := ⟨_, rfl, Word.toInt_complement a⟩
  not_eq_none := rfl
  step_eq_none := fun _ => rfl

theorem StepOp.wraps : Wraps (inc.eval? (.int a)) (a.toInt + 1) ∧ Wraps (dec.eval? (.int a)) (a.toInt - 1) :=
  ⟨⟨_, rfl, Int32.toInt_add a 1⟩, ⟨_, rfl, Int32.toInt_sub a 1⟩⟩

/-- On integers, no operation is used where it fails, and the operators give what arithmetic in words gives. -/
theorem Word.eval?_exact :
    (∀ op : BinaryOp, op.onWords? a b = some (op.eval? (.int a) (.int b))) ∧
      BinaryOp.Arithmetic (fun op => op.eval? (.int a) (.int b)) a.toInt b.toInt ∧
      UnaryOp.Arithmetic (fun op => op.eval? (.int a)) a.toInt :=
  ⟨BinaryOp.onWords?_eq a b, BinaryOp.arithmetic a b, UnaryOp.arithmetic a⟩

/-- The least integer by `-1`: the quotient is the least integer again, and nothing remains. -/
theorem Word.eval?_exact_least :
    (-1 : Int32).toInt ≠ 0 ∧ Gives (BinaryOp.div.eval? (.int Int32.minValue) (.int (-1))) (-2 ^ 31) ∧
      Gives (BinaryOp.rem.eval? (.int Int32.minValue) (.int (-1))) 0 := by
  have hne : (-1 : Int32).toInt ≠ 0 := by decide
  obtain ⟨q, r, hq, hr, hquotient, hlt, -⟩ := (Word.eval?_exact Int32.minValue (-1)).2.1.divided hne
  have hq31 : q = -2 ^ 31 := hquotient.trans (by decide)
  have hr0 : r = 0 := Int.abs_lt_one_iff.mp hlt
  exact ⟨hne, hq31 ▸ hq, hr0 ▸ hr⟩

end JavaFold

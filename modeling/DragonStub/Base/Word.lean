import Mathlib.Tactic.Common
import Mathlib.Tactic.Ring
import Mathlib.Data.Nat.Bitwise

/-!
# 64-bit words as the C code uses them

Conversions to and from `int` drop and repeat high bits. A mask `a - 1` for a power of two `a`
splits a word into a multiple of `a` and a remainder. The lemmas here turn the bit operations into
division and remainder of natural numbers, where `omega` finishes, and say when rounding wraps.
-/

namespace Word

/-- The `int` with the low 32 bits of a word. -/
def toInt (x : UInt64) : Int32 := x.toUInt32.toInt32

/-- An `int` widened with its sign. -/
def ofInt (i : Int32) : UInt64 := i.toInt64.toUInt64

/-- Widening repeats the sign, so a word with bit 31 set comes back past every 32-bit word. -/
theorem ofInt_toInt_toNat (x : UInt64) : (ofInt (toInt x)).toNat =
    if x.toNat % 2 ^ 32 < 2 ^ 31 then x.toNat % 2 ^ 32
    else x.toNat % 2 ^ 32 + (2 ^ 64 - 2 ^ 32) := by
  have bits : (ofInt (toInt x)).toBitVec = (x.toBitVec.setWidth 32).signExtend 64 := by
    simp [ofInt, toInt]
  have value := congrArg BitVec.toNat bits
  rw [BitVec.toNat_signExtend, BitVec.msb_eq_decide, BitVec.toNat_setWidth, BitVec.toNat_setWidth,
    UInt64.toNat_toBitVec, UInt64.toNat_toBitVec] at value
  rw [value, Nat.mod_eq_of_lt (show x.toNat % 2 ^ 32 < 2 ^ 64 by omega)]
  by_cases small : x.toNat % 2 ^ 32 < 2 ^ 31
  · rw [if_pos small, if_neg (by simpa using small)]
    rfl
  · rw [if_neg small, if_pos (by simpa using small)]

/-- Only the low 32 bits of a sum reach an `int`. -/
theorem toInt_add (x y : UInt64) : toInt (x + y) = toInt x + toInt y := by
  apply Int32.toBitVec_inj.mp
  simp [toInt]

/-- The difference as an `int` is the difference of the two. -/
theorem toInt_sub (x y : UInt64) : toInt (x - y) = toInt x - toInt y := by
  apply Int32.toBitVec_inj.mp
  simp [toInt]

/-- A sum through an `int` wraps as the sum does. -/
theorem toInt_ofInt_add (x y : UInt64) : toInt (ofInt (toInt x) + y) = toInt (x + y) := by
  have low : toInt (ofInt (toInt x)) = toInt x := by
    apply Int32.toBitVec_inj.mp
    simp [toInt, ofInt]
    ext i inRange
    simp
    grind
  rw [toInt_add, low, ← toInt_add]

variable {x : UInt64}

/-- A word below 2^31 survives as an `int`. -/
theorem ofInt_toInt (small : x.toNat < 2 ^ 31) : ofInt (toInt x) = x := by
  apply UInt64.toNat_inj.mp
  rw [ofInt_toInt_toNat, Nat.mod_eq_of_lt (by omega), if_pos small]

/-- A small value keeps its value as an `int`. -/
theorem toInt_toInt (small : x.toNat < 2 ^ 31) : (toInt x).toInt = x.toNat := by
  have low : (toInt x).toBitVec = x.toBitVec.setWidth 32 := by simp [toInt]
  have value : (toInt x).toBitVec.toNat = x.toNat := by
    rw [low, BitVec.toNat_setWidth, UInt64.toNat_toBitVec, Nat.mod_eq_of_lt (by omega)]
  change (toInt x).toBitVec.toInt = _
  rw [BitVec.toInt_eq_toNat_of_lt (by omega), value]

/-- A small value is positive as an `int` when it is not zero. -/
theorem toInt_pos (small : x.toNat < 2 ^ 31) : toInt x > 0 ↔ 0 < x.toNat := by
  have zero : (0 : Int32).toInt = 0 := rfl
  rw [gt_iff_lt, Int32.lt_iff_toInt_lt, toInt_toInt small, zero]
  omega

/-- A small value is zero as an `int` when it is zero. -/
theorem toInt_eq_zero (small : x.toNat < 2 ^ 31) : toInt x = 0 ↔ x = 0 := by
  constructor
  · intro zero
    have back := ofInt_toInt small
    rw [zero] at back
    exact back.symm
  · rintro rfl
    rfl

variable {n k : Nat}

/-- A number as an `int`, through 64 bits or at once. -/
theorem toInt_ofNat64 (n : Nat) : toInt (UInt64.ofNat n) = Int32.ofNat n := by
  apply Int32.toBitVec_inj.mp
  simp [toInt]

/-- A count that fits an `int` is widened to itself. -/
theorem ofInt_ofNat (small : n < 2 ^ 31) : ofInt (Int32.ofNat n) = UInt64.ofNat n := by
  have value : (UInt64.ofNat n).toNat = n := by
    rw [UInt64.toNat_ofNat', Nat.mod_eq_of_lt (by omega)]
  rw [← toInt_ofNat64, ofInt_toInt (by omega)]

/-- Small numbers are ordered as their `int`s are. -/
theorem ofNat_lt_ofNat (small : n < 2 ^ 31) (small' : k < 2 ^ 31) :
    Int32.ofNat n < Int32.ofNat k ↔ n < k := by
  rw [Int32.lt_iff_toInt_lt, Int32.toInt_ofNat_of_lt small, Int32.toInt_ofNat_of_lt small']
  omega

/-- Small numbers are weakly ordered as their `int`s are. -/
theorem ofNat_le_ofNat (small : n < 2 ^ 31) (small' : k < 2 ^ 31) :
    Int32.ofNat n ≤ Int32.ofNat k ↔ n ≤ k := by
  rw [Int32.le_iff_toInt_le, Int32.toInt_ofNat_of_lt small, Int32.toInt_ofNat_of_lt small']
  omega

/-- Small numbers are equal when their `int`s are. -/
theorem ofNat_eq_ofNat (small : n < 2 ^ 31) (small' : k < 2 ^ 31) :
    Int32.ofNat n = Int32.ofNat k ↔ n = k := by
  rw [← Int32.toInt_inj, Int32.toInt_ofNat_of_lt small, Int32.toInt_ofNat_of_lt small']
  omega

/-- A count that fits an `int` is not negative. -/
theorem not_ofNat_neg (small : n < 2 ^ 31) : ¬Int32.ofNat n < 0 :=
  Int32.not_lt.mpr (Int32.zero_le_ofNat_of_lt small)

/-- A difference of counts added to a count. -/
theorem ofNat_add_sub {l old : Nat} (sum : n + k = l + old) :
    UInt32.ofNat n + (Int32.ofNat k - Int32.ofNat old).toUInt32 = UInt32.ofNat l := by
  have difference : (Int32.ofNat k - Int32.ofNat old).toUInt32 = UInt32.ofNat k - UInt32.ofNat old := by
    rw [Int32.toUInt32_sub, Int32.toUInt32_ofNat', Int32.toUInt32_ofNat']
  have total : UInt32.ofNat n + UInt32.ofNat k = UInt32.ofNat l + UInt32.ofNat old := by
    rw [← UInt32.ofNat_add, sum, UInt32.ofNat_add]
  rw [difference, UInt32.sub_eq_add_neg, ← UInt32.add_assoc, total, ← UInt32.sub_eq_add_neg,
    UInt32.add_sub_cancel]

/-- A number that fits 32 bits is the value of its word. -/
theorem toNat_ofNat32 (small : n < 2 ^ 32) : (UInt32.ofNat n).toNat = n := by
  rw [UInt32.toNat_ofNat', Nat.mod_eq_of_lt small]

/-- A number that fits 32 bits has the same value in 64 bits. -/
theorem toUInt64_ofNat (small : n < 2 ^ 32) : (UInt32.ofNat n).toUInt64 = UInt64.ofNat n := by
  apply UInt64.toNat_inj.mp
  rw [UInt32.toNat_toUInt64, toNat_ofNat32 small, UInt64.toNat_ofNat', Nat.mod_eq_of_lt (by omega)]

/-- The word `a` is the power of two with the given exponent. -/
def IsPow (a : UInt64) (k : Nat) : Prop := k < 64 ∧ a.toNat = 2 ^ k

variable {a : UInt64}

/-- A power of two is positive. -/
theorem IsPow.pos (pow : IsPow a k) : 0 < a.toNat := by
  rw [pow.2]
  exact Nat.two_pow_pos k

/-- A power of two divides the size of the word. -/
theorem IsPow.dvd (pow : IsPow a k) : a.toNat ∣ 2 ^ 64 := by
  rw [pow.2]
  exact Nat.pow_dvd_pow 2 pow.1.le

/-- A power of two less one is its mask. -/
theorem IsPow.mask (pow : IsPow a k) : (a - 1).toNat = 2 ^ k - 1 := by
  have positive := pow.pos
  have bound := a.toNat_lt
  rw [← pow.2, UInt64.toNat_sub, UInt64.toNat_one]
  omega

/-- Masking with `a - 1` is the remainder modulo `a`. -/
theorem IsPow.and_mask (pow : IsPow a k) : (x &&& (a - 1)).toNat = x.toNat % a.toNat := by
  rw [UInt64.toNat_and, pow.mask, Nat.and_two_pow_sub_one_eq_mod, pow.2]

/-- Bits outside a mask and bits under it do not meet, so their sum is their union. -/
theorem and_not_add (x y mask : UInt64) :
    (x &&& ~~~mask) + (y &&& mask) = (x &&& ~~~mask) ||| (y &&& mask) := by
  apply UInt64.toBitVec_inj.mp
  simp only [UInt64.toBitVec_add, UInt64.toBitVec_and, UInt64.toBitVec_not, UInt64.toBitVec_or]
  apply BitVec.add_eq_or_of_and_eq_zero
  ext i
  simp only [BitVec.getElem_and, BitVec.getElem_not, BitVec.getElem_zero]
  cases mask.toBitVec[i] <;> simp

/-- A word is its bits outside a mask and its bits under it. -/
theorem and_not_or_and (x mask : UInt64) : (x &&& ~~~mask) ||| (x &&& mask) = x := by
  apply UInt64.toBitVec_inj.mp
  ext i
  simp only [UInt64.toBitVec_and, UInt64.toBitVec_not, UInt64.toBitVec_or, BitVec.getElem_or,
    BitVec.getElem_and, BitVec.getElem_not]
  cases mask.toBitVec[i] <;> simp

/-- Setting the bits of a mask keeps only the bits outside it. -/
theorem and_not_or_mask (x mask : UInt64) : (x &&& ~~~mask) ||| (mask &&& mask) = x ||| mask := by
  apply UInt64.toBitVec_inj.mp
  ext i
  simp only [UInt64.toBitVec_and, UInt64.toBitVec_not, UInt64.toBitVec_or, BitVec.getElem_or,
    BitVec.getElem_and, BitVec.getElem_not]
  cases mask.toBitVec[i] <;> simp

/-- Clearing the bits of `a - 1` rounds down to a multiple of `a`. -/
theorem IsPow.and_not_mask (pow : IsPow a k) :
    (x &&& ~~~(a - 1)).toNat = x.toNat - x.toNat % a.toNat := by
  have low := pow.and_mask (x := x)
  have lowest : (x &&& (a - 1)).toNat ≤ x.toNat := by
    rw [low]
    exact Nat.mod_le _ _
  have sum : (x &&& ~~~(a - 1)) + (x &&& (a - 1)) = x := by
    rw [and_not_add, and_not_or_and]
  have high : x &&& ~~~(a - 1) = x - (x &&& (a - 1)) := by
    rw [UInt64.eq_sub_iff_add_eq, sum]
  rw [high, UInt64.toNat_sub_of_le _ _ (UInt64.le_iff_toNat_le.mpr lowest), low]

/-- The last multiple of `a` at or below a word leaves room for a whole unit above it. -/
theorem IsPow.room (pow : IsPow a k) : x.toNat - x.toNat % a.toNat + a.toNat ≤ 2 ^ 64 := by
  obtain ⟨units, whole⟩ := pow.dvd
  rw [Nat.mul_comm] at whole
  have quotient : x.toNat / a.toNat < units := by
    rw [Nat.div_lt_iff_lt_mul pow.pos, ← whole]
    exact x.toNat_lt
  have next : (x.toNat / a.toNat + 1) * a.toNat ≤ 2 ^ 64 := by
    rw [whole]
    exact Nat.mul_le_mul_right _ quotient
  have divided := Nat.div_add_mod' x.toNat a.toNat
  rw [Nat.add_mul] at next
  omega

/-- Setting the bits of `a - 1` reaches the last word below the next multiple of `a`. -/
theorem IsPow.or_mask (pow : IsPow a k) :
    (x ||| (a - 1)).toNat = x.toNat - x.toNat % a.toNat + (a.toNat - 1) := by
  have parts : x ||| (a - 1) = (x &&& ~~~(a - 1)) + (a - 1) := by
    have sum := and_not_add x (a - 1) (a - 1)
    rw [and_not_or_mask, UInt64.and_self] at sum
    exact sum.symm
  have positive := pow.pos
  have room := pow.room (x := x)
  have mask : (a - 1).toNat = a.toNat - 1 := by rw [pow.mask, pow.2]
  rw [parts, UInt64.toNat_add, pow.and_not_mask, mask]
  apply Nat.mod_eq_of_lt
  omega

end Word

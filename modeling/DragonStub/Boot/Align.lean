import DragonStub.Base.Layout
import DragonStub.Base.Word

/-!
# Rounding macros

The macros of `linux/align.h` and `linux/math.h`, on 64-bit words. Each wraps where its C
expression wraps; the `_toNat` lemmas say what it computes for a power of two.
-/

namespace DragonStub

open Layout Word

/-- `round_up`. -/
def roundUp (x y : UInt64) : UInt64 := ((x - 1) ||| (y - 1)) + 1

/-- `round_down`. -/
def roundDown (x y : UInt64) : UInt64 := x &&& ~~~(y - 1)

/-- `ALIGN_UP`. -/
def alignUp (x a : UInt64) : UInt64 := (x + (a - 1)) &&& ~~~(a - 1)

/-- `ALIGN_DOWN` — `ALIGN_UP` of the argument moved down by less than one unit. -/
def alignDown (x a : UInt64) : UInt64 := alignUp (x - (a - 1)) a

/-- `IS_ALIGNED`. -/
def isAligned (x a : UInt64) : Bool := x &&& (a - 1) == 0

/-- `DIV_ROUND_UP`. -/
def divRoundUp (n d : UInt64) : UInt64 := (n + d - 1) / d

/-- `SZ_64K`. -/
def sz64K : UInt64 := 0x10000
/-- `SZ_2M`. -/
def sz2M : UInt64 := 0x200000
/-- `SZ_512M`. -/
def sz512M : UInt64 := 0x20000000

/-- Sixty-four kilobytes are a power of two. -/
theorem sz64K_pow : IsPow sz64K 16 := ⟨by decide, by decide⟩

/-- Two megabytes are a power of two. -/
theorem sz2M_pow : IsPow sz2M 21 := ⟨by decide, by decide⟩

variable {x unit : UInt64} {k : Nat}

/-- `round_down` reaches the last multiple of its unit. -/
theorem roundDown_toNat (pow : IsPow unit k) :
    (roundDown x unit).toNat = x.toNat - x.toNat % unit.toNat :=
  pow.and_not_mask

/-- `IS_ALIGNED` tests divisibility. -/
theorem isAligned_iff (pow : IsPow unit k) : isAligned x unit = true ↔ x.toNat % unit.toNat = 0 := by
  unfold isAligned
  rw [beq_iff_eq, ← UInt64.toNat_inj, pow.and_mask, UInt64.toNat_zero]

/-- A sum that passes 2^64 by less than one unit rounds up to 2^64 exactly. -/
theorem ceilTo_wrap (pow : IsPow unit k) (wraps : 2 ^ 64 ≤ x.toNat + (unit.toNat - 1)) :
    ceilTo x.toNat unit.toNat = 2 ^ 64 := by
  have bound := x.toNat_lt
  have positive := pow.pos
  obtain ⟨units, whole⟩ := pow.dvd
  have excess : (x.toNat + (unit.toNat - 1)) % unit.toNat =
      x.toNat + (unit.toNat - 1) - 2 ^ 64 := by
    have split : x.toNat + (unit.toNat - 1) =
        x.toNat + (unit.toNat - 1) - 2 ^ 64 + unit.toNat * units := by omega
    rw [split, Nat.add_mul_mod_self_left, Nat.mod_eq_of_lt (by omega)]
    omega
  unfold ceilTo
  omega

/-- `ALIGN_UP` is exact up to the wrap at 2^64. -/
theorem alignUp_toNat (pow : IsPow unit k) :
    (alignUp x unit).toNat = ceilTo x.toNat unit.toNat % 2 ^ 64 := by
  have bound := x.toNat_lt
  have small := unit.toNat_lt
  have positive := pow.pos
  have mask : (unit - 1).toNat = unit.toNat - 1 := by rw [pow.mask, pow.2]
  unfold alignUp
  rw [pow.and_not_mask, UInt64.toNat_add, mask]
  by_cases wraps : x.toNat + (unit.toNat - 1) < 2 ^ 64
  · have room : ceilTo x.toNat unit.toNat < 2 ^ 64 := by
      unfold ceilTo
      omega
    rw [Nat.mod_eq_of_lt wraps, Nat.mod_eq_of_lt room]
    rfl
  · have excess : (x.toNat + (unit.toNat - 1)) % 2 ^ 64 =
        x.toNat + (unit.toNat - 1) - 2 ^ 64 := by omega
    rw [ceilTo_wrap pow (by omega), excess, Nat.mod_eq_of_lt (by omega)]
    omega

/-- `round_up` is exact up to the wrap at 2^64. -/
theorem roundUp_toNat (pow : IsPow unit k) :
    (roundUp x unit).toNat = ceilTo x.toNat unit.toNat % 2 ^ 64 := by
  have bound := x.toNat_lt
  have small := unit.toNat_lt
  have positive := pow.pos
  unfold roundUp
  rw [UInt64.toNat_add, pow.or_mask, UInt64.toNat_one]
  by_cases zero : x = 0
  · have last : (0 - 1 : UInt64).toNat = 2 ^ 64 - 1 := by decide
    obtain ⟨units, whole⟩ := pow.dvd
    have top : (2 ^ 64 - 1) % unit.toNat = unit.toNat - 1 := by
      obtain ⟨fewer, rfl⟩ : ∃ fewer, units = fewer + 1 := ⟨units - 1, by grind⟩
      have split : 2 ^ 64 - 1 = unit.toNat - 1 + unit.toNat * fewer := by
        rw [Nat.mul_add] at whole
        omega
      rw [split, Nat.add_mul_mod_self_left, Nat.mod_eq_of_lt (by omega)]
    have least : ceilTo 0 unit.toNat = 0 := by
      unfold ceilTo
      rw [Nat.mod_eq_of_lt (by omega)]
      omega
    rw [zero, last, top, UInt64.toNat_zero, least]
    omega
  · have nonzero : x.toNat ≠ 0 := fun value => zero (UInt64.toNat_inj.mp value)
    have predecessor : (x - 1).toNat = x.toNat - 1 := by
      rw [UInt64.toNat_sub_of_le _ _ (UInt64.le_iff_toNat_le.mpr (by simpa using by omega))]
      rfl
    have shifted : x.toNat + (unit.toNat - 1) = x.toNat - 1 + unit.toNat := by omega
    have below := Nat.mod_le (x.toNat - 1) unit.toNat
    unfold ceilTo
    rw [predecessor, shifted, Nat.add_mod_right]
    congr 1
    omega

end DragonStub

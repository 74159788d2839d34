import DragonStub.Base.CString
import Mathlib.Data.Nat.Bitwise

/-!
# Words as bytes

A number of some bytes can be asked at once whether one of them is zero: subtract one from every
byte, and look for a high bit that the subtraction has set. A borrow only comes from a byte that is
zero, so the lowest mark is right and there is one exactly when a byte is zero. Flipping the bits of
one byte in every place turns the question into one for that byte.
-/

namespace ByteMemory

variable {m : Memory} {address : UInt64} {x y c : Nat}

/-- A byte in each of so many places. -/
def repeated (c : Nat) : Nat → Nat
  | 0 => 0
  | count + 1 => c + 256 * repeated c count

/-- A repeated byte is that many times the repeated one. -/
theorem repeated_mul (c count : Nat) : repeated c count = repeated 1 count * c := by
  induction count with
  | zero => rw [repeated, repeated, Nat.zero_mul]
  | succ count ih =>
    rw [repeated, ih, repeated]
    ring

/-- A number is its lowest byte and the rest. -/
theorem eq_of_bytes (low : x % 256 = y % 256) (high : x / 256 = y / 256) : x = y := by
  rw [← Nat.div_add_mod x 256, low, high, Nat.div_add_mod]

/-- The lowest byte of a conjunction. -/
theorem and_mod_byte (x y : Nat) : (x &&& y) % 256 = x % 256 &&& y % 256 :=
  Nat.and_mod_two_pow (n := 8)

/-- The bytes above the lowest of a conjunction. -/
theorem and_div_byte (x y : Nat) : (x &&& y) / 256 = x / 256 &&& y / 256 :=
  Nat.and_div_two_pow (n := 8)

/-- The lowest byte of an exclusive disjunction. -/
theorem xor_mod_byte (x y : Nat) : (x ^^^ y) % 256 = x % 256 ^^^ y % 256 :=
  Nat.xor_mod_two_pow (n := 8)

/-- The bytes above the lowest of an exclusive disjunction. -/
theorem xor_div_byte (x y : Nat) : (x ^^^ y) / 256 = x / 256 ^^^ y / 256 :=
  Nat.xor_div_two_pow (n := 8)

/-- The lowest byte of a value that is put together. -/
theorem mod_byte (rest : Nat) {byte : Nat} (small : byte < 256) : (byte + 256 * rest) % 256 = byte := by
  omega

/-- The bytes above the lowest of a value that is put together. -/
theorem div_byte (rest : Nat) {byte : Nat} (small : byte < 256) : (byte + 256 * rest) / 256 = rest := by
  omega

/-- Flipping the bits of one byte in every place. -/
theorem readLe_xor (m : Memory) (address : UInt64) (c : UInt8) (count : Nat) :
    readLe m address count ^^^ repeated c.toNat count =
      readLe (fun x => m x ^^^ c) address count := by
  induction count generalizing address with
  | zero => rw [readLe, readLe, repeated, Nat.xor_self]
  | succ count ih =>
    have byte := (m address).toNat_lt
    have other := c.toNat_lt
    have flipped := (m address ^^^ c).toNat_lt
    rw [readLe, readLe, repeated, ← ih]
    apply eq_of_bytes
    · rw [xor_mod_byte, mod_byte _ byte, mod_byte _ other, mod_byte _ flipped, UInt8.toNat_xor]
    · rw [xor_div_byte, div_byte _ byte, div_byte _ other, div_byte _ flipped]

/-- The marks of zero bytes: a one subtracted from every byte, and the high bits that this sets. -/
def zeroMarks (count x : Nat) : Nat :=
  (x + (256 ^ count - repeated 1 count)) % 256 ^ count &&& (256 ^ count - 1 - x) &&&
    repeated 128 count

/-- A repeated byte takes as many bytes as it is repeated. -/
theorem repeated_lt (count : Nat) (byte : c < 256) : repeated c count < 256 ^ count := by
  induction count with
  | zero => exact Nat.one_pos
  | succ count ih =>
    rw [repeated, Nat.pow_succ]
    omega

/-- The lowest mark tells whether the lowest byte is zero. -/
theorem zeroMarks_low (count : Nat) {byte rest : Nat} (small : byte < 256)
    (fits : rest < 256 ^ count) :
    zeroMarks (count + 1) (byte + 256 * rest) % 256 = 0 ↔ byte ≠ 0 := by
  have table : ∀ b < 256, ((b + 255) % 256 &&& (255 - b) &&& 128) = 0 ↔ b ≠ 0 := by decide +kernel
  have ones := repeated_lt count (show 1 < 256 by decide)
  have power : 256 ^ (count + 1) = 256 * 256 ^ count := by rw [Nat.pow_succ, Nat.mul_comm]
  have first : (byte + 256 * rest + (256 ^ (count + 1) - repeated 1 (count + 1))) %
      256 ^ (count + 1) % 256 = (byte + 255) % 256 := by
    rw [power, Nat.mod_mul_right_mod, repeated]
    omega
  have second : (256 ^ (count + 1) - 1 - (byte + 256 * rest)) % 256 = 255 - byte := by
    rw [power]
    omega
  have third : repeated 128 (count + 1) % 256 = 128 := by
    rw [repeated]
    omega
  rw [zeroMarks, and_mod_byte, and_mod_byte, first, second, third]
  exact table byte small

/-- Nothing is borrowed from a byte that is not zero. -/
theorem zeroMarks_high (count : Nat) {byte rest : Nat} (small : byte < 256)
    (fits : rest < 256 ^ count) (nonzero : byte ≠ 0) :
    zeroMarks (count + 1) (byte + 256 * rest) / 256 = zeroMarks count rest := by
  have ones := repeated_lt count (show 1 < 256 by decide)
  have power : 256 ^ (count + 1) = 256 * 256 ^ count := by rw [Nat.pow_succ, Nat.mul_comm]
  have sum : byte + 256 * rest + (256 ^ (count + 1) - repeated 1 (count + 1)) =
      byte - 1 + 256 * (rest + (256 ^ count - repeated 1 count)) := by
    rw [power, repeated]
    omega
  have first : (byte + 256 * rest + (256 ^ (count + 1) - repeated 1 (count + 1))) %
      256 ^ (count + 1) / 256 = (rest + (256 ^ count - repeated 1 count)) % 256 ^ count := by
    rw [sum, power, Nat.mod_mul_right_div_self]
    congr 1
    omega
  have second : (256 ^ (count + 1) - 1 - (byte + 256 * rest)) / 256 = 256 ^ count - 1 - rest := by
    rw [power]
    omega
  have third : repeated 128 (count + 1) / 256 = repeated 128 count := by
    rw [repeated]
    omega
  rw [zeroMarks, and_div_byte, and_div_byte, first, second, third, zeroMarks]

/-- There is a mark exactly when a byte is zero. -/
theorem zeroMarks_eq_zero (m : Memory) (address : UInt64) (count : Nat) :
    zeroMarks count (readLe m address count) = 0 ↔
      ∀ index < count, m (address + UInt64.ofNat index) ≠ 0 := by
  induction count generalizing address with
  | zero => simp [zeroMarks, repeated]
  | succ count ih =>
    have byte := (m address).toNat_lt
    have rest := readLe_lt m (address + 1) count
    have first : (m address).toNat ≠ 0 ↔ m address ≠ 0 := by
      rw [ne_eq, ← UInt8.toNat_zero, UInt8.toNat_inj]
    have parts : zeroMarks (count + 1) (readLe m address (count + 1)) = 0 ↔
        zeroMarks (count + 1) (readLe m address (count + 1)) % 256 = 0 ∧
          zeroMarks (count + 1) (readLe m address (count + 1)) / 256 = 0 := by
      omega
    rw [parts, readLe, zeroMarks_low count byte rest, first, forall_offsets_succ (p := (· ≠ 0))]
    refine and_congr_right fun nonzero => ?_
    rw [zeroMarks_high count byte rest (first.mpr nonzero), ih]

end ByteMemory

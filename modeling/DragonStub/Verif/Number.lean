import DragonStub.Base.Numeral
import DragonStub.Boot.Vsprintf
import Mathlib.Data.UInt

/-!
# Numbers

`number` computes the digits of a number in one of three ways, and lays them out in its field by
counting the field width down. The digits are the numeral of the number in its base, and the layout
has the width that was asked for.
-/

namespace DragonStub.Vsprintf

open BoundedOutput Numeral

/-- A digit as it is written. -/
def digitByte (small : Bool) (d : Nat) : UInt8 :=
  if d < 10 then '0'.toUInt8 + UInt8.ofNat d
  else (if small then 'a' else 'A').toUInt8 + UInt8.ofNat (d - 10)

variable {small : Bool} {r : UInt32} {n : UInt64}

/-- A byte of a word is that of its value. -/
theorem toUInt8_of (x : UInt32) : x.toUInt8 = UInt8.ofNat x.toNat := by
  apply UInt8.toNat_inj.mp
  simp

/-- A number below a hundred is looked up with both its digits. -/
theorem decpair_eq (below : r.toNat < 100) :
    decpair r = [r.toNat % 10, r.toNat / 10].map (digitByte small) := by
  have units : (r % 10).toUInt8 = UInt8.ofNat (r.toNat % 10) := by
    rw [toUInt8_of, UInt32.toNat_mod]
    rfl
  have tens : (r / 10).toUInt8 = UInt8.ofNat (r.toNat / 10) := by
    rw [toUInt8_of, UInt32.toNat_div]
    rfl
  have first : r.toNat % 10 < 10 := Nat.mod_lt _ (by decide)
  have second : r.toNat / 10 < 10 := by omega
  rw [decpair, units, tens, List.map_cons, List.map_cons, List.map_nil, digitByte, digitByte,
    if_pos first, if_pos second]

/-- The last pair keeps its second digit when there is one. -/
theorem putDecLast_eq (below : r.toNat < 100) :
    putDecLast r = (numeral 10 r.toNat).map (digitByte small) := by
  rw [putDecLast, decpair_eq below]
  by_cases single : r.toNat < 10
  · have word : r < 10 := single
    rw [if_pos word, numeral_of_lt single, Nat.mod_eq_of_lt single]
    rfl
  · have word : ¬r < 10 := single
    have tens : r.toNat / 10 < 10 := by omega
    rw [if_neg word, numeral_cons (by decide) (Nat.le_of_not_lt single), numeral_of_lt tens]
    rfl

/-- `0x28f5c29` is a hundredth for what has eight digits. -/
theorem hundredth_toNat (below : r.toNat < 10 ^ 8) : (hundredth r).toNat = r.toNat / 100 := by
  have value : r.toNat * 42949673 / 2 ^ 32 = r.toNat / 100 :=
    reciprocal 42949673 100 4 (by decide) (by omega)
  have product : r.toNat * 42949673 < 2 ^ 64 := by omega
  rw [hundredth]
  simp only [UInt64.toNat_toUInt32, UInt64.toNat_shiftRight, UInt64.toNat_mul,
    UInt32.toNat_toUInt64, UInt64.reduceToNat, Nat.shiftRight_eq_div_pow]
  rw [Nat.mod_eq_of_lt product]
  change r.toNat * 42949673 / 2 ^ 32 % 2 ^ 32 = _
  rw [value]
  omega

/-- `0x147b` is a hundredth for what has four digits. -/
theorem smallHundredth_toNat (below : r.toNat < 10 ^ 4) :
    ((r * 0x147b) >>> 19).toNat = r.toNat / 100 := by
  have value : r.toNat * 5243 / 2 ^ 19 = r.toNat / 100 :=
    reciprocal 5243 100 12 (by decide) (by omega)
  have product : r.toNat * 5243 < 2 ^ 32 := by omega
  simp only [UInt32.toNat_shiftRight, UInt32.toNat_mul, UInt32.reduceToNat,
    Nat.shiftRight_eq_div_pow]
  rw [Nat.mod_eq_of_lt product]
  exact value

/-- What is left of a number without its hundreds. -/
theorem sub_hundreds {q : UInt32} (hundreds : q.toNat = r.toNat / 100) :
    (r - 100 * q).toNat = r.toNat % 100 := by
  have unit : (100 : UInt32).toNat = 100 := rfl
  have word := r.toNat_lt
  have product : (100 * q).toNat = 100 * (r.toNat / 100) := by
    rw [UInt32.toNat_mul, unit, hundreds]
    omega
  have least : 100 * q ≤ r := by
    rw [UInt32.le_iff_toNat_le, product]
    omega
  rw [UInt32.toNat_sub_of_le _ _ least, product]
  omega

/-- A pair stands in front of the numeral of what the hundreds count. -/
theorem decpair_append {rest : Nat} (below : r.toNat < 100) (some : 0 < rest) :
    decpair r ++ (numeral 10 rest).map (digitByte small) =
      (numeral 10 (rest * 100 + r.toNat)).map (digitByte small) := by
  have units : (rest * 100 + r.toNat) % 10 = r.toNat % 10 := by omega
  have tens : (rest * 100 + r.toNat) / 10 % 10 = r.toNat / 10 := by omega
  have hundreds : (rest * 100 + r.toNat) / (10 * 10) = rest := by omega
  have large : 10 * 10 ≤ rest * 100 + r.toNat := by omega
  rw [numeral_pair (by decide) large, units, tens, hundreds, decpair_eq below]
  rfl

/-- The same for a number split by its hundreds. -/
theorem decpair_hundreds {q : UInt32} (hundreds : q.toNat = r.toNat / 100)
    (large : 100 ≤ r.toNat) :
    decpair (r - 100 * q) ++ (numeral 10 q.toNat).map (digitByte small) =
      (numeral 10 r.toNat).map (digitByte small) := by
  have left := sub_hundreds hundreds
  have below : (r - 100 * q).toNat < 100 := by omega
  have whole : q.toNat * 100 + (r - 100 * q).toNat = r.toNat := by omega
  rw [decpair_append below (by omega), whole]

/-- The leading digits of a group are its numeral. -/
theorem putDecTrunc8_eq (below : r.toNat < 10 ^ 8) :
    putDecTrunc8 r = (numeral 10 r.toNat).map (digitByte small) := by
  have hundreds := hundredth_toNat below
  unfold putDecTrunc8
  dsimp only
  by_cases two : r.toNat < 100
  · have word : r < 100 := two
    rw [if_pos word, putDecLast_eq two]
  have word : ¬r < 100 := two
  rw [if_neg word, ← decpair_hundreds hundreds (by omega)]
  congr 1
  have thousands := hundredth_toNat (r := hundredth r) (by omega)
  by_cases four : (hundredth r).toNat < 100
  · have word : hundredth r < 100 := four
    rw [if_pos word, putDecLast_eq four]
  have word : ¬hundredth r < 100 := four
  rw [if_neg word, ← decpair_hundreds thousands (by omega)]
  congr 1
  by_cases six : (hundredth (hundredth r)).toNat < 100
  · have word : hundredth (hundredth r) < 100 := six
    rw [if_pos word, putDecLast_eq six]
  have word : ¬hundredth (hundredth r) < 100 := six
  have millions := smallHundredth_toNat (r := hundredth (hundredth r)) (by omega)
  rw [if_neg word, ← decpair_hundreds millions (by omega)]
  congr 1
  exact putDecLast_eq (by omega)

/-- Eight digits stand in front of the numeral of the rest. -/
theorem putDecFull8_append {rest : Nat} (below : r.toNat < 10 ^ 8) (some : 0 < rest) :
    putDecFull8 r ++ (numeral 10 rest).map (digitByte small) =
      (numeral 10 (rest * 10 ^ 8 + r.toNat)).map (digitByte small) := by
  have hundreds := hundredth_toNat below
  have thousands := hundredth_toNat (r := hundredth r) (by omega)
  have millions := smallHundredth_toNat (r := hundredth (hundredth r)) (by omega)
  have first := sub_hundreds hundreds
  have second := sub_hundreds thousands
  have third := sub_hundreds millions
  rw [putDecFull8, List.append_assoc, List.append_assoc, List.append_assoc,
    decpair_append (by omega) some, decpair_append (by omega) (by omega),
    decpair_append (by omega) (by omega), decpair_append (by omega) (by omega)]
  congr 2
  omega

/-- `put_dec` computes the decimal numeral. -/
theorem putDec_eq (n : UInt64) : putDec n = (numeral 10 n.toNat).map (digitByte small) := by
  have unit : (100000000 : UInt64).toNat = 10 ^ 8 := rfl
  have word := n.toNat_lt
  have low (m : UInt64) : (m % 100000000).toUInt32.toNat = m.toNat % 10 ^ 8 := by
    rw [UInt64.toNat_toUInt32, UInt64.toNat_mod, unit]
    omega
  have high (m : UInt64) : (m / 100000000).toNat = m.toNat / 10 ^ 8 := by
    rw [UInt64.toNat_div, unit]
  have short (m : UInt64) (below : m.toNat < 10 ^ 8) :
      putDecTrunc8 m.toUInt32 = (numeral 10 m.toNat).map (digitByte small) := by
    have same : m.toUInt32.toNat = m.toNat := by
      rw [UInt64.toNat_toUInt32]
      omega
    rw [putDecTrunc8_eq (by omega), same]
  have full (m : UInt64) (large : 10 ^ 8 ≤ m.toNat) :
      putDecFull8 (m % 100000000).toUInt32 ++
          (numeral 10 (m / 100000000).toNat).map (digitByte small) =
        (numeral 10 m.toNat).map (digitByte small) := by
    have below : (m % 100000000).toUInt32.toNat < 10 ^ 8 := by
      rw [low]
      omega
    have some : 0 < (m / 100000000).toNat := by
      rw [high]
      omega
    rw [putDecFull8_append below some, low, high, Nat.div_add_mod' m.toNat (10 ^ 8)]
  rw [putDec]
  by_cases large : 100000000 ≤ n
  · have least : 10 ^ 8 ≤ n.toNat := large
    rw [if_pos large]
    by_cases larger : 100000000 ≤ n / 100000000
    · have most : 10 ^ 8 ≤ (n / 100000000).toNat := larger
      have last : (n / 100000000 / 100000000).toNat < 10 ^ 8 := by
        rw [high, high]
        omega
      rw [if_pos larger, short _ last, List.append_assoc, full _ most, full n least]
    · have last : (n / 100000000).toNat < 10 ^ 8 := Nat.lt_of_not_le larger
      rw [if_neg larger, short _ last, full n least]
  · rw [if_neg large]
    exact short n (Nat.lt_of_not_le large)

/-- `SMALL` is one bit. -/
theorem small_bit (flags : UInt8) : flags &&& flagSmall = 0 ∨ flags &&& flagSmall = 32 := by
  have bit : (flags &&& flagSmall).toNat = (flags.toNat.testBit 5).toNat * 2 ^ 5 := by
    rw [UInt8.toNat_and]
    exact Nat.and_two_pow flags.toNat 5
  cases set : flags.toNat.testBit 5 with
  | false => exact .inl (UInt8.toNat_inj.mp (by rw [bit, set]; rfl))
  | true => exact .inr (UInt8.toNat_inj.mp (by rw [bit, set]; rfl))

/-- `SMALL` makes the letters small, and leaves the figures. -/
theorem hexAscUpper_or {d : Nat} (below : d < 16) (flags : UInt8) :
    hexAscUpper (UInt8.ofNat d) ||| (flags &&& flagSmall) =
      digitByte (flags &&& flagSmall != 0) d := by
  have table : ∀ d < 16, hexAscUpper (UInt8.ofNat d) ||| 0 = digitByte false d ∧
      hexAscUpper (UInt8.ofNat d) ||| 32 = digitByte true d := by decide
  rcases small_bit flags with clear | set
  · rw [clear]
    exact (table d below).1
  · rw [set]
    exact (table d below).2

/-- Masking and shifting computes the numeral of a base that is a power of two, while the number is
below the power of the base that is left. -/
theorem maskDigits_eq {mask flags : UInt8} {shift num : UInt64} {k steps : Nat} (some : 0 < k)
    (few : k ≤ 4) (masks : mask.toNat = 2 ^ k - 1) (shifts : shift.toNat = k)
    (small : num.toNat < (2 ^ k) ^ (steps + 1)) :
    maskDigits mask (flags &&& flagSmall) shift (steps + 1) num =
      (numeral (2 ^ k) num.toNat).map (digitByte (flags &&& flagSmall != 0)) := by
  have base : 1 < 2 ^ k := Nat.one_lt_two_pow (by omega)
  have sixteen : 2 ^ k ≤ 2 ^ 4 := Nat.pow_le_pow_right (by decide) few
  have rest (num : UInt64) : (num >>> shift).toNat = num.toNat / 2 ^ k := by
    rw [UInt64.toNat_shiftRight, shifts, Nat.mod_eq_of_lt (by omega), Nat.shiftRight_eq_div_pow]
  have lowest (num : UInt64) : hexAscUpper (num.toUInt8 &&& mask) ||| (flags &&& flagSmall) =
      digitByte (flags &&& flagSmall != 0) (num.toNat % 2 ^ k) := by
    have divides : 2 ^ k ∣ 256 := Nat.pow_dvd_pow 2 (show k ≤ 8 by omega)
    have digit : num.toNat % 2 ^ k < 16 :=
      Nat.lt_of_lt_of_le (Nat.mod_lt _ (by omega)) sixteen
    have byte : num.toNat % 2 ^ k < 2 ^ 8 := by omega
    have masked : num.toUInt8 &&& mask = UInt8.ofNat (num.toNat % 2 ^ k) := by
      apply UInt8.toNat_inj.mp
      rw [UInt8.toNat_and, masks, UInt64.toNat_toUInt8, Nat.and_two_pow_sub_one_eq_mod,
        Nat.mod_mod_of_dvd _ divides, UInt8.toNat_ofNat', Nat.mod_eq_of_lt byte]
    rw [masked, hexAscUpper_or digit]
  have last (steps : Nat) (num : UInt64) (one : num.toNat < 2 ^ k) :
      maskDigits mask (flags &&& flagSmall) shift (steps + 1) num =
        (numeral (2 ^ k) num.toNat).map (digitByte (flags &&& flagSmall != 0)) := by
    have gone : num >>> shift = 0 := by
      apply UInt64.toNat_inj.mp
      rw [rest, Nat.div_eq_of_lt one]
      rfl
    have ends : ¬(num >>> shift != 0) = true := by simp [gone]
    rw [maskDigits, if_neg ends, lowest, numeral_of_lt one, Nat.mod_eq_of_lt one]
    rfl
  induction steps generalizing num with
  | zero => exact last 0 num (by simpa using small)
  | succ steps ih =>
    by_cases one : num.toNat < 2 ^ k
    · exact last (steps + 1) num one
    · have more : num.toNat / 2 ^ k ≠ 0 :=
        Nat.ne_of_gt (Nat.div_pos (Nat.le_of_not_lt one) (by omega))
      have continues : (num >>> shift != 0) = true := by
        apply bne_iff_ne.mpr
        intro gone
        apply more
        rw [← rest, gone]
        rfl
      have later : (num >>> shift).toNat < (2 ^ k) ^ (steps + 1) := by
        rw [rest]
        exact Nat.div_lt_of_lt_mul (by rwa [Nat.pow_succ, Nat.mul_comm] at small)
      rw [maskDigits, if_pos continues, ih later, rest, lowest,
        numeral_cons base (Nat.le_of_not_lt one)]
      rfl

/-- The bases that a conversion has. -/
def IsBase (base : UInt8) : Prop := base = 8 ∨ base = 10 ∨ base = 16

/-- `number` computes the numeral in `tmp`, whichever way it takes. -/
theorem digits_eq {base : UInt8} (known : IsBase base) (num : UInt64) (flags : UInt8) :
    digits num base (flags &&& flagSmall) =
      (numeral base.toNat num.toNat).map (digitByte (flags &&& flagSmall != 0)) := by
  have word := num.toNat_lt
  have sixteen : base.toNat ≤ 16 := by
    rcases known with rfl | rfl | rfl <;> decide
  rw [digits]
  by_cases one : num < base.toUInt64
  · have below : num.toNat < base.toNat := by
      have wide := UInt64.lt_iff_toNat_lt.mp one
      rwa [UInt8.toNat_toUInt64] at wide
    have digit : num.toUInt8 = UInt8.ofNat num.toNat := by
      apply UInt8.toNat_inj.mp
      simp
    rw [if_pos one, numeral_of_lt below, digit, hexAscUpper_or (by omega)]
    rfl
  · rw [if_neg one]
    rcases known with rfl | rfl | rfl
    · have octal : num.toNat < (2 ^ 3) ^ (21 + 1) := Nat.lt_of_lt_of_le word (by decide)
      exact maskDigits_eq (by decide) (by decide) rfl rfl octal
    · exact putDec_eq num
    · have hexadecimal : num.toNat < (2 ^ 4) ^ (21 + 1) := Nat.lt_of_lt_of_le word (by decide)
      exact maskDigits_eq (by decide) (by decide) rfl rfl hexadecimal

/-- The numbers whose pairs `put_dec_trunc8` stores one after the other. -/
def trunc8Pairs (r : UInt32) : List UInt32 :=
  if r < 100 then [r]
  else
    let q := hundredth r
    (r - 100 * q) :: if q < 100 then [q]
      else
        let r := hundredth q
        (q - 100 * r) :: if r < 100 then [r]
          else
            let q := (r * 0x147b) >>> 19
            [r - 100 * q, q]

/-- The numbers whose pairs `put_dec_full8` stores. -/
def full8Pairs (r : UInt32) : List UInt32 :=
  let q := hundredth r
  let first := r - 100 * q
  let r := hundredth q
  let second := q - 100 * r
  let q := (r * 0x147b) >>> 19
  [first, second, r - 100 * q, q]

/-- The numbers whose pairs `put_dec` stores. -/
def decPairs (n : UInt64) : List UInt32 :=
  if 100000000 ≤ n then
    let low := full8Pairs (n % 100000000).toUInt32
    let n := n / 100000000
    if 100000000 ≤ n then
      low ++ full8Pairs (n % 100000000).toUInt32 ++ trunc8Pairs (n / 100000000).toUInt32
    else low ++ trunc8Pairs n.toUInt32
  else trunc8Pairs n.toUInt32

/-- The bytes that `number` stores in `tmp`, with the second byte of a last pair that has one digit. -/
def tmpBytes (num : UInt64) (base locase : UInt8) : List UInt8 :=
  if num < base.toUInt64 then [hexAscUpper num.toUInt8 ||| locase]
  else if base != 10 then maskDigits (base - 1) locase (if base == 16 then 4 else 3) 22 num
  else (decPairs num).flatMap decpair

/-- The leading digits of a group are the start of its pairs. -/
theorem putDecTrunc8_starts (r : UInt32) : putDecTrunc8 r <+: (trunc8Pairs r).flatMap decpair := by
  have last (r : UInt32) : putDecLast r <+: decpair r ++ [] := by
    rw [List.append_nil]
    exact List.take_prefix ..
  unfold putDecTrunc8 trunc8Pairs
  dsimp only
  split_ifs
  · exact last r
  · exact List.prefix_append_right_inj _ |>.mpr (last _)
  · exact List.prefix_append_right_inj _ |>.mpr (List.prefix_append_right_inj _ |>.mpr (last _))
  · exact List.prefix_append_right_inj _ |>.mpr (List.prefix_append_right_inj _ |>.mpr
      (List.prefix_append_right_inj _ |>.mpr (last _)))

/-- A full group is its pairs. -/
theorem putDecFull8_pairs (r : UInt32) : putDecFull8 r = (full8Pairs r).flatMap decpair := by
  simp [putDecFull8, full8Pairs]

/-- The digits of a value are the start of its pairs. -/
theorem putDec_starts (n : UInt64) : putDec n <+: (decPairs n).flatMap decpair := by
  unfold putDec decPairs
  dsimp only
  split_ifs
  · rw [List.flatMap_append, List.flatMap_append, ← putDecFull8_pairs, ← putDecFull8_pairs]
    exact List.prefix_append_right_inj _ |>.mpr (putDecTrunc8_starts _)
  · rw [List.flatMap_append, ← putDecFull8_pairs]
    exact List.prefix_append_right_inj _ |>.mpr (putDecTrunc8_starts _)
  · exact putDecTrunc8_starts _

/-- The leading digits of a group make at most four pairs. -/
theorem trunc8Pairs_length (r : UInt32) : (trunc8Pairs r).length ≤ 4 := by
  unfold trunc8Pairs
  dsimp only
  split_ifs <;> simp

/-- A value makes at most twelve pairs. -/
theorem decPairs_length (n : UInt64) : (decPairs n).length ≤ 12 := by
  have last := trunc8Pairs_length
  unfold decPairs
  dsimp only
  split_ifs
  · have tail := last (n / 100000000 / 100000000).toUInt32
    simp only [List.length_append, full8Pairs, List.length_cons, List.length_nil]
    omega
  · have tail := last (n / 100000000).toUInt32
    simp only [List.length_append, full8Pairs, List.length_cons, List.length_nil]
    omega
  · exact Nat.le_trans (last _) (by decide)

/-- The digits are the first bytes of `tmp`, and no byte is stored behind its end. -/
theorem tmpBytes_fit {base : UInt8} (known : IsBase base) (num : UInt64) (flags : UInt8) :
    digits num base (flags &&& flagSmall) <+: tmpBytes num base (flags &&& flagSmall) ∧
      (tmpBytes num base (flags &&& flagSmall)).length ≤ 24 := by
  by_cases mask : num < base.toUInt64 ∨ base ≠ 10
  · have same : tmpBytes num base (flags &&& flagSmall) = digits num base (flags &&& flagSmall) := by
      unfold tmpBytes digits
      by_cases one : num < base.toUInt64
      · rw [if_pos one, if_pos one]
      · have other : (base != 10) = true := bne_iff_ne.mpr (mask.resolve_left one)
        rw [if_neg one, if_neg one, if_pos other, if_pos other]
    have wide : 8 ≤ base.toNat := by
      rcases known with rfl | rfl | rfl <;> decide
    have octal : num.toNat < 8 ^ 22 := Nat.lt_of_lt_of_le num.toNat_lt (by decide)
    have few : (numeral base.toNat num.toNat).length ≤ 22 :=
      numeral_length (by omega) (by decide) (Nat.lt_of_lt_of_le octal (Nat.pow_le_pow_left wide 22))
    rw [same, digits_eq known, List.length_map]
    exact ⟨List.prefix_rfl, by omega⟩
  · rw [not_or, not_not] at mask
    obtain ⟨many, rfl⟩ := mask
    have decimal : ¬((10 : UInt8) != 10) = true := by decide
    have few := decPairs_length num
    have pairs : (tmpBytes num 10 (flags &&& flagSmall)).length = 2 * (decPairs num).length := by
      rw [tmpBytes, if_neg many, if_neg decimal, List.length_flatMap]
      simp [decpair, Nat.mul_comm]
    constructor
    · rw [digits, tmpBytes, if_neg many, if_neg many, if_neg decimal, if_neg decimal]
      exact putDec_starts num
    · omega

/-- The number whose digits are written: the one without its sign when there may be a sign. -/
def magnitude (num : UInt64) (spec : PrintfSpec) : Nat :=
  if spec.has flagSign then num.toInt64.toInt.natAbs else num.toNat

/-- The sign. -/
def signText (num : UInt64) (spec : PrintfSpec) : List UInt8 :=
  if !spec.has flagSign then []
  else if num.toInt64.toInt < 0 then ['-'.toUInt8]
  else if spec.has flagPlus then ['+'.toUInt8]
  else if spec.has flagSpace then [' '.toUInt8] else []

/-- The prefix of the base. -/
def prefixText (num : UInt64) (spec : PrintfSpec) : List UInt8 :=
  if !spec.has flagSpecial then []
  else if spec.base = 16 then
    ['0'.toUInt8, (if spec.has flagSmall then 'x' else 'X').toUInt8]
  else if spec.base = 8 ∧ num ≠ 0 then ['0'.toUInt8] else []

/-- The digits. -/
def digitsText (num : UInt64) (spec : PrintfSpec) : List UInt8 :=
  ((numeral spec.base.toNat (magnitude num spec)).map (digitByte (spec.has flagSmall))).reverse

/-- The width of a number without padding. -/
def bareWidth (num : UInt64) (spec : PrintfSpec) : Int :=
  (signText num spec).length + (prefixText num spec).length +
    max spec.precision (digitsText num spec).length

/-- A number in its field: padded with spaces on the right, with zeros behind the prefix, or with
spaces on the left. -/
def numberText (num : UInt64) (spec : PrintfSpec) : List UInt8 :=
  let pad := (spec.fieldWidth - bareWidth num spec).toNat
  let left := spec.has flagLeft
  let zeropad := spec.has flagZeropad && !left
  (if !left && !zeropad then List.replicate pad ' '.toUInt8 else []) ++ signText num spec ++
    prefixText num spec ++ (if zeropad then List.replicate pad '0'.toUInt8 else []) ++
    List.replicate (spec.precision - (digitsText num spec).length).toNat '0'.toUInt8 ++
    digitsText num spec ++ (if left then List.replicate pad ' '.toUInt8 else [])

variable {num : UInt64} {spec : PrintfSpec}

/-- A number in its field is as wide as the field, or as it is itself. -/
theorem numberText_length (num : UInt64) (spec : PrintfSpec) :
    ((numberText num spec).length : Int) = max spec.fieldWidth (bareWidth num spec) := by
  unfold numberText
  cases left : spec.has flagLeft <;> cases zeropad : spec.has flagZeropad <;>
    simp [bareWidth] <;> omega

/-- A word as a signed number. -/
theorem toInt64_toInt (num : UInt64) : num.toInt64.toInt =
    if num.toNat < 2 ^ 63 then (num.toNat : Int) else num.toNat - 2 ^ 64 := by
  have cases := BitVec.toInt_eq_toNat_cond num.toBitVec
  change num.toBitVec.toInt = _
  rw [cases]
  change (if 2 * num.toNat < 2 ^ 64 then (num.toNat : Int) else num.toNat - (2 ^ 64 : Nat)) = _
  split_ifs <;> omega

/-- The sign is taken off the smallest number too, although it has no positive counterpart. -/
theorem signed_magnitude (num : UInt64) (spec : PrintfSpec) :
    (signed num spec).2.toNat = magnitude num spec := by
  have word := num.toNat_lt
  have value := toInt64_toInt num
  unfold signed magnitude
  cases sign : spec.has flagSign with
  | false => rfl
  | true =>
    by_cases negative : num.toInt64 < 0
    · have below : num.toInt64.toInt < 0 := Int64.lt_iff_toInt_lt.mp negative
      have minus : (-num).toNat = num.toInt64.toInt.natAbs := by
        have size : UInt64.size = 2 ^ 64 := rfl
        rw [UInt64.toNat_neg, size]
        split_ifs at value <;> omega
      simpa [negative] using minus
    · have above : ¬num.toInt64.toInt < 0 := fun below => negative (Int64.lt_iff_toInt_lt.mpr below)
      have plus : num.toNat = num.toInt64.toInt.natAbs := by
        split_ifs at value <;> omega
      simp only [if_true, if_neg negative]
      split_ifs <;> exact plus

/-- The sign that is put is that of the layout. -/
theorem signed_sign (num : UInt64) (spec : PrintfSpec) :
    (if (signed num spec).1 != 0 then [(signed num spec).1] else []) = signText num spec := by
  have same : num.toInt64 < 0 ↔ num.toInt64.toInt < 0 := Int64.lt_iff_toInt_lt
  unfold signed signText
  cases sign : spec.has flagSign with
  | false => rfl
  | true =>
    simp only [Bool.not_true, Bool.false_eq_true, if_true, if_false, ← same]
    by_cases minus : num.toInt64 < 0
    · rw [if_pos minus, if_pos minus]
      rfl
    rw [if_neg minus, if_neg minus]
    by_cases plus : spec.has flagPlus = true
    · rw [if_pos plus, if_pos plus]
      rfl
    rw [if_neg plus, if_neg plus]
    by_cases space : spec.has flagSpace = true
    · rw [if_pos space, if_pos space]
      rfl
    · rw [if_neg space, if_neg space]
      rfl

/-- The prefix that is put is that of the layout. -/
theorem basePrefix_eq (known : IsBase spec.base) : basePrefix num spec = prefixText num spec := by
  have letter : 'X'.toUInt8 ||| (spec.flags &&& flagSmall) =
      (if spec.has flagSmall then 'x' else 'X').toUInt8 := by
    unfold PrintfSpec.has
    rcases small_bit spec.flags with clear | set
    · rw [clear]
      rfl
    · rw [set]
      rfl
  unfold basePrefix prefixText
  rw [letter]
  cases special : spec.has flagSpecial with
  | false => rfl
  | true => obtain octal | decimal | hexadecimal := known <;> simp [*]

/-- The digits of `number` are those of the number without its sign. -/
theorem digits_text (known : IsBase spec.base) :
    (digits (signed num spec).2 spec.base (spec.flags &&& flagSmall)).reverse =
      digitsText num spec := by
  rw [digits_eq known, signed_magnitude]
  rfl

/-- A width that has been counted down pads nothing more. -/
theorem padding_padded (c : UInt8) (width : Int) : padding c (padded width) = [] := by
  have counted : (padded width).toNat = 0 := by
    unfold padded
    split_ifs <;> omega
  rw [padding, counted]
  rfl

/-- `number` writes the number in its field. -/
theorem number_puts (known : IsBase spec.base) (finish : Nat) (out : Sink) :
    number finish num spec out = puts finish (numberText num spec) out := by
  have count : (if (signed num spec).1 != 0 then 1 else 0 : Int) = (signText num spec).length := by
    rw [← signed_sign]
    split_ifs <;> rfl
  have length : (digits (signed num spec).2 spec.base (spec.flags &&& flagSmall)).length =
      (digitsText num spec).length := by
    rw [← digits_text known, List.length_reverse]
  unfold number
  simp only [count, signed_sign, basePrefix_eq known, digits_text known, length, ← puts_append]
  congr 1
  have width : spec.fieldWidth - (signText num spec).length - (prefixText num spec).length -
      max ((digitsText num spec).length : Int) spec.precision =
        spec.fieldWidth - bareWidth num spec := by
    unfold bareWidth
    omega
  have zeros : padding '0'.toUInt8 (max ((digitsText num spec).length : Int) spec.precision -
      (digitsText num spec).length) = List.replicate
        (spec.precision - (digitsText num spec).length).toNat '0'.toUInt8 := by
    unfold padding
    congr 1
    omega
  rw [width, zeros]
  have pads (c : UInt8) : padding c (spec.fieldWidth - bareWidth num spec) =
      List.replicate (spec.fieldWidth - bareWidth num spec).toNat c := rfl
  unfold numberText
  cases left : spec.has flagLeft <;> cases zeropad : spec.has flagZeropad <;>
    simp [padding_padded, pads]

/-- `number` writes a number in its field: the sign and the prefix that the flags ask for, the
canonical numeral in its base, and padding up to the field width. Its scratch array has room for
every pair of digits that is stored in it. -/
theorem number_lays_out (num : UInt64) (spec : PrintfSpec) (known : IsBase spec.base) :
    (∀ finish out, number finish num spec out = puts finish (numberText num spec) out) ∧
      ((numberText num spec).length : Int) = max spec.fieldWidth (bareWidth num spec) ∧
      digits (signed num spec).2 spec.base (spec.flags &&& flagSmall) <+:
        tmpBytes (signed num spec).2 spec.base (spec.flags &&& flagSmall) ∧
      (tmpBytes (signed num spec).2 spec.base (spec.flags &&& flagSmall)).length ≤ 24 := by
  have room := tmpBytes_fit known (signed num spec).2 spec.flags
  exact ⟨number_puts known, numberText_length num spec, room.1, room.2⟩

/-- The smallest signed number in hexadecimal, with its sign, its prefix and a precision. -/
theorem number_lays_out_smallest :
    number 100 0x8000000000000000 ⟨.longLong, 24, flagSign ||| flagSpecial ||| flagSmall, 16, 17⟩
        ⟨0, fun _ => 0⟩ =
      puts 100 (chars "    -0x08000000000000000".toList) ⟨0, fun _ => 0⟩ := by
  have known : IsBase 16 := .inr (.inr rfl)
  have layout := (number_lays_out 0x8000000000000000
    ⟨.longLong, 24, flagSign ||| flagSpecial ||| flagSmall, 16, 17⟩ known).1 100 ⟨0, fun _ => 0⟩
  have text : numberText 0x8000000000000000
      ⟨.longLong, 24, flagSign ||| flagSpecial ||| flagSmall, 16, 17⟩ =
        chars "    -0x08000000000000000".toList := by decide +kernel
  rwa [text] at layout

end DragonStub.Vsprintf

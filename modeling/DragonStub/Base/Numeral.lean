import Mathlib.Data.Nat.Digits.Lemmas

/-!
# Numerals

The canonical numeral of a number in a base, as programs compute it from the units on: digit by digit,
pair by pair, and with a division that multiplies by a reciprocal in fixed point.
-/

namespace Numeral

variable {b n k : Nat}

/-- The numeral of a number from the units on. No zero stands at its end, apart from the numeral of
zero. -/
def numeral (b n : Nat) : List Nat := if n = 0 then [0] else b.digits n

/-- A value below the base is one digit. -/
theorem numeral_of_lt (small : n < b) : numeral b n = [n] := by
  by_cases zero : n = 0
  · rw [numeral, if_pos zero, zero]
  · rw [numeral, if_neg zero, Nat.digits_of_lt b n zero small]

/-- The units, and the numeral of the rest. -/
theorem numeral_cons (base : 1 < b) (large : b ≤ n) :
    numeral b n = n % b :: numeral b (n / b) := by
  have rest : n / b ≠ 0 := Nat.ne_of_gt (Nat.div_pos large (by omega))
  rw [numeral, if_neg (by omega), Nat.digits_def' base (by omega), numeral, if_neg rest]

/-- Two digits, and the numeral of the rest. -/
theorem numeral_pair (base : 1 < b) (large : b * b ≤ n) :
    numeral b n = n % b :: n / b % b :: numeral b (n / (b * b)) := by
  have more : b ≤ n / b := (Nat.le_div_iff_mul_le (by omega)).mpr large
  have least : b ≤ n := Nat.le_trans (Nat.le_mul_self b) large
  rw [numeral_cons base least, numeral_cons base more, Nat.div_div_eq_div_mul]

/-- A number below a power of the base has no more digits than its exponent. -/
theorem numeral_length (base : 1 < b) (some : 0 < k) (small : n < b ^ k) :
    (numeral b n).length ≤ k := by
  by_cases zero : n = 0
  · rw [numeral, if_pos zero]
    exact some
  · rw [numeral, if_neg zero]
    exact (Nat.digits_length_le_iff base n).mpr small

/-- Every value has a digit. -/
theorem numeral_ne_nil (b n : Nat) : numeral b n ≠ [] := by
  by_cases zero : n = 0
  · rw [numeral, if_pos zero]
    exact List.cons_ne_nil _ _
  · rw [numeral, if_neg zero]
    exact Nat.digits_ne_nil_iff_ne_zero.mpr zero

/-- The digits of a numeral are below its base. -/
theorem numeral_digit_lt {d : Nat} (base : 1 < b) (member : d ∈ numeral b n) : d < b := by
  by_cases zero : n = 0
  · rw [numeral, if_pos zero, List.mem_singleton] at member
    omega
  · rw [numeral, if_neg zero] at member
    exact Nat.digits_lt_base base member

/-- The value of digits from the highest on, behind some number. -/
def horner (b : Nat) (digits : List Nat) (start : Nat) : Nat :=
  digits.foldl (fun value digit => value * b + digit) start

/-- No digits add nothing to a value. -/
theorem horner_nil (start : Nat) : horner b [] start = start := rfl

/-- A digit is added to a value before the digits behind it. -/
theorem horner_cons (digit : Nat) (digits : List Nat) (start : Nat) :
    horner b (digit :: digits) start = horner b digits (start * b + digit) := rfl

/-- A numeral has the value of its number. -/
theorem horner_numeral (b n : Nat) : horner b (numeral b n).reverse 0 = n := by
  have value : horner b (numeral b n).reverse 0 = Nat.ofDigits b (numeral b n) := by
    rw [horner, List.foldl_reverse, Nat.ofDigits_eq_foldr]
    congr 1
    funext digit value
    rw [Nat.cast_id]
    ring
  rw [value]
  by_cases zero : n = 0
  · rw [numeral, if_pos zero, zero, Nat.ofDigits_singleton]
  · rw [numeral, if_neg zero, Nat.ofDigits_digits]

/-- The highest digit of a number that is not zero is not zero. -/
theorem numeral_head_ne_zero {d : Nat} {rest : List Nat} (some : n ≠ 0)
    (shape : (numeral b n).reverse = d :: rest) : d ≠ 0 := by
  have nonempty : Nat.digits b n ≠ [] := Nat.digits_ne_nil_iff_ne_zero.mpr some
  have last := Nat.getLast_digit_ne_zero b some
  rw [numeral, if_neg some] at shape
  rw [List.getLast_eq_head_reverse nonempty] at last
  simpa [shape] using last

/-- A multiplication by a reciprocal divides, as long as its excess stays below one unit. -/
theorem reciprocal {x : Nat} (scale unit excess : Nat) (scaled : scale * unit = 2 ^ k + excess)
    (close : excess * (x / unit) + scale * (x % unit) < 2 ^ k) : x * scale / 2 ^ k = x / unit := by
  have parts : x * scale =
      2 ^ k * (x / unit) + (excess * (x / unit) + scale * (x % unit)) := by
    calc x * scale = (unit * (x / unit) + x % unit) * scale := by rw [Nat.div_add_mod]
      _ = scale * unit * (x / unit) + scale * (x % unit) := by ring
      _ = 2 ^ k * (x / unit) + (excess * (x / unit) + scale * (x % unit)) := by
        rw [scaled]
        ring
  rw [parts, Nat.mul_add_div (Nat.two_pow_pos k), Nat.div_eq_of_lt close, Nat.add_zero]

end Numeral

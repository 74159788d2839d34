import Mathlib.Tactic.Common

/-!
# UTF-16 text

A text in UTF-16 units ends at a unit that stops it or behind the last unit. A high surrogate and a
low one behind it are one character, any other surrogate is replaced, and a high surrogate in the
very last place is dropped.
-/

namespace Utf16

/-- A high surrogate. -/
def isHigh (unit : UInt16) : Bool := 0xd800 ≤ unit && unit < 0xdc00

/-- A low surrogate. -/
def isLow (unit : UInt16) : Bool := 0xdc00 ≤ unit && unit < 0xe000

/-- The character of a surrogate pair. -/
def pair (high low : UInt16) : Char :=
  Char.ofNat (0x10000 + (high.toNat - 0xd800) * 0x400 + (low.toNat - 0xdc00))

/-- The character of a unit that is in no pair. -/
def single (unit : UInt16) : Char :=
  Char.ofNat (if isHigh unit || isLow unit then 0xfffd else unit.toNat)

/-- The text of units. -/
def decode (stop : UInt16 → Bool) : List UInt16 → List Char
  | [] => []
  | [unit] => if stop unit || isHigh unit then [] else [single unit]
  | unit :: next :: rest =>
    if stop unit then []
    else if isHigh unit && isLow next then pair unit next :: decode stop rest
    else single unit :: decode stop (next :: rest)

/-- A text in UTF-8. -/
def encode (text : List Char) : List UInt8 := text.flatMap String.utf8EncodeChar

variable {unit high low : UInt16} {c : Char}

/-- The empty text is encoded as nothing. -/
@[simp] theorem encode_nil : encode [] = [] := rfl

/-- The bytes of a character come before those of the text behind it. -/
@[simp] theorem encode_cons (c : Char) (text : List Char) :
    encode (c :: text) = String.utf8EncodeChar c ++ encode text := rfl

/-- The bytes of two texts come one behind the other. -/
theorem encode_append (text later : List Char) :
    encode (text ++ later) = encode text ++ encode later := List.flatMap_append

/-- The high surrogates are an interval. -/
theorem isHigh_iff : isHigh unit = true ↔ 0xd800 ≤ unit.toNat ∧ unit.toNat < 0xdc00 := by
  simp [isHigh, UInt16.le_iff_toNat_le, UInt16.lt_iff_toNat_lt]

/-- The low surrogates are an interval. -/
theorem isLow_iff : isLow unit = true ↔ 0xdc00 ≤ unit.toNat ∧ unit.toNat < 0xe000 := by
  simp [isLow, UInt16.le_iff_toNat_le, UInt16.lt_iff_toNat_lt]

/-- A character keeps its code point. -/
theorem toNat_ofNat {n : Nat} (valid : n.isValidChar) : (Char.ofNat n).toNat = n := by
  have value : Char.ofNat n = Char.ofNatAux n valid := dif_pos valid
  rw [value]
  rfl

/-- A unit outside the surrogates is its own character. -/
theorem single_toNat (noHigh : isHigh unit = false) (noLow : isLow unit = false) :
    (single unit).toNat = unit.toNat := by
  have bound := unit.toNat_lt
  have apart : ¬(0xd800 ≤ unit.toNat ∧ unit.toNat < 0xdc00) := by
    rw [← isHigh_iff, noHigh]
    decide
  have other : ¬(0xdc00 ≤ unit.toNat ∧ unit.toNat < 0xe000) := by
    rw [← isLow_iff, noLow]
    decide
  have valid : unit.toNat.isValidChar := by
    unfold Nat.isValidChar
    omega
  rw [single, noHigh, noLow, if_neg (by decide), toNat_ofNat valid]

/-- A surrogate without its other half is replaced. -/
theorem single_surrogate (surrogate : (isHigh unit || isLow unit) = true) :
    (single unit).toNat = 0xfffd := by
  rw [single, if_pos surrogate, toNat_ofNat (by decide)]

/-- The character of a pair lies behind the units. -/
theorem pair_toNat (upper : isHigh high = true) (lower : isLow low = true) :
    (pair high low).toNat = 0x10000 + (high.toNat - 0xd800) * 0x400 + (low.toNat - 0xdc00) := by
  have first := isHigh_iff.mp upper
  have second := isLow_iff.mp lower
  have valid : (0x10000 + (high.toNat - 0xd800) * 0x400 + (low.toNat - 0xdc00)).isValidChar := by
    unfold Nat.isValidChar
    omega
  exact toNat_ofNat valid

/-- A character below 0x80 has one byte. -/
theorem utf8_one (small : c.toNat < 0x80) :
    String.utf8EncodeChar c = [UInt8.ofNat c.toNat] := by
  have value : c.val.toNat = c.toNat := rfl
  simp only [String.utf8EncodeChar, value]
  rw [if_pos (by omega)]

/-- A character below 0x800 has two bytes. -/
theorem utf8_two (large : 0x80 ≤ c.toNat) (small : c.toNat < 0x800) :
    String.utf8EncodeChar c =
      [UInt8.ofNat (c.toNat / 64 % 32 + 0xc0), UInt8.ofNat (c.toNat % 64 + 0x80)] := by
  have value : c.val.toNat = c.toNat := rfl
  simp only [String.utf8EncodeChar, value]
  rw [if_neg (by omega), if_pos (by omega)]

/-- A character below 0x10000 has three bytes. -/
theorem utf8_three (large : 0x800 ≤ c.toNat) (small : c.toNat < 0x10000) :
    String.utf8EncodeChar c = [UInt8.ofNat (c.toNat / 4096 % 16 + 0xe0),
      UInt8.ofNat (c.toNat / 64 % 64 + 0x80), UInt8.ofNat (c.toNat % 64 + 0x80)] := by
  have value : c.val.toNat = c.toNat := rfl
  simp only [String.utf8EncodeChar, value]
  rw [if_neg (by omega), if_neg (by omega), if_pos (by omega)]

/-- A character from 0x10000 on has four bytes. -/
theorem utf8_four (large : 0x10000 ≤ c.toNat) :
    String.utf8EncodeChar c = [UInt8.ofNat (c.toNat / 262144 % 8 + 0xf0),
      UInt8.ofNat (c.toNat / 4096 % 64 + 0x80), UInt8.ofNat (c.toNat / 64 % 64 + 0x80),
      UInt8.ofNat (c.toNat % 64 + 0x80)] := by
  have value : c.val.toNat = c.toNat := rfl
  simp only [String.utf8EncodeChar, value]
  rw [if_neg (by omega), if_neg (by omega), if_neg (by omega)]

variable {stop : UInt16 → Bool} {rest : List UInt16}

/-- A text ends at a unit that stops it. -/
theorem decode_stop (stops : stop unit = true) : decode stop (unit :: rest) = [] := by
  cases rest with
  | nil => exact if_pos (by simp [stops])
  | cons next rest => exact if_pos stops

/-- A high surrogate in the last place is dropped. -/
theorem decode_last (high : isHigh unit = true) : decode stop [unit] = [] :=
  if_pos (by simp [high])

/-- Two halves are one character. -/
theorem decode_pair (goesOn : stop high = false) (first : isHigh high = true)
    (second : isLow low = true) :
    decode stop (high :: low :: rest) = pair high low :: decode stop rest := by
  rw [decode, if_neg (by simp [goesOn]), if_pos (by simp [first, second])]

/-- A unit is one character unless it has its other half behind it, or is a half in the last
place. -/
theorem decode_single (goesOn : stop unit = false)
    (alone : isHigh unit = true → ∃ next later, rest = next :: later ∧ isLow next = false) :
    decode stop (unit :: rest) = single unit :: decode stop rest := by
  cases rest with
  | nil =>
    have noHigh : isHigh unit = false := by
      by_contra high
      obtain ⟨next, later, none, _⟩ := alone (by simpa using high)
      cases none
    exact if_neg (by simp [goesOn, noHigh])
  | cons next later =>
    have apart : ¬(isHigh unit && isLow next) = true := by
      intro both
      rw [Bool.and_eq_true] at both
      obtain ⟨_, _, same, notLow⟩ := alone both.1
      cases same
      rw [both.2] at notLow
      cases notLow
    rw [decode, if_neg (by simp [goesOn]), if_neg apart]

/-- How the text of a unit and those behind it begins. -/
theorem decode_cons (stop : UInt16 → Bool) (unit : UInt16) (rest : List UInt16) :
    decode stop (unit :: rest) = [] ∨
      (∃ low later, rest = low :: later ∧ isHigh unit = true ∧ isLow low = true ∧
        decode stop (unit :: rest) = pair unit low :: decode stop later) ∨
      stop unit = false ∧ decode stop (unit :: rest) = single unit :: decode stop rest := by
  by_cases stops : stop unit = true
  · exact .inl (decode_stop stops)
  have goesOn : stop unit = false := by simpa using stops
  cases rest with
  | nil =>
    by_cases high : isHigh unit = true
    · exact .inl (decode_last high)
    · exact .inr (.inr ⟨goesOn, decode_single goesOn fun isHigh => absurd isHigh high⟩)
  | cons next later =>
    by_cases both : isHigh unit = true ∧ isLow next = true
    · exact .inr (.inl ⟨next, later, rfl, both.1, both.2, decode_pair goesOn both.1 both.2⟩)
    · refine .inr (.inr ⟨goesOn, decode_single goesOn fun high => ⟨next, later, rfl, ?_⟩⟩)
      simpa using fun low => both ⟨high, low⟩

/-- A unit in no pair takes one, two or three bytes. -/
theorem length_single (unit : UInt16) : (String.utf8EncodeChar (single unit)).length =
    if unit.toNat < 0x80 then 1 else if unit.toNat < 0x800 then 2 else 3 := by
  have bound := unit.toNat_lt
  by_cases surrogate : (isHigh unit || isLow unit) = true
  · have range : 0xd800 ≤ unit.toNat := by
      rw [Bool.or_eq_true, isHigh_iff, isLow_iff] at surrogate
      omega
    have value := single_surrogate surrogate
    rw [utf8_three (by omega) (by omega), if_neg (by omega), if_neg (by omega)]
    rfl
  · rw [Bool.not_eq_true, Bool.or_eq_false_iff] at surrogate
    have value := single_toNat surrogate.1 surrogate.2
    by_cases one : unit.toNat < 0x80
    · rw [utf8_one (by omega), if_pos one]
      rfl
    · by_cases two : unit.toNat < 0x800
      · rw [utf8_two (by omega) (by omega), if_neg one, if_pos two]
        rfl
      · rw [utf8_three (by omega) (by omega), if_neg one, if_neg two]
        rfl

/-- A pair takes four bytes. -/
theorem length_pair (upper : isHigh high = true) (lower : isLow low = true) :
    (String.utf8EncodeChar (pair high low)).length = 4 := by
  rw [utf8_four]
  · rfl
  · rw [pair_toNat upper lower]
    omega

end Utf16

import DragonStub.Verif.CmdlineCount

/-!
# Options that are their own conversion

The bytes of the load options are hardly ever those of their text in UTF-8. Where they are for two
bytes or more, every unit that they cover is a character of three bytes, so there is only one such
text, of one character.
-/

namespace DragonStub

open ByteMemory Utf16

/-- Bytes that begin with a text. -/
def Agrees (raw : Nat → UInt8) (text : List UInt8) : Prop :=
  ∀ position byte, text[position]? = some byte → raw position = byte

variable {raw : Nat → UInt8} {unit : UInt16} {c : Char} {rest : List UInt16}
  {text after : List Char}

/-- A unit that is a character of three bytes. -/
structure Wide (unit : UInt16) : Prop where
  /-- The unit takes at least three bytes. -/
  large : 0x800 ≤ unit.toNat
  /-- The unit starts no pair. -/
  noHigh : isHigh unit = false
  /-- The unit ends no pair. -/
  noLow : isLow unit = false

/-- A unit above 0x7ff that is no surrogate takes three bytes. -/
theorem wide_of_ranges (large : 0x800 ≤ unit.toNat)
    (apart : unit.toNat < 0xd800 ∨ 0xe000 ≤ unit.toNat) : Wide unit := by
  refine ⟨large, ?_, ?_⟩
  · rw [← Bool.not_eq_true, isHigh_iff]
    omega
  · rw [← Bool.not_eq_true, isLow_iff]
    omega

/-- The three bytes of a wide unit. -/
theorem Wide.encode (wide : Wide unit) : String.utf8EncodeChar (single unit) =
    [UInt8.ofNat (unit.toNat / 4096 % 16 + 0xe0), UInt8.ofNat (unit.toNat / 64 % 64 + 0x80),
      UInt8.ofNat (unit.toNat % 64 + 0x80)] := by
  have bound := unit.toNat_lt
  have large := wide.large
  have value := single_toNat wide.noHigh wide.noLow
  rw [utf8_three (by omega) (by omega), value]

/-- What a unit that is in no pair makes, by its size. -/
theorem single_cases (unit : UInt16) :
    (unit.toNat < 0x80 ∧ String.utf8EncodeChar (single unit) = [UInt8.ofNat unit.toNat]) ∨
    (unit.toNat < 0x800 ∧ ∃ first second, 0xc0 ≤ first.toNat ∧ 0x80 ≤ second.toNat ∧
      String.utf8EncodeChar (single unit) = [first, second]) ∨
    (0xd800 ≤ unit.toNat ∧ unit.toNat < 0xe000 ∧
      String.utf8EncodeChar (single unit) = [0xef, 0xbf, 0xbd]) ∨
    Wide unit := by
  by_cases surrogate : (isHigh unit || isLow unit) = true
  · right; right; left
    have value := single_surrogate surrogate
    rw [Bool.or_eq_true, isHigh_iff, isLow_iff] at surrogate
    refine ⟨by omega, by omega, ?_⟩
    rw [utf8_three (by omega) (by omega), value]
    rfl
  · rw [Bool.not_eq_true, Bool.or_eq_false_iff] at surrogate
    have value := single_toNat surrogate.1 surrogate.2
    by_cases one : unit.toNat < 0x80
    · left
      refine ⟨one, ?_⟩
      rw [utf8_one (by omega), value]
    · by_cases two : unit.toNat < 0x800
      · right; left
        refine ⟨two, _, _, ?_, ?_, utf8_two (by omega) (by omega)⟩
        · rw [UInt8.toNat_ofNat']
          omega
        · rw [UInt8.toNat_ofNat']
          omega
      · right; right; right
        exact ⟨by omega, surrogate.1, surrogate.2⟩

/-- What a pair makes. -/
theorem pair_bytes {high low : UInt16} (upper : isHigh high = true) (lower : isLow low = true) :
    ∃ first second others, 0xf0 ≤ first.toNat ∧ second.toNat < 0xc0 ∧
      String.utf8EncodeChar (pair high low) = first :: second :: others := by
  have value := pair_toNat upper lower
  refine ⟨_, _, _, ?_, ?_, utf8_four (by omega)⟩
  · rw [UInt8.toNat_ofNat']
    omega
  · rw [UInt8.toNat_ofNat']
    omega

/-- Two bytes of a text and more that are those of its first unit fix this unit. -/
theorem first_unit (agrees : Agrees raw (encode (c :: text))) (noNul : 0 ∉ encode (c :: text))
    (long : 2 ≤ (encode (c :: text)).length)
    (held : unit.toNat = (raw 0).toNat + 256 * (raw 1).toNat)
    (first : decode endsLine (unit :: rest) = c :: after) : unit = 0xbfeb := by
  have bound := unit.toNat_lt
  have byteBound := (raw 0).toNat_lt
  have second : 0 < (raw 1).toNat := by
    have byte := agrees 1 _ (List.getElem?_eq_getElem (by omega))
    rw [Nat.pos_iff_ne_zero, ← UInt8.toNat_zero, ne_eq, UInt8.toNat_inj, byte]
    intro zero
    exact noNul (zero ▸ List.getElem_mem _)
  rw [encode_cons] at agrees
  obtain none | ⟨low, later, -, upper, lower, split⟩ | ⟨-, split⟩ :=
    decode_cons endsLine unit rest
  · rw [none] at first
    cases first
  · obtain ⟨one, two, others, lead, next, bytes⟩ := pair_bytes upper lower
    rw [split, List.cons.injEq] at first
    obtain ⟨rfl, -⟩ := first
    rw [bytes] at agrees
    have range := isHigh_iff.mp upper
    have same := agrees 1 two rfl
    rw [← same] at next
    omega
  · rw [split, List.cons.injEq] at first
    obtain ⟨rfl, -⟩ := first
    obtain ⟨small, bytes⟩ | ⟨small, one, two, -, next, bytes⟩ | ⟨large, small, bytes⟩ | wide :=
      single_cases unit
    · omega
    · rw [bytes] at agrees
      have same := agrees 1 two rfl
      rw [← same] at next
      omega
    · rw [bytes] at agrees
      have same := agrees 1 0xbf rfl
      have value : (raw 1).toNat = 0xbf := by
        rw [same]
        rfl
      omega
    · rw [wide.encode] at agrees
      have large := wide.large
      have one := congrArg UInt8.toNat (agrees 0 _ rfl)
      have two := congrArg UInt8.toNat (agrees 1 _ rfl)
      have nibble : unit.toNat / 4096 < 16 := by omega
      rw [UInt8.toNat_ofNat', Nat.mod_eq_of_lt nibble, Nat.mod_eq_of_lt (by omega)] at one
      rw [UInt8.toNat_ofNat', Nat.mod_eq_of_lt (by omega)] at two
      have quarter : unit.toNat / 64 = 4 * (raw 1).toNat + 3 := by omega
      rw [quarter] at two
      have upper : (raw 1).toNat = 0xbf := by omega
      apply UInt16.toNat_inj.mp
      change unit.toNat = 0xbfeb
      omega

/-- A unit whose upper byte begins its own character takes three bytes. -/
theorem lead_unit (large : 0x80 ≤ unit.toNat) {lead : UInt8} {others : List UInt8}
    (bytes : String.utf8EncodeChar c = lead :: others) (held : unit.toNat / 256 = lead.toNat)
    (first : decode endsLine (unit :: rest) = c :: after) : Wide unit := by
  have bound := unit.toNat_lt
  obtain none | ⟨low, later, -, upper, lower, split⟩ | ⟨-, split⟩ :=
    decode_cons endsLine unit rest
  · rw [none] at first
    cases first
  · obtain ⟨one, two, more, range, -, pair⟩ := pair_bytes upper lower
    rw [split, List.cons.injEq] at first
    obtain ⟨rfl, -⟩ := first
    rw [pair] at bytes
    cases bytes
    have upperRange := isHigh_iff.mp upper
    omega
  · rw [split, List.cons.injEq] at first
    obtain ⟨rfl, -⟩ := first
    obtain ⟨small, -⟩ | ⟨small, one, two, range, -, single⟩ | ⟨low, high, single⟩ | wide :=
      single_cases unit
    · omega
    · rw [single] at bytes
      cases bytes
      omega
    · rw [single] at bytes
      cases bytes
      have value : (0xef : UInt8).toNat = 0xef := rfl
      omega
    · exact wide

/-- A byte of a character of three bytes. -/
def Heavy (byte : UInt8) : Prop :=
  0x80 ≤ byte.toNat ∧ byte.toNat < 0xc0 ∨ 0xe0 ≤ byte.toNat ∧ byte.toNat < 0xf0

/-- Each byte of a wide unit is one of a character of three bytes. -/
theorem Wide.heavy (wide : Wide unit) :
    ∀ byte ∈ String.utf8EncodeChar (single unit), Heavy byte := by
  intro byte member
  simp only [wide.encode, List.mem_cons, List.not_mem_nil, or_false] at member
  unfold Heavy
  rcases member with rfl | rfl | rfl
  all_goals
    rw [UInt8.toNat_ofNat']
    omega

/-- A wide unit is no blank. -/
theorem Wide.noBlank (wide : Wide unit) : isBlank (single unit) = false := by
  have large := wide.large
  rw [← Bool.not_eq_true]
  simp only [isBlank, single_toNat wide.noHigh wide.noLow, Bool.or_eq_true, Bool.and_eq_true,
    decide_eq_true_eq, beq_iff_eq]
  omega

/-- A character has a first byte. -/
theorem utf8_cons (c : Char) : ∃ lead others, String.utf8EncodeChar c = lead :: others := by
  cases bytes : String.utf8EncodeChar c with
  | nil =>
    have length := String.length_utf8EncodeChar c
    rw [bytes, List.length_nil] at length
    exact absurd length.symm c.utf8Size_pos.ne'
  | cons lead others => exact ⟨lead, others, rfl⟩

/-- A unit whose upper byte is one of these takes three bytes itself. -/
theorem wide_of_heavy {low high : UInt8} (heavy : Heavy high)
    (held : unit.toNat = low.toNat + 256 * high.toNat) : Wide unit := by
  have bound := low.toNat_lt
  unfold Heavy at heavy
  exact wide_of_ranges (by omega) (by omega)

variable {m : Memory} {options : UInt64} {chars k : Nat}

/-- A unit of the options has two of their bytes. -/
theorem unit_held (m : Memory) (options : UInt64) (k : Nat) :
    (wordAt m (options + UInt64.ofNat (2 * k)) 2).toUInt16.toNat =
      (Vsprintf.pointee m options (2 * k)).toNat +
        256 * (Vsprintf.pointee m options (2 * k + 1)).toNat := by
  have next : options + UInt64.ofNat (2 * k) + 1 = options + UInt64.ofNat (2 * k + 1) := by
    rw [UInt64.ofNat_add, UInt64.add_assoc]
    rfl
  have low := (m (options + UInt64.ofNat (2 * k))).toNat_lt
  have high := (m (options + UInt64.ofNat (2 * k + 1))).toNat_lt
  rw [wordAt, readLe, readLe, readLe, next, UInt64.toNat_toUInt16, UInt64.toNat_ofNat',
    Vsprintf.pointee, Vsprintf.pointee]
  omega

/-- The units from one on are it and those behind it. -/
theorem unitsAt_from (m : Memory) (options : UInt64) (inside : k < chars) :
    unitsAt m (chars - k) (options + UInt64.ofNat (2 * k)) =
      (wordAt m (options + UInt64.ofNat (2 * k)) 2).toUInt16 ::
        unitsAt m (chars - (k + 1)) (options + UInt64.ofNat (2 * (k + 1))) := by
  have more : chars - k = chars - (k + 1) + 1 := by omega
  have next : options + UInt64.ofNat (2 * k) + 2 = options + UInt64.ofNat (2 * (k + 1)) := by
    rw [Nat.mul_add, UInt64.ofNat_add, UInt64.add_assoc]
    rfl
  rw [more, unitsAt, next]

/-- The first units of the options are characters of three bytes each, and a text is these and what
the units behind them make of it. -/
def Covered (m : Memory) (options : UInt64) (chars : Nat) (text after : List Char) (k : Nat) :
    Prop :=
  ∃ front rest, text = front ++ rest ∧ (encode front).length = 3 * k ∧
    (∀ byte ∈ encode front, Heavy byte) ∧
    decode endsLine (unitsAt m (chars - k) (options + UInt64.ofNat (2 * k))) = rest ++ after

/-- A unit whose bytes are behind the first characters is covered, too. -/
theorem Covered.next (covered : Covered m options chars text after k) (positive : 1 ≤ k)
    (agrees : Agrees (Vsprintf.pointee m options) (encode text))
    (more : 2 * k + 1 < (encode text).length) (inside : k < chars)
    (stops : after = [] ∨ ∃ c later, after = c :: later ∧ isBlank c = true) :
    Covered m options chars text after (k + 1) := by
  obtain ⟨front, rest, rfl, length, heavy, decoded⟩ := covered
  rw [encode_append] at agrees
  rw [encode_append, List.length_append, length] at more
  have held := unit_held m options k
  rw [unitsAt_from m options inside] at decoded
  generalize (wordAt m (options + UInt64.ofNat (2 * k)) 2).toUInt16 = unit at held decoded
  have covers (position : Nat) (early : position < 3 * k) :
      Heavy (Vsprintf.pointee m options position) := by
    have inFront : position < (encode front).length := by omega
    have byte := agrees position (encode front)[position] (by
      rw [List.getElem?_append_left inFront, List.getElem?_eq_getElem inFront])
    rw [byte]
    exact heavy _ (List.getElem_mem inFront)
  have wide : Wide unit := by
    by_cases early : 2 * k + 1 < 3 * k
    · exact wide_of_heavy (covers _ early) held
    · have second : k = 1 := by omega
      subst second
      cases rest with
      | nil =>
        rw [encode_nil, List.length_nil] at more
        omega
      | cons c rest =>
        obtain ⟨lead, others, bytes⟩ := utf8_cons c
        have byte := agrees 3 lead (by
          rw [List.getElem?_append_right (by omega), length, encode_cons, bytes]
          rfl)
        have bound := (Vsprintf.pointee m options (2 * 1)).toNat_lt
        have lower := covers (2 * 1) (by decide)
        unfold Heavy at lower
        rw [byte] at held
        exact lead_unit (by omega) bytes (by omega) decoded
  have large : 0x80 ≤ unit.toNat := le_trans (by decide) wide.large
  rw [decode_single (endsLine_large large) fun high => absurd high (by simp [wide.noHigh])]
    at decoded
  cases rest with
  | nil =>
    rw [List.nil_append] at decoded
    rcases stops with none | ⟨c, later, split, blank⟩
    · rw [none] at decoded
      cases decoded
    · rw [split, List.cons.injEq] at decoded
      rw [← decoded.1, wide.noBlank] at blank
      cases blank
  | cons c rest =>
    rw [List.cons_append, List.cons.injEq] at decoded
    obtain ⟨rfl, decoded⟩ := decoded
    refine ⟨front ++ [single unit], rest, ?_, ?_, ?_, decoded⟩
    · rw [List.append_cons]
    · rw [encode_append, List.length_append, length, encode_cons, encode_nil, List.append_nil,
        wide.encode]
      rfl
    · intro byte member
      rw [encode_append, encode_cons, encode_nil, List.append_nil, List.mem_append] at member
      exact member.elim (heavy byte) (wide.heavy byte)

/-- Bytes of the options that are two or more bytes of their text are those of one character. -/
theorem text_of_agrees (agrees : Agrees (Vsprintf.pointee m options) (encode text))
    (noNul : 0 ∉ encode text) (long : 2 ≤ (encode text).length)
    (inside : (encode text).length / 2 ≤ chars)
    (decoded : decode endsLine (unitsAt m chars options) = text ++ after)
    (stops : after = [] ∨ ∃ c later, after = c :: later ∧ isBlank c = true) :
    text = [single 0xbfeb] := by
  cases text with
  | nil => cases long
  | cons c rest =>
    have start : options + UInt64.ofNat (2 * 0) = options := UInt64.add_zero options
    have units := unitsAt_from m options (show 0 < chars by omega)
    have held := unit_held m options 0
    rw [start, Nat.sub_zero] at units
    rw [start] at held
    rw [units, List.cons_append] at decoded
    have unit := first_unit agrees noNul long held decoded
    have wide : Wide 0xbfeb := wide_of_ranges (by decide) (by decide)
    rw [unit, decode_single (endsLine_large (by decide)) fun high =>
      absurd high (by simp [wide.noHigh]), List.cons.injEq] at decoded
    obtain ⟨rfl, decoded⟩ := decoded
    have covered : Covered m options chars (single 0xbfeb :: rest) after 1 := by
      refine ⟨[single 0xbfeb], rest, rfl, rfl, ?_, decoded⟩
      rw [encode_cons, encode_nil, List.append_nil]
      exact wide.heavy
    have every (k : Nat) (positive : 1 ≤ k)
        (within : 2 * k ≤ (encode (single 0xbfeb :: rest)).length) :
        Covered m options chars (single 0xbfeb :: rest) after k := by
      induction k, positive using Nat.le_induction with
      | base => exact covered
      | succ k positive ih =>
        exact (ih (by omega)).next positive agrees (by omega) (by omega) stops
    obtain ⟨front, others, split, length, -⟩ :=
      every ((encode (single 0xbfeb :: rest)).length / 2) (by omega) (by omega)
    have total : (encode (single 0xbfeb :: rest)).length =
        (encode front).length + (encode others).length := by
      rw [split, encode_append, List.length_append]
    have three : (encode (single 0xbfeb :: rest)).length = 3 + (encode rest).length := by
      rw [encode_cons, List.length_append]
      rfl
    cases rest with
    | nil => rfl
    | cons c rest =>
      obtain ⟨lead, more, bytes⟩ := utf8_cons c
      rw [encode_cons c, bytes, List.cons_append, List.length_cons] at three
      omega

end DragonStub

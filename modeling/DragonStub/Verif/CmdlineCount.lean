import DragonStub.Base.Utf16
import DragonStub.Boot.Cmdline
import DragonStub.Verif.HeaderRuns
import Mathlib.Data.List.Induction
import Mathlib.Data.Nat.Bitwise

/-!
# Counting the command line

The loop over the load options counts the bytes of their text in UTF-8, and up to the last space
outside quotes. It stops where the text ends or once it has counted too many. So a text that is
short enough is kept, and a longer one is cut at that space; no unit behind the options is read.
-/

namespace DragonStub

open ByteMemory Interaction Prog Utf16

/-- The units from an address on. -/
def unitsAt (m : Memory) : Nat → UInt64 → List UInt16
  | 0, _ => []
  | count + 1, s2 => (wordAt m s2 2).toUInt16 :: unitsAt m count (s2 + 2)

/-- A unit that ends the command line. -/
def endsLine (unit : UInt16) : Bool := unit == 0 || unit == 10

/-- A space. -/
def isBlank (c : Char) : Bool := (9 ≤ c.toNat && c.toNat ≤ 13) || c.toNat == 32

/-- The end of a text lies within quotes. -/
def quoted (text : List Char) : Bool := text.count '"' % 2 == 1

/-- The part of a text before its last space outside quotes, of those that begin within the limit.
The text is read from its end. -/
def lastCut : List Char → List Char
  | [] => []
  | c :: before =>
    if isBlank c && !quoted before.reverse &&
        decide ((encode before.reverse).length < commandLineSize) then before.reverse
    else lastCut before

/-- A text, cut at a space if it is too long. -/
def fitting (text : List Char) : List Char :=
  if (encode text).length < commandLineSize then text else lastCut text.reverse

variable {front text : List Char} {c : Char}

/-- The last cut moves to a blank outside quotes as long as the text in front of it fits. -/
theorem lastCut_concat : lastCut (front ++ [c]).reverse =
    if isBlank c && !quoted front && decide ((encode front).length < commandLineSize) then front
    else lastCut front.reverse := by
  rw [List.reverse_append, List.reverse_singleton, List.singleton_append, lastCut,
    List.reverse_reverse]

/-- No cut lies behind the limit. -/
theorem lastCut_append (long : commandLineSize ≤ (encode front).length) (later : List Char) :
    lastCut (front ++ later).reverse = lastCut front.reverse := by
  induction later generalizing front with
  | nil => rw [List.append_nil]
  | cons c later ih =>
    have longer : commandLineSize ≤ (encode (front ++ [c])).length := by
      rw [encode_append, List.length_append]
      omega
    have behind : ¬(encode front).length < commandLineSize := by omega
    rw [List.append_cons, ih longer, lastCut_concat, if_neg (by simp [behind])]

/-- What is kept of a text is its beginning. -/
theorem lastCut_cases (text : List Char) : lastCut text.reverse = [] ∨
    ∃ c later, text = lastCut text.reverse ++ c :: later ∧ isBlank c = true := by
  induction text using List.reverseRecOn with
  | nil => exact .inl rfl
  | append_singleton front c ih =>
    rw [lastCut_concat]
    by_cases cut : (isBlank c && !quoted front &&
        decide ((encode front).length < commandLineSize)) = true
    · rw [if_pos cut]
      simp only [Bool.and_eq_true] at cut
      exact .inr ⟨c, [], rfl, cut.1.1⟩
    · rw [if_neg cut]
      apply ih.imp_right
      rintro ⟨blank, later, split, isBlank⟩
      refine ⟨blank, later ++ [c], ?_, isBlank⟩
      calc front ++ [c] = lastCut front.reverse ++ blank :: later ++ [c] := by rw [← split]
        _ = lastCut front.reverse ++ blank :: (later ++ [c]) := by simp

/-- The text up to the last cut fits. -/
theorem lastCut_length (text : List Char) :
    (encode (lastCut text.reverse)).length < commandLineSize := by
  induction text using List.reverseRecOn with
  | nil => decide
  | append_singleton front c ih =>
    rw [lastCut_concat]
    split
    · rename_i cut
      simp only [Bool.and_eq_true, decide_eq_true_eq] at cut
      exact cut.2
    · exact ih

/-- What fits is nothing, or the text up to its end or to a space. -/
theorem fitting_cases (text : List Char) : fitting text = [] ∨ ∃ after,
    text = fitting text ++ after ∧
      (after = [] ∨ ∃ c later, after = c :: later ∧ isBlank c = true) := by
  unfold fitting
  split
  · exact .inr ⟨[], (List.append_nil text).symm, .inl rfl⟩
  · apply (lastCut_cases text).imp_right
    rintro ⟨c, later, split, blank⟩
    exact ⟨c :: later, split, .inr ⟨c, later, rfl, blank⟩⟩

/-- The text that is kept fits. -/
theorem fitting_length (text : List Char) : (encode (fitting text)).length < commandLineSize := by
  unfold fitting
  split
  · assumption
  · exact lastCut_length text

/-- The bytes of what fits are the first bytes of the text. -/
theorem take_fitting (text : List Char) :
    (encode text).take (encode (fitting text)).length = encode (fitting text) := by
  rcases fitting_cases text with none | ⟨after, split, -⟩
  · rw [none]
    rfl
  · calc (encode text).take (encode (fitting text)).length
        = (encode (fitting text ++ after)).take (encode (fitting text)).length := by rw [← split]
      _ = encode (fitting text) := by rw [encode_append, List.take_left]

/-- What the loop holds once it has read a text. -/
structure Counts (text : List Char) (count : Counting) : Prop where
  /-- The bytes of the text are counted. -/
  bytes : count.bytes = (encode text).length
  /-- The bytes up to the last cut are kept. -/
  safe : count.safe = (encode (lastCut text.reverse)).length
  /-- The quotes are followed. -/
  inQuote : count.inQuote = quoted text

/-- Nothing is counted in front of the text. -/
theorem counts_initial : Counts [] ⟨0, 0, false⟩ := ⟨rfl, rfl, rfl⟩

/-- The mask of surrogates keeps the upper six bits. -/
theorem and_high (c : UInt16) : (c &&& 0xfc00).toNat = c.toNat / 1024 * 1024 := by
  have bound := c.toNat_lt
  have mask : (0xfc00 : Nat) = (2 ^ 6 - 1) <<< 10 := rfl
  have shifted : c.toNat &&& 0xfc00 = (c.toNat >>> 10) <<< 10 := by
    apply Nat.eq_of_testBit_eq
    intro i
    rw [mask, Nat.testBit_and, Nat.testBit_shiftLeft, Nat.testBit_shiftLeft,
      Nat.testBit_shiftRight, Nat.testBit_two_pow_sub_one]
    by_cases low : 10 ≤ i
    · have index : 10 + (i - 10) = i := by omega
      by_cases inside : i < 16
      · have below : i - 10 < 6 := by omega
        simp [low, index, below]
      · have zero : c.toNat.testBit i = false := by
          apply Nat.testBit_lt_two_pow
          calc c.toNat < 2 ^ 16 := bound
            _ ≤ 2 ^ i := Nat.pow_le_pow_right (by decide) (by omega)
        simp [zero, index]
    · simp [low]
  rw [UInt16.toNat_and]
  change c.toNat &&& 0xfc00 = _
  rw [shifted, Nat.shiftRight_eq_div_pow, Nat.shiftLeft_eq]

/-- The mask of the source tells the high surrogates. -/
theorem isHighSurrogate_eq (c : UInt16) : isHighSurrogate c = isHigh c := by
  rw [Bool.eq_iff_iff, isHigh_iff, isHighSurrogate, beq_iff_eq, ← UInt16.toNat_inj, and_high]
  change c.toNat / 1024 * 1024 = 0xd800 ↔ _
  omega

/-- The mask of the source tells the low surrogates. -/
theorem isLowSurrogate_eq (c : UInt16) : isLowSurrogate c = isLow c := by
  rw [Bool.eq_iff_iff, isLow_iff, isLowSurrogate, beq_iff_eq, ← UInt16.toNat_inj, and_high]
  change c.toNat / 1024 * 1024 = 0xdc00 ↔ _
  omega

variable {count : Counting} {unit : UInt16}

/-- A unit below the surrogates is its own character. -/
theorem single_small (small : unit.toNat < 0x800) : (single unit).toNat = unit.toNat := by
  apply single_toNat
  · rw [← Bool.not_eq_true, isHigh_iff]
    omega
  · rw [← Bool.not_eq_true, isLow_iff]
    omega

/-- An ASCII unit is blank as its character is. -/
theorem isBlank_single (small : unit.toNat < 0x80) : isBlank (single unit) = isSpace unit := by
  rw [Bool.eq_iff_iff]
  simp only [isBlank, isSpace, single_small (show unit.toNat < 0x800 by omega), Bool.or_eq_true,
    Bool.and_eq_true, decide_eq_true_eq, beq_iff_eq, UInt16.le_iff_toNat_le, ← UInt16.toNat_inj]
  rfl

/-- An ASCII unit is a quote as its character is. -/
theorem single_eq_quote (small : unit.toNat < 0x80) : single unit = '"' ↔ unit = 0x22 := by
  rw [← Char.toNat_inj, single_small (by omega), ← UInt16.toNat_inj]
  rfl

/-- A quote behind a text opens or closes the quotes. -/
theorem quoted_concat : quoted (text ++ [c]) = if c = '"' then !quoted text else quoted text := by
  rw [quoted, quoted, List.count_append, List.count_singleton]
  by_cases quote : c = '"'
  · rw [if_pos quote, if_pos (by simp [quote])]
    have parity : text.count '"' % 2 = 0 ∨ text.count '"' % 2 = 1 := by omega
    cases parity with
    | inl even =>
      have odd : (text.count '"' + 1) % 2 = 1 := by omega
      rw [even, odd]
      rfl
    | inr odd =>
      have even : (text.count '"' + 1) % 2 = 0 := by omega
      rw [even, odd]
      rfl
  · rw [if_neg quote, if_neg (by simpa using quote), Nat.add_zero]

/-- Counting an ASCII character. -/
theorem Counts.ascii (counts : Counts text count) (room : count.bytes < commandLineSize)
    (small : unit.toNat < 0x80) : Counts (text ++ [single unit]) (count.ascii unit) := by
  have one : (encode [single unit]).length = 1 := by
    rw [encode_cons, encode_nil, List.append_nil, length_single, if_pos small]
  have longer : count.bytes + 1 = (encode (text ++ [single unit])).length := by
    rw [encode_append, List.length_append, one, counts.bytes]
  have short : (encode text).length < commandLineSize := counts.bytes ▸ room
  have cut : lastCut (text ++ [single unit]).reverse =
      if isSpace unit && !count.inQuote then text else lastCut text.reverse := by
    rw [lastCut_concat, isBlank_single small, counts.inQuote]
    simp only [short, decide_true, Bool.and_true]
  have quotes : quoted (text ++ [single unit]) =
      if unit = 0x22 then !count.inQuote else count.inQuote := by
    rw [quoted_concat, counts.inQuote]
    simp only [single_eq_quote small]
  unfold Counting.ascii
  by_cases quote : unit = 0x22
  · have noSpace : isSpace unit = false := by
      rw [quote]
      decide
    rw [if_pos (by simp [quote])]
    refine ⟨longer, ?_, ?_⟩
    · rw [cut, noSpace]
      exact counts.safe
    · rw [quotes, if_pos quote]
  rw [if_neg (by simpa using quote)]
  by_cases space : (!count.inQuote && isSpace unit) = true
  · rw [if_pos space]
    refine ⟨longer, ?_, ?_⟩
    · rw [cut, if_pos (by rwa [Bool.and_comm])]
      exact counts.bytes
    · rw [quotes, if_neg quote]
  · rw [if_neg space]
    refine ⟨longer, ?_, ?_⟩
    · rw [cut, if_neg (by rwa [Bool.and_comm])]
      exact counts.safe
    · rw [quotes, if_neg quote]

/-- Counting a character of several bytes. -/
theorem Counts.add (counts : Counts text count) (large : 0x80 ≤ c.toNat) :
    Counts (text ++ [c]) (count.add (String.utf8EncodeChar c).length) := by
  have noBlank : isBlank c = false := by
    rw [← Bool.not_eq_true]
    simp only [isBlank, Bool.or_eq_true, Bool.and_eq_true, decide_eq_true_eq, beq_iff_eq]
    omega
  have noQuote : c ≠ '"' := by
    rintro rfl
    exact absurd large (by decide)
  refine ⟨?_, ?_, ?_⟩
  · rw [encode_append, List.length_append, encode_cons, encode_nil, List.append_nil]
    exact congrArg (· + _) counts.bytes
  · rw [lastCut_concat, noBlank]
    exact counts.safe
  · rw [quoted_concat, if_neg noQuote]
    exact counts.inQuote

variable {high low : UInt16}

/-- Counting a unit that is in no pair. -/
theorem Counts.single (counts : Counts text count) (large : 0x80 ≤ unit.toNat) :
    Counts (text ++ [single unit]) (count.add (if 0x800 ≤ unit then 3 else 2)) := by
  have value : 0x80 ≤ (Utf16.single unit).toNat := by
    by_cases surrogate : (isHigh unit || isLow unit) = true
    · rw [single_surrogate surrogate]
      decide
    · rw [Bool.not_eq_true, Bool.or_eq_false_iff] at surrogate
      rw [single_toNat surrogate.1 surrogate.2]
      exact large
  have length : (if 0x800 ≤ unit then 3 else 2) =
      (String.utf8EncodeChar (Utf16.single unit)).length := by
    have wide : 0x800 ≤ unit ↔ ¬unit.toNat < 0x800 := by
      rw [UInt16.le_iff_toNat_le, not_lt]
      rfl
    rw [length_single, if_neg (show ¬unit.toNat < 0x80 by omega)]
    simp only [wide]
    by_cases two : unit.toNat < 0x800
    · rw [if_neg (not_not.mpr two), if_pos two]
    · rw [if_pos two, if_neg two]
  rw [length]
  exact counts.add value

/-- Counting a pair. -/
theorem Counts.pair (counts : Counts text count) (upper : isHigh high = true)
    (lower : isLow low = true) :
    Counts (text ++ [pair high low]) ((count.add (if 0x800 ≤ high then 3 else 2)).add 1) := by
  have range := isHigh_iff.mp upper
  have wide : 0x800 ≤ high := by
    rw [UInt16.le_iff_toNat_le]
    exact le_trans (by decide) range.1
  have value := pair_toNat upper lower
  have added := counts.add (c := Utf16.pair high low) (by omega)
  rw [length_pair upper lower] at added
  rw [if_pos wide]
  exact added

/-- A high surrogate in the last place is not counted. -/
theorem count_dropped (upper : isHigh high = true) :
    { count with bytes := count.bytes + (if 0x800 ≤ high then 3 else 2) - 3 } = count := by
  have range := isHigh_iff.mp upper
  have wide : 0x800 ≤ high := by
    rw [UInt16.le_iff_toNat_le]
    exact le_trans (by decide) range.1
  rw [if_pos wide, Nat.add_sub_cancel]

/-- No unit above ASCII ends a line. -/
theorem endsLine_large (large : 0x80 ≤ unit.toNat) : endsLine unit = false := by
  have notNul : unit ≠ 0 := by
    rintro rfl
    exact absurd large (by decide)
  have notNewline : unit ≠ 10 := by
    rintro rfl
    exact absurd large (by decide)
  simp [endsLine, notNul, notNewline]

variable {m : Memory} {region : Set UInt64} {units rest : List UInt16} {before events : List Event}
  {outcome : Option Counting}

/-- What the loop does that has read a text before some units. -/
structure Counted (region : Set UInt64) (text : List Char) (units : List UInt16)
    (events : List Event) (outcome : Option Counting) : Prop where
  /-- Only the region is read. -/
  looks : Looks region events
  /-- The text that is read is counted, up to its end or the limit. -/
  result : ∃ result read later, outcome = some result ∧
    decode endsLine units = read ++ later ∧ Counts (text ++ read) result ∧
    (later = [] ∨ commandLineSize ≤ result.bytes)

/-- The loop stops where the text ends. -/
theorem Counted.ended (counts : Counts text count) (reads : Looks region events)
    (ends : decode endsLine units = []) : Counted region text units events (some count) := by
  refine ⟨reads, count, [], [], rfl, ends, ?_, .inl rfl⟩
  rwa [List.append_nil]

/-- The loop stops once it has counted too many bytes. -/
theorem Counted.full (counts : Counts text count) (long : commandLineSize ≤ count.bytes) :
    Counted region text units [] (some count) := by
  refine ⟨looks_nil, count, [], _, rfl, (List.nil_append _).symm, ?_, .inr long⟩
  rwa [List.append_nil]

/-- The loop goes on behind a character. -/
theorem Counted.further (reads : Looks region before)
    (first : decode endsLine units = c :: decode endsLine rest)
    (goesOn : Counted region (text ++ [c]) rest events outcome) :
    Counted region text units (before ++ events) outcome := by
  obtain ⟨result, read, later, returned, split, counts, stops⟩ := goesOn.result
  refine ⟨looks_append.mpr ⟨reads, goesOn.looks⟩, result, c :: read, later, returned, ?_, ?_,
    stops⟩
  · rw [first, split, List.cons_append]
  · rwa [List.append_cons]

/-- Reading a unit is one read. -/
theorem readUnit_bind {α : Type} {s2 : UInt64} {next : UInt16 → Stub α} {outcome : Option α} :
    Exec (readUnit m s2 >>= next) events outcome ↔ ∃ rest,
      events = ⟨.reach (.read s2 2), ()⟩ :: rest ∧
        Exec (next (wordAt m s2 2).toUInt16) rest outcome := by
  simp only [readUnit, readWord, reading, perform_bind, call_bind, pure_eq_ret, ret_bind, exec_call]
  constructor
  · rintro ⟨_, rest, rfl, run⟩
    exact ⟨rest, rfl, run⟩
  · rintro ⟨rest, rfl, run⟩
    exact ⟨(), rest, rfl, run⟩

/-- The units behind the first lie behind it. -/
theorem window_next {s2 : UInt64} {chars : Nat} (fits : 2 * (chars + 1) ≤ 2 ^ 64)
    (inside : window s2 (2 * (chars + 1)) ⊆ region) :
    window s2 2 ⊆ region ∧ window (s2 + 2) (2 * chars) ⊆ region := by
  have two : (2 : UInt64).toNat = 2 := rfl
  have first : window s2 2 ⊆ window s2 (2 * (chars + 1)) := window_mono (by omega)
  have others : window (s2 + 2) (2 * chars) ⊆ window s2 (2 * (chars + 1)) :=
    window_subset_of_le (by omega) fits
  exact ⟨first.trans inside, others.trans inside⟩

/-- A turn of the loop has read a character, and the loop goes on behind it. -/
def GoesOn (m : Memory) (region : Set UInt64) (chars : Nat) (s2 : UInt64) (count : Counting)
    (events : List Event) (outcome : Option Counting) : Prop :=
  ∃ c reads left next counted rest, events = reads ++ rest ∧ Looks region reads ∧ left < chars ∧
    window next (2 * left) ⊆ region ∧
    decode endsLine (unitsAt m chars s2) = c :: decode endsLine (unitsAt m left next) ∧
    (∀ text, Counts text count → Counts (text ++ [c]) counted) ∧
    Exec (countLoop m left next counted) rest outcome

/-- A turn of the loop has found the end of the text. -/
def Stops (m : Memory) (region : Set UInt64) (chars : Nat) (s2 : UInt64) (count : Counting)
    (events : List Event) (outcome : Option Counting) : Prop :=
  Looks region events ∧ outcome = some count ∧ decode endsLine (unitsAt m chars s2) = []

variable {s2 : UInt64} {left : Nat}

/-- The turn at a character of one byte. -/
theorem ascii_turn (room : count.bytes < commandLineSize) (small : unit < 0x80)
    (unitEq : (wordAt m s2 2).toUInt16 = unit) (first : window s2 2 ⊆ region)
    (others : window (s2 + 2) (2 * left) ⊆ region)
    (run : Exec (if unit == 0 || unit == 10 then (pure count : Stub Counting)
      else countLoop m left (s2 + 2) (count.ascii unit)) events outcome) :
    Stops m region (left + 1) s2 count (⟨.reach (.read s2 2), ()⟩ :: events) outcome ∨
      GoesOn m region (left + 1) s2 count (⟨.reach (.read s2 2), ()⟩ :: events) outcome := by
  have read : Looks region [⟨.reach (.read s2 2), ()⟩] := by simpa using first
  by_cases ends : (unit == 0 || unit == 10) = true
  · rw [if_pos ends] at run
    obtain ⟨rfl, rfl⟩ := exec_ret.mp run
    left
    refine ⟨read, rfl, ?_⟩
    rw [unitsAt, unitEq]
    exact decode_stop ends
  · rw [if_neg ends] at run
    have bound : unit.toNat < 0x80 := UInt16.lt_iff_toNat_lt.mp small
    have noHigh : ¬isHigh unit = true := by
      rw [isHigh_iff]
      omega
    right
    refine ⟨single unit, _, left, s2 + 2, _, events, rfl, read, by omega, others, ?_,
      fun text counts => counts.ascii room bound, run⟩
    rw [unitsAt, unitEq]
    exact decode_single (by simpa [endsLine] using ends) fun high => absurd high noHigh

/-- The turn at a high surrogate. -/
theorem high_turn (upper : isHigh unit = true) (unitEq : (wordAt m s2 2).toUInt16 = unit)
    (first : window s2 2 ⊆ region) (others : window (s2 + 2) (2 * (left + 1)) ⊆ region)
    (fits : 2 * (left + 1) ≤ 2 ^ 64)
    (run : Exec (readUnit m (s2 + 2) >>= fun low =>
      if isLowSurrogate low then
        countLoop m left (s2 + 4) ((count.add (if 0x800 ≤ unit then 3 else 2)).add 1)
      else countLoop m (left + 1) (s2 + 2) (count.add (if 0x800 ≤ unit then 3 else 2)))
      events outcome) :
    GoesOn m region (left + 2) s2 count (⟨.reach (.read s2 2), ()⟩ :: events) outcome := by
  obtain ⟨rest, rfl, turn⟩ := readUnit_bind.mp run
  obtain ⟨second, behind⟩ := window_next fits others
  have reads : Looks region [⟨.reach (.read s2 2), ()⟩, ⟨.reach (.read (s2 + 2) 2), ()⟩] := by
    simpa using ⟨first, second⟩
  have next : s2 + 2 + 2 = s2 + 4 := by
    rw [UInt64.add_assoc]
    rfl
  have range := isHigh_iff.mp upper
  have large : 0x80 ≤ unit.toNat := by omega
  have units : unitsAt m (left + 2) s2 =
      unit :: (wordAt m (s2 + 2) 2).toUInt16 :: unitsAt m left (s2 + 4) := by
    rw [unitsAt, unitsAt, unitEq, next]
  rw [isLowSurrogate_eq] at turn
  by_cases lower : isLow (wordAt m (s2 + 2) 2).toUInt16 = true
  · rw [if_pos lower] at turn
    rw [next] at behind
    refine ⟨_, _, left, s2 + 4, _, rest, rfl, reads, by omega, behind, ?_,
      fun text counts => counts.pair upper lower, turn⟩
    rw [units]
    exact decode_pair (endsLine_large large) upper lower
  · rw [if_neg lower] at turn
    have noLow : isLow (wordAt m (s2 + 2) 2).toUInt16 = false := by simpa using lower
    refine ⟨single unit, _, left + 1, s2 + 2, _, rest, rfl, reads, by omega, others, ?_,
      fun text counts => counts.single large, turn⟩
    rw [units, unitsAt, next]
    exact decode_single (endsLine_large large) fun _ => ⟨_, _, rfl, noLow⟩

/-- What one turn of the loop does that may count on. -/
theorem countLoop_turn (room : count.bytes < commandLineSize) (fits : 2 * (left + 1) ≤ 2 ^ 64)
    (inside : window s2 (2 * (left + 1)) ⊆ region)
    (run : Exec (countLoop m (left + 1) s2 count) events outcome) :
    Stops m region (left + 1) s2 count events outcome ∨
      GoesOn m region (left + 1) s2 count events outcome := by
  obtain ⟨first, others⟩ := window_next fits inside
  have read : Looks region [⟨.reach (.read s2 2), ()⟩] := by simpa using first
  rw [countLoop, if_pos room] at run
  obtain ⟨rest, rfl, turn⟩ := readUnit_bind.mp run
  clear run
  generalize unitEq : (wordAt m s2 2).toUInt16 = unit at turn
  by_cases small : unit < 0x80
  · rw [if_pos small] at turn
    exact ascii_turn room small unitEq first others turn
  rw [if_neg small, isHighSurrogate_eq] at turn
  have large : 0x80 ≤ unit.toNat := by
    rw [UInt16.lt_iff_toNat_lt] at small
    exact not_lt.mp small
  by_cases upper : isHigh unit = true
  · rw [if_pos upper] at turn
    cases left with
    | zero =>
      obtain ⟨rfl, rfl⟩ := exec_ret.mp turn
      left
      refine ⟨read, ?_, ?_⟩
      · rw [count_dropped upper]
      · rw [unitsAt, unitEq]
        exact decode_last upper
    | succ left => exact .inr (high_turn upper unitEq first others (by omega) turn)
  · rw [if_neg upper] at turn
    right
    refine ⟨single unit, _, left, s2 + 2, _, rest, rfl, read, by omega, others, ?_,
      fun text counts => counts.single large, turn⟩
    rw [unitsAt, unitEq]
    exact decode_single (endsLine_large large) fun high => absurd high upper

/-- The loop counts the text of its units, and reads nothing behind them. -/
theorem countLoop_counted {chars : Nat} (counts : Counts text count) (fits : 2 * chars ≤ 2 ^ 64)
    (inside : window s2 (2 * chars) ⊆ region)
    (run : Exec (countLoop m chars s2 count) events outcome) :
    Counted region text (unitsAt m chars s2) events outcome := by
  induction chars using Nat.strong_induction_on generalizing s2 text count events with
  | h chars ih =>
    cases chars with
    | zero =>
      obtain ⟨rfl, rfl⟩ := exec_ret.mp run
      exact .ended counts looks_nil rfl
    | succ left =>
      by_cases room : count.bytes < commandLineSize
      · cases countLoop_turn room fits inside run with
        | inl stops =>
          obtain ⟨reads, rfl, ends⟩ := stops
          exact .ended counts reads ends
        | inr goesOn =>
          obtain ⟨c, reads, further, next, counted, rest, rfl, looks, fewer, behind, first, adds,
            run⟩ := goesOn
          exact .further looks first (ih further fewer (adds text counts) (by omega) behind run)
      · rw [countLoop, if_neg room] at run
        obtain ⟨rfl, rfl⟩ := exec_ret.mp run
        exact .full counts (not_lt.mp room)

/-- The units of the load options. -/
def optionUnits (m : Memory) (options : UInt64) (optionsSize : UInt32) : List UInt16 :=
  if options != 0 then unitsAt m (optionsSize / 2).toNat options else []

/-- The command line that is kept of the load options. -/
def keptText (m : Memory) (options : UInt64) (optionsSize : UInt32) : List Char :=
  fitting (decode endsLine (optionUnits m options optionsSize))

/-- The number of bytes that the counts choose is that of the text that fits. -/
theorem Counted.bytes {result : Counting} (counted : Counted region [] units events (some result)) :
    (if commandLineSize ≤ result.bytes then result.safe else result.bytes) =
      (encode (fitting (decode endsLine units))).length := by
  obtain ⟨_, read, later, ⟨⟩, split, counts, stops⟩ := counted.result
  rw [List.nil_append] at counts
  have total : (encode (decode endsLine units)).length =
      (encode read).length + (encode later).length := by
    rw [split, encode_append, List.length_append]
  by_cases long : commandLineSize ≤ result.bytes
  · have reached : commandLineSize ≤ (encode read).length := counts.bytes ▸ long
    have tooLong : ¬(encode (decode endsLine units)).length < commandLineSize := by omega
    rw [if_pos long, fitting, if_neg tooLong, split, lastCut_append reached, counts.safe]
  · have all : later = [] := stops.resolve_right long
    rw [all, encode_nil, List.length_nil, Nat.add_zero] at total
    have short : (encode (decode endsLine units)).length < commandLineSize := by
      rw [total, ← counts.bytes]
      omega
    rw [if_neg long, fitting, if_pos short, total, counts.bytes]

variable {options : UInt64} {optionsSize : UInt32}

/-- The pass that counts chooses the bytes of the text that is kept, and reads only whole units of
the options. -/
theorem countOptions_counted {outcome : Option Nat}
    (run : Exec (countOptions m options optionsSize) events outcome) :
    Looks (window options (2 * (optionsSize.toNat / 2))) events ∧
      outcome = some (encode (keptText m options optionsSize)).length := by
  have bound := optionsSize.toNat_lt
  have half : (optionsSize / 2).toNat = optionsSize.toNat / 2 := rfl
  unfold countOptions at run
  rw [keptText, optionUnits]
  by_cases given : (options != 0) = true
  · rw [if_pos given] at run ⊢
    have inside : window options (2 * (optionsSize / 2).toNat) ⊆
        window options (2 * (optionsSize.toNat / 2)) := window_mono (by omega)
    cases exec_bind.mp run with
    | inl counting =>
      obtain ⟨result, first, second, rfl, counting, run⟩ := counting
      have counted := countLoop_counted counts_initial (by omega) inside counting
      rw [← counted.bytes]
      simp only [efiErr, efiPrintk, perform_bind, pure_eq_ret] at run
      by_cases long : commandLineSize ≤ result.bytes
      · rw [if_pos long, exec_call] at run
        obtain ⟨_, _, rfl, stopped⟩ := run
        obtain ⟨rfl, rfl⟩ := exec_ret.mp stopped
        rw [if_pos long]
        exact ⟨by simpa using counted.looks, rfl⟩
      · rw [if_neg long, exec_ret] at run
        obtain ⟨rfl, rfl⟩ := run
        rw [if_neg long]
        exact ⟨by simpa using counted.looks, rfl⟩
    | inr waits =>
      obtain ⟨rfl, waits⟩ := waits
      have counted := countLoop_counted counts_initial (by omega) inside waits
      obtain ⟨_, _, _, ⟨⟩, _⟩ := counted.result
  · rw [if_neg given] at run ⊢
    obtain ⟨rfl, rfl⟩ := exec_ret.mp run
    exact ⟨looks_nil, rfl⟩

/-- A part of a text in front of a space outside quotes, which begins within the limit. -/
structure CutOf (text kept : List Char) : Prop where
  /-- A blank follows what is kept. -/
  splits : ∃ c later, text = kept ++ c :: later ∧ isBlank c = true
  /-- It is outside quotes. -/
  unquoted : quoted kept = false
  /-- What is kept fits. -/
  short : (encode kept).length < commandLineSize

/-- The part of a text that is kept: all of a text within the limit, and otherwise the longest part
that it can be cut to, or nothing when there is no such part. -/
structure Keeps (text kept : List Char) : Prop where
  /-- A text that fits is kept whole. -/
  whole : (encode text).length < commandLineSize → kept = text
  /-- A longer text is cut, or nothing is kept of it. -/
  cut : commandLineSize ≤ (encode text).length → CutOf text kept ∨
    kept = [] ∧ ∀ other, ¬CutOf text other
  /-- No other cut keeps more. -/
  last : commandLineSize ≤ (encode text).length → ∀ other, CutOf text other →
    other.length ≤ kept.length

/-- The cuts of a longer text are those of the text, and the text itself at a blank that may cut. -/
theorem cutOf_concat : CutOf (text ++ [c]) front ↔
    CutOf text front ∨ front = text ∧ isBlank c = true ∧ quoted text = false ∧
      (encode text).length < commandLineSize := by
  constructor
  · rintro ⟨⟨blank, later, split, isBlank⟩, unquoted, short⟩
    cases later using List.reverseRecOn with
    | nil =>
      obtain ⟨rfl, same⟩ := List.append_inj' split rfl
      rw [List.singleton_inj] at same
      exact .inr ⟨rfl, same ▸ isBlank, unquoted, short⟩
    | append_singleton later last =>
      rw [← List.cons_append, ← List.append_assoc] at split
      have inner := (List.append_inj' split rfl).1
      exact .inl ⟨⟨blank, later, inner, isBlank⟩, unquoted, short⟩
  · rintro (⟨⟨blank, later, rfl, isBlank⟩, unquoted, short⟩ | ⟨rfl, blank, unquoted, short⟩)
    · exact ⟨⟨blank, later ++ [c], by simp, isBlank⟩, unquoted, short⟩
    · exact ⟨⟨c, [], rfl, blank⟩, unquoted, short⟩

/-- The last cut is the longest. -/
theorem lastCut_spec (text : List Char) :
    (CutOf text (lastCut text.reverse) ∨
      lastCut text.reverse = [] ∧ ∀ other, ¬CutOf text other) ∧
    ∀ other, CutOf text other → other.length ≤ (lastCut text.reverse).length := by
  induction text using List.reverseRecOn with
  | nil =>
    have none (other : List Char) : ¬CutOf [] other := by
      rintro ⟨⟨c, later, split, -⟩, -, -⟩
      simp at split
    exact ⟨.inr ⟨rfl, none⟩, fun other cut => absurd cut (none other)⟩
  | append_singleton front c ih =>
    rw [lastCut_concat]
    by_cases cut : (isBlank c && !quoted front &&
        decide ((encode front).length < commandLineSize)) = true
    · rw [if_pos cut]
      simp only [Bool.and_eq_true, Bool.not_eq_true', decide_eq_true_eq] at cut
      obtain ⟨⟨blank, unquoted⟩, short⟩ := cut
      refine ⟨.inl (cutOf_concat.mpr (.inr ⟨rfl, blank, unquoted, short⟩)), ?_⟩
      intro other cutOf
      obtain ⟨⟨c', later, split, -⟩, -, -⟩ := cutOf
      have lengths := congrArg List.length split
      simp only [List.length_append, List.length_cons, List.length_nil] at lengths
      omega
    · rw [if_neg cut]
      simp only [Bool.and_eq_true, Bool.not_eq_true', decide_eq_true_eq] at cut
      have earlier (other : List Char) : CutOf (front ++ [c]) other ↔ CutOf front other := by
        rw [cutOf_concat]
        constructor
        · rintro (before | ⟨-, blank, unquoted, short⟩)
          · exact before
          · exact absurd ⟨⟨blank, unquoted⟩, short⟩ cut
        · exact .inl
      simp only [earlier]
      exact ih

/-- The scan keeps the whole of a text that fits, and the longest part that a longer one can be cut
to. -/
theorem keeps_fitting (text : List Char) : Keeps text (fitting text) := by
  by_cases short : (encode text).length < commandLineSize
  · rw [fitting, if_pos short]
    exact ⟨fun _ => rfl, fun long => absurd short (not_lt.mpr long),
      fun long => absurd short (not_lt.mpr long)⟩
  · obtain ⟨cut, last⟩ := lastCut_spec text
    rw [fitting, if_neg short]
    exact ⟨fun fits => absurd fits short, fun _ => cut, fun _ => last⟩

/-- The bytes that are counted are those of a first part of the text, which is the text itself or
ends at a space outside quotes; no unit behind the whole ones of the options is read. -/
theorem countOptions_keeps {outcome : Option Nat}
    (run : Exec (countOptions m options optionsSize) events outcome) :
    Looks (window options (2 * (optionsSize.toNat / 2))) events ∧
      ∃ bytes kept, outcome = some bytes ∧ bytes ≤ commandLineSize - 1 ∧
        bytes = (encode kept).length ∧ Keeps (decode endsLine (optionUnits m options optionsSize)) kept ∧
        encode kept =
          (encode (decode endsLine (optionUnits m options optionsSize))).take bytes := by
  obtain ⟨looks, returned⟩ := countOptions_counted run
  have bound := fitting_length (decode endsLine (optionUnits m options optionsSize))
  refine ⟨looks, _, keptText m options optionsSize, returned, ?_, rfl, keeps_fitting _,
    (take_fitting _).symm⟩
  exact Nat.le_sub_one_of_lt bound

/-- Units that hold one letter. -/
def letterUnits : Memory := fun address => if address = 0x2000 then 0x61 else 0

/-- One letter is counted as one byte. -/
theorem countOptions_keeps_letter :
    Looks (window 0x2000 2) ((countOptions letterUnits 0x2000 3).eventsWith toldFirmware) ∧
      ∃ kept, (encode kept).length = 1 ∧ Keeps ['a'] kept := by
  have run : Exec (countOptions letterUnits 0x2000 3)
      ((countOptions letterUnits 0x2000 3).eventsWith toldFirmware)
      ((countOptions letterUnits 0x2000 3).valueWith toldFirmware) := exec_eventsWith (by decide +kernel)
  have returned : (countOptions letterUnits 0x2000 3).valueWith toldFirmware = some 1 := by
    decide +kernel
  have text : decode endsLine (optionUnits letterUnits 0x2000 3) = ['a'] := by decide +kernel
  rw [returned] at run
  obtain ⟨looks, bytes, kept, same, -, counted, keeps, -⟩ := countOptions_keeps run
  rw [text] at keeps
  rw [Option.some.injEq] at same
  exact ⟨looks, kept, counted ▸ same.symm, keeps⟩

end DragonStub

import DragonStub.Boot.Routines
import DragonStub.Verif.Number
import DragonStub.Verif.OptionText

/-!
# Numbers read back

`simple_strtoull` guesses the base from what stands in front of the digits, and evaluates them from
the highest on. What `number` writes with the prefix of its base is read back as the number.
-/

namespace DragonStub

open ByteMemory Interaction Prog Numeral
open Vsprintf (IsBase PrintfSpec digitByte digitsText flagSign flagSpecial number numberText prefixText)

variable {m : Memory} {region : Set UInt64} {cp : UInt64} {turns b d : Nat} {small : Bool}
  {digits rest : List Nat} {c : UInt8}

/-- A figure or a letter. -/
def alphanumeric (c : UInt8) : Bool := c < 128 && Vsprintf.isAlnum c

/-- A digit is read as it was written. -/
theorem digitByte_read (below : d < 16) :
    isxdigit (digitByte small d) = true ∧ digitValue (digitByte small d) = UInt32.ofNat d := by
  have table : ∀ small, ∀ d < 16, isxdigit (digitByte small d) = true ∧
      digitValue (digitByte small d) = UInt32.ofNat d := by
    decide
  exact table small d below

/-- A figure is no mark of a base, and only that of zero is `'0'`. -/
theorem digitByte_figure (below : d < 10) : toLower (digitByte small d) ≠ 'x'.toUInt8 ∧
    (digitByte small d = '0'.toUInt8 ↔ d = 0) := by
  have table : ∀ small, ∀ d < 10, toLower (digitByte small d) ≠ 'x'.toUInt8 ∧
      (digitByte small d = '0'.toUInt8 ↔ d = 0) := by
    decide
  exact table small d below

/-- What is no figure and no letter is no digit and no mark of a base. -/
theorem not_alphanumeric (other : alphanumeric c = false) :
    isxdigit c = false ∧ toLower c ≠ 'x'.toUInt8 := by
  have table : ∀ n < 256, alphanumeric (UInt8.ofNat n) = false →
      isxdigit (UInt8.ofNat n) = false ∧ toLower (UInt8.ofNat n) ≠ 'x'.toUInt8 := by
    decide +kernel
  have entry := table c.toNat c.toNat_lt
  rw [UInt8.ofNat_toNat] at entry
  exact entry other

/-- Digits that lie in a region with the byte behind them, which is no figure and no letter. -/
structure DigitsIn (m : Memory) (region : Set UInt64) (cp : UInt64) (small : Bool)
    (digits : List Nat) : Prop where
  /-- The digits are there. -/
  held : Holds m cp (digits.map (digitByte small))
  /-- They fit in the address space. -/
  fits : digits.length + 1 ≤ 2 ^ 64
  /-- They and the byte behind them lie in the region. -/
  inside : window cp (digits.length + 1) ⊆ region
  /-- The byte behind them is no digit of any base. -/
  stops : alphanumeric (m (cp + UInt64.ofNat digits.length)) = false

/-- The first byte of some digits lies in the region. -/
theorem DigitsIn.mem (digitsIn : DigitsIn m region cp small digits) : cp ∈ region :=
  mem_of_window digitsIn.inside

/-- Behind the last digit stands no digit of any base. -/
theorem DigitsIn.ends (digitsIn : DigitsIn m region cp small []) : alphanumeric (m cp) = false := by
  have start : cp + UInt64.ofNat 0 = cp := UInt64.add_zero cp
  have stops := digitsIn.stops
  rwa [List.length_nil, start] at stops

/-- The first byte is that of the first digit. -/
theorem DigitsIn.first (digitsIn : DigitsIn m region cp small (d :: rest)) :
    m cp = digitByte small d := digitsIn.held.1

/-- The digits behind the first one are digits. -/
theorem DigitsIn.tail (digitsIn : DigitsIn m region cp small (d :: rest)) :
    DigitsIn m region (cp + 1) small rest := by
  obtain ⟨held, fits, inside, stops⟩ := digitsIn
  rw [List.length_cons] at fits inside stops
  rw [add_succ] at stops
  exact ⟨held.2, by omega, window_tail fits inside, stops⟩

/-- The loop evaluates digits by Horner's rule, modulo what a word holds. -/
theorem strtoullLoop_yields (digitsIn : DigitsIn m region cp small digits)
    (below : ∀ d ∈ digits, d < b) (few : b ≤ 16) (enough : digits.length < turns) (value : Nat) :
    Yields (Call.accesses region)
      (strtoullLoop m (UInt32.ofNat b) turns cp (UInt64.ofNat value))
      (UInt64.ofNat (horner b digits value), cp + UInt64.ofNat digits.length) := by
  induction turns generalizing cp digits value with
  | zero => omega
  | succ turns ih =>
    rw [strtoullLoop]
    apply yields_read digitsIn.mem
    cases digits with
    | nil =>
      have start : cp + UInt64.ofNat 0 = cp := UInt64.add_zero cp
      rw [(not_alphanumeric digitsIn.ends).1, if_neg (by decide), List.length_nil, start, horner_nil]
      exact yields_ret
    | cons d rest =>
      have low : d < b := below d List.mem_cons_self
      obtain ⟨isDigit, valued⟩ : isxdigit (digitByte small d) = true ∧ _ :=
        digitByte_read (by omega)
      have digit : ¬UInt32.ofNat b ≤ UInt32.ofNat d := by
        rw [UInt32.le_iff_toNat_le, UInt32.toNat_ofNat', UInt32.toNat_ofNat']
        omega
      rw [digitsIn.first, isDigit, if_pos rfl, valued]
      dsimp only
      rw [if_neg digit, Word.toUInt64_ofNat (by omega), Word.toUInt64_ofNat (by omega), ← UInt64.ofNat_mul,
        ← UInt64.ofNat_add, horner_cons, List.length_cons, add_succ]
      exact ih digitsIn.tail (fun d member => below d (List.mem_cons_of_mem _ member))
        (by simpa using enough) _

/-- Digits below ten do not begin with the mark of a base, even if there are none. -/
theorem DigitsIn.no_mark (digitsIn : DigitsIn m region cp small digits)
    (below : ∀ d ∈ digits, d < 10) : toLower (m cp) ≠ 'x'.toUInt8 := by
  cases digits with
  | nil => exact (not_alphanumeric digitsIn.ends).2
  | cons d rest =>
    rw [digitsIn.first]
    exact (digitByte_figure (below d List.mem_cons_self)).1

/-- A leading zero makes digits octal. -/
theorem guess_octal (digitsIn : DigitsIn m region cp small (0 :: rest))
    (below : ∀ d ∈ rest, d < 10) : Yields (Call.accesses region) (simpleGuessBase m cp) 8 := by
  have zero : m cp = '0'.toUInt8 := digitsIn.first
  have behind := digitsIn.tail
  rw [simpleGuessBase]
  apply yields_read digitsIn.mem
  rw [zero, if_pos (by decide)]
  apply yields_read behind.mem
  rw [if_neg (by simpa using behind.no_mark below)]
  exact yields_ret

/-- Digits without one are decimal. -/
theorem guess_decimal (digitsIn : DigitsIn m region cp small (d :: rest)) (some : d ≠ 0)
    (figure : d < 10) : Yields (Call.accesses region) (simpleGuessBase m cp) 10 := by
  have first : m cp ≠ '0'.toUInt8 := by
    rw [digitsIn.first]
    exact fun zero => some ((digitByte_figure figure).2.mp zero)
  rw [simpleGuessBase]
  apply yields_read digitsIn.mem
  rw [if_neg (by simpa using first)]
  exact yields_ret

/-- Behind the mark of the base they are hexadecimal. -/
theorem guess_hexadecimal (zero : m cp = '0'.toUInt8) (here : cp ∈ region)
    (mark : toLower (m (cp + 1)) = 'x'.toUInt8) (next : cp + 1 ∈ region)
    (digitsIn : DigitsIn m region (cp + 2) small (d :: rest)) (low : d < 16) :
    Yields (Call.accesses region) (simpleGuessBase m cp) 16 ∧
      Yields (Call.accesses region) (skipBase m 16 cp) (cp + 2) := by
  have digit : isxdigit (m (cp + 2)) = true := by
    rw [digitsIn.first]
    exact (digitByte_read low).1
  constructor
  · rw [simpleGuessBase]
    apply yields_read here
    rw [zero, if_pos (by decide)]
    apply yields_read next
    rw [mark, if_pos (by decide)]
    apply yields_read digitsIn.mem
    rw [digit]
    exact yields_ret
  · rw [skipBase, if_pos (by decide)]
    apply yields_read here
    rw [zero, if_pos (by decide)]
    apply yields_read next
    rw [mark, if_pos (by decide)]
    exact yields_ret

/-- The ways to write a number so that its base can be guessed, from its highest digit on. -/
inductive Literal : List UInt8 → Nat → Prop where
  /-- A zero, and octal digits. -/
  | octal {small : Bool} {rest : List Nat} (below : ∀ d ∈ rest, d < 8) :
      Literal ((0 :: rest).map (digitByte small)) (horner 8 (0 :: rest) 0)
  /-- Decimal digits that do not begin with zero. -/
  | decimal {small : Bool} {d : Nat} {rest : List Nat} (some : d ≠ 0)
      (below : ∀ digit ∈ d :: rest, digit < 10) :
      Literal ((d :: rest).map (digitByte small)) (horner 10 (d :: rest) 0)
  /-- A zero, the mark of the base, and hexadecimal digits. -/
  | hexadecimal {small : Bool} {mark : UInt8} {d : Nat} {rest : List Nat}
      (marks : toLower mark = 'x'.toUInt8) (below : ∀ digit ∈ d :: rest, digit < 16) :
      Literal ('0'.toUInt8 :: mark :: (d :: rest).map (digitByte small)) (horner 16 (d :: rest) 0)

variable {text : List UInt8} {value : Nat}

/-- A literal is evaluated, and its end is found. -/
theorem Literal.yields (literal : Literal text value) (held : Holds m cp text)
    (fits : text.length + 1 ≤ 2 ^ 64) (inside : window cp (text.length + 1) ⊆ region)
    (stops : alphanumeric (m (cp + UInt64.ofNat text.length)) = false)
    (enough : text.length < turns) :
    Yields (Call.accesses region) (simpleStrtoull m turns cp 0)
      (UInt64.ofNat value, cp + UInt64.ofNat text.length) := by
  cases literal with
  | @octal small rest below =>
    rw [List.length_map] at fits inside stops enough ⊢
    have digitsIn : DigitsIn m region cp small (0 :: rest) := ⟨held, fits, inside, stops⟩
    have guess := guess_octal digitsIn fun d member => Nat.lt_trans (below d member) (by decide)
    have octal : ∀ digit ∈ 0 :: rest, digit < 8 := List.forall_mem_cons.mpr ⟨by decide, below⟩
    exact guess.bind (strtoullLoop_yields digitsIn octal (by decide) enough 0)
  | @decimal small d rest some below =>
    rw [List.length_map] at fits inside stops enough ⊢
    have digitsIn : DigitsIn m region cp small (d :: rest) := ⟨held, fits, inside, stops⟩
    have guess := guess_decimal digitsIn some (below d List.mem_cons_self)
    exact guess.bind (strtoullLoop_yields digitsIn below (by decide) enough 0)
  | @hexadecimal small mark d rest marks below =>
    obtain ⟨zero, second, held⟩ := held
    rw [List.length_cons, List.length_cons, List.length_map] at fits inside stops enough ⊢
    have two : cp + 1 + 1 = cp + 2 := by
      rw [UInt64.add_assoc]
      rfl
    have tail := window_tail fits inside
    have behind := window_tail (by omega) tail
    rw [add_succ, add_succ, two] at stops
    rw [add_succ, add_succ]
    rw [two] at held behind
    have digitsIn : DigitsIn m region (cp + 2) small (d :: rest) := ⟨held, by omega, behind, stops⟩
    obtain ⟨guess, skip⟩ := guess_hexadecimal zero (mem_of_window inside) (second.symm ▸ marks)
      (mem_of_window tail) digitsIn (below d List.mem_cons_self)
    rw [two]
    exact guess.bind (skip.bind (strtoullLoop_yields digitsIn below (by decide) (by omega) 0))

variable {n : UInt64} {spec : PrintfSpec}

/-- Without a width, a precision and a sign a number is its prefix and its digits. -/
theorem numberText_plain (n : UInt64) (unsigned : spec.has flagSign = false)
    (width : spec.fieldWidth ≤ 0) (precision : spec.precision ≤ 0) :
    numberText n spec = prefixText n spec ++ (numeral spec.base.toNat n.toNat).reverse.map
      (digitByte (spec.has Vsprintf.flagSmall)) := by
  have sign : Vsprintf.signText n spec = [] := by
    rw [Vsprintf.signText, unsigned]
    rfl
  have value : Vsprintf.magnitude n spec = n.toNat := by
    rw [Vsprintf.magnitude, unsigned]
    rfl
  have narrow : (spec.fieldWidth - Vsprintf.bareWidth n spec).toNat = 0 := by
    rw [Vsprintf.bareWidth]
    omega
  have short : (spec.precision - (digitsText n spec).length).toNat = 0 := by omega
  rw [numberText, sign, narrow, short, digitsText, value, List.map_reverse]
  simp

/-- With the prefix of its base a number is a literal. -/
theorem numberText_literal (n : UInt64) (known : IsBase spec.base)
    (special : spec.has flagSpecial = true) (unsigned : spec.has flagSign = false)
    (width : spec.fieldWidth ≤ 0) (precision : spec.precision ≤ 0) :
    Literal (numberText n spec) n.toNat := by
  generalize letters : spec.has Vsprintf.flagSmall = small
  have zeroByte : digitByte small 0 = '0'.toUInt8 := (digitByte_figure (by decide)).2.mpr rfl
  have zeroText : Literal ([0].map (digitByte small)) 0 := .octal (List.forall_mem_nil _)
  have below (b : Nat) (base : 1 < b) : ∀ d ∈ (numeral b n.toNat).reverse, d < b :=
    fun d member => numeral_digit_lt base (List.mem_reverse.mp member)
  have highest (b : Nat) : ∃ d rest, (numeral b n.toNat).reverse = d :: rest :=
    List.exists_cons_of_ne_nil (mt List.reverse_eq_nil_iff.mp (numeral_ne_nil b n.toNat))
  rw [numberText_plain n unsigned width precision, prefixText, letters, special]
  rcases known with octal | decimal | hexadecimal
  · rw [octal]
    by_cases zero : n = 0
    · subst zero
      exact zeroText
    · have literal : Literal ((0 :: (numeral 8 n.toNat).reverse).map (digitByte small)) _ :=
        .octal (below 8 (by decide))
      rw [horner_cons, horner_numeral, List.map_cons, zeroByte] at literal
      simpa [zero] using literal
  · rw [decimal]
    by_cases zero : n = 0
    · subst zero
      exact zeroText
    · obtain ⟨d, rest, shape⟩ := highest 10
      have some : n.toNat ≠ 0 := fun none => zero (UInt64.toNat_inj.mp none)
      have literal : Literal ((d :: rest).map (digitByte small)) _ :=
        .decimal (numeral_head_ne_zero some shape) (shape ▸ below 10 (by decide))
      rw [← shape, horner_numeral] at literal
      exact literal
  · obtain ⟨d, rest, shape⟩ := highest 16
    have marks : toLower (if small then 'x' else 'X').toUInt8 = 'x'.toUInt8 := by
      cases small <;> decide
    have literal : Literal (_ :: _ :: (d :: rest).map (digitByte small)) _ :=
      .hexadecimal marks (shape ▸ below 16 (by decide))
    rw [← shape, horner_numeral] at literal
    simpa [hexadecimal] using literal

/-- A text that a sink has room for is held by every memory that agrees with the sink there. -/
theorem holds_puts {finish : Nat} {out : BoundedOutput.Sink} (text : List UInt8)
    (room : out.position + text.length ≤ finish) (object : out.position + text.length < 2 ^ 64)
    (same : ∀ x : UInt64, out.position ≤ x.toNat → x.toNat < out.position + text.length →
      m x = (BoundedOutput.puts finish text out).memory x.toNat) :
    Holds m (UInt64.ofNat out.position) text := by
  rw [holds_iff]
  intro index inside
  have place : (UInt64.ofNat out.position + UInt64.ofNat index).toNat = out.position + index := by
    rw [← UInt64.ofNat_add, UInt64.toNat_ofNat', Nat.mod_eq_of_lt (by omega)]
  rw [same _ (by omega) (by omega), place, BoundedOutput.puts_memory, if_pos (by omega),
    Nat.add_sub_cancel_left, List.getD_eq_getElem _ _ inside]

/-- The text that `number` writes with the prefix of its base, and without a width, a precision and a
sign, is read back as the number, and its end is found, when no figure and no letter follows it. -/
theorem simpleStrtoull_number {finish : Nat} {out done : BoundedOutput.Sink}
    {events : List Event} {outcome : Option (UInt64 × UInt64)} (known : IsBase spec.base)
    (special : spec.has flagSpecial = true) (unsigned : spec.has flagSign = false)
    (width : spec.fieldWidth ≤ 0) (precision : spec.precision ≤ 0)
    (writes : number finish n spec out = done) (room : done.position ≤ finish)
    (object : done.position < 2 ^ 64)
    (same : ∀ x : UInt64, out.position ≤ x.toNat → x.toNat < done.position →
      m x = done.memory x.toNat)
    (stops : alphanumeric (m (UInt64.ofNat done.position)) = false)
    (enough : done.position - out.position < turns)
    (run : Exec (simpleStrtoull m turns (UInt64.ofNat out.position) 0) events outcome) :
    outcome = some (n, UInt64.ofNat done.position) := by
  have literal := numberText_literal n known special unsigned width precision
  rw [Vsprintf.number_puts known] at writes
  subst writes
  rw [BoundedOutput.puts_position] at room object same stops enough ⊢
  have held := holds_puts (numberText n spec) room object same
  have short : (numberText n spec).length < turns := by omega
  rw [UInt64.ofNat_add] at stops ⊢
  have yields := literal.yields held (by omega) subset_rfl stops short
  rw [UInt64.ofNat_toNat] at yields
  exact (yields _ _ run).1

/-- Small hexadecimal digits behind their prefix. -/
def hexadecimalSpec : PrintfSpec := ⟨.longLong, -1, flagSpecial ||| Vsprintf.flagSmall, 16, -1⟩

/-- What the largest number leaves of a buffer of zeros. -/
def largestNumber : BoundedOutput.Sink :=
  number 0x2000 0xffffffffffffffff hexadecimalSpec ⟨0x1000, fun _ => 0⟩

/-- The buffer as memory. -/
def largestMemory : Memory := fun x => largestNumber.memory x.toNat

/-- The largest number is read back from its buffer. -/
theorem simpleStrtoull_number_largest :
    (simpleStrtoull largestMemory 40 0x1000 0).valueWith toldFirmware =
      some (0xffffffffffffffff, 0x1012) := by
  have position : largestNumber.position = 0x1012 := by decide +kernel
  have run : Exec (simpleStrtoull largestMemory 40 0x1000 0)
      ((simpleStrtoull largestMemory 40 0x1000 0).eventsWith toldFirmware)
      ((simpleStrtoull largestMemory 40 0x1000 0).valueWith toldFirmware) :=
    exec_eventsWith (by decide +kernel)
  have read := simpleStrtoull_number (n := 0xffffffffffffffff) (.inr (.inr rfl)) (by decide)
    (by decide) (by decide) (by decide) (rfl : _ = largestNumber) (by decide +kernel)
    (by decide +kernel) (fun _ _ _ => rfl) (by decide +kernel) (by decide +kernel) run
  rw [position] at read
  exact read

end DragonStub

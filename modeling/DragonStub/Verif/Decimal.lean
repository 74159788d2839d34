import DragonStub.Base.CString
import DragonStub.Boot.Decimal
import DragonStub.Verif.Number

/-!
# Decimal digits in a buffer

`put_dec` stores the decimal numeral from the units on, and at most one byte behind it. Every value
that it divides by a hundred is small enough for the reciprocal it multiplies by.
-/

namespace DragonStub.Vsprintf

open ByteMemory Numeral

/-- A step is right: a product fits in its type and its reciprocal divides by a hundred, so that the
remainder is below a hundred and fits too; a pair is in the table and is stored in the region. -/
def PutStep.Right (region : Set UInt64) : PutStep → Prop
  | .wide r q => r.toNat * 0x28f5c29 < 2 ^ 64 ∧ q.toNat = r.toNat / 100 ∧ 100 * q.toNat ≤ r.toNat
  | .narrow r q => r.toNat * 0x147b < 2 ^ 32 ∧ q.toNat = r.toNat / 100 ∧ 100 * q.toNat ≤ r.toNat
  | .pair buf x => x < 100 ∧ window buf 2 ⊆ region

/-- A step that is right in a region is right in a larger one. -/
theorem PutStep.Right.mono {step : PutStep} {region larger : Set UInt64}
    (right : step.Right region) (inside : region ⊆ larger) : step.Right larger := by
  cases step with
  | wide | narrow => exact right
  | pair => exact ⟨right.1, right.2.trans inside⟩

/-- From one state of the buffer to another a text is put into it, and no more than so many bytes
behind it are touched. -/
structure Puts (s t : Scratch) (text : List UInt8) (beyond : Nat) : Prop where
  /-- The cursor moves by the text. -/
  buf : t.buf = s.buf + UInt64.ofNat text.length
  /-- The text stands where the cursor was. -/
  held : Holds t.memory s.buf text
  /-- No byte further on changes. -/
  kept : ∀ x ∉ window s.buf (text.length + beyond), t.memory x = s.memory x
  /-- Every step is right and touches these bytes alone. -/
  steps : ∃ taken, t.steps = s.steps ++ taken ∧
    ∀ step ∈ taken, step.Right (window s.buf (text.length + beyond))

variable {s t u : Scratch} {text later : List UInt8} {beyond : Nat} {x r : UInt32}

/-- One text is put behind the other. -/
theorem Puts.append (first : Puts s t text 0) (second : Puts t u later beyond)
    (short : text.length + later.length + beyond ≤ 2 ^ 64) : Puts s u (text ++ later) beyond := by
  have places : window t.buf (later.length + beyond) ⊆
      window s.buf ((text ++ later).length + beyond) := by
    have front : text.length ≤ text.length + later.length + beyond := by omega
    have behind := window_behind short (subset_rfl : window s.buf _ ⊆ _) front
    rwa [Nat.add_assoc, Nat.add_sub_cancel_left, ← first.buf, ← Nat.add_assoc,
      ← List.length_append] at behind
  have front : window s.buf (text.length + 0) ⊆ window s.buf ((text ++ later).length + beyond) := by
    apply window_mono
    rw [List.length_append]
    omega
  refine ⟨?_, ?_, fun x outside => ?_, ?_⟩
  · rw [second.buf, first.buf, add_offsets, List.length_append]
  · rw [holds_append, ← first.buf]
    refine ⟨first.held.congr (by omega) fun x inside => second.kept x fun hit => ?_, second.held⟩
    have distance := toNat_sub_add s.buf x (UInt64.ofNat text.length)
    rw [first.buf, mem_window] at hit
    rw [mem_window, distance, UInt64.toNat_ofNat'] at inside
    omega
  · rw [second.kept x fun hit => outside (places hit), first.kept x fun hit => outside (front hit)]
  · obtain ⟨before, same, sound⟩ := first.steps
    obtain ⟨after, rest, soundLater⟩ := second.steps
    refine ⟨before ++ after, by rw [rest, same, List.append_assoc], fun step member => ?_⟩
    rcases List.mem_append.mp member with member | member
    · exact (sound step member).mono front
    · exact (soundLater step member).mono places

/-- A text may be said to touch more behind it. -/
theorem Puts.mono {more : Nat} (puts : Puts s t text beyond) (order : beyond ≤ more) :
    Puts s t text more := by
  have inside : window s.buf (text.length + beyond) ⊆ window s.buf (text.length + more) :=
    window_mono (by omega)
  obtain ⟨taken, same, right⟩ := puts.steps
  exact ⟨puts.buf, puts.held, fun x outside => puts.kept x fun hit => outside (inside hit), taken,
    same, fun step member => (right step member).mono inside⟩

/-- The table holds the units, then the tens. -/
theorem pairWord_bytes (below : x < 100) :
    [UInt8.ofNat (pairWord x).toNat, UInt8.ofNat ((pairWord x).toNat / 256)] = decpair x := by
  have table : ∀ n < 100, [UInt8.ofNat (pairWord (UInt32.ofNat n)).toNat,
      UInt8.ofNat ((pairWord (UInt32.ofNat n)).toNat / 256)] = decpair (UInt32.ofNat n) := by
    decide +kernel
  have entry := table x.toNat (UInt32.lt_iff_toNat_lt.mp below)
  rwa [UInt32.ofNat_toNat] at entry

/-- A pair is stored, and as much of it is kept as the buffer moves on. -/
theorem putPair_puts {kept : Nat} (below : x < 100) (some : kept ≤ 2) :
    Puts s (s.putPair x (UInt64.ofNat kept)) ((decpair x).take kept) (2 - kept) := by
  have length : ((decpair x).take kept).length = kept := by
    rw [List.length_take]
    exact Nat.min_eq_left some
  have both : kept + (2 - kept) = 2 := by omega
  have held : Holds (s.putPair x (UInt64.ofNat kept)).memory s.buf (decpair x) := by
    have next : s.buf ≠ s.buf + 1 := by simp
    rw [← pairWord_bytes below]
    refine ⟨?_, ?_, trivial⟩
    · exact (store_other _ _ next).trans (store_same ..)
    · exact store_same ..
  rw [← List.take_append_drop kept (decpair x), holds_append] at held
  refine ⟨by rw [length]; rfl, held.1, fun x outside => ?_, [.pair s.buf x], rfl, fun step only => ?_⟩
  · rw [length, both] at outside
    exact writeLe_outside _ _ _ (by decide) outside
  · obtain rfl := List.mem_singleton.mp only
    rw [length, both]
    exact ⟨below, subset_rfl⟩

/-- Both digits of a pair are put. -/
theorem putPair_two (below : x < 100) : Puts s (s.putPair x 2) (decpair x) 0 :=
  putPair_puts below le_rfl

/-- The last pair may have one digit, and one byte too many. -/
theorem putDecLast_puts (below : r < 100) : Puts s (s.putDecLast r) (putDecLast r) 1 := by
  unfold Scratch.putDecLast putDecLast
  by_cases single : r < 10
  · rw [if_pos single, if_pos single]
    exact putPair_puts below (by decide)
  · rw [if_neg single, if_neg single]
    exact (putPair_two below).mono (Nat.zero_le _)

/-- A step that stores nothing. -/
theorem puts_step {step : PutStep} (right : step.Right ∅) :
    Puts s { s with steps := s.steps ++ [step] } [] 0 := by
  refine ⟨(UInt64.add_zero s.buf).symm, trivial, fun _ _ => rfl, [step], rfl, fun _ only => ?_⟩
  obtain rfl := List.mem_singleton.mp only
  exact right.mono (Set.empty_subset _)

/-- What is left of a number without its hundreds is in the table. -/
theorem rest_lt {q : UInt32} (hundreds : q.toNat = r.toNat / 100) : r - 100 * q < 100 := by
  have rest := sub_hundreds hundreds
  have below : r.toNat % 100 < 100 := Nat.mod_lt _ (by decide)
  rw [UInt32.lt_iff_toNat_lt, rest]
  exact below

/-- What the small reciprocal leaves is in the table. -/
theorem smallHundredth_lt (below : r.toNat < 10 ^ 4) : (r * 0x147b) >>> 19 < 100 := by
  have hundreds := smallHundredth_toNat below
  rw [UInt32.lt_iff_toNat_lt, hundreds]
  exact Nat.div_lt_of_lt_mul below

/-- A pair has two digits. -/
theorem decpair_length (x : UInt32) : (decpair x).length = 2 := rfl

/-- A pair fits in front of the end. -/
theorem pair_fits (x : UInt32) : ([] : List UInt8).length + (decpair x).length + 0 ≤ 2 ^ 64 := by
  rw [decpair_length]
  decide

/-- A number of eight digits is divided by a hundred, and its last two digits are stored. -/
theorem wide_puts (below : r.toNat < 10 ^ 8) :
    Puts s ((s.wide r).2.putPair (r - 100 * hundredth r) 2) (decpair (r - 100 * hundredth r)) 0 := by
  have hundreds := hundredth_toNat below
  have divides : Puts s (s.wide r).2 [] 0 := puts_step ⟨by omega, hundreds, by omega⟩
  exact divides.append (putPair_two (rest_lt hundreds)) (pair_fits _)

/-- The same for one of four digits. -/
theorem narrow_puts {q : UInt32} (below : r.toNat < 10 ^ 4) (small : (r * 0x147b) >>> 19 = q) :
    Puts s ((s.narrow r).2.putPair (r - 100 * q) 2) (decpair (r - 100 * q)) 0 := by
  have hundreds := smallHundredth_toNat below
  have divides : Puts s (s.narrow r).2 [] 0 := puts_step ⟨by omega, hundreds, by omega⟩
  exact divides.append (putPair_two (rest_lt (small ▸ hundreds))) (pair_fits _)

/-- The last pair has at most two digits. -/
theorem putDecLast_length (r : UInt32) : (putDecLast r).length ≤ 2 := List.length_take_le' _ _

/-- The stores of `put_dec_trunc8`, one state after the other. -/
theorem putDecTrunc8_stores (s : Scratch) (r : UInt32) : s.putDecTrunc8 r =
    if r < 100 then s.putDecLast r
    else
      let t := (s.wide r).2.putPair (r - 100 * hundredth r) 2
      let q := hundredth r
      if q < 100 then t.putDecLast q
      else
        let u := (t.wide q).2.putPair (q - 100 * hundredth q) 2
        let r := hundredth q
        if r < 100 then u.putDecLast r
        else
          let q : UInt32 := (r * 0x147b) >>> 19
          ((u.narrow r).2.putPair (r - 100 * q) 2).putDecLast q := rfl

/-- A pair leaves room for some text behind it. -/
theorem pair_room (x : UInt32) (short : later.length ≤ 40) (near : beyond ≤ 1) :
    (decpair x).length + later.length + beyond ≤ 2 ^ 64 := by
  rw [decpair_length]
  omega

/-- The leading digits below eight are put without leading zeros. -/
theorem putDecTrunc8_puts (below : r.toNat < 10 ^ 8) :
    Puts s (s.putDecTrunc8 r) (putDecTrunc8 r) 1 := by
  have hundreds := hundredth_toNat below
  have ends (q : UInt32) : (putDecLast q).length ≤ 40 := (putDecLast_length q).trans (by decide)
  have pairs (p q : UInt32) : (decpair p ++ putDecLast q).length ≤ 4 := by
    have length := putDecLast_length q
    rw [List.length_append, decpair_length]
    omega
  rw [putDecTrunc8_stores]
  unfold putDecTrunc8
  dsimp only
  by_cases two : r < 100
  · rw [if_pos two, if_pos two]
    exact putDecLast_puts two
  rw [if_neg two, if_neg two]
  have first := wide_puts (s := s) below
  generalize (s.wide r).2.putPair (r - 100 * hundredth r) 2 = t at first ⊢
  generalize hundredth r = q at hundreds first ⊢
  by_cases four : q < 100
  · rw [if_pos four, if_pos four]
    exact first.append (putDecLast_puts four) (pair_room _ (ends _) le_rfl)
  rw [if_neg four, if_neg four]
  have second := wide_puts (s := t) (r := q) (by omega)
  have thousands := hundredth_toNat (r := q) (by omega)
  generalize (t.wide q).2.putPair (q - 100 * hundredth q) 2 = u at second ⊢
  generalize hundredth q = p at thousands second ⊢
  by_cases six : p < 100
  · rw [if_pos six, if_pos six]
    have rest := second.append (putDecLast_puts six) (pair_room _ (ends _) le_rfl)
    exact first.append rest (pair_room _ ((pairs _ _).trans (by decide)) le_rfl)
  rw [if_neg six, if_neg six]
  have third := narrow_puts (s := u) (r := p) (by omega) rfl
  have last := smallHundredth_lt (r := p) (by omega)
  generalize (p * 0x147b) >>> 19 = o at third last ⊢
  have rest := third.append (putDecLast_puts last) (pair_room _ (ends _) le_rfl)
  have more := second.append rest (pair_room _ ((pairs _ _).trans (by decide)) le_rfl)
  refine first.append more (pair_room _ ?_ le_rfl)
  have length := pairs (p - 100 * o) o
  rw [List.length_append, decpair_length]
  omega

/-- The stores of `put_dec_full8`, one state after the other. -/
theorem putDecFull8_stores (s : Scratch) (r : UInt32) : s.putDecFull8 r =
    let t := (s.wide r).2.putPair (r - 100 * hundredth r) 2
    let q := hundredth r
    let u := (t.wide q).2.putPair (q - 100 * hundredth q) 2
    let r := hundredth q
    let q : UInt32 := (r * 0x147b) >>> 19
    ((u.narrow r).2.putPair (r - 100 * q) 2).putPair q 2 := rfl

/-- A full group has eight digits. -/
theorem putDecFull8_length (r : UInt32) : (putDecFull8 r).length = 8 := rfl

/-- A full group of eight digits is put. -/
theorem putDecFull8_puts (below : r.toNat < 10 ^ 8) :
    Puts s (s.putDecFull8 r) (putDecFull8 r) 0 := by
  have hundreds := hundredth_toNat below
  rw [putDecFull8_stores]
  unfold putDecFull8
  dsimp only
  rw [List.append_assoc, List.append_assoc]
  have first := wide_puts (s := s) below
  generalize (s.wide r).2.putPair (r - 100 * hundredth r) 2 = t at first ⊢
  generalize hundredth r = q at hundreds first ⊢
  have second := wide_puts (s := t) (r := q) (by omega)
  have thousands := hundredth_toNat (r := q) (by omega)
  generalize (t.wide q).2.putPair (q - 100 * hundredth q) 2 = u at second ⊢
  generalize hundredth q = p at thousands second ⊢
  have third := narrow_puts (s := u) (r := p) (by omega) rfl
  have last := smallHundredth_lt (r := p) (by omega)
  generalize (p * 0x147b) >>> 19 = o at third last ⊢
  have rest := third.append (putPair_two last) (by simp [decpair_length])
  exact first.append (second.append rest (by simp [decpair_length])) (by simp [decpair_length])

/-- A value of more than eight digits puts its lowest eight. -/
theorem putDecLow_of_le {n : UInt64} (large : 100000000 ≤ n) :
    s.putDecLow n = (n / 100000000, s.putDecFull8 (n % 100000000).toUInt32) := if_pos large

/-- A shorter value puts nothing ahead of its leading digits. -/
theorem putDecLow_of_lt {n : UInt64} (small : ¬100000000 ≤ n) : s.putDecLow n = (n, s) :=
  if_neg small

/-- The leading digits of a group are at most eight. -/
theorem putDecTrunc8_length (below : r.toNat < 10 ^ 8) : (putDecTrunc8 r).length ≤ 8 := by
  have numbered : putDecTrunc8 r = (numeral 10 r.toNat).map (digitByte true) :=
    putDecTrunc8_eq below
  rw [numbered, List.length_map]
  exact numeral_length (by decide) (by decide) below

/-- `put_dec` puts its digits, and at most one byte behind them. -/
theorem putDec_puts (s : Scratch) (n : UInt64) : Puts s (s.putDec n) (putDec n) 1 := by
  have unit : (100000000 : UInt64).toNat = 10 ^ 8 := rfl
  have word := n.toNat_lt
  have low (m : UInt64) : (m % 100000000).toUInt32.toNat < 10 ^ 8 := by
    rw [UInt64.toNat_toUInt32, UInt64.toNat_mod, unit]
    omega
  have high (m : UInt64) : (m / 100000000).toNat = m.toNat / 10 ^ 8 := by
    rw [UInt64.toNat_div, unit]
  have short (m : UInt64) (below : m.toNat < 10 ^ 8) : m.toUInt32.toNat < 10 ^ 8 := by
    rw [UInt64.toNat_toUInt32]
    omega
  unfold Scratch.putDec putDec
  by_cases large : 100000000 ≤ n
  · rw [if_pos large, putDecLow_of_le large]
    dsimp only
    have first := putDecFull8_puts (s := s) (low n)
    by_cases larger : 100000000 ≤ n / 100000000
    · have last : (n / 100000000 / 100000000).toNat < 10 ^ 8 := by
        rw [high, high]
        omega
      have length := putDecTrunc8_length (short _ last)
      rw [if_pos larger, putDecLow_of_le larger, List.append_assoc]
      have second := putDecFull8_puts (s := s.putDecFull8 (n % 100000000).toUInt32)
        (low (n / 100000000))
      refine first.append (second.append (putDecTrunc8_puts (short _ last)) ?_) ?_
      · rw [putDecFull8_length]
        omega
      · rw [List.length_append, putDecFull8_length, putDecFull8_length]
        omega
    · have last : (n / 100000000).toNat < 10 ^ 8 := Nat.lt_of_not_le larger
      have length := putDecTrunc8_length (short _ last)
      rw [if_neg larger, putDecLow_of_lt larger]
      apply first.append (putDecTrunc8_puts (short _ last))
      rw [putDecFull8_length]
      omega
  · rw [if_neg large, putDecLow_of_lt large]
    dsimp only
    rw [putDecLow_of_lt large]
    exact putDecTrunc8_puts (short n (Nat.lt_of_not_le large))

/-- The decimal digits of a number from the units on. -/
def decimal (n : UInt64) : List UInt8 :=
  (Nat.digits 10 n.toNat).map fun digit => '0'.toUInt8 + UInt8.ofNat digit

/-- A positive number has no superfluous zero. -/
theorem putDec_decimal {n : UInt64} (positive : 1 ≤ n) : putDec n = decimal n := by
  have some : n.toNat ≠ 0 := Nat.ne_of_gt positive
  have numbered : putDec n = (numeral 10 n.toNat).map (digitByte true) := putDec_eq n
  rw [numbered, numeral, if_neg some, decimal]
  refine List.map_congr_left fun digit member => ?_
  have below : digit < 10 := Nat.digits_lt_base (by decide) member
  exact if_pos below

/-- A 64-bit value has at most twenty digits. -/
theorem decimal_length (n : UInt64) : (decimal n).length ≤ 20 := by
  have word := n.toNat_lt
  rw [decimal, List.length_map]
  exact (Nat.digits_length_le_iff (by decide) _).mpr (by omega)

/-- The digits of a positive number are written from the units on, at most one byte is touched behind
them, and every reciprocal that is multiplied by divides by a hundred. -/
theorem putDec_writes (buf n : UInt64) (m : Memory) (positive : 1 ≤ n) :
    let done := Scratch.putDec ⟨buf, m, []⟩ n
    let touched := window buf ((decimal n).length + 1)
    done.buf = buf + UInt64.ofNat (decimal n).length ∧ (decimal n).length ≤ 20 ∧
      Holds done.memory buf (decimal n) ∧ (∀ x ∉ touched, done.memory x = m x) ∧
      ∀ step ∈ done.steps, step.Right touched := by
  have puts := putDec_puts ⟨buf, m, []⟩ n
  rw [putDec_decimal positive] at puts
  obtain ⟨taken, same, right⟩ := puts.steps
  rw [List.nil_append] at same
  refine ⟨puts.buf, decimal_length n, puts.held, puts.kept, fun step member => ?_⟩
  rw [same] at member
  exact right step member

/-- The largest number has twenty digits. -/
theorem putDec_writes_largest :
    (Scratch.putDec ⟨0x1000, fun _ => 0, []⟩ 0xffffffffffffffff).buf = 0x1000 + 20 := by
  have length : (decimal 0xffffffffffffffff).length = 20 := by
    rw [decimal, List.length_map, show UInt64.toNat 0xffffffffffffffff = 0xffffffffffffffff from rfl]
    norm_num
  have positive : (1 : UInt64) ≤ 0xffffffffffffffff := by decide
  rw [(putDec_writes 0x1000 0xffffffffffffffff (fun _ => 0) positive).1, length]
  rfl

end DragonStub.Vsprintf

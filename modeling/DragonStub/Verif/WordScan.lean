import DragonStub.Base.ByteWord
import DragonStub.Boot.Routines
import DragonStub.Verif.OptionText

/-!
# Scans by words

`memchr` and `__strchrnul` look at eight bytes at once where they can. They answer as a scan byte by
byte would, from every address; `memchr` looks at nothing behind its bytes, and `__strchrnul` at no
word that starts behind the string.
-/

namespace DragonStub

open ByteMemory Interaction Prog

/-- The word of ones is the byte 1 eight times. -/
theorem ones_toNat : ones.toNat = repeated 1 8 := rfl

/-- The word of high bits is the byte 128 eight times. -/
theorem highs_toNat : highs.toNat = repeated 128 8 := rfl

/-- A word has eight bytes. -/
theorem word_bytes : 256 ^ 8 = 2 ^ 64 := rfl

/-- `HASZERO` marks the zero bytes. -/
theorem hasZero_toNat (x : UInt64) : (hasZero x).toNat = zeroMarks 8 x.toNat := by
  have size : UInt64.size = 2 ^ 64 := rfl
  rw [hasZero, UInt64.toNat_and, UInt64.toNat_and, UInt64.toNat_sub, UInt64.toNat_not, ones_toNat,
    highs_toNat, size, zeroMarks, word_bytes, Nat.add_comm x.toNat]

/-- A word in the memory is its bytes in little-endian order. -/
theorem wordAt_toNat (m : Memory) (w : UInt64) : (wordAt m w 8).toNat = readLe m w 8 := by
  have small := readLe_lt m w 8
  rw [word_bytes] at small
  rw [wordAt, UInt64.toNat_ofNat', Nat.mod_eq_of_lt small]

/-- `HASZERO` tells whether one of eight bytes is zero. -/
theorem hasZero_word (m : Memory) (w : UInt64) :
    hasZero (wordAt m w 8) = 0 ↔ ∀ index < 8, m (w + UInt64.ofNat index) ≠ 0 := by
  rw [← UInt64.toNat_inj, hasZero_toNat, wordAt_toNat, UInt64.toNat_zero, zeroMarks_eq_zero]

/-- With the byte in every place flipped, it tells whether one of them is the byte. -/
theorem hasZero_word_xor (m : Memory) (w : UInt64) (c : UInt8) :
    hasZero (wordAt m w 8 ^^^ ones * c.toUInt64) = 0 ↔
      ∀ index < 8, m (w + UInt64.ofNat index) ≠ c := by
  have places : (ones * c.toUInt64).toNat = repeated c.toNat 8 := by
    have small := repeated_lt 8 c.toNat_lt
    rw [word_bytes, repeated_mul] at small
    rw [UInt64.toNat_mul, ones_toNat, UInt8.toNat_toUInt64, repeated_mul c.toNat,
      Nat.mod_eq_of_lt small]
  have flipped : wordAt m w 8 ^^^ ones * c.toUInt64 = wordAt (fun x => m x ^^^ c) w 8 := by
    rw [← UInt64.toNat_inj, UInt64.toNat_xor, wordAt_toNat, places, readLe_xor, wordAt_toNat]
  rw [flipped, hasZero_word]
  exact forall₂_congr fun index _ => not_congr UInt8.xor_eq_zero_iff

variable {α : Type} {m : Memory} {region : Set UInt64} {s w : UInt64} {c : UInt8} {n k turns : Nat}
  {text : List UInt8} {allowed : Call → Prop} {result : α}

/-- A byte is none of the first `k`. -/
def Misses (m : Memory) (c : UInt8) (s : UInt64) (k : Nat) : Prop :=
  ∀ index < k, m (s + UInt64.ofNat index) ≠ c

/-- No bytes miss every byte. -/
theorem misses_zero : Misses m c s 0 := by
  intro index inside
  omega

/-- Bytes miss a byte when the first one and the rest do. -/
theorem misses_succ : Misses m c s (k + 1) ↔ m s ≠ c ∧ Misses m c (s + 1) k :=
  forall_offsets_succ (p := (· ≠ c))

/-- Two runs of bytes, one behind the other, miss a byte. -/
theorem Misses.append {j : Nat} (first : Misses m c s k)
    (second : Misses m c (s + UInt64.ofNat k) j) : Misses m c s (k + j) := by
  induction k generalizing s with
  | zero =>
    have start : s + UInt64.ofNat 0 = s := UInt64.add_zero s
    rwa [start, ← Nat.zero_add j] at second
  | succ k ih =>
    rw [misses_succ] at first
    rw [add_succ] at second
    rw [Nat.add_right_comm, misses_succ]
    exact ⟨first.1, ih first.2 second⟩

/-- A loop of `memchr` passes over bytes of the region that are not the byte it looks for. -/
def PassesOver (region : Set UInt64) (m : Memory) (c : UInt8) (n : Nat) (s : UInt64)
    (loop : Stub (UInt64 × Nat)) : Prop :=
  ∃ k ≤ n, Yields (Call.accesses region) loop (s + UInt64.ofNat k, n - k) ∧ Misses m c s k

/-- A loop that stops at once passes over nothing. -/
theorem passesOver_none : PassesOver region m c n s (return (s, n)) := by
  have start : s + UInt64.ofNat 0 = s := UInt64.add_zero s
  refine ⟨0, Nat.zero_le _, ?_, misses_zero⟩
  rw [start]
  exact yields_ret

/-- A byte can be looked at first. -/
theorem PassesOver.read {next : UInt8 → Stub (UInt64 × Nat)} (inside : s ∈ region)
    (rest : PassesOver region m c n s (next (m s))) :
    PassesOver region m c n s (readByte m s >>= next) := by
  obtain ⟨k, few, passes, misses⟩ := rest
  exact ⟨k, few, yields_read inside passes, misses⟩

/-- Bytes that have been passed over can stand in front. -/
theorem PassesOver.behind {loop : Stub (UInt64 × Nat)} (misses : Misses m c s k)
    (rest : PassesOver region m c n (s + UInt64.ofNat k) loop) :
    PassesOver region m c (n + k) s loop := by
  obtain ⟨j, few, passes, later⟩ := rest
  refine ⟨k + j, by omega, ?_, misses.append later⟩
  rw [← add_offsets, Nat.add_comm k j, Nat.add_sub_add_right]
  exact passes

/-- The bytes in front of an aligned address are passed over one by one. -/
theorem memchrHead_passes (fits : n ≤ 2 ^ 64) (inside : window s n ⊆ region) :
    PassesOver region m c n s (memchrHead m c n s) := by
  induction n generalizing s with
  | zero => exact passesOver_none
  | succ n ih =>
    rw [memchrHead]
    by_cases aligned : (s &&& 7 != 0) = true
    swap
    · rw [if_neg aligned]
      exact passesOver_none
    rw [if_pos aligned]
    apply PassesOver.read (mem_of_window inside)
    by_cases other : m s = c
    · rw [if_neg (by simpa using other)]
      exact passesOver_none
    · rw [if_pos (by simpa using other)]
      exact (ih (by omega) (window_tail fits inside)).behind (k := 1)
        (misses_succ.mpr ⟨other, misses_zero⟩)

/-- A word of the region can be read first. -/
theorem yields_readWord {next : UInt64 → Stub α} (inside : window w 8 ⊆ region)
    (rest : Yields (Call.accesses region) (next (wordAt m w 8)) result) :
    Yields (Call.accesses region) (readWord m w 8 >>= next) result := by
  unfold readWord reading
  exact yields_call ⟨()⟩ inside fun _ => rest

/-- Fewer than eight bytes are no word. -/
theorem memchrWords_short {key : UInt64} (short : n < 8) :
    memchrWords m key n w = return (w, n) := by
  unfold memchrWords
  split
  · omega
  · rfl

/-- Words without the byte are passed over. -/
theorem memchrWords_passes (fits : n ≤ 2 ^ 64) (inside : window w n ⊆ region) :
    PassesOver region m c n w (memchrWords m (ones * c.toUInt64) n w) := by
  induction n using Nat.strongRec generalizing w with
  | ind n ih =>
    by_cases short : n < 8
    · rw [memchrWords_short short]
      exact passesOver_none
    obtain ⟨n, rfl⟩ := Nat.exists_eq_add_of_le' (Nat.le_of_not_lt short)
    have word : window w 8 ⊆ region := (window_mono (by omega)).trans inside
    have looks {loop : UInt64 → Stub (UInt64 × Nat)}
        (rest : PassesOver region m c (n + 8) w (loop (wordAt m w 8))) :
        PassesOver region m c (n + 8) w (readWord m w 8 >>= loop) := by
      obtain ⟨k, few, passes, misses⟩ := rest
      exact ⟨k, few, yields_readWord word passes, misses⟩
    rw [memchrWords]
    apply looks
    by_cases found : hasZero (wordAt m w 8 ^^^ ones * c.toUInt64) = 0
    · rw [if_pos (by simpa using found)]
      have later := ih n (by omega) (by omega) (window_behind (k := 8) fits inside (by omega))
      exact later.behind (k := 8) ((hasZero_word_xor m w c).mp found)
    · rw [if_neg (by simpa using found)]
      exact passesOver_none

/-- The scan up to a word boundary and by words passes over bytes that are not sought. -/
theorem memchrMiddle_passes (fits : n ≤ 2 ^ 64) (inside : window s n ⊆ region) :
    PassesOver region m c n s (memchrMiddle m c n s) := by
  rw [memchrMiddle]
  cases n with
  | zero => exact passesOver_none
  | succ n =>
    rw [if_pos (by simp)]
    apply PassesOver.read (mem_of_window inside)
    by_cases other : m s = c
    · rw [if_neg (by simpa using other)]
      exact passesOver_none
    · rw [if_pos (by simpa using other)]
      exact memchrWords_passes fits inside

/-- The answer of a scan byte by byte: the first place of a byte among some, or null. -/
def FirstPlace (m : Memory) (c : UInt8) (src : UInt64) (n : Nat) (place : UInt64) : Prop :=
  (∃ k < n, place = src + UInt64.ofNat k ∧ m (src + UInt64.ofNat k) = c ∧ Misses m c src k) ∨
    place = 0 ∧ Misses m c src n

/-- Bytes that miss the sought one may be put in front. -/
theorem FirstPlace.behind {place : UInt64} (misses : Misses m c s k)
    (rest : FirstPlace m c (s + UInt64.ofNat k) n place) : FirstPlace m c s (n + k) place := by
  rcases rest with ⟨j, few, rfl, here, later⟩ | ⟨null, later⟩
  · rw [add_offsets] at here
    exact .inl ⟨k + j, by omega, by rw [add_offsets], here, misses.append later⟩
  · rw [Nat.add_comm]
    exact .inr ⟨null, misses.append later⟩

/-- The bytes that are left are compared one by one. -/
theorem memchrTail_yields (fits : n ≤ 2 ^ 64) (inside : window s n ⊆ region) : ∃ place,
    Yields (Call.accesses region) (memchrTail m c n s) place ∧ FirstPlace m c s n place := by
  induction n generalizing s with
  | zero => exact ⟨0, yields_ret, .inr ⟨rfl, misses_zero⟩⟩
  | succ n ih =>
    rw [memchrTail]
    by_cases other : m s = c
    · have start : s + UInt64.ofNat 0 = s := UInt64.add_zero s
      refine ⟨s, yields_read (mem_of_window inside) ?_,
        .inl ⟨0, by omega, start.symm, start.symm ▸ other, misses_zero⟩⟩
      rw [if_neg (by simpa using other)]
      exact yields_ret
    · obtain ⟨place, passes, isFirst⟩ := ih (by omega) (window_tail fits inside)
      refine ⟨place, yields_read (mem_of_window inside) ?_,
        isFirst.behind (k := 1) (misses_succ.mpr ⟨other, misses_zero⟩)⟩
      rw [if_pos (by simpa using other)]
      exact passes

/-- `memchr` finds the first place of its byte. -/
theorem memchr_yields (m : Memory) (src : UInt64) (c : Int32) (n : UInt64) : ∃ place,
    Yields (Call.accesses (window src n.toNat)) (memchr m src c n) place ∧
      FirstPlace m (charOf c) src n.toNat place := by
  have fits : n.toNat ≤ 2 ^ 64 := n.toNat_lt.le
  have all : window src n.toNat ⊆ window src n.toNat := subset_rfl
  obtain ⟨i, few, head, first⟩ := memchrHead_passes (m := m) (c := charOf c) fits all
  have inside := window_behind fits all few
  obtain ⟨j, fewer, middle, second⟩ := memchrMiddle_passes (m := m) (c := charOf c) (by omega) inside
  have rest := window_behind (by omega) inside fewer
  obtain ⟨place, passes, isFirst⟩ := memchrTail_yields (m := m) (c := charOf c) (by omega) rest
  refine ⟨place, head.bind (middle.bind passes), ?_⟩
  have whole := (isFirst.behind second).behind first
  rwa [Nat.sub_add_cancel fewer, Nat.sub_add_cancel few] at whole

/-- A byte of a region is read, or an aligned word that starts in it. -/
def Call.scans (region : Set UInt64) : Call → Prop
  | .reach (.read address 1) => address ∈ region
  | .reach (.read address 8) => address ∈ region ∧ address.toNat % 8 = 0
  | _ => False

/-- One byte of the region is read. -/
theorem yields_scanByte {next : UInt8 → Stub α} (inside : s ∈ region)
    (rest : Yields (Call.scans region) (next (m s)) result) :
    Yields (Call.scans region) (readByte m s >>= next) result := by
  unfold readByte reading
  exact yields_call ⟨()⟩ inside fun _ => rest

/-- One aligned word is read whose first byte is in the region. -/
theorem yields_scanWord {next : UInt64 → Stub α} (inside : w ∈ region) (aligned : w.toNat % 8 = 0)
    (rest : Yields (Call.scans region) (next (wordAt m w 8)) result) :
    Yields (Call.scans region) (readWord m w 8 >>= next) result := by
  unfold readWord reading
  exact yields_call ⟨()⟩ ⟨inside, aligned⟩ fun _ => rest

/-- The scan for the zero byte ends at the end of the string. -/
theorem strlenLoop_yields (string : StringIn m region s text) (enough : text.length < turns) :
    Yields (Call.scans region) (strlenLoop m turns s) (s + UInt64.ofNat text.length) := by
  induction turns generalizing s text with
  | zero => omega
  | succ turns ih =>
    rw [strlenLoop]
    apply yields_scanByte string.mem
    cases text with
    | nil =>
      have start : s + UInt64.ofNat 0 = s := UInt64.add_zero s
      rw [string.nul, if_neg (by decide), List.length_nil, start]
      exact yields_ret
    | cons d rest =>
      rw [string.first, if_pos (by simpa using string.first_ne), List.length_cons, add_succ]
      exact ih string.tail (by simpa using enough)

/-- How far a byte is from the start of a text, or from its end. -/
def distanceTo (c : UInt8) (text : List UInt8) : Nat := (text.takeWhile (· != c)).length

/-- The end of an empty text is at its start. -/
@[simp] theorem distanceTo_nil : distanceTo c [] = 0 := rfl

/-- A text that starts with the byte has it at its start. -/
@[simp] theorem distanceTo_same (rest : List UInt8) : distanceTo c (c :: rest) = 0 := by
  simp [distanceTo]

/-- A text that starts with another byte has it one byte further. -/
theorem distanceTo_cons {d : UInt8} {rest : List UInt8} (other : d ≠ c) :
    distanceTo c (d :: rest) = distanceTo c rest + 1 := by
  simp [distanceTo, other]

/-- The byte, or the end, is at most as far as the text is long. -/
theorem distanceTo_le (c : UInt8) (text : List UInt8) : distanceTo c text ≤ text.length :=
  (List.takeWhile_prefix _).length_le

/-- Behind bytes that are passed over, the byte is nearer. -/
theorem distanceTo_drop (few : k ≤ distanceTo c text) :
    distanceTo c (text.drop k) = distanceTo c text - k := by
  induction k generalizing text with
  | zero => rfl
  | succ k ih =>
    cases text with
    | nil => simp at few
    | cons d rest =>
      by_cases same : d = c
      · simp [same] at few
      · rw [distanceTo_cons same] at few ⊢
        rw [List.drop_succ_cons, ih (by omega), Nat.add_sub_add_right]

/-- Bytes of a string that are neither NUL nor the byte can be passed over. -/
theorem le_distanceTo (held : HoldsString m s text) (noNul : Misses m 0 s k)
    (misses : Misses m c s k) : k ≤ distanceTo c text := by
  induction k generalizing s text with
  | zero => exact Nat.zero_le _
  | succ k ih =>
    rw [misses_succ] at noNul misses
    cases text with
    | nil => exact absurd (holdsString_nil.mp held) noNul.1
    | cons d rest =>
      obtain ⟨here, -, behind⟩ := holdsString_cons.mp held
      rw [distanceTo_cons (here ▸ misses.1)]
      exact Nat.succ_le_succ (ih behind noNul.2 misses.2)

/-- In front of an aligned address, the bytes are passed over one by one. -/
theorem strchrnulHead_yields (string : StringIn m region s text) (enough : text.length < turns) :
    ∃ k found, Yields (Call.scans region) (strchrnulHead m c turns s) (s + UInt64.ofNat k, found) ∧
      k ≤ distanceTo c text ∧ (found = true → k = distanceTo c text) ∧
      (found = false → (s + UInt64.ofNat k).toNat % 8 = 0) := by
  have start (s : UInt64) : s + UInt64.ofNat 0 = s := UInt64.add_zero s
  induction turns generalizing s text with
  | zero => omega
  | succ turns ih =>
    rw [strchrnulHead]
    by_cases aligned : (s % 8 != 0) = true
    swap
    · have multiple : s.toNat % 8 = 0 := by
        have zero : s % 8 = 0 := by simpa using aligned
        have value := congrArg UInt64.toNat zero
        rwa [UInt64.toNat_mod] at value
      refine ⟨0, false, ?_, Nat.zero_le _, by simp, fun _ => by rwa [start]⟩
      rw [if_neg aligned, start]
      exact yields_ret
    rw [if_pos aligned]
    cases text with
    | nil =>
      refine ⟨0, true, yields_scanByte string.mem ?_, le_rfl, fun _ => rfl, by simp⟩
      rw [string.nul, if_pos (by simp), start]
      exact yields_ret
    | cons d rest =>
      by_cases same : d = c
      · refine ⟨0, true, yields_scanByte string.mem ?_, Nat.zero_le _, by simp [same], by simp⟩
        rw [string.first, if_pos (by simp [same]), start]
        exact yields_ret
      · obtain ⟨k, found, passes, few, last, multiple⟩ := ih string.tail (by simpa using enough)
        rw [distanceTo_cons same]
        refine ⟨k + 1, found, yields_scanByte string.mem ?_, by omega,
          fun stops => congrArg (· + 1) (last stops), by rwa [add_succ]⟩
        rw [string.first, if_neg (by simp [same, string.first_ne]), add_succ]
        exact passes

/-- Aligned words without NUL and without the byte are passed over. -/
theorem strchrnulWords_yields (string : StringIn m region w text) (aligned : w.toNat % 8 = 0)
    (enough : text.length < turns) : ∃ k ≤ distanceTo c text,
    Yields (Call.scans region) (strchrnulWords m (ones * c.toUInt64) turns w)
      (w + UInt64.ofNat k) := by
  induction turns generalizing w text with
  | zero => omega
  | succ turns ih =>
    rw [strchrnulWords]
    by_cases passed : (hasZero (wordAt m w 8) == 0 &&
        hasZero (wordAt m w 8 ^^^ ones * c.toUInt64) == 0) = true
    · rw [Bool.and_eq_true, beq_iff_eq, beq_iff_eq, hasZero_word, hasZero_word_xor] at passed
      have eight : 8 ≤ distanceTo c text := le_distanceTo string.held passed.1 passed.2
      have bound := distanceTo_le c text
      have next : (w + UInt64.ofNat 8).toNat % 8 = 0 := by
        rw [UInt64.toNat_add, UInt64.toNat_ofNat']
        omega
      obtain ⟨k, few, passes⟩ := ih (string.drop (by omega)) next (by rw [List.length_drop]; omega)
      rw [distanceTo_drop eight] at few
      refine ⟨8 + k, by omega, yields_scanWord string.mem aligned ?_⟩
      rw [if_pos, ← add_offsets]
      · exact passes
      · rw [Bool.and_eq_true, beq_iff_eq, beq_iff_eq, hasZero_word, hasZero_word_xor]
        exact passed
    · have start : w + UInt64.ofNat 0 = w := UInt64.add_zero w
      refine ⟨0, Nat.zero_le _, yields_scanWord string.mem aligned ?_⟩
      rw [if_neg passed, start]
      exact yields_ret

/-- The scan byte by byte ends at the byte, or at the end of the string. -/
theorem strchrnulTail_yields (string : StringIn m region s text) (enough : text.length < turns) :
    Yields (Call.scans region) (strchrnulTail m c turns s)
      (s + UInt64.ofNat (distanceTo c text)) := by
  have start (s : UInt64) : s + UInt64.ofNat 0 = s := UInt64.add_zero s
  induction turns generalizing s text with
  | zero => omega
  | succ turns ih =>
    rw [strchrnulTail]
    apply yields_scanByte string.mem
    cases text with
    | nil =>
      rw [string.nul, if_neg (by simp), distanceTo_nil, start]
      exact yields_ret
    | cons d rest =>
      rw [string.first]
      by_cases same : d = c
      · rw [if_neg (by simp [same]), same, distanceTo_same, start]
        exact yields_ret
      · rw [if_pos (by simp [same, string.first_ne]), distanceTo_cons same, add_succ]
        exact ih string.tail (by simpa using enough)

/-- No byte of a string is its NUL. -/
theorem distanceTo_nul (noNul : 0 ∉ text) : distanceTo 0 text = text.length := by
  induction text with
  | nil => rfl
  | cons d rest ih =>
    rw [List.mem_cons, not_or] at noNul
    rw [distanceTo_cons (Ne.symm noNul.1), ih noNul.2, List.length_cons]

/-- `__strchrnul` finds the first place of its byte, or the end of the string. -/
theorem strchrnul_yields (string : StringIn m region s text) (c : Int32)
    (enough : text.length < turns) : Yields (Call.scans region) (strchrnul m turns s c)
      (s + UInt64.ofNat (distanceTo (charOf c) text)) := by
  rw [strchrnul]
  by_cases nul : charOf c = 0
  · rw [if_pos (by simpa using nul), nul, distanceTo_nul string.held.noNul]
    have counts : Yields (Call.scans region) (strlen m turns s) (UInt64.ofNat text.length) := by
      apply (strlenLoop_yields string enough).bind
      rw [sub_add_self]
      exact yields_ret
    exact counts.bind yields_ret
  rw [if_neg (by simpa using nul)]
  have bound := distanceTo_le (charOf c) text
  obtain ⟨i, found, head, few, last, aligned⟩ := strchrnulHead_yields (c := charOf c) string enough
  apply head.bind
  cases found with
  | true =>
    rw [last rfl]
    exact yields_ret
  | false =>
    have rest := string.drop (n := i) (by omega)
    have shorter : (text.drop i).length < turns := by
      rw [List.length_drop]
      omega
    obtain ⟨j, fewer, words⟩ := strchrnulWords_yields (c := charOf c) rest (aligned rfl) shorter
    have inner := distanceTo_le (charOf c) (text.drop i)
    have last : ((text.drop i).drop j).length < turns := by
      rw [List.length_drop]
      omega
    have tail := strchrnulTail_yields (c := charOf c) (rest.drop (by omega)) last
    rw [distanceTo_drop fewer, distanceTo_drop few] at tail
    rw [distanceTo_drop few] at fewer
    have place : s + UInt64.ofNat i + UInt64.ofNat j +
        UInt64.ofNat (distanceTo (charOf c) text - i - j) =
          s + UInt64.ofNat (distanceTo (charOf c) text) := by
      rw [add_offsets, add_offsets]
      congr 2
      omega
    rw [place] at tail
    exact words.bind tail

/-- `memchr` returns the first place of its byte or null, and reads none but its bytes; `__strchrnul`
returns the first place of its byte or the end of its string, and reads no word that starts behind
the end. -/
theorem memchr_strchrnul_agree (m : Memory) :
    (∀ src c n events outcome, Exec (memchr m src c n) events outcome →
      (∃ place, outcome = some place ∧ FirstPlace m (charOf c) src n.toNat place) ∧
        ∀ event ∈ events, event.op.accesses (window src n.toNat)) ∧
    ∀ s text c turns events outcome, HoldsString m s text → text.length < turns →
      Exec (strchrnul m turns s c) events outcome →
        outcome = some (s + UInt64.ofNat (text.takeWhile (· != charOf c)).length) ∧
          ∀ event ∈ events, event.op.scans (window s (text.length + 1)) := by
  constructor
  · intro src c n events outcome run
    obtain ⟨place, yields, isFirst⟩ := memchr_yields m src c n
    obtain ⟨returned, reads⟩ := yields _ _ run
    exact ⟨⟨place, returned, isFirst⟩, reads⟩
  · intro s text c turns events outcome held enough run
    exact strchrnul_yields held.stringIn c enough _ _ run

/-- A text with a byte that differs from the one in front of it in its lowest bit. -/
def dashesText : List UInt8 := Vsprintf.chars "-----------z\x7b---------z".toList

/-- From an address that is not aligned, both find the first `z`. -/
theorem memchr_strchrnul_agree_unaligned :
    (memchr (bytesAt 0x1003 dashesText) 0x1003 0x7a 23).valueWith toldFirmware = some 0x100e ∧
      (strchrnul (bytesAt 0x1003 dashesText) 24 0x1003 0x7a).valueWith toldFirmware =
        some 0x100e ∧
      FirstPlace (bytesAt 0x1003 dashesText) 0x7a 0x1003 23 0x100e := by
  have held : HoldsString (bytesAt 0x1003 dashesText) 0x1003 dashesText :=
    holdsString_bytesAt (by decide) (by decide)
  obtain ⟨memchrs, strchrnuls⟩ := memchr_strchrnul_agree (bytesAt 0x1003 dashesText)
  have returns : (memchr (bytesAt 0x1003 dashesText) 0x1003 0x7a 23).valueWith toldFirmware =
      some 0x100e := by decide +kernel
  have run : Exec (memchr (bytesAt 0x1003 dashesText) 0x1003 0x7a 23)
      ((memchr (bytesAt 0x1003 dashesText) 0x1003 0x7a 23).eventsWith toldFirmware)
      ((memchr (bytesAt 0x1003 dashesText) 0x1003 0x7a 23).valueWith toldFirmware) :=
    exec_eventsWith (by decide +kernel)
  obtain ⟨⟨place, returned, isFirst⟩, -⟩ := memchrs 0x1003 0x7a 23 _ _ run
  rw [returns] at returned
  cases returned
  exact ⟨returns, (strchrnuls 0x1003 dashesText 0x7a 24 _ _ held (by decide)
    (exec_eventsWith (by decide +kernel))).1, isFirst⟩

end DragonStub

import DragonStub.Base.CString
import DragonStub.Verif.CmdlineBytes
import DragonStub.Verif.VsprintfOutput

/-!
# The converted command line

The format `%.*ls` copies bytes: its `l` says nothing to the formatter of a string. So the command
line that is handed on is what stands at the options up to the first zero byte, not their text in
UTF-8. The two are the same for texts of at most one character.
-/

namespace DragonStub

open BoundedOutput ByteMemory Interaction Prog Utf16 Vsprintf

variable {m : Memory} {options : UInt64} {bytes : Nat}

/-- What the string conversion copies from. -/
def source (m : Memory) (options : UInt64) : Nat → UInt8 :=
  match checkPointerMsg options with
  | some message => fun index => message.getD index 0
  | none => pointee m options

/-- A precision of 15 bits is kept. -/
theorem setPrecision_short (spec : PrintfSpec) (short : bytes < 2 ^ 15) :
    setPrecision spec (Word.toInt (UInt64.ofNat bytes)) = { spec with precision := bytes } := by
  have value : (UInt64.ofNat bytes).toNat = bytes := by
    rw [UInt64.toNat_ofNat']
    omega
  have precision : (Word.toInt (UInt64.ofNat bytes)).toInt = bytes := by
    rw [Word.toInt_toInt (by omega), value]
  have fits : field 16 bytes = bytes := by
    rw [field, Int.bmod_def]
    omega
  rw [setPrecision, precision, fits, if_neg (not_not.mpr rfl)]

/-- The conversion of the options, once its precision is known. -/
def optionsSpec (bytes : Nat) : PrintfSpec := ⟨.str, -1, 0, 10, bytes⟩

/-- The conversion copies the options up to their first zero byte. -/
theorem string_optionsSpec (short : bytes < 2 ^ 15) (finish : Nat) (out : Sink) :
    string finish m options (optionsSpec bytes) out =
      puts finish (Vsprintf.copied (source m options) bytes 0) out := by
  have limit : ((optionsSpec bytes).precision % 2 ^ 32).toNat = bytes := by
    change ((bytes : Int) % 2 ^ 32).toNat = bytes
    omega
  have plain (text : List UInt8) : justified (optionsSpec bytes) text = text := by
    have none : ((optionsSpec bytes).fieldWidth - text.length).toNat = 0 := by
      change (-1 - (text.length : Int)).toNat = 0
      omega
    rw [justified, none, List.replicate_zero, List.append_nil, List.nil_append, ite_self]
  have copies (s : Nat → UInt8) :
      stringNocheck finish s (optionsSpec bytes) out =
        puts finish (Vsprintf.copied s bytes 0) out := by
    rw [stringNocheck_eq, plain, shown, limit]
  unfold string source checkPointer
  cases checkPointerMsg options with
  | none => exact copies _
  | some message =>
    have known : ¬((optionsSpec bytes).precision == -1) = true := by
      rw [beq_iff_eq]
      change ¬(bytes : Int) = -1
      omega
    simp only [Option.map_some, errorString, if_neg known]
    exact copies _

/-- The whole call writes what the conversion writes. -/
theorem optionsCall_writes (short : bytes < 2 ^ 15) (finish : Nat) (out : Sink) :
    loop (optionsCall m (UInt64.ofNat bytes) options) finish 6 Cursor.initial out =
      .ok (puts finish (Vsprintf.copied (source m options) bytes 0) out) := by
  have first : step (optionsCall m (UInt64.ofNat bytes) options) finish Cursor.initial out =
      .ok (some ⟨3, setPrecision ⟨.precision, -1, 0, 0, -1⟩ (Word.toInt (UInt64.ofNat bytes)), 1⟩,
        out) := rfl
  rw [setPrecision_short _ short] at first
  have rest : remaining (optionsCall m (UInt64.ofNat bytes) options) 3 =
      .ok (chars ['l', 's']) := rfl
  have decoded : formatDecode (chars ['l', 's']) ⟨.precision, -1, 0, 0, bytes⟩ =
      .ok (2, ⟨.str, -1, 0, 10, max (bytes : Int) 0⟩) := rfl
  have kept : max (bytes : Int) 0 = bytes := by omega
  have more : ¬chars ['l', 's'] = [] := by decide
  have second : step (optionsCall m (UInt64.ofNat bytes) options) finish
      ⟨3, ⟨.precision, -1, 0, 0, bytes⟩, 1⟩ out =
      .ok (some ⟨5, optionsSpec bytes, 2⟩, string finish m options (optionsSpec bytes) out) := by
    rw [step, rest]
    simp only [bind, Except.bind, if_neg more, decoded, kept]
    rfl
  have third (spec : PrintfSpec) (left : Sink) :
      step (optionsCall m (UInt64.ofNat bytes) options) finish ⟨5, spec, 2⟩ left =
        .ok (none, left) := rfl
  simp only [loop, first, second, third, string_optionsSpec short, bind, Except.bind]
  rfl

variable {text other : List UInt8} {address : UInt64}

/-- A formatted text without NUL is held as a string where there is room for it. -/
theorem holdsString_terminate {buf size : UInt64} (memory : Nat → UInt8) (noNul : 0 ∉ text)
    (room : text.length < size.toNat) (object : buf.toNat + size.toNat < 2 ^ 64) :
    HoldsString (fun address => terminate (buf.toNat + size.toNat) size.toNat
      (puts (buf.toNat + size.toNat) text ⟨buf.toNat, memory⟩) address.toNat) buf text := by
  have shown : min text.length (size.toNat - 1) = text.length := by omega
  have place (index : Nat) (inside : index ≤ text.length) :
      (buf + UInt64.ofNat index).toNat = buf.toNat + index := by
    rw [UInt64.toNat_add, UInt64.toNat_ofNat']
    omega
  refine ⟨?_, noNul, ?_⟩
  · intro index inside
    rw [place index (by omega), terminate_memory text memory rfl, shown, if_pos (by omega),
      Nat.add_sub_cancel_left, List.getD_eq_getElem _ _ inside]
  · rw [place text.length le_rfl, terminate_memory text memory rfl, shown, if_neg (by omega),
      if_pos ⟨by omega, rfl⟩]

/-- Terminating a formatted text changes nothing outside its room. -/
theorem terminate_outside {buf size : UInt64} {m : Memory} {x : UInt64}
    (outside : x ∉ window buf size.toNat) :
    terminate (buf.toNat + size.toNat) size.toNat (puts (buf.toNat + size.toNat) text
      ⟨buf.toNat, fun address => m (UInt64.ofNat address)⟩) x.toNat = m x := by
  have away : ¬(buf.toNat ≤ x.toNat ∧ x.toNat < buf.toNat + size.toNat) := by
    rintro ⟨above, below⟩
    apply outside
    rw [mem_window, UInt64.toNat_sub_of_le x buf (UInt64.le_iff_toNat_le.mpr above)]
    omega
  rw [terminate_memory text _ rfl, if_neg (by omega), if_neg (by omega), UInt64.ofNat_toNat]

/-- The call of the formatter leaves a string in its block, and changes nothing else. -/
theorem snprintf_options (m : Memory) (options : UInt64) {pool : UInt64} (short : bytes < 2 ^ 15)
    (object : pool.toNat + (bytes + 1) < 2 ^ 64) : ∃ length held,
    snprintf (optionsCall m (UInt64.ofNat bytes + 1 - 1) options) pool (UInt64.ofNat bytes + 1)
      (fun address => m (UInt64.ofNat address)) = .ok (length, held) ∧
    HoldsString (fun address => held address.toNat) pool
      (Vsprintf.copied (source m options) bytes 0) ∧
    ∀ x ∉ window pool (bytes + 1), held x.toNat = m x := by
  have size : (UInt64.ofNat bytes + 1).toNat = bytes + 1 := by
    rw [UInt64.toNat_add, UInt64.toNat_ofNat', UInt64.toNat_one]
    omega
  have room := copied_length_le (source m options) bytes 0
  rw [← size] at object
  rw [UInt64.add_sub_cancel]
  refine ⟨_, _, vsnprintf_writes _ (optionsCall_writes short) ?_ object, ?_, ?_⟩
  · rw [size, intMax]
    omega
  · apply holdsString_terminate _ (copied_noNul _ _ _) _ object
    omega
  · rw [← size]
    exact fun x outside => terminate_outside outside

variable {events : List Event} {image : LoadedImage}
  {outcome : Option (Option ConvertedCmdline)}

/-- The calls of the measurement. -/
def Call.isMeasure : Call → Bool
  | .locateProtocol .. | .allocatePool .. | .freePool .. | .hashLogExtendEvent .. | .print .. =>
    true
  | _ => false

/-- A call that measures is a call of the firmware. -/
theorem Call.isPoint_of_isMeasure {call : Call} (measures : call.isMeasure = true) :
    call.isPoint = false := by
  cases call with
  | reach => cases measures
  | _ => rfl

/-- A call that measures is answered. -/
theorem Call.answered_of_isMeasure (call : Call) (measures : call.isMeasure = true) :
    Nonempty call.Reply := by
  cases call with
  | locateProtocol | allocatePool | freePool | hashLogExtendEvent | print => exact ⟨default⟩
  | _ => cases measures

/-- Measuring an event makes calls that measure alone. -/
theorem efiMeasureTaggedEvent_measures (loadAddr loadSize : UInt64) :
    Calls (fun call => call.isMeasure = true) (efiMeasureTaggedEvent loadAddr loadSize) := by
  unfold efiMeasureTaggedEvent
  refine ⟨rfl, fun tcg2 => calls_ite ⟨rfl, fun evt => calls_ite ?_ ?_⟩ calls_ret⟩
  · exact ⟨rfl, fun _ => calls_ret⟩
  · exact ⟨rfl, fun status => ⟨rfl, fun _ => calls_ite ⟨rfl, fun _ => calls_ret⟩ calls_ret⟩⟩

/-- Measuring the options makes calls that measure alone. -/
theorem measureOptions_measures :
    Calls (fun call => call.isMeasure = true) (measureOptions image) := by
  unfold measureOptions
  exact calls_ite ((efiMeasureTaggedEvent_measures ..).bind fun _ => calls_ret) calls_ret

/-- The block that an allocation gives, with its size. -/
def givenBlock : Event → Option (UInt64 × UInt64)
  | ⟨.allocatePool _ size, pool⟩ =>
    if pool.status = efiSuccess then some (pool.value, size) else none
  | _ => none

/-- Every block that is given ends within the address space. -/
def BlocksFit (events : List Event) : Prop :=
  ∀ block ∈ events.filterMap givenBlock, block.1.toNat + block.2.toNat < 2 ^ 64

/-- Whether every block fits can be computed. -/
instance (events : List Event) : Decidable (BlocksFit events) :=
  List.decidableBAll (fun block : UInt64 × UInt64 => block.1.toNat + block.2.toNat < 2 ^ 64)
    (events.filterMap givenBlock)

/-- Blocks that fit do so in the second part of a trace. -/
theorem BlocksFit.right {first second : List Event} (blocks : BlocksFit (first ++ second)) :
    BlocksFit second := by
  intro block member
  apply blocks
  rw [List.filterMap_append]
  exact List.mem_append_right _ member

/-- The options are formatted into a block. -/
structure Formatted (m : Memory) (options : UInt64) (bytes : Nat) (pool : UInt64)
    (result : ConvertedCmdline) : Prop where
  /-- The string is in the granted block. -/
  place : result.cmdline = pool
  /-- Its length counts the zero byte. -/
  length : result.cmdLineLen.toNat = bytes + 1
  /-- It is what the conversion copies of the options. -/
  text : HoldsString result.memory result.cmdline (Vsprintf.copied (source m options) bytes 0)
  /-- No byte outside the block changes. -/
  same : ∀ x ∉ window pool (bytes + 1), result.memory x = m x

/-- A block that is granted in a run is one the run is given. -/
theorem mem_givenBlock {memoryType : UInt32} {size : UInt64} {pool : WordReply}
    (before rest : List Event) (granted : pool.status = efiSuccess) : (pool.value, size) ∈
      (before ++ (⟨.allocatePool memoryType size, pool⟩ : Event) :: rest).filterMap givenBlock :=
  List.mem_filterMap.mpr ⟨_, List.mem_append_right _ List.mem_cons_self, if_pos granted⟩

/-- Formatting the options either finds no block, or leaves in it what the conversion copies. -/
theorem formatOptions_of_exec (short : bytes < 2 ^ 15) (blocks : BlocksFit events)
    (run : Exec (formatOptions m options bytes) events outcome) : ∃ pool,
    (pool.status ≠ efiSuccess ∧ outcome = some none ∧
      events = [⟨.allocatePool efiLoaderData (UInt64.ofNat bytes + 1), pool⟩]) ∨
    (pool.status = efiSuccess ∧ ∃ result, outcome = some (some result) ∧
      events = [⟨.allocatePool efiLoaderData (UInt64.ofNat bytes + 1), pool⟩,
        ⟨.reach (.read options (optionsRead m bytes options)), ()⟩] ∧
      Formatted m options bytes pool.value result) := by
  have size : (UInt64.ofNat bytes + 1).toNat = bytes + 1 := by
    rw [UInt64.toNat_add, UInt64.toNat_ofNat', UInt64.toNat_one]
    omega
  unfold formatOptions at run
  simp only [perform_bind, reading, pure_eq_ret, exec_call] at run
  obtain ⟨pool, rest, rfl, run⟩ := run
  refine ⟨pool, ?_⟩
  by_cases success : pool.status = efiSuccess
  · right
    rw [if_neg (by simpa using success), exec_call] at run
    obtain ⟨_, rest, rfl, run⟩ := run
    have object : pool.value.toNat + (bytes + 1) < 2 ^ 64 := by
      rw [← size]
      apply blocks (pool.value, UInt64.ofNat bytes + 1)
      simp [givenBlock, success]
    obtain ⟨length, held, formatted, holds, same⟩ := snprintf_options m options short object
    rw [formatted] at run
    obtain ⟨rfl, rfl⟩ := exec_ret.mp run
    exact ⟨success, _, rfl, rfl, rfl, size, holds, same⟩
  · left
    rw [if_pos (by simpa using success)] at run
    obtain ⟨rfl, rfl⟩ := exec_ret.mp run
    exact ⟨success, rfl, rfl⟩

/-- What a run does that finds a block for the string: it copies what the conversion copies, of as
many bytes as have been counted. -/
structure Copies (m : Memory) (image : LoadedImage) (bytes : Nat) (events : List Event)
    (result : ConvertedCmdline) : Prop where
  /-- The length is the one that is counted. -/
  counts : ∃ counted, Exec (countOptions m image.loadOptions image.loadOptionsSize) counted
    (some bytes)
  /-- The length counts the zero byte. -/
  length : result.cmdLineLen.toNat = bytes + 1
  /-- The string is what the conversion copies of the options. -/
  text : HoldsString result.memory result.cmdline
    (Vsprintf.copied (source m image.loadOptions) bytes 0)
  /-- The reads stay in the options just when those of the copy do. -/
  reads : Within .read (window image.loadOptions image.loadOptionsSize.toNat) events ↔
    window image.loadOptions (optionsRead m bytes image.loadOptions) ⊆
      window image.loadOptions image.loadOptionsSize.toNat

/-- A run that finds a block returns a string in it. -/
theorem efiConvertCmdline_copies (blocks : BlocksFit events)
    (allocated : outcome ≠ some none) (run : Exec (efiConvertCmdline m image) events outcome) :
    ∃ result, outcome = some (some result) ∧ Copies m image
      (encode (keptText m image.loadOptions image.loadOptionsSize)).length events result := by
  unfold efiConvertCmdline at run
  rcases exec_bind.mp run with ⟨_, measured, rest, rfl, measures, run⟩ | ⟨rfl, waits⟩
  · rcases exec_bind.mp run with ⟨bytes, counted, last, rfl, counts, run⟩ | ⟨rfl, waits⟩
    · have units : window image.loadOptions (2 * (image.loadOptionsSize.toNat / 2)) ⊆
          window image.loadOptions image.loadOptionsSize.toNat := window_mono (by omega)
      have looks := (countOptions_counted counts).1.mono units
      have chosen := (countOptions_counted counts).2
      cases chosen
      have short := fitting_length
        (decode endsLine (optionUnits m image.loadOptions image.loadOptionsSize))
      have few : (encode (keptText m image.loadOptions image.loadOptionsSize)).length < 2 ^ 15 :=
        lt_trans short (by decide)
      obtain ⟨pool, ⟨-, none, -⟩ | ⟨-, result, returned, rfl, formatted⟩⟩ :=
        formatOptions_of_exec few blocks.right.right run
      · exact absurd none allocated
      · refine ⟨result, returned, ⟨counted, counts⟩, formatted.length, formatted.text, ?_⟩
        have plain : Lacks Call.isPoint measured := fun event member =>
          Call.isPoint_of_isMeasure (measureOptions_measures.events measures event member)
        simp [Within.of_lacks plain, looks.reads]
    · have returned := (countOptions_counted waits).2
      cases returned
  · obtain ⟨_, returned⟩ := measureOptions_measures.returns Call.answered_of_isMeasure waits
    cases returned

/-- A converted command line: the text of the options in UTF-8, cut to the bytes that have been
counted, as a string of the length returned; no byte behind the options is read. -/
structure Converts (m : Memory) (image : LoadedImage) (events : List Event)
    (result : ConvertedCmdline) : Prop where
  /-- The string is the counted part of the decoded options in UTF-8. -/
  text : ∀ counted bytes, Exec (countOptions m image.loadOptions image.loadOptionsSize) counted
    (some bytes) → HoldsString result.memory result.cmdline
      ((encode (decode endsLine (optionUnits m image.loadOptions image.loadOptionsSize))).take
        bytes)
  /-- The length counts the zero byte. -/
  length : ∀ text, HoldsString result.memory result.cmdline text →
    text.length + 1 = result.cmdLineLen.toNat
  /-- The reads stay in the options. -/
  reads : Within .read (window image.loadOptions image.loadOptionsSize.toNat) events

/-- The bytes that a conversion should give are those of the text that is kept. -/
theorem take_counted {counted : List Event}
    (counts : Exec (countOptions m image.loadOptions image.loadOptionsSize) counted (some bytes)) :
    (encode (decode endsLine (optionUnits m image.loadOptions image.loadOptionsSize))).take bytes =
      encode (keptText m image.loadOptions image.loadOptionsSize) := by
  have chosen := (countOptions_counted counts).2
  cases chosen
  exact take_fitting _

/-- A run converts the options when what it copies is the text that is kept. -/
theorem Copies.converts_iff {result : ConvertedCmdline} (copies : Copies m image
      (encode (keptText m image.loadOptions image.loadOptionsSize)).length events result) :
    Converts m image events result ↔
      Vsprintf.copied (source m image.loadOptions)
        (encode (keptText m image.loadOptions image.loadOptionsSize)).length 0 =
          encode (keptText m image.loadOptions image.loadOptionsSize) ∧
      window image.loadOptions (optionsRead m
        (encode (keptText m image.loadOptions image.loadOptionsSize)).length image.loadOptions) ⊆
          window image.loadOptions image.loadOptionsSize.toNat := by
  constructor
  · intro converts
    obtain ⟨counted, counts⟩ := copies.counts
    have text := converts.text counted _ counts
    rw [take_counted counts] at text
    exact ⟨copies.text.eq text, copies.reads.mp converts.reads⟩
  · rintro ⟨same, inside⟩
    refine ⟨?_, ?_, copies.reads.mpr inside⟩
    · intro counted bytes counts
      rw [take_counted counts, ← same]
      exact copies.text
    · intro text holds
      rw [holds.eq copies.text, same, copies.length]

/-- The options are their own conversion: nothing is kept of them, or they are no good pointer and
the text is what the formatter says of such a pointer, or their text is one ASCII character, or
the one character of three bytes that begins with the bytes of its unit. -/
def OwnConversion (m : Memory) (options : UInt64) (optionsSize : UInt32) : Prop :=
  keptText m options optionsSize = [] ∨
    match checkPointerMsg options with
    | some message => encode (keptText m options optionsSize) <+: message
    | none => (∃ c, keptText m options optionsSize = [c] ∧ c.toNat < 0x80) ∨
      (keptText m options optionsSize = [Char.ofNat 0xbfeb] ∧ 3 ≤ optionsSize.toNat ∧
        m (options + 2) = 0xab)

variable {optionsSize : UInt32} {raw : Nat → UInt8} {message : List UInt8}

/-- A text without a zero byte is copied just when it is there up to where the copy stops. -/
theorem copied_agrees (noNul : 0 ∉ text) :
    Vsprintf.copied raw text.length 0 = text ↔ Agrees raw text := by
  rw [copied_eq_iff noNul]
  simp only [Nat.zero_add, Agrees]

/-- A text without NUL that a message agrees with is its beginning. -/
theorem prefix_iff_agrees (noNul : 0 ∉ text) :
    text <+: message ↔ Agrees (fun index => message.getD index 0) text := by
  rw [List.prefix_iff_getElem?]
  constructor
  · intro begins position byte held
    obtain ⟨inside, same⟩ := List.getElem?_eq_some_iff.mp held
    simp only [List.getD_eq_getElem?_getD, begins position inside, same, Option.getD_some]
  · intro agrees position inside
    have byte := agrees position _ (List.getElem?_eq_getElem inside)
    simp only [List.getD_eq_getElem?_getD] at byte
    cases held : message[position]? with
    | none =>
      rw [held, Option.getD_none] at byte
      exact absurd (byte ▸ List.getElem_mem inside) noNul
    | some found =>
      rw [held, Option.getD_some] at byte
      rw [byte]

/-- Only the empty text is encoded as nothing. -/
theorem encode_eq_nil {text : List Char} (none : encode text = []) : text = [] := by
  cases text with
  | nil => rfl
  | cons c rest =>
    obtain ⟨lead, others, bytes⟩ := utf8_cons c
    rw [encode_cons, bytes] at none
    cases none

/-- One byte is one ASCII character. -/
theorem encode_one {text : List Char} (one : (encode text).length = 1) :
    ∃ c, text = [c] ∧ c.toNat < 0x80 := by
  cases text with
  | nil => cases one
  | cons c rest =>
    have positive := c.utf8Size_pos
    rw [encode_cons, List.length_append, String.length_utf8EncodeChar] at one
    have none : rest = [] := encode_eq_nil (List.length_eq_zero_iff.mp (by omega))
    have size : c.utf8Size = 1 := by omega
    rw [Char.utf8Size_eq_one_iff, UInt32.le_iff_toNat_le] at size
    refine ⟨c, by rw [none], ?_⟩
    exact Nat.lt_of_le_of_lt size (by decide)

/-- The first character of the text of some options, below the surrogates, is their first unit. -/
theorem first_single {c : Char} {chars : Nat} {after : List Char} (small : c.toNat < 0xd800)
    (decoded : decode endsLine (unitsAt m chars options) = c :: after) :
    0 < chars ∧ (pointee m options 0).toNat + 256 * (pointee m options 1).toNat = c.toNat ∧
      c.toNat ≠ 0 := by
  cases chars with
  | zero => cases decoded
  | succ chars =>
    have held := unit_held m options 0
    have start : options + UInt64.ofNat (2 * 0) = options := UInt64.add_zero options
    rw [start] at held
    rw [unitsAt] at decoded
    generalize (wordAt m options 2).toUInt16 = unit at held decoded
    obtain none | ⟨low, later, -, upper, lower, split⟩ | ⟨goesOn, split⟩ :=
      decode_cons endsLine unit (unitsAt m chars (options + 2))
    · rw [none] at decoded
      cases decoded
    · rw [split, List.cons.injEq] at decoded
      rw [← decoded.1, pair_toNat upper lower] at small
      omega
    · rw [split, List.cons.injEq] at decoded
      rw [← decoded.1] at small ⊢
      have alone : ¬(isHigh unit || isLow unit) = true := by
        intro surrogate
        rw [single_surrogate surrogate] at small
        omega
      rw [Bool.not_eq_true, Bool.or_eq_false_iff] at alone
      rw [single_toNat alone.1 alone.2]
      refine ⟨Nat.succ_pos chars, held.symm, ?_⟩
      intro zero
      have nul : unit = 0 := UInt16.toNat_inj.mp zero
      rw [nul] at goesOn
      cases goesOn

/-- The text that is kept is nothing, or the first part of the text of the units. -/
theorem keptText_split (m : Memory) (optionsSize : UInt32) (given : options ≠ 0) :
    keptText m options optionsSize = [] ∨ ∃ after,
      decode endsLine (unitsAt m (optionsSize.toNat / 2) options) =
        keptText m options optionsSize ++ after ∧
        (after = [] ∨ ∃ c later, after = c :: later ∧ isBlank c = true) := by
  have units : optionUnits m options optionsSize =
      unitsAt m (optionsSize.toNat / 2) options := if_pos (by simpa using given)
  rw [keptText, units]
  exact fitting_cases _

/-- Good options whose bytes are their own text have at most one character. -/
theorem ownConversion_of_agrees (given : options ≠ 0)
    (agrees : Agrees (pointee m options) (encode (keptText m options optionsSize)))
    (noNul : 0 ∉ encode (keptText m options optionsSize))
    (inside : (encode (keptText m options optionsSize)).length ≤ optionsSize.toNat) :
    keptText m options optionsSize = [] ∨
      (∃ c, keptText m options optionsSize = [c] ∧ c.toNat < 0x80) ∨
      (keptText m options optionsSize = [Char.ofNat 0xbfeb] ∧ 3 ≤ optionsSize.toNat ∧
        m (options + 2) = 0xab) := by
  rcases keptText_split m optionsSize given with none | ⟨after, decoded, stops⟩
  · exact .inl none
  by_cases empty : (encode (keptText m options optionsSize)).length = 0
  · exact .inl (encode_eq_nil (List.length_eq_zero_iff.mp empty))
  right
  by_cases one : (encode (keptText m options optionsSize)).length = 1
  · exact .inl (encode_one one)
  have only := text_of_agrees agrees noNul (by omega) (by omega) decoded stops
  right
  rw [only] at agrees inside
  exact ⟨only, inside, agrees 2 0xab rfl⟩

/-- A pointer that is not complained of is not null. -/
theorem checkPointerMsg_given (good : checkPointerMsg options = none) : options ≠ 0 := by
  rintro rfl
  cases good

/-- Bytes within the options are no more than they have. -/
theorem length_le_of_window {length : Nat}
    (inside : window options length ⊆ window options optionsSize.toNat) :
    length ≤ optionsSize.toNat := by
  have fromStart : window (options + 0) length ⊆ window options optionsSize.toUInt64.toNat := by
    rwa [UInt64.add_zero, UInt32.toNat_toUInt64]
  have fits := window_subset_iff.mp fromStart
  rw [UInt64.toNat_zero, UInt32.toNat_toUInt64] at fits
  omega

/-- A complaint holds no zero byte. -/
theorem checkPointerMsg_noNul {ptr : UInt64} (bad : checkPointerMsg ptr = some message) :
    0 ∉ message := by
  unfold checkPointerMsg at bad
  split at bad
  · cases bad
    decide
  · split at bad
    · cases bad
      decide
    · cases bad

/-- Where the formatter copies the text that is kept, the options are their own conversion. -/
theorem ownConversion_of_copied
    (same : Vsprintf.copied (source m options) (encode (keptText m options optionsSize)).length 0 =
      encode (keptText m options optionsSize))
    (inside : window options
        (optionsRead m (encode (keptText m options optionsSize)).length options) ⊆
      window options optionsSize.toNat) : OwnConversion m options optionsSize := by
  have noNul : 0 ∉ encode (keptText m options optionsSize) := by
    rw [← same]
    exact copied_noNul _ _ _
  unfold OwnConversion
  unfold source at same
  unfold optionsRead at inside
  cases good : checkPointerMsg options with
  | some message =>
    rw [good, copied_agrees noNul] at same
    exact .inr ((prefix_iff_agrees noNul).mpr same)
  | none =>
    rw [good] at same inside
    have reads := copyReads_full (congrArg List.length same)
    rw [if_neg (by decide), reads] at inside
    exact ownConversion_of_agrees (checkPointerMsg_given good) ((copied_agrees noNul).mp same)
      noNul (length_le_of_window inside)

/-- The options begin with a text of theirs. -/
structure Begins (m : Memory) (options : UInt64) (optionsSize : UInt32) (text : List UInt8) : Prop where
  /-- The text holds no zero byte. -/
  noNul : 0 ∉ text
  /-- The options start with the text. -/
  agrees : Agrees (pointee m options) text
  /-- The text lies in the options. -/
  fits : text.length ≤ optionsSize.toNat

/-- What the options begin with is copied, with no byte read behind it. -/
theorem Begins.copied (begins : Begins m options optionsSize text) :
    Vsprintf.copied (pointee m options) text.length 0 = text ∧
      window options (copyReads (pointee m options) text.length 0) ⊆
        window options optionsSize.toNat := by
  have same := (copied_agrees begins.noNul).mpr begins.agrees
  rw [copyReads_full (congrArg List.length same)]
  exact ⟨same, window_mono begins.fits⟩

variable {c : Char} {after : List Char}

/-- Options that begin with an ASCII character begin with its byte. -/
theorem begins_ascii (ascii : c.toNat < 0x80)
    (decoded : decode endsLine (unitsAt m (optionsSize.toNat / 2) options) = c :: after) :
    Begins m options optionsSize (encode [c]) := by
  obtain ⟨some, held, notNul⟩ := first_single (by omega) decoded
  have bytes : encode [c] = [UInt8.ofNat c.toNat] := by
    rw [encode_cons, encode_nil, List.append_nil, utf8_one ascii]
  have same : pointee m options 0 = UInt8.ofNat c.toNat := by
    apply UInt8.toNat_inj.mp
    rw [UInt8.toNat_ofNat']
    omega
  rw [bytes]
  refine ⟨?_, ?_, ?_⟩
  · rw [List.mem_singleton, ← same, ← UInt8.toNat_inj]
    change ¬0 = _
    omega
  · intro position byte found
    cases position with
    | zero =>
      cases found
      exact same
    | succ position => cases found
  · change 1 ≤ _
    omega

/-- Options that begin with this character begin with two bytes of it. -/
theorem begins_three (fits : 3 ≤ optionsSize.toNat) (third : m (options + 2) = 0xab)
    (decoded : decode endsLine (unitsAt m (optionsSize.toNat / 2) options) =
      Char.ofNat 0xbfeb :: after) :
    Begins m options optionsSize (encode [Char.ofNat 0xbfeb]) := by
  obtain ⟨-, held, -⟩ := first_single (by decide) decoded
  have value : (Char.ofNat 0xbfeb).toNat = 0xbfeb := rfl
  rw [value] at held
  have low := (pointee m options 0).toNat_lt
  have first : pointee m options 0 = 0xeb := by
    apply UInt8.toNat_inj.mp
    change _ = 0xeb
    omega
  have second : pointee m options 1 = 0xbf := by
    apply UInt8.toNat_inj.mp
    change _ = 0xbf
    omega
  have bytes : encode [Char.ofNat 0xbfeb] = [0xeb, 0xbf, 0xab] := rfl
  rw [bytes]
  refine ⟨by decide, ?_, fits⟩
  intro position byte found
  match position with
  | 0 =>
    cases found
    exact first
  | 1 =>
    cases found
    exact second
  | 2 =>
    cases found
    exact third
  | position + 3 => cases found

/-- Where the options are their own conversion, the formatter copies the text that is kept. -/
theorem copied_of_ownConversion (own : OwnConversion m options optionsSize) :
    Vsprintf.copied (source m options) (encode (keptText m options optionsSize)).length 0 =
        encode (keptText m options optionsSize) ∧
      window options (optionsRead m (encode (keptText m options optionsSize)).length options) ⊆
        window options optionsSize.toNat := by
  unfold source optionsRead
  unfold OwnConversion at own
  rcases own with none | own
  · rw [none]
    exact ⟨rfl, by simp [copyReads]⟩
  cases good : checkPointerMsg options with
  | some message =>
    rw [good] at own
    have noNul : 0 ∉ encode (keptText m options optionsSize) := fun member =>
      checkPointerMsg_noNul good (own.subset member)
    exact ⟨(copied_agrees noNul).mpr ((prefix_iff_agrees noNul).mp own), by simp⟩
  | none =>
    rw [good] at own
    have split := keptText_split m optionsSize (checkPointerMsg_given good)
    rcases own with ⟨c, kept, ascii⟩ | ⟨kept, fits, third⟩
    · rw [kept] at split ⊢
      rcases split with none | ⟨after, decoded, -⟩
      · cases none
      · exact (begins_ascii ascii decoded).copied
    · rw [kept] at split ⊢
      rcases split with none | ⟨after, decoded, -⟩
      · cases none
      · exact (begins_three fits third decoded).copied

/-- A run that returns a string converts the options exactly when they are their own conversion. -/
theorem Copies.converts_iff_own {result : ConvertedCmdline} (copies : Copies m image
      (encode (keptText m image.loadOptions image.loadOptionsSize)).length events result) :
    Converts m image events result ↔ OwnConversion m image.loadOptions image.loadOptionsSize := by
  rw [copies.converts_iff]
  exact ⟨fun copied => ownConversion_of_copied copied.1 copied.2, copied_of_ownConversion⟩

/-- A run that finds a block for its string converts the options exactly when they are their own
conversion. -/
theorem efiConvertCmdline_iff (blocks : BlocksFit events)
    (allocated : outcome ≠ some none) (run : Exec (efiConvertCmdline m image) events outcome) :
    (∃ result, outcome = some (some result) ∧ Converts m image events result) ↔
      OwnConversion m image.loadOptions image.loadOptionsSize := by
  obtain ⟨result, returned, copies⟩ := efiConvertCmdline_copies blocks allocated run
  rw [← copies.converts_iff_own]
  constructor
  · rintro ⟨other, same, converts⟩
    rw [returned, Option.some.injEq, Option.some.injEq] at same
    exact same ▸ converts
  · intro converts
    exact ⟨result, returned, converts⟩

/-- Letters in units from an address on. -/
def lettersAt (letters : List UInt8) : Memory := fun address =>
  (letters.flatMap fun letter => [letter, 0]).getD (address - 0x2000).toNat 0

/-- Firmware without the protocol that measures. -/
def unmeasuredFirmware (_ : List Event) : (call : Call) → Option call.Reply
  | .locateProtocol .. => some ⟨efiUnsupported, 0⟩
  | .allocatePool .. => some ⟨efiSuccess, 0x1000⟩
  | .reach .. => some ()
  | _ => none

/-- The run over letters. -/
def convertLetters (letters : List UInt8) (size : UInt32) : Stub (Option ConvertedCmdline) :=
  efiConvertCmdline (lettersAt letters) ⟨0x2000, size⟩

/-- A run on letters that returns is one of the program. -/
theorem convertLetters_exec (letters : List UInt8) (size : UInt32)
    (returns : ((convertLetters letters size).valueWith unmeasuredFirmware).isSome = true) :
    Exec (convertLetters letters size) ((convertLetters letters size).eventsWith unmeasuredFirmware)
      ((convertLetters letters size).valueWith unmeasuredFirmware) :=
  exec_eventsWith returns

/-- A run on letters that returns a string has not been refused the block. -/
theorem convertLetters_allocated (letters : List UInt8) (size : UInt32)
    (returns : ((convertLetters letters size).valueWith unmeasuredFirmware).map Option.isSome =
      some true) : (convertLetters letters size).valueWith unmeasuredFirmware ≠ some none := by
  intro none
  rw [none] at returns
  cases returns

/-- One letter is converted. -/
theorem efiConvertCmdline_iff_letter : ∃ result,
    (convertLetters [0x61] 2).valueWith unmeasuredFirmware = some (some result) ∧
      Converts (lettersAt [0x61]) ⟨0x2000, 2⟩ ((convertLetters [0x61] 2).eventsWith unmeasuredFirmware)
        result := by
  have run : Exec (efiConvertCmdline (lettersAt [0x61]) ⟨0x2000, 2⟩) _ _ :=
    convertLetters_exec [0x61] 2 (by decide +kernel)
  have kept : keptText (lettersAt [0x61]) 0x2000 2 = ['a'] := by decide +kernel
  have own : OwnConversion (lettersAt [0x61]) 0x2000 2 := .inr (.inl ⟨'a', kept, by decide⟩)
  exact (efiConvertCmdline_iff (by decide +kernel)
    (convertLetters_allocated [0x61] 2 (by decide +kernel)) run).mpr own

/-- Two letters are not. -/
theorem efiConvertCmdline_fails_letters :
    ¬∀ m image events outcome, BlocksFit events → outcome ≠ some none →
      Exec (efiConvertCmdline m image) events outcome →
        ∃ result, outcome = some (some result) ∧ Converts m image events result := by
  intro claim
  have run : Exec (efiConvertCmdline (lettersAt [0x61, 0x62]) ⟨0x2000, 4⟩) _ _ :=
    convertLetters_exec [0x61, 0x62] 4 (by decide +kernel)
  have blocks : BlocksFit ((convertLetters [0x61, 0x62] 4).eventsWith unmeasuredFirmware) := by
    decide +kernel
  have allocated := convertLetters_allocated [0x61, 0x62] 4 (by decide +kernel)
  obtain ⟨result, returned, copies⟩ := efiConvertCmdline_copies blocks allocated run
  obtain ⟨other, same, converts⟩ := claim _ _ _ _ blocks allocated run
  rw [returned, Option.some.injEq, Option.some.injEq] at same
  have own : OwnConversion (lettersAt [0x61, 0x62]) 0x2000 4 :=
    copies.converts_iff_own.mp (same ▸ converts)
  have kept : keptText (lettersAt [0x61, 0x62]) 0x2000 4 = ['a', 'b'] := by decide +kernel
  have good : checkPointerMsg 0x2000 = none := rfl
  rw [OwnConversion, kept, good] at own
  rcases own with none | ⟨c, one, -⟩ | ⟨three, -⟩
  · cases none
  · cases one
  · cases three

end DragonStub

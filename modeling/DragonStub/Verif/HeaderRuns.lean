import DragonStub.Boot.Elf

/-!
# Runs over the ELF headers

What `verify_ident`, `print_elf_info` and `parse_phdrs` read of a payload, and what they decide. A
decision is a function of the memory; what is read is a property of the events.
-/

namespace DragonStub

open ByteMemory Interaction Prog

variable {m : Memory} {events first second : List Event} {region : Set UInt64}

/-- Every access of a kind stays in a region. -/
def Within (access : UInt64 → Nat → Point) (region : Set UInt64) (events : List Event) : Prop :=
  ∀ event ∈ events, ∀ address length, event.op = .reach (access address length) →
    window address length ⊆ region

variable {access : UInt64 → Nat → Point}

/-- No events access nothing. -/
@[simp] theorem within_nil : Within access region [] := by simp [Within]

/-- A trace accesses a region when its first event and the rest do. -/
@[simp] theorem within_cons {event : Event} : Within access region (event :: events) ↔
    (∀ address length, event.op = .reach (access address length) →
      window address length ⊆ region) ∧ Within access region events := by
  simp [Within]

/-- Two parts of a trace access a region when both do. -/
@[simp] theorem within_append : Within access region (first ++ second) ↔
    Within access region first ∧ Within access region second := by
  simp [Within, or_imp, forall_and]

/-- Without points there are no accesses. -/
theorem Within.of_lacks (plain : Lacks Call.isPoint events) : Within access region events := by
  intro event member address length point
  have none := plain event member
  rw [point] at none
  cases none

/-- Console output, and reads inside a region. -/
def Call.looksAt (region : Set UInt64) : Call → Prop
  | .print .. => True
  | .reach (.read address length) => window address length ⊆ region
  | _ => False

/-- The events of a program that only prints and reads inside a region. -/
def Looks (region : Set UInt64) (events : List Event) : Prop :=
  ∀ event ∈ events, event.op.looksAt region

/-- No events look at nothing. -/
@[simp] theorem looks_nil : Looks region [] := by simp [Looks]

/-- A trace looks at a region when its first event and the rest do. -/
@[simp] theorem looks_cons {event : Event} :
    Looks region (event :: events) ↔ event.op.looksAt region ∧ Looks region events := by
  simp [Looks]

/-- Two parts of a trace look at a region when both do. -/
@[simp] theorem looks_append :
    Looks region (first ++ second) ↔ Looks region first ∧ Looks region second := by
  simp [Looks, or_imp, forall_and]

/-- Firmware that is only told what the stub has reached. -/
def toldFirmware (_ : List Event) : (call : Call) → Option call.Reply
  | .reach .. => some ()
  | _ => none

/-- What looks at a region looks at a wider one. -/
theorem Looks.mono {wider : Set UInt64} (looks : Looks region events) (wide : region ⊆ wider) :
    Looks wider events := by
  intro event member
  have seen := looks event member
  cases call : event.op with
  | print => trivial
  | reach point =>
    rw [call] at seen
    cases point with
    | read => exact seen.trans wide
    | _ => exact seen.elim
  | _ =>
    rw [call] at seen
    exact seen.elim

/-- What looks at a region reads inside it. -/
theorem Looks.reads (looks : Looks region events) : Within .read region events := by
  intro event member address length point
  have seen := looks event member
  rw [point] at seen
  exact seen

/-- What looks at a region writes nowhere. -/
theorem Looks.writes {other : Set UInt64} (looks : Looks region events) :
    Within .write other events := by
  intro event member address length point
  have seen := looks event member
  rw [point] at seen
  exact seen.elim

/-- A print looks at nothing. -/
@[simp] theorem looksAt_print {format : String} {args : List UInt64} :
    (Call.print format args).looksAt region := trivial

/-- A read looks at the window it reads. -/
@[simp] theorem looksAt_read {address : UInt64} {length : Nat} :
    (Call.reach (.read address length)).looksAt region ↔ window address length ⊆ region := Iff.rfl

variable {buf payloadStart payloadSize : UInt64}

/-- The bytes from an index on are the expected ones. -/
def magicAt (m : Memory) (buf : UInt64) : List UInt64 → UInt64 → Bool
  | [], _ => true
  | expected :: rest, i => wordAt m (buf + i) 1 == expected && magicAt m buf rest (i + 1)

/-- What `verify_ident` returns. -/
def identOk (m : Memory) (buf bufsize : UInt64) : Bool :=
  eiNident ≤ bufsize && magicAt m buf elfMag 0 && wordAt m (buf + eiVersion) 1 == evCurrent &&
    wordAt m (buf + eiClass) 1 == elfClass64

/-- Comparing the magic bytes gives whether they are there. -/
theorem verifyMagic_of_exec {expected : List UInt64} {i : UInt64} {outcome : Option Bool}
    (run : Exec (verifyMagic m buf expected i) events outcome) :
    outcome = some (magicAt m buf expected i) := by
  induction expected generalizing i events with
  | nil => exact (exec_ret.mp run).2
  | cons c rest ih =>
    simp only [verifyMagic, readWord, reading, perform_bind, call_bind, pure_eq_ret, ret_bind,
      efiErr, efiPrintk, exec_call, exec_ite, exec_ret, bne_iff_ne, not_not] at run
    obtain ⟨-, _, rfl, ⟨differs, -, _, rfl, rfl, rfl⟩ | ⟨same, run⟩⟩ := run
    · simp [magicAt, differs]
    · rw [ih run]
      simp [magicAt, same]

/-- The identification is inside the first sixteen bytes. -/
theorem verifyMagic_looks {expected : List UInt64} {i : UInt64}
    (inside : i.toNat + expected.length ≤ 16) :
    Calls (Call.looksAt (window buf 16)) (verifyMagic m buf expected i) := by
  induction expected generalizing i with
  | nil => exact calls_ret
  | cons c rest ih =>
    have size : (16 : UInt64).toNat = 16 := rfl
    rw [List.length_cons] at inside
    have next : (i + 1).toNat = i.toNat + 1 := by
      rw [UInt64.toNat_add, UInt64.toNat_one]
      omega
    have byte : window (buf + i) 1 ⊆ window buf 16 :=
      window_subset_of_le (by omega) (by decide)
    have later := ih (i := i + 1) (by omega)
    simp only [verifyMagic, readWord, reading, perform_bind, call_bind, pure_eq_ret, ret_bind,
      efiErr, efiPrintk, calls_call, looksAt_read]
    exact ⟨byte, fun _ => calls_ite (by simp) later⟩

/-- Comparing the identification gives whether it is that of an ELF file. -/
theorem verifyIdent_of_exec {outcome : Option Bool}
    (run : Exec (verifyIdent m buf payloadSize) events outcome) :
    outcome = some (identOk m buf payloadSize) := by
  simp only [verifyIdent, readWord, reading, efiErr, efiPrintk, perform_bind, call_bind,
    pure_eq_ret, ret_bind, exec_call, exec_ite, exec_bind, exec_ret, bne_iff_ne, not_not,
    Bool.not_eq_true'] at run
  rcases run with ⟨short, -, rfl⟩ | ⟨long, run⟩
  · simp [identOk, UInt64.not_le.mpr short]
  have enough : eiNident ≤ payloadSize := UInt64.not_lt.mp long
  rcases run with ⟨magic, _, _, -, checked, run⟩ | ⟨-, stuck⟩
  swap
  · cases verifyMagic_of_exec stuck
  obtain rfl := Option.some.inj (verifyMagic_of_exec checked)
  rcases run with ⟨differs, -, rfl⟩ | ⟨same, -, _, rfl, run⟩
  · simp [identOk, differs]
  rcases run with ⟨differs, -, _, rfl, -, rfl⟩ | ⟨version, -, _, rfl, run⟩
  · simp [identOk, differs]
  rcases run with ⟨differs, -, _, rfl, -, rfl⟩ | ⟨format, -, rfl⟩
  · simp [identOk, differs]
  · simp [identOk, enough, same, version, format]

/-- Comparing the identification looks at its sixteen bytes. -/
theorem verifyIdent_looks :
    Calls (Call.looksAt (window buf 16)) (verifyIdent m buf payloadSize) := by
  have magic : Calls (Call.looksAt (window buf 16)) (verifyMagic m buf elfMag 0) :=
    verifyMagic_looks (by decide)
  have version : window (buf + eiVersion) 1 ⊆ window buf 16 :=
    window_subset_of_le (by decide) (by decide)
  have format : window (buf + eiClass) 1 ⊆ window buf 16 :=
    window_subset_of_le (by decide) (by decide)
  unfold verifyIdent
  refine calls_ite calls_ret (magic.bind fun same => ?_)
  simp only [readWord, reading, efiErr, efiPrintk, perform_bind, call_bind, pure_eq_ret, ret_bind]
  refine calls_ite calls_ret ⟨version, fun _ => calls_ite (by simp) ⟨format, fun _ => ?_⟩⟩
  exact calls_ite (by simp) calls_ret

/-- A payload that is too short is not looked at. -/
theorem verifyIdent_short (short : payloadSize < eiNident)
    {outcome : Option Bool} (run : Exec (verifyIdent m buf payloadSize) events outcome) :
    events = [] := by
  simp only [verifyIdent, if_pos short, pure_eq_ret] at run
  exact (exec_ret.mp run).1

/-- `verify_ident` stays inside the payload, whatever its size. -/
theorem verifyIdent_inside {outcome : Option Bool}
    (run : Exec (verifyIdent m buf payloadSize) events outcome) :
    Looks (window buf payloadSize.toNat) events := by
  by_cases short : payloadSize < eiNident
  · rw [verifyIdent_short short run]
    simp
  · have enough : 16 ≤ payloadSize.toNat := UInt64.le_iff_toNat_le.mp (UInt64.not_lt.mp short)
    have wide : window buf 16 ⊆ window buf payloadSize.toNat := window_mono enough
    exact Looks.mono (verifyIdent_looks.events run) wide

/-- Behind the identification `elf_check` reads `e_machine`. -/
theorem elfCheck_reads {outcome : Option Bool}
    (run : Exec (elfCheck m payloadStart payloadSize) events outcome) :
    Within .read (window payloadStart payloadSize.toNat) events ↔
      (identOk m payloadStart payloadSize = true → 20 ≤ payloadSize.toNat) := by
  have field : window (payloadStart + eMachine.offset) eMachine.size ⊆
      window payloadStart payloadSize.toNat ↔ 20 ≤ payloadSize.toNat := by
    rw [window_subset_iff]
    simp [eMachine]
  simp only [elfCheck, exec_bind] at run
  rcases run with ⟨good, ident, rest, rfl, checked, run⟩ | ⟨-, stuck⟩
  swap
  · cases verifyIdent_of_exec stuck
  obtain rfl := Option.some.inj (verifyIdent_of_exec checked)
  have inside := (verifyIdent_inside checked).reads
  cases good : identOk m payloadStart payloadSize with
  | false =>
    simp only [good, Bool.not_false, if_true, pure_eq_ret, exec_ret] at run
    simp [inside, run.1]
  | true =>
    simp only [good, Bool.not_true, Bool.false_eq_true, if_false, readField, readWord, reading,
      efiErr, efiPrintk, perform_bind, call_bind, ret_bind, pure_eq_ret, exec_call, exec_ite,
      exec_ret] at run
    obtain ⟨-, _, rfl, ⟨-, -, _, rfl, -, _, rfl, rfl, -⟩ | ⟨-, rfl, -⟩⟩ := run
    · simp [inside, field]
    · simp [inside, field]

/-- The header is handed out when the identification is that of an ELF file. -/
theorem elfGetHeader_of_exec {outcome : Option (Except EfiStatus UInt64)}
    (run : Exec (elfGetHeader m payloadStart payloadSize) events outcome) :
    identOk m payloadStart payloadSize = true ∧ Looks (window payloadStart 64) events ∧
        outcome = some (.ok payloadStart) ∨
      identOk m payloadStart payloadSize = false ∧
        Looks (window payloadStart payloadSize.toNat) events ∧
        outcome = some (.error efiInvalidParameter) := by
  simp only [elfGetHeader, exec_bind] at run
  rcases run with ⟨good, ident, rest, rfl, checked, run⟩ | ⟨-, stuck⟩
  swap
  · cases verifyIdent_of_exec stuck
  obtain rfl := Option.some.inj (verifyIdent_of_exec checked)
  cases good : identOk m payloadStart payloadSize with
  | false =>
    simp only [good, Bool.not_false, if_true, pure_eq_ret, exec_ret] at run
    obtain ⟨rfl, rfl⟩ := run
    rw [List.append_nil]
    exact .inr ⟨rfl, verifyIdent_inside checked, rfl⟩
  | true =>
    simp only [good, Bool.not_true, Bool.false_eq_true, if_false, pure_eq_ret, exec_ret] at run
    obtain ⟨rfl, rfl⟩ := run
    rw [List.append_nil]
    have looks : Looks (window payloadStart 16) ident := verifyIdent_looks.events checked
    exact .inl ⟨rfl, looks.mono (window_mono (by decide)), rfl⟩

/-- `print_elf_info` reads each field of its list, and they all lie in the header. -/
theorem printFields_of_exec {ehdr : UInt64} {lines : List (String × Field)} {outcome : Option Unit}
    (inside : ∀ line ∈ lines, line.2.offset.toNat + line.2.size ≤ 64)
    (run : Exec (printFields m ehdr lines) events outcome) :
    outcome = some () ∧ Looks (window ehdr 64) events ∧ ∀ line ∈ lines,
      (⟨.reach (.read (ehdr + line.2.offset) line.2.size), ()⟩ : Event) ∈ events := by
  induction lines generalizing events with
  | nil =>
    simp only [printFields, pure_eq_ret, exec_ret] at run
    obtain ⟨rfl, rfl⟩ := run
    simp
  | cons line rest ih =>
    simp only [printFields, readField, readWord, reading, efiPrintk, perform_bind, call_bind,
      ret_bind, pure_eq_ret, exec_call] at run
    obtain ⟨-, _, rfl, -, _, rfl, run⟩ := run
    obtain ⟨returned, looks, listed⟩ :=
      ih (fun line member => inside line (List.mem_cons_of_mem _ member)) run
    have field : window (ehdr + line.2.offset) line.2.size ⊆ window ehdr 64 :=
      window_subset_of_le (inside line List.mem_cons_self) (by decide)
    refine ⟨returned, ?_, ?_⟩
    · simpa [field] using looks
    · simpa using fun name field member => .inr (listed (name, field) member)

/-- Printing the header looks at it, up to its last field. -/
theorem printElfInfo_of_exec {ehdr : UInt64} {outcome : Option Unit}
    (run : Exec (printElfInfo m ehdr) events outcome) :
    outcome = some () ∧ Looks (window ehdr 64) events ∧
      (⟨.reach (.read (ehdr + eShstrndx.offset) eShstrndx.size), ()⟩ : Event) ∈ events := by
  simp only [printElfInfo, efiInfo, efiPrintk, perform_bind, exec_call] at run
  obtain ⟨-, rest, rfl, run⟩ := run
  obtain ⟨returned, looks, listed⟩ := printFields_of_exec (by decide) run
  have last := listed ("  e_shstrndx: %d\n", eShstrndx) (by simp [elfInfoLines])
  refine ⟨returned, ?_, List.mem_cons_of_mem _ last⟩
  simpa using looks

section Table

variable (m payloadStart payloadSize)

/-- The header has program headers of the expected size. -/
def HasPhdrs : Prop :=
  fieldAt m payloadStart ePhnum ≠ 0 ∧ fieldAt m payloadStart ePhentsize = elf64PhdrSize

/-- The number of program headers is in section header 0. -/
def Extended : Prop := (fieldAt m payloadStart ePhnum).toUInt16 = pnXnum

/-- Section header 0 passes the test of `parse_phdrs`. -/
def SectionAccepted : Prop :=
  fieldAt m payloadStart eShoff ≠ 0 ∧
    fieldAt m payloadStart eShoff + elf64ShdrSize ≤ payloadSize

/-- The number in section header 0, cut to 16 bits. -/
def extendedCount : UInt16 :=
  (shInfoAt m (payloadStart + fieldAt m payloadStart eShoff)).toUInt16

/-- Whether the count stands in a section header can be computed. -/
instance : Decidable (Extended m payloadStart) := inferInstanceAs (Decidable (_ = _))

/-- The number of program headers that `parse_phdrs` works with. -/
def phdrCount : UInt16 :=
  if Extended m payloadStart then extendedCount m payloadStart
  else (fieldAt m payloadStart ePhnum).toUInt16

/-- `parse_phdrs` reads section header 0. -/
def ReadsSection : Prop :=
  HasPhdrs m payloadStart ∧ Extended m payloadStart ∧ SectionAccepted m payloadStart payloadSize

/-- `parse_phdrs` accepts the table of program headers. -/
def TableAccepted : Prop :=
  HasPhdrs m payloadStart ∧
    (Extended m payloadStart →
      SectionAccepted m payloadStart payloadSize ∧ extendedCount m payloadStart ≠ 0) ∧
    fieldAt m payloadStart ePhoff + (phdrCount m payloadStart).toUInt64 * elf64PhdrSize ≤
      payloadSize

end Table

/-- A header field is inside the header. -/
theorem field_inside (ehdr : UInt64) (field : Field)
    (fits : field.offset.toNat + field.size ≤ 64) :
    window (ehdr + field.offset) field.size ⊆ window ehdr 64 :=
  window_subset_of_le fits (by decide)

/-- A run that refuses a table, or gives a result under a condition, with the condition under which
it reads section header 0. -/
structure ParseRun {α : Type} (m : Memory) (payloadStart : UInt64) (accepts reads : Prop)
    (accepted : α) (events : List Event) (outcome : Option (Except EfiStatus α)) : Prop where
  /-- The result is decided by the condition. -/
  decided : accepts ∧ outcome = some (.ok accepted) ∨
    ¬accepts ∧ ∃ status, status ≠ efiSuccess ∧ outcome = some (.error status)
  /-- Nothing is asked and nothing written. -/
  looks : Looks Set.univ events
  /-- Besides the header, section header 0 is read under its condition. -/
  reads : ∀ region, window payloadStart 64 ⊆ region → (Within .read region events ↔
    (reads → window (payloadStart + fieldAt m payloadStart eShoff) 64 ⊆ region))

/-- A run that ends with an error was not to accept. -/
theorem ParseRun.refused {α : Type} {accepts reads : Prop} {accepted : α} {status : EfiStatus}
    (run : ParseRun m payloadStart accepts reads accepted events (some (.error status))) :
    ¬accepts := by
  rcases run.decided with ⟨-, impossible⟩ | ⟨refused, -⟩
  · cases impossible
  · exact refused

/-- A run that ends with a value was to accept. -/
theorem ParseRun.passed {α : Type} {accepts reads : Prop} {accepted value : α}
    (run : ParseRun m payloadStart accepts reads accepted events (some (.ok value))) :
    accepts := by
  rcases run.decided with ⟨passed, -⟩ | ⟨-, _, -, impossible⟩
  · exact passed
  · cases impossible

/-- Every run that counts the program headers, for both ways of counting. -/
theorem parsePhnum_of_exec {outcome : Option (Except EfiStatus UInt16)}
    (run : Exec (parsePhnum m payloadStart payloadSize payloadStart) events outcome) :
    ParseRun m payloadStart (Extended m payloadStart → SectionAccepted m payloadStart payloadSize ∧
        extendedCount m payloadStart ≠ 0)
      (Extended m payloadStart ∧ SectionAccepted m payloadStart payloadSize)
      (phdrCount m payloadStart) events outcome := by
  have phnum := field_inside payloadStart ePhnum (by decide)
  have shoff := field_inside payloadStart eShoff (by decide)
  simp only [parsePhnum, readField, readWord, reading, efiErr, efiPrintk, perform_bind, call_bind,
    ret_bind, pure_eq_ret, exec_call, exec_ite, exec_ret, beq_iff_eq] at run
  obtain ⟨-, _, rfl, ⟨extended, -, _, rfl, run⟩ | ⟨plain, rfl, rfl⟩⟩ := run
  swap
  · have direct : ¬Extended m payloadStart := plain
    refine ⟨.inl ⟨fun extended => absurd extended direct, by simp [phdrCount, direct, fieldAt]⟩,
      by simp, fun region wide => ?_⟩
    simp [direct, phnum.trans wide]
  have extended : Extended m payloadStart := extended
  rcases run with ⟨zero, -, _, rfl, rfl, rfl⟩ | ⟨some, ⟨far, -, _, rfl, rfl, rfl⟩ | ⟨near, run⟩⟩
  · have refused : ¬SectionAccepted m payloadStart payloadSize := fun accepted => accepted.1 zero
    refine ⟨.inr ⟨fun accepts => refused (accepts extended).1, _, by decide, rfl⟩,
      by simp, fun region wide => ?_⟩
    simp [refused, phnum.trans wide, shoff.trans wide]
  · have refused : ¬SectionAccepted m payloadStart payloadSize :=
      fun accepted => UInt64.not_lt.mpr accepted.2 far
    refine ⟨.inr ⟨fun accepts => refused (accepts extended).1, _, by decide, rfl⟩,
      by simp, fun region wide => ?_⟩
    simp [refused, phnum.trans wide, shoff.trans wide]
  · have accepted : SectionAccepted m payloadStart payloadSize := ⟨some, UInt64.not_lt.mp near⟩
    have section0 : elf64ShdrSize.toNat = 64 := rfl
    obtain ⟨-, _, rfl, ⟨none, -, _, rfl, rfl, rfl⟩ | ⟨count, rfl, rfl⟩⟩ := run
    · refine ⟨.inr ⟨fun accepts => (accepts extended).2 none, _, by decide, rfl⟩,
        by simp, fun region wide => ?_⟩
      simp [extended, accepted, phnum.trans wide, shoff.trans wide, section0, fieldAt]
    · refine ⟨.inl ⟨fun _ => ⟨accepted, count⟩, by simp [phdrCount, extended, extendedCount,
        fieldAt]⟩, by simp, fun region wide => ?_⟩
      simp [extended, accepted, phnum.trans wide, shoff.trans wide, section0, fieldAt]

/-- Every run that locates the program headers. -/
theorem parsePhdrs_of_exec {outcome : Option (Except EfiStatus (UInt32 × UInt64))}
    (run : Exec (parsePhdrs m payloadStart payloadSize payloadStart) events outcome) :
    ParseRun m payloadStart (TableAccepted m payloadStart payloadSize)
      (ReadsSection m payloadStart payloadSize)
      ((phdrCount m payloadStart).toUInt32, payloadStart + fieldAt m payloadStart ePhoff)
      events outcome := by
  have phnum := field_inside payloadStart ePhnum (by decide)
  have phentsize := field_inside payloadStart ePhentsize (by decide)
  have phoff := field_inside payloadStart ePhoff (by decide)
  simp only [parsePhdrs, readField, readWord, reading, efiErr, efiPrintk, perform_bind, call_bind,
    ret_bind, pure_eq_ret, exec_call, exec_ite, exec_ret, beq_iff_eq, bne_iff_ne, not_not] at run
  obtain ⟨-, _, rfl, ⟨none, -, _, rfl, rfl, rfl⟩ | ⟨some, -, _, rfl, run⟩⟩ := run
  · have refused : ¬HasPhdrs m payloadStart := fun has => has.1 none
    refine ⟨.inr ⟨fun accepts => refused accepts.1, _, by decide, rfl⟩, by simp,
      fun region wide => ?_⟩
    simp [ReadsSection, refused, phnum.trans wide]
  rcases run with ⟨other, -, _, rfl, -, _, rfl, rfl, rfl⟩ | ⟨size, run⟩
  · have refused : ¬HasPhdrs m payloadStart := fun has => other has.2
    refine ⟨.inr ⟨fun accepts => refused accepts.1, _, by decide, rfl⟩, by simp,
      fun region wide => ?_⟩
    simp [ReadsSection, refused, phnum.trans wide, phentsize.trans wide]
  have has : HasPhdrs m payloadStart := ⟨some, size⟩
  rw [exec_bind] at run
  rcases run with ⟨counted, counting, rest, rfl, count, run⟩ | ⟨-, stuck⟩
  swap
  · rcases (parsePhnum_of_exec stuck).decided with ⟨-, impossible⟩ | ⟨-, _, -, impossible⟩
    · cases impossible
    · cases impossible
  obtain ⟨decided, looks, reads⟩ := parsePhnum_of_exec count
  have section0 : ReadsSection m payloadStart payloadSize ↔
      Extended m payloadStart ∧ SectionAccepted m payloadStart payloadSize := by
    simp [ReadsSection, has]
  rcases decided with ⟨accepts, result⟩ | ⟨refused, status, failed, result⟩
  swap
  · obtain rfl := Option.some.inj result
    obtain ⟨rfl, rfl⟩ := exec_ret.mp run
    refine ⟨.inr ⟨fun accepts => refused accepts.2.1, status, failed, rfl⟩, ?_,
      fun region wide => ?_⟩
    · simpa using looks
    · simp [section0, reads region wide, phnum.trans wide, phentsize.trans wide]
  obtain rfl := Option.some.inj result
  have entry : fieldAt m payloadStart ePhentsize = elf64PhdrSize := size
  have total : wordAt m (payloadStart + ePhentsize.offset) ePhentsize.size = elf64PhdrSize := size
  simp only [exec_call, exec_ite, exec_ret] at run
  obtain ⟨-, _, rfl, -, _, rfl, ⟨far, -, _, rfl, rfl, rfl⟩ | ⟨near, rfl, rfl⟩⟩ := run
  · rw [total] at far
    refine ⟨.inr ⟨fun accepted => UInt64.not_lt.mpr accepted.2.2 far, _, by decide, rfl⟩, ?_,
      fun region wide => ?_⟩
    · simpa using looks
    · simp [section0, reads region wide, phnum.trans wide, phentsize.trans wide, phoff.trans wide]
  · rw [total] at near
    refine ⟨.inl ⟨⟨has, accepts, UInt64.not_lt.mp near⟩, by simp [fieldAt]⟩, ?_,
      fun region wide => ?_⟩
    · simpa using looks
    · simp [section0, reads region wide, phnum.trans wide, phentsize.trans wide, phoff.trans wide]

end DragonStub

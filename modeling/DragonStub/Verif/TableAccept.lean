import DragonStub.Verif.ProgramBounds

/-!
# The program header table

How many program headers the ELF format gives a file, and which tables lie in the payload. The
format counts up to 32 bits; `parse_phdrs` counts in 16 bits and compares wrapped sums.
-/

namespace DragonStub

open ByteMemory Interaction Prog

variable {m : Memory} {payloadStart payloadSize : UInt64} {events : List Event}

/-- The number of program headers that the ELF format gives a file: `e_phnum`, or the whole `sh_info`
of section header 0 when that is `PN_XNUM`. -/
def elfPhdrCount (m : Memory) (payloadStart : UInt64) : Nat :=
  if Extended m payloadStart then
    (shInfoAt m (payloadStart + fieldAt m payloadStart eShoff)).toNat
  else (fieldAt m payloadStart ePhnum).toNat

/-- The table of a file lies in the payload: it is not empty, section header 0 is there if it is
needed, and so are all program headers. -/
structure TableInPayload (m : Memory) (payloadStart payloadSize : UInt64) : Prop where
  /-- There are program headers. -/
  nonempty : elfPhdrCount m payloadStart ≠ 0
  /-- Section header 0 is in the payload. -/
  section0 : Extended m payloadStart → fieldAt m payloadStart eShoff ≠ 0 ∧
    (fieldAt m payloadStart eShoff).toNat + 64 ≤ payloadSize.toNat
  /-- Every program header is in the payload. -/
  table : (fieldAt m payloadStart ePhoff).toNat + elfPhdrCount m payloadStart * 56 ≤
    payloadSize.toNat

/-- The sums that `parse_phdrs` compares do not wrap. -/
structure SumsFit (m : Memory) (payloadStart : UInt64) : Prop where
  /-- The end of section header 0. -/
  section0 : Extended m payloadStart → (fieldAt m payloadStart eShoff).toNat + 64 < 2 ^ 64
  /-- The end of the table. -/
  table : (fieldAt m payloadStart ePhoff).toNat + (phdrCount m payloadStart).toNat * 56 < 2 ^ 64

/-- The count of `parse_phdrs` is that of the format, cut to 16 bits. -/
theorem phdrCount_toNat : (phdrCount m payloadStart).toNat = elfPhdrCount m payloadStart % 2 ^ 16 := by
  unfold phdrCount elfPhdrCount
  by_cases extended : Extended m payloadStart
  · rw [if_pos extended, if_pos extended, extendedCount, UInt64.toNat_toUInt16]
  · rw [if_neg extended, if_neg extended, UInt64.toNat_toUInt16]

/-- The test of the end of the table compares the exact end when that does not wrap. -/
theorem table_test (payloadSize : UInt64)
    (fits : (fieldAt m payloadStart ePhoff).toNat + (phdrCount m payloadStart).toNat * 56 < 2 ^ 64) :
    fieldAt m payloadStart ePhoff + (phdrCount m payloadStart).toUInt64 * elf64PhdrSize ≤
        payloadSize ↔
      (fieldAt m payloadStart ePhoff).toNat + (phdrCount m payloadStart).toNat * 56 ≤
        payloadSize.toNat := by
  have size : elf64PhdrSize.toNat = 56 := rfl
  have count := (phdrCount m payloadStart).toNat_lt
  have product : ((phdrCount m payloadStart).toUInt64 * elf64PhdrSize).toNat =
      (phdrCount m payloadStart).toNat * 56 := by
    rw [UInt64.toNat_mul, UInt16.toNat_toUInt64, size, Nat.mod_eq_of_lt (by omega)]
  rw [UInt64.le_iff_toNat_le, UInt64.toNat_add, product, Nat.mod_eq_of_lt fits]

/-- The test of the section header is exact where its sum does not wrap. -/
theorem section_test (payloadSize : UInt64)
    (fits : (fieldAt m payloadStart eShoff).toNat + 64 < 2 ^ 64) :
    SectionAccepted m payloadStart payloadSize ↔ fieldAt m payloadStart eShoff ≠ 0 ∧
      (fieldAt m payloadStart eShoff).toNat + 64 ≤ payloadSize.toNat := by
  have size : elf64ShdrSize.toNat = 64 := rfl
  unfold SectionAccepted
  rw [UInt64.le_iff_toNat_le, UInt64.toNat_add, size, Nat.mod_eq_of_lt fits]

/-- When the count is not cut and no sum wraps, the tests are those of the format. -/
theorem tableAccepted_iff
    (entries : fieldAt m payloadStart ePhentsize = elf64PhdrSize)
    (small : elfPhdrCount m payloadStart < 2 ^ 16) (sums : SumsFit m payloadStart) :
    TableAccepted m payloadStart payloadSize ↔ TableInPayload m payloadStart payloadSize := by
  have count : (phdrCount m payloadStart).toNat = elfPhdrCount m payloadStart := by
    rw [phdrCount_toNat, Nat.mod_eq_of_lt small]
  have table := table_test payloadSize sums.table
  rw [count] at table
  by_cases extended : Extended m payloadStart
  · have nonzero : fieldAt m payloadStart ePhnum ≠ 0 := by
      intro zero
      unfold Extended at extended
      rw [zero] at extended
      cases extended
    have zero : extendedCount m payloadStart ≠ 0 ↔ elfPhdrCount m payloadStart ≠ 0 := by
      have same : phdrCount m payloadStart = extendedCount m payloadStart := if_pos extended
      rw [← count, same, ne_eq, ne_eq, ← UInt16.toNat_inj, UInt16.toNat_zero]
    have inside := section_test payloadSize (sums.section0 extended)
    constructor
    · rintro ⟨-, extra, ends⟩
      obtain ⟨accepted, some⟩ := extra extended
      exact ⟨zero.mp some, fun _ => inside.mp accepted, table.mp ends⟩
    · intro good
      exact ⟨⟨nonzero, entries⟩, fun _ => ⟨inside.mpr (good.section0 extended),
        zero.mpr good.nonempty⟩, table.mpr good.table⟩
  · have same : elfPhdrCount m payloadStart = (fieldAt m payloadStart ePhnum).toNat :=
      if_neg extended
    have zero : fieldAt m payloadStart ePhnum ≠ 0 ↔ elfPhdrCount m payloadStart ≠ 0 := by
      rw [same, ne_eq, ne_eq, ← UInt64.toNat_inj, UInt64.toNat_zero]
    constructor
    · rintro ⟨⟨some, -⟩, -, ends⟩
      exact ⟨zero.mp some, fun other => absurd other extended, table.mp ends⟩
    · intro good
      exact ⟨⟨zero.mpr good.nonempty, entries⟩, fun other => absurd other extended,
        table.mpr good.table⟩

/-- A table in the payload of a countable number of headers has sums that fit. -/
theorem TableInPayload.sums (good : TableInPayload m payloadStart payloadSize)
    (small : elfPhdrCount m payloadStart < 2 ^ 16) : SumsFit m payloadStart := by
  have bound := payloadSize.toNat_lt
  have table := good.table
  refine ⟨fun extended => ?_, ?_⟩
  · have inside := (good.section0 extended).2
    omega
  · rw [phdrCount_toNat, Nat.mod_eq_of_lt small]
    omega

/-- What `parse_phdrs` is for: it succeeds for the tables in the payload, and returns their number of
headers. -/
structure ParsesTable (m : Memory) (payloadStart payloadSize : UInt64)
    (outcome : Option (Except EfiStatus (UInt32 × UInt64))) : Prop where
  /-- It succeeds for the tables in the payload. -/
  accepts : (∃ parsed, outcome = some (.ok parsed)) ↔ TableInPayload m payloadStart payloadSize
  /-- It returns the number of the format. -/
  counts : ∀ parsed, outcome = some (.ok parsed) → parsed.1.toNat = elfPhdrCount m payloadStart

/-- `parse_phdrs` succeeds for the tables in the payload, with their number of headers, exactly when
every table that it or the format accepts has a number of 16 bits, and every table that it accepts
has sums that do not wrap. -/
theorem parse_phdrs_iff {outcome : Option (Except EfiStatus (UInt32 × UInt64))}
    (entries : fieldAt m payloadStart ePhentsize = elf64PhdrSize)
    (run : Exec (parsePhdrs m payloadStart payloadSize payloadStart) events outcome) :
    ParsesTable m payloadStart payloadSize outcome ↔
      (TableAccepted m payloadStart payloadSize ∨ TableInPayload m payloadStart payloadSize →
        elfPhdrCount m payloadStart < 2 ^ 16) ∧
      (TableAccepted m payloadStart payloadSize → SumsFit m payloadStart) := by
  have accepts : (∃ parsed, outcome = some (.ok parsed)) ↔
      TableAccepted m payloadStart payloadSize := by
    rcases (parsePhdrs_of_exec run).decided with ⟨accepted, rfl⟩ | ⟨refused, status, -, rfl⟩
    · exact iff_of_true ⟨_, rfl⟩ accepted
    · exact iff_of_false (by simp) refused
  have counts (parsed : UInt32 × UInt64) (ok : outcome = some (.ok parsed)) :
      parsed.1.toNat = elfPhdrCount m payloadStart % 2 ^ 16 := by
    rcases (parsePhdrs_of_exec run).decided with ⟨-, same⟩ | ⟨-, status, -, same⟩
    · rw [ok] at same
      obtain rfl := Except.ok.inj (Option.some.inj same)
      rw [← phdrCount_toNat]
      exact UInt16.toNat_toUInt32 _
    · rw [ok] at same
      cases same
  constructor
  · intro parses
    have small : TableAccepted m payloadStart payloadSize → elfPhdrCount m payloadStart < 2 ^ 16 := by
      intro accepted
      obtain ⟨parsed, ok⟩ := accepts.mpr accepted
      have whole := parses.counts parsed ok
      have cut := counts parsed ok
      omega
    have same : TableAccepted m payloadStart payloadSize ↔
        TableInPayload m payloadStart payloadSize := accepts.symm.trans parses.accepts
    refine ⟨fun either => ?_, fun accepted => ?_⟩
    · rcases either with accepted | good
      · exact small accepted
      · exact small (same.mpr good)
    · exact (same.mp accepted).sums (small accepted)
  · rintro ⟨small, sums⟩
    refine ⟨accepts.trans ⟨fun accepted => ?_, fun good => ?_⟩, fun parsed ok => ?_⟩
    · exact (tableAccepted_iff entries (small (.inl accepted)) (sums accepted)).mp accepted
    · have few := small (.inr good)
      exact (tableAccepted_iff entries few (good.sums few)).mpr good
    · have few := small (.inl (accepts.mp ⟨parsed, ok⟩))
      rw [counts parsed ok, Nat.mod_eq_of_lt few]

/-- The table of the plain kernel. -/
theorem parse_phdrs_iff_plain :
    ParsesTable plainKernel 0x100000 184
        ((parsePhdrs plainKernel 0x100000 184 0x100000).valueWith (loaderFirmware efiSuccess)) ↔
      (TableAccepted plainKernel 0x100000 184 ∨ TableInPayload plainKernel 0x100000 184 →
        elfPhdrCount plainKernel 0x100000 < 2 ^ 16) ∧
      (TableAccepted plainKernel 0x100000 184 → SumsFit plainKernel 0x100000) :=
  parse_phdrs_iff (by decide +kernel) (exec_eventsWith (by decide +kernel))

/-- A header whose number of program headers is in section header 0: 65537 of them. -/
def manyKernel : Memory := memoryWith 0x100000
  ([0x7F, 0x45, 0x4C, 0x46, 2, 1, 1, 0, 0, 0, 0, 0, 0, 0, 0, 0] ++ leBytes 2 2 ++ leBytes 243 2 ++
    leBytes 1 4 ++ leBytes 0 8 ++ leBytes 128 8 ++ leBytes 64 8 ++ leBytes 0 4 ++ leBytes 64 2 ++
    leBytes 56 2 ++ leBytes 0xFFFF 2 ++ leBytes 64 2 ++ leBytes 1 2 ++ leBytes 0 2 ++
    leBytes 0 44 ++ leBytes 65537 4 ++ leBytes 0 16)

/-- Of 65537 program headers, one is left. -/
theorem parse_phdrs_drops : ¬∀ m payloadStart payloadSize events outcome,
    fieldAt m payloadStart ePhentsize = elf64PhdrSize →
    Exec (parsePhdrs m payloadStart payloadSize payloadStart) events outcome →
      ParsesTable m payloadStart payloadSize outcome := by
  intro claim
  have value : (parsePhdrs manyKernel 0x100000 0x400000 0x100000).valueWith
      (loaderFirmware efiSuccess) = some (.ok (1, 0x100080)) := by decide +kernel
  have run := exec_eventsWith (Option.isSome_iff_exists.mpr ⟨_, value⟩)
  rw [value] at run
  have counts := (claim _ _ _ _ _ (by decide +kernel) run).counts _ rfl
  revert counts
  decide +kernel

end DragonStub

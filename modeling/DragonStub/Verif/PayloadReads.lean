import DragonStub.Verif.ProgramBounds

/-!
# What is read of a payload

The loader reads header fields, section header 0, the program headers and the segments. Each access
behind the identification is guarded by a comparison of a wrapping sum, or not at all; the reads
stay in the payload exactly when the header is there and none of the sums wraps.
-/

namespace DragonStub

open ByteMemory Interaction Prog

variable {m : Memory} {events : List Event} {payloadStart payloadSize phdrStart base size : UInt64}
  {phdrsNr : UInt32} {region : Set UInt64}

/-- The segments that a run of `load_program` copies, for the region it is shown to obtain. -/
def copiedInto (m : Memory) (payloadStart payloadSize phdrStart : UInt64) (phdrsNr : UInt32)
    (base size : UInt64) : List Elf64Phdr :=
  copied payloadStart payloadSize base (tableExtent m phdrStart phdrsNr).minPaddr phdrsNr.toNat
    phdrStart (zeroed m base size)

/-- Every segment that a run copies satisfies a condition. -/
def CopiesAll (m : Memory) (payloadStart payloadSize phdrStart : UInt64) (phdrsNr : UInt32)
    (events : List Event) (condition : Elf64Phdr → Prop) : Prop :=
  ∀ base size, Obtains base size events →
    ∀ header ∈ copiedInto m payloadStart payloadSize phdrStart phdrsNr base size, condition header

/-- `load_program` reads the table and the segments it copies. -/
theorem ProgramRun.reads {result : Except EfiStatus Program × Memory}
    (run : ProgramRun m payloadStart payloadSize phdrStart phdrsNr events result) :
    Within .read region events ↔ Within .read region (tableReads phdrStart phdrsNr.toNat) ∧
      CopiesAll m payloadStart payloadSize phdrStart phdrsNr events fun header =>
        window (header.src payloadStart) header.pFilesz.toNat ⊆ region := by
  have each {base size : UInt64} (shown : Obtains base size events) :
      Within .read region events ↔ Within .read region (tableReads phdrStart phdrsNr.toNat) ∧
        ∀ header ∈ copiedInto m payloadStart payloadSize phdrStart phdrsNr base size,
          window (header.src payloadStart) header.pFilesz.toNat ⊆ region := by
    obtain ⟨-, copy, copies, status, copying, -, -, -, reads⟩ := run.obtains shown
    rw [reads]
    refine and_congr_right fun table => ?_
    rw [copying.reads table, copying.headers_eq]
    rfl
  by_cases shown : ∃ base size, Obtains base size events
  · obtain ⟨base, size, shown⟩ := shown
    constructor
    · intro inside
      exact ⟨((each shown).mp inside).1, fun other length also => ((each also).mp inside).2⟩
    · rintro ⟨table, all⟩
      exact (each shown).mpr ⟨table, all base size shown⟩
  · have none : CopiesAll m payloadStart payloadSize phdrStart phdrsNr events fun header =>
        window (header.src payloadStart) header.pFilesz.toNat ⊆ region :=
      fun base size also => absurd ⟨base, size, also⟩ shown
    rw [and_iff_left none]
    exact run.reads_of_none fun base size also => shown ⟨base, size, also⟩

variable {condition : Elf64Phdr → Prop} {first second : List Event}

/-- Events that show no region do not matter. -/
theorem copiesAll_append (quiet : ∀ base size, ¬Obtains base size second) :
    CopiesAll m payloadStart payloadSize phdrStart phdrsNr (first ++ second) condition ↔
      CopiesAll m payloadStart payloadSize phdrStart phdrsNr first condition := by
  simp only [CopiesAll, obtains_append, quiet, or_false]

/-- Copies are looked for behind what obtains no region. -/
theorem copiesAll_prepend (quiet : ∀ base size, ¬Obtains base size first) :
    CopiesAll m payloadStart payloadSize phdrStart phdrsNr (first ++ second) condition ↔
      CopiesAll m payloadStart payloadSize phdrStart phdrsNr second condition := by
  simp only [CopiesAll, obtains_append, quiet, false_or]

/-- The table for the kernel is installed without a read. -/
theorem InstallRun.quiet (region : Set UInt64) {info : PayloadInfo} {result : EfiStatus × Memory}
    (run : InstallRun m info events result) :
    Within .read region events ∧ ∀ base size, ¬Obtains base size events := by
  cases run with
  | noPool tbl refused printed =>
    exact ⟨by simp [printed.none], fun base size shown =>
      (List.mem_cons.mp shown).elim (fun same => by cases same) printed.not_obtains⟩
  | noTable tbl granted status refused printed =>
    refine ⟨by simp [tableEvents, printed.none], fun base size shown => ?_⟩
    rcases List.mem_append.mp shown with shown | shown
    · simp [tableEvents] at shown
    · exact (List.mem_cons.mp shown).elim (fun same => by cases same) printed.not_obtains
  | installed => simp [tableEvents, Obtains]

/-- What `load_elf` does once `load_program` has returned reads the header only. -/
theorem SegmentsRun.split (region : Set UInt64) {image : StubImage} {info : PayloadInfo} {ehdr : UInt64}
    {result : EfiStatus × PayloadInfo × Memory}
    (run : SegmentsRun m image info ehdr phdrStart phdrsNr events result) :
    ∃ program rest loaded, events = program ++ rest ∧
      ProgramRun m info.payloadAddr info.payloadSize phdrStart phdrsNr program loaded ∧
      (window ehdr 64 ⊆ region → Within .read region rest) ∧
      ∀ base size, ¬Obtains base size rest := by
  cases run with
  | @mk program first debug second table loaded middle final info' status ran mapped printed opened
      informed installs =>
    have report := reportEvents_looks ehdr (fieldAt middle ehdr eEntry) (programOf loaded)
    have remapped := efiRemapImageAllRwx_plain mapped
    have reopened := efiRemapImageAllRwx_plain opened
    obtain ⟨noReads, noRegion⟩ := installs.quiet region
    refine ⟨program, _, _, rfl, ran, fun wide => ?_, fun base size shown => ?_⟩
    · simp [(report.mono wide).reads, Within.of_lacks remapped, Within.of_lacks reopened,
        printed.none, noReads]
    · rcases List.mem_cons.mp shown with same | shown
      · cases same
      · have shown : Obtains base size (_ ++ (_ ++ (_ ++ (_ ++ _)))) := shown
        simp only [obtains_append] at shown
        rcases shown with shown | shown | shown | shown | shown
        · exact report.not_obtains shown
        · exact not_obtains_of_lacks remapped shown
        · exact printed.not_obtains shown
        · exact not_obtains_of_lacks reopened shown
        · exact noRegion base size shown

/-- Behind an accepted table, the table and the sources of the copies are read. -/
theorem SegmentsRun.reads {image : StubImage} {info : PayloadInfo} {ehdr : UInt64}
    {result : EfiStatus × PayloadInfo × Memory}
    (run : SegmentsRun m image info ehdr phdrStart phdrsNr events result)
    (wide : window ehdr 64 ⊆ region) :
    Within .read region events ↔ Within .read region (tableReads phdrStart phdrsNr.toNat) ∧
      CopiesAll m info.payloadAddr info.payloadSize phdrStart phdrsNr events fun header =>
        window (header.src info.payloadAddr) header.pFilesz.toNat ⊆ region := by
  obtain ⟨program, rest, loaded, rfl, ran, reads, quiet⟩ := run.split region
  rw [within_append, and_iff_left (reads wide), copiesAll_append quiet, ran.reads]

/-- A run of `load_elf` behind the identification reads the last field of the header. -/
theorem header_needed {header rest : List Event}
    (read : (⟨.reach (.read (payloadStart + 62) 2), ()⟩ : Event) ∈ header)
    (inside : Within .read (window payloadStart payloadSize.toNat) (header ++ rest)) :
    64 ≤ payloadSize.toNat := by
  have last := (within_append.mp inside).1 _ read _ _ rfl
  rw [window_subset_iff] at last
  have offset : (62 : UInt64).toNat = 62 := rfl
  omega

/-- Section header 0 that is accepted is in the payload unless its end wraps. -/
theorem section_inside (accepted : SectionAccepted m payloadStart payloadSize) :
    window (payloadStart + fieldAt m payloadStart eShoff) 64 ⊆
        window payloadStart payloadSize.toNat ↔
      (fieldAt m payloadStart eShoff).toNat + 64 < 2 ^ 64 := by
  have size : elf64ShdrSize.toNat = 64 := rfl
  have bound := payloadSize.toNat_lt
  have near := accepted.2
  rw [UInt64.le_iff_toNat_le, UInt64.toNat_add, size] at near
  rw [window_subset_iff]
  omega

/-- A table that is accepted is in the payload unless its end wraps. -/
theorem table_inside (accepted : TableAccepted m payloadStart payloadSize) :
    Within .read (window payloadStart payloadSize.toNat)
        (tableReads (payloadStart + fieldAt m payloadStart ePhoff)
          (phdrCount m payloadStart).toUInt32.toNat) ↔
      (fieldAt m payloadStart ePhoff).toNat + (phdrCount m payloadStart).toNat * 56 < 2 ^ 64 := by
  have count : (phdrCount m payloadStart).toUInt32.toNat = (phdrCount m payloadStart).toNat :=
    UInt16.toNat_toUInt32 _
  have few := (phdrCount m payloadStart).toNat_lt
  have bound := payloadSize.toNat_lt
  have word := (fieldAt m payloadStart ePhoff).toNat_lt
  have near := accepted.2.2
  have entry : elf64PhdrSize.toNat = 56 := rfl
  rw [UInt64.le_iff_toNat_le, UInt64.toNat_add, UInt64.toNat_mul, entry,
    UInt16.toNat_toUInt64] at near
  rw [count]
  by_cases none : (phdrCount m payloadStart).toNat = 0
  · rw [none]
    simpa [tableReads] using word
  · rw [tableReads_within_iff (Nat.pos_of_ne_zero none)]
    omega

/-- A segment that is accepted is in the payload unless its end wraps. -/
theorem source_inside {header : Elf64Phdr} (accepted : header.Accepted payloadSize) :
    window (header.src payloadStart) header.pFilesz.toNat ⊆
        window payloadStart payloadSize.toNat ↔
      header.pOffset.toNat + header.pFilesz.toNat < 2 ^ 64 := by
  have bound := payloadSize.toNat_lt
  have word := header.pOffset.toNat_lt
  have near := accepted.1
  rw [UInt64.le_iff_toNat_le, UInt64.toNat_add] at near
  rw [Elf64Phdr.src, window_subset_iff]
  omega

/-- The sources of the copies lie in the payload when their ends do not wrap. -/
theorem copiesAll_sources : CopiesAll m payloadStart payloadSize phdrStart phdrsNr events
      (fun header => window (header.src payloadStart) header.pFilesz.toNat ⊆
        window payloadStart payloadSize.toNat) ↔
    CopiesAll m payloadStart payloadSize phdrStart phdrsNr events fun header =>
      header.pOffset.toNat + header.pFilesz.toNat < 2 ^ 64 :=
  forall₃_congr fun _ _ _ => forall₂_congr fun _ member => source_inside (copied_accepted member)

/-- The header is whole, and the sums that are compared do not wrap where they are accepted. -/
structure SumsExact (m : Memory) (payloadStart payloadSize : UInt64) (events : List Event) : Prop
    where
  /-- The payload holds an ELF header. -/
  header : 64 ≤ payloadSize.toNat
  /-- The end of section header 0. -/
  section0 : ReadsSection m payloadStart payloadSize →
    (fieldAt m payloadStart eShoff).toNat + 64 < 2 ^ 64
  /-- The end of the program headers. -/
  table : TableAccepted m payloadStart payloadSize →
    (fieldAt m payloadStart ePhoff).toNat + (phdrCount m payloadStart).toNat * 56 < 2 ^ 64
  /-- The ends of the segments that are copied. -/
  segments : CopiesAll m payloadStart payloadSize (payloadStart + fieldAt m payloadStart ePhoff)
    (phdrCount m payloadStart).toUInt32 events fun header =>
      header.pOffset.toNat + header.pFilesz.toNat < 2 ^ 64

/-- A run of `load_elf` stays in the payload when the payload is not identified, or else exactly when
the sums it compares are exact. -/
theorem ElfRun.reads {image : StubImage} {info : PayloadInfo}
    {result : EfiStatus × PayloadInfo × Memory} (run : ElfRun m image info events result) :
    Within .read (window info.payloadAddr info.payloadSize.toNat) events ↔
      (identOk m info.payloadAddr info.payloadSize = true →
        SumsExact m info.payloadAddr info.payloadSize events) := by
  cases run with
  | noHeader bad looks =>
    refine iff_of_true looks.reads fun good => ?_
    rw [bad] at good
    cases good
  | noTable good looks read parsed printed =>
    constructor
    · intro inside _
      have whole := header_needed read inside
      have wide : window info.payloadAddr 64 ⊆ _ := window_mono whole
      simp only [within_append] at inside
      refine ⟨whole, fun reads => ?_, fun accepted => absurd accepted parsed.refused, ?_⟩
      · exact (section_inside reads.2.2).mp ((parsed.reads _ wide).mp inside.2.1 reads)
      · intro base size shown
        rw [obtains_append, obtains_append] at shown
        rcases shown with shown | shown | shown
        · exact absurd shown looks.not_obtains
        · exact absurd shown parsed.looks.not_obtains
        · exact absurd shown printed.not_obtains
    · intro exact
      have sums := exact good
      have wide : window info.payloadAddr 64 ⊆ _ := window_mono sums.header
      have parsing := (parsed.reads _ wide).mpr fun reads =>
        (section_inside reads.2.2).mpr (sums.section0 reads)
      simp [(looks.mono wide).reads, parsing, printed.none]
  | @loaded header parse prints loading result good looks read parsed printed run =>
    have accepted := parsed.passed
    have segments : CopiesAll m info.payloadAddr info.payloadSize
          (info.payloadAddr + fieldAt m info.payloadAddr ePhoff)
          (phdrCount m info.payloadAddr).toUInt32
          (header ++ (parse ++ (prints ++ loading))) (fun header =>
            header.pOffset.toNat + header.pFilesz.toNat < 2 ^ 64) ↔
        CopiesAll m info.payloadAddr info.payloadSize
          (info.payloadAddr + fieldAt m info.payloadAddr ePhoff)
          (phdrCount m info.payloadAddr).toUInt32 loading fun header =>
            header.pOffset.toNat + header.pFilesz.toNat < 2 ^ 64 := by
      rw [copiesAll_prepend fun _ _ => looks.not_obtains,
        copiesAll_prepend fun _ _ => parsed.looks.not_obtains,
        copiesAll_prepend fun _ _ => printed.not_obtains]
    constructor
    · intro inside _
      have whole := header_needed read inside
      have wide : window info.payloadAddr 64 ⊆ _ := window_mono whole
      simp only [within_append] at inside
      obtain ⟨table, copied⟩ := (run.reads wide).mp inside.2.2.2
      refine ⟨whole, fun reads => ?_, fun _ => (table_inside accepted).mp table,
        segments.mpr (copiesAll_sources.mp copied)⟩
      exact (section_inside reads.2.2).mp ((parsed.reads _ wide).mp inside.2.1 reads)
    · intro exact
      have sums := exact good
      have wide : window info.payloadAddr 64 ⊆ _ := window_mono sums.header
      have parsing := (parsed.reads _ wide).mpr fun reads =>
        (section_inside reads.2.2).mpr (sums.section0 reads)
      have within := (run.reads wide).mpr ⟨(table_inside accepted).mpr (sums.table accepted),
        copiesAll_sources.mpr (segments.mp sums.segments)⟩
      simp [(looks.mono wide).reads, parsing, printed.none, within]

/-- `elf_check` and `load_elf` read nothing but the payload exactly when the payload is not
identified as an ELF file, or holds the fields that are read and the sums that guard the reads are
exact. -/
theorem payload_reads_iff (m : Memory) (image : StubImage) (info : PayloadInfo) :
    (∀ events outcome, Exec (elfCheck m info.payloadAddr info.payloadSize) events outcome →
      (Within .read (window info.payloadAddr info.payloadSize.toNat) events ↔
        (identOk m info.payloadAddr info.payloadSize = true → 20 ≤ info.payloadSize.toNat))) ∧
    ∀ events outcome, Exec (loadElf m image info) events outcome →
      (Within .read (window info.payloadAddr info.payloadSize.toNat) events ↔
        (identOk m info.payloadAddr info.payloadSize = true →
          SumsExact m info.payloadAddr info.payloadSize events)) := by
  refine ⟨fun events outcome run => elfCheck_reads run, fun events outcome run => ?_⟩
  obtain ⟨result, -, ran⟩ := elfRun_of_exec run
  exact ran.reads

/-- The plain kernel as a payload. -/
def plainPayload : PayloadInfo := ⟨0x100000, 184, 0, 0, 0⟩

/-- Loading it with a firmware that answers a request for pages with the given status. -/
def plainLoadElf : Stub (EfiStatus × PayloadInfo × Memory) :=
  loadElf plainKernel ⟨0x80000000, 0x80010000⟩ plainPayload

/-- What is seen of it: its status and the region it says, whether each request is answered with
pages, and that the status of `load_program` is that of the request. -/
theorem plainLoadElf_seen (pages : EfiStatus) (answer : pages ∈ [efiSuccess, efiOutOfResources]) :
    (plainLoadElf.valueWith (loaderFirmware pages)).map (fun result => (result.1,
        result.2.1.loadedPaddr, result.2.1.loadedSize)) =
      some (efiSuccess, if pages = efiSuccess then (0x40000000, 0x200000) else (0, 0)) ∧
    (plainLoadElf.eventsWith (loaderFirmware pages)).all givesPages = true ∧
    Call.reach (.loadProgram pages) ∈
      (plainLoadElf.eventsWith (loaderFirmware pages)).map Interaction.Event.op := by
  have one : pages = efiSuccess ∨ pages = efiOutOfResources := by simpa using answer
  simp only [plainLoadElf, loadElf, loadSegments, loadProgram, efiAllocateKernelMemory, memset_word]
  rcases one with rfl | rfl
  · decide +kernel
  · decide +kernel

/-- Loading the plain kernel returns. -/
theorem plainLoadElf_returns : (plainLoadElf.valueWith (loaderFirmware efiSuccess)).isSome = true := by
  obtain ⟨result, value, -⟩ := Option.map_eq_some_iff.mp (plainLoadElf_seen _ (List.mem_cons_self ..)).1
  exact Option.isSome_iff_exists.mpr ⟨result, value⟩

/-- The plain kernel is read inside its payload. -/
theorem payload_reads_iff_plain :
    (Within .read (window 0x100000 (184 : UInt64).toNat)
        ((elfCheck plainKernel 0x100000 184).eventsWith (loaderFirmware efiSuccess)) ↔
      (identOk plainKernel 0x100000 184 = true → 20 ≤ (184 : UInt64).toNat)) ∧
    (Within .read (window 0x100000 (184 : UInt64).toNat)
        (plainLoadElf.eventsWith (loaderFirmware efiSuccess)) ↔
      (identOk plainKernel 0x100000 184 = true → SumsExact plainKernel 0x100000 184
        (plainLoadElf.eventsWith (loaderFirmware efiSuccess)))) := by
  obtain ⟨check, load⟩ :=
    payload_reads_iff plainKernel ⟨0x80000000, 0x80010000⟩ plainPayload
  exact ⟨check _ _ (exec_eventsWith (by decide +kernel)),
    load _ _ (exec_eventsWith plainLoadElf_returns)⟩

/-- The sixteen bytes of an identification are taken for an ELF file, and the header behind them is
read. -/
theorem payload_reads_outside : ¬∀ (m : Memory) (payloadStart payloadSize : UInt64) events outcome,
    Exec (elfCheck m payloadStart payloadSize) events outcome →
      Within .read (window payloadStart payloadSize.toNat) events := by
  intro claim
  have returns : ((elfCheck plainKernel 0x100000 16).valueWith
      (loaderFirmware efiSuccess)).isSome = true := by decide +kernel
  have read : (⟨.reach (.read 0x100012 2), ()⟩ : Event) ∈
      (elfCheck plainKernel 0x100000 16).eventsWith (loaderFirmware efiSuccess) :=
    point_mem (by decide +kernel)
  have inside := claim plainKernel 0x100000 16 _ _ (exec_eventsWith returns) _ read 0x100012 2 rfl
  have first : (0x100012 : UInt64) ∈ window 0x100012 2 := by simp
  exact absurd (mem_window.mp (inside first)) (by decide)

end DragonStub

import DragonStub.Boot.Kernel
import DragonStub.Verif.LoadFailure
import DragonStub.Verif.PayloadReads
import DragonStub.Verif.ProgramImage

/-!
# Kernels that are loaded

`load_elf` does not look at the status of `load_program`. When it returns success it has either
loaded a kernel, whose region it describes to the kernel, or described a region that does not exist.
-/

namespace DragonStub

open ByteMemory Interaction Prog Trace

variable {m middle final : Memory} {events first second load : List Event} {image : StubImage}
  {info info' : PayloadInfo} {payloadStart payloadSize base size phdrStart ehdr : UInt64}
  {phdrsNr : UInt32} {status : EfiStatus} {loaded : Except EfiStatus Program}

/-- The calls of the loader up to its configuration table. -/
def Call.isLoading : Call → Bool
  | .reach .. | .print .. | .allocatePages .. | .freePages .. | .locateProtocol ..
  | .getMemoryAttributes .. | .clearMemoryAttributes .. => true
  | _ => false

/-- Every call of a part is one of the loader. -/
def Loading (events : List Event) : Prop := ∀ event ∈ events, event.op.isLoading = true

/-- Two parts of a trace are loading when both are. -/
theorem loading_append : Loading (first ++ second) ↔ Loading first ∧ Loading second := by
  simp [Loading, or_imp, forall_and]

/-- A trace is loading when its first event and the rest are. -/
theorem loading_cons {event : Event} :
    Loading (event :: events) ↔ event.op.isLoading = true ∧ Loading events := by
  simp [Loading]

/-- Looking at memory is loading. -/
theorem Looks.loading {region : Set UInt64} (looks : Looks region events) : Loading events := by
  intro event member
  have seen := looks event member
  cases call : event.op with
  | print | reach => rfl
  | _ =>
    rw [call] at seen
    exact seen.elim

/-- A change of attributes is part of loading. -/
theorem Call.isLoading_of_isRemap {call : Call} (remap : call.isRemap = true) :
    call.isLoading = true := by
  cases call with
  | locateProtocol | getMemoryAttributes | clearMemoryAttributes | print => rfl
  | _ => cases remap

/-- A call for pages is part of loading. -/
theorem Call.isLoading_of_isPages {call : Call} (pages : call.isPages = true) :
    call.isLoading = true := by
  cases call with
  | allocatePages | freePages => rfl
  | _ => cases pages

/-- Remapping the image is loading. -/
theorem remap_loading {imageBase : UInt64} {allocSize : UInt32} {outcome : Option Unit}
    (run : Exec (efiRemapImageAllRwx imageBase allocSize) events outcome) : Loading events :=
  fun event member => Call.isLoading_of_isRemap ((efiRemapImageAllRwx_remap ..).events run event member)

/-- Reserving the region of the kernel is loading. -/
theorem RegionRun.loading {result : Except EfiStatus (KernelMemory × Memory)}
    (run : RegionRun m phdrStart phdrsNr events result) : Loading events := by
  have table := (tableReads_looks phdrStart phdrsNr.toNat).loading
  have pages {extent : Extent} {asked : List Event} {outcome : Option (Except EfiStatus UInt64)}
      (run : Exec (allocateKernel extent) asked outcome) : Loading asked := fun event member =>
    Call.isLoading_of_isPages ((efiAllocatePagesAligned_pages ..).events run event member)
  cases run with
  | unaligned printed => exact loading_append.mpr ⟨table, printed.loading⟩
  | refused asked _ printed =>
    exact loading_append.mpr ⟨table, loading_append.mpr ⟨pages asked, printed.loading⟩⟩
  | allocated _ _ given mapped =>
    refine loading_append.mpr ⟨table, loading_append.mpr ⟨pages given, loading_append.mpr
      ⟨?_, remap_loading mapped⟩⟩⟩
    simp [Loading, regionEvents, Call.isLoading]

/-- Copying the segments is loading. -/
theorem CopyRun.loading {minPaddr phdr : UInt64} {count : Nat} {copies : List Elf64Phdr}
    (run : CopyRun payloadStart payloadSize base minPaddr count phdr m events copies status final) :
    Loading events := by
  induction run with
  | done => simp [Loading]
  | skipped _ _ ih => exact loading_cons.mpr ⟨rfl, ih⟩
  | rejected => simp [Loading, Call.isLoading]
  | copied _ _ _ _ ih =>
    exact loading_cons.mpr ⟨rfl, loading_cons.mpr ⟨rfl, loading_cons.mpr ⟨rfl, ih⟩⟩⟩

/-- Loading the program is loading. -/
theorem ProgramRun.loading {result : Except EfiStatus Program × Memory}
    (run : ProgramRun m payloadStart payloadSize phdrStart phdrsNr events result) :
    Loading events := by
  cases run with
  | refused run printed => exact loading_append.mpr ⟨run.loading, printed.loading⟩
  | rejected run copies failed freed =>
    refine loading_append.mpr ⟨run.loading, loading_cons.mpr ⟨rfl, loading_append.mpr
      ⟨copies.loading, fun event member => ?_⟩⟩⟩
    exact Call.isLoading_of_isPages ((efiFree_pages ..).events freed event member)
  | loaded run copies =>
    exact loading_append.mpr ⟨run.loading, loading_cons.mpr ⟨rfl, copies.loading⟩⟩

/-- Whether a call is the jump into the kernel. -/
def Call.isJump : Call → Bool
  | .jumpKernel .. => true
  | _ => false

/-- Loading jumps nowhere. -/
theorem Loading.noJump (loading : Loading events) : Lacks Call.isJump events := by
  intro event member
  have kind := loading event member
  cases call : event.op with
  | jumpKernel =>
    rw [call] at kind
    cases kind
  | _ => rfl

/-- Whether the firmware refuses the table for the kernel, or the memory for it. -/
def refusesTable : Event → Prop
  | ⟨.allocatePool .., reply⟩ => reply.status ≠ efiSuccess
  | ⟨.installConfigurationTable .., status⟩ => status ≠ efiSuccess
  | _ => False

/-- The firmware refuses the table for the kernel, or the memory for it. -/
def TableRefused (events : List Event) : Prop := ∃ event ∈ events, refusesTable event

/-- A table for the kernel is installed. -/
def TableInstalled (events : List Event) (tbl : UInt64) : Prop :=
  (⟨.installConfigurationTable dragonstubEfiPayloadEfiGuid tbl, efiSuccess⟩ : Event) ∈ events

/-- Loading neither installs a configuration table nor is refused one. -/
theorem Loading.noTable (loading : Loading events) :
    ¬TableRefused events ∧ ∀ tbl, ¬TableInstalled events tbl := by
  constructor
  · rintro ⟨⟨call, reply⟩, member, refuses⟩
    have kind := loading _ member
    cases call with
    | allocatePool | installConfigurationTable => cases kind
    | _ => exact refuses
  · intro tbl installed
    cases loading _ installed

/-- A table is refused in a trace when it is in one of its parts. -/
theorem tableRefused_append :
    TableRefused (first ++ second) ↔ TableRefused first ∨ TableRefused second := by
  simp [TableRefused, or_and_right, exists_or]

/-- A table is installed in a trace when it is in one of its parts. -/
theorem tableInstalled_append {tbl : UInt64} : TableInstalled (first ++ second) tbl ↔
    TableInstalled first tbl ∨ TableInstalled second tbl :=
  List.mem_append

/-- What is stored in the table for the kernel. -/
theorem tableMemory_reads (m : Memory) (tbl : UInt64) (info : PayloadInfo) :
    readLe (tableMemory m tbl info) tbl 8 = info.loadedPaddr.toNat ∧
      readLe (tableMemory m tbl info) (tbl + 8) 8 = info.loadedSize.toNat := by
  have small (x : UInt64) : x.toNat < 256 ^ 8 := x.toNat_lt
  have apart : Disjoint (window (tbl + 0) 8) (window (tbl + 8) 8) :=
    window_disjoint_of_offsets (by decide) (by decide) (.inl (by decide))
  rw [UInt64.add_zero] at apart
  constructor
  · have same : readLe (tableMemory m tbl info) tbl 8 =
        readLe (writeLe m tbl info.loadedPaddr.toNat 8) tbl 8 := by
      refine readLe_congr (by decide) fun x inside => ?_
      exact writeLe_outside _ _ _ (by decide) (Set.disjoint_left.mp apart inside)
    rw [same, readLe_writeLe _ _ _ _ (by decide) (small _)]
  · exact readLe_writeLe _ _ _ _ (by decide) (small _)

/-- The end of `load_elf` succeeds when the table is not refused, and then has installed it. -/
theorem InstallRun.decided (run : InstallRun m info events (status, final)) :
    (status = efiSuccess ↔ ¬TableRefused events) ∧
      (status = efiSuccess → ∃ tbl, TableInstalled events tbl ∧
        readLe final tbl 8 = info.loadedPaddr.toNat ∧
        readLe final (tbl + 8) 8 = info.loadedSize.toNat) ∧
      (status ≠ efiSuccess → ∀ tbl, ¬TableInstalled events tbl) ∧
      Lacks Call.isJump events ∧ Lacks Call.isFree events := by
  have quiet {prints : List Event} (printed : Looks ∅ prints) : (∀ tbl, ¬TableInstalled prints tbl) ∧
      Lacks Call.isJump prints ∧ Lacks Call.isFree prints :=
    ⟨printed.loading.noTable.2, printed.loading.noJump,
      printed.lacks (fun _ _ => rfl) fun _ => rfl⟩
  cases run with
  | noPool tbl refused printed =>
    obtain ⟨noTable, noJump, noFree⟩ := quiet printed
    refine ⟨iff_of_false refused fun fine => fine ⟨_, List.mem_cons_self, refused⟩,
      fun done => absurd done refused, fun _ tbl installed => ?_, lacks_cons.mpr ⟨rfl, noJump⟩,
      lacks_cons.mpr ⟨rfl, noFree⟩⟩
    rcases List.mem_cons.mp installed with same | installed
    · cases same
    · exact noTable tbl installed
  | @noTable tbl granted status refused prints printed =>
    obtain ⟨noTable, noJump, noFree⟩ := quiet printed
    have member : (⟨.installConfigurationTable dragonstubEfiPayloadEfiGuid tbl.value, status⟩ :
        Event) ∈ tableEvents tbl ++
          ⟨.installConfigurationTable dragonstubEfiPayloadEfiGuid tbl.value, status⟩ :: prints :=
      List.mem_append_right _ List.mem_cons_self
    refine ⟨iff_of_false refused fun fine => fine ⟨_, member, refused⟩,
      fun done => absurd done refused, fun _ other installed => ?_,
      lacks_append.mpr ⟨by simp [tableEvents, Call.isJump], lacks_cons.mpr ⟨rfl, noJump⟩⟩,
      lacks_append.mpr ⟨by simp [tableEvents, Call.isFree], lacks_cons.mpr ⟨rfl, noFree⟩⟩⟩
    rcases List.mem_append.mp installed with installed | installed
    · simp [tableEvents] at installed
    · rcases List.mem_cons.mp installed with same | installed
      · injection same with call answer
        injection call with guid address
        subst address
        exact refused answer.symm
      · exact noTable other installed
  | installed tbl granted =>
    refine ⟨iff_of_true rfl ?_, fun _ => ⟨tbl.value, by simp [TableInstalled, tableEvents],
      tableMemory_reads ..⟩, fun failed => absurd rfl failed, by simp [tableEvents, Call.isJump],
      by simp [tableEvents, Call.isFree]⟩
    rintro ⟨event, member, refuses⟩
    simp only [tableEvents, List.cons_append, List.nil_append, List.mem_cons, List.not_mem_nil,
      or_false] at member
    rcases member with rfl | rfl | rfl | rfl
    · exact refuses granted
    · exact refuses
    · exact refuses
    · exact refuses rfl

/-- The point where `load_program` has returned. -/
def Call.isReturn : Call → Bool
  | .reach (.loadProgram _) => true
  | _ => false

/-- Looking at memory marks no return of `load_program`. -/
theorem Looks.noReturn {region : Set UInt64} (looks : Looks region events) :
    Lacks Call.isReturn events := by
  intro event member
  have seen := looks event member
  cases call : event.op with
  | reach point =>
    rw [call] at seen
    cases point with
    | loadProgram => exact seen.elim
    | _ => rfl
  | _ => rfl

/-- Calls of the firmware mark no return of `load_program`. -/
theorem noReturn_of_plain (plain : Lacks Call.isPoint events) : Lacks Call.isReturn events := by
  intro event member
  have none := plain event member
  cases call : event.op with
  | reach =>
    rw [call] at none
    cases none
  | _ => rfl

/-- Copying the segments marks no return of `load_program`. -/
theorem CopyRun.noReturn {minPaddr phdr : UInt64} {count : Nat} {copies : List Elf64Phdr}
    (run : CopyRun payloadStart payloadSize base minPaddr count phdr m events copies status final) :
    Lacks Call.isReturn events := by
  induction run with
  | done => simp
  | skipped _ _ ih => simp [ih, Call.isReturn]
  | rejected => simp [Call.isReturn]
  | copied _ _ _ _ ih => simp [ih, Call.isReturn]

/-- Reserving the region marks no return of `load_program`. -/
theorem RegionRun.noReturn {result : Except EfiStatus (KernelMemory × Memory)}
    (run : RegionRun m phdrStart phdrsNr events result) : Lacks Call.isReturn events := by
  have table := (tableReads_looks phdrStart phdrsNr.toNat).noReturn
  cases run with
  | unaligned printed => simp [table, printed.noReturn]
  | refused asked _ printed =>
    simp [table, noReturn_of_plain (allocateKernel_plain asked), printed.noReturn]
  | allocated _ _ given mapped =>
    simp [table, noReturn_of_plain (allocateKernel_plain given), regionEvents, Call.isReturn,
      noReturn_of_plain (efiRemapImageAllRwx_plain mapped)]

/-- The run of `load_program` does not hold the mark of its own return. -/
theorem ProgramRun.noReturn {result : Except EfiStatus Program × Memory}
    (run : ProgramRun m payloadStart payloadSize phdrStart phdrsNr events result) :
    Lacks Call.isReturn events := by
  cases run with
  | refused run printed => simp [run.noReturn, printed.noReturn]
  | rejected run copies failed freed =>
    simp [run.noReturn, copies.noReturn, noReturn_of_plain (efiFree_plain freed), Call.isReturn]
  | loaded run copies => simp [run.noReturn, copies.noReturn, Call.isReturn]

/-- An error of `load_program` is not a success. -/
theorem ProgramRun.error_status
    (run : ProgramRun m payloadStart payloadSize phdrStart phdrsNr events (.error status, final)) :
    status ≠ efiSuccess := by
  cases run with
  | refused run printed =>
    cases run with
    | unaligned => decide
    | refused _ failed => exact failed
  | rejected _ _ failed => exact failed

/-- `load_program` fails in a run. -/
def FailedLoad (events : List Event) : Prop :=
  ∃ status, (⟨.reach (.loadProgram status), ()⟩ : Event) ∈ events ∧ status ≠ efiSuccess

/-- Without a mark of its return `load_program` has not failed. -/
theorem Lacks.not_failed (none : Lacks Call.isReturn events) : ¬FailedLoad events := by
  rintro ⟨status, member, -⟩
  cases none _ member

/-- `load_program` has failed in a trace when it has in one of its parts. -/
theorem failedLoad_append :
    FailedLoad (first ++ second) ↔ FailedLoad first ∨ FailedLoad second := by
  simp [FailedLoad, or_and_right, exists_or]

/-- Installing the table marks no return of `load_program`. -/
theorem InstallRun.noReturn {result : EfiStatus × Memory} (run : InstallRun m info events result) :
    Lacks Call.isReturn events := by
  cases run with
  | noPool tbl refused printed => simp [printed.noReturn, Call.isReturn]
  | noTable tbl granted status refused printed =>
    simp [printed.noReturn, tableEvents, Call.isReturn]
  | installed => simp [tableEvents, Call.isReturn]

/-- The region is held after it is loaded. -/
theorem ProgramRun.holds {program : Program} (gives : GivesPages events)
    (run : ProgramRun m payloadStart payloadSize phdrStart phdrsNr events (.ok program, final)) :
    regionBytes program.memPaddr program.memSize ⊆ firmwareEffects.held live events := by
  cases run with
  | @loaded region copy kernel zeroed final headers allocating copies =>
    have table := (tableReads_looks phdrStart phdrsNr.toNat).noMemory
    have copied : firmwareEffects.held live
        (region ++ ⟨.reach (.write kernel.paddr kernel.size.toNat), ()⟩ :: copy) =
          firmwareEffects.held live region := by
      rw [Effects.held_append]
      change firmwareEffects.held (firmwareEffects.after _ _) _ = _
      rw [after_other rfl, copies.noMemory.held_eq]
    rw [copied]
    cases allocating with
    | allocated measured aligned given mapped =>
      rw [Effects.held_append, table.held_eq, Effects.held_append, Effects.held_append,
        regionEvents_noMemory.held_eq, (remap_noMemory mapped).held_eq]
      exact allocateKernel_holds gives.append.1.append.2.append.1 given

/-- What `load_elf` does behind `load_program`: it neither frees nor jumps, and its status says
whether the table for the kernel is installed. -/
structure Finishes (info' : PayloadInfo) (final : Memory) (status : EfiStatus)
    (events : List Event) : Prop where
  /-- `load_program` does not return again. -/
  noReturn : Lacks Call.isReturn events
  /-- Nothing is freed. -/
  noFree : Lacks Call.isFree events
  /-- The kernel is not entered. -/
  noJump : Lacks Call.isJump events
  /-- No region is given. -/
  noRegion : ∀ base size, ¬Obtains base size events
  /-- Success means that the table is not refused. -/
  decided : status = efiSuccess ↔ ¬TableRefused events
  /-- The table describes what was loaded. -/
  installed : status = efiSuccess → ∃ tbl, TableInstalled events tbl ∧
    readLe final tbl 8 = info'.loadedPaddr.toNat ∧ readLe final (tbl + 8) 8 = info'.loadedSize.toNat
  /-- Without success there is no table. -/
  refused : status ≠ efiSuccess → ∀ tbl, ¬TableInstalled events tbl

/-- Behind the mark of `load_program` nothing looks at its status: the entry is computed and the run
finishes. -/
theorem SegmentsRun.finishes
    (run : SegmentsRun m image info ehdr phdrStart phdrsNr events (status, info', final)) :
    ∃ loading rest loaded middle,
      events = loading ++ ⟨.reach (.loadProgram (statusOf loaded)), ()⟩ :: rest ∧
      ProgramRun m info.payloadAddr info.payloadSize phdrStart phdrsNr loading (loaded, middle) ∧
      info' = loadedInfo info (programOf loaded) (fieldAt middle ehdr eEntry) ∧
      Finishes info' final status rest := by
  have plainFree {imageBase : UInt64} {allocSize : UInt32} {part : List Event}
      (run : Exec (efiRemapImageAllRwx imageBase allocSize) part (some ())) :
      Lacks Call.isFree part := by
    intro event member
    have kind := (efiRemapImageAllRwx_remap ..).events run event member
    cases call : event.op with
    | freePool | freePages =>
      rw [call] at kind
      cases kind
    | _ => rfl
  cases run with
  | @mk program first debug second table loaded middle final info' status ran mapped printed opened
      informed installs =>
    have report := reportEvents_looks ehdr (fieldAt middle ehdr eEntry) (programOf loaded)
    obtain ⟨decided, installed, refused, noJump, noFree⟩ := installs.decided
    refine ⟨program, _, loaded, middle, rfl, ran, informed, ?_, ?_, ?_, ?_, ?_, ?_, ?_⟩
    · simp [report.noReturn, noReturn_of_plain (efiRemapImageAllRwx_plain mapped), printed.noReturn,
        noReturn_of_plain (efiRemapImageAllRwx_plain opened), installs.noReturn]
    · have printFree : Lacks Call.isFree _ := report.lacks (fun _ _ => rfl) fun _ => rfl
      have debugFree : Lacks Call.isFree _ := printed.lacks (fun _ _ => rfl) fun _ => rfl
      simp [printFree, debugFree, plainFree mapped, plainFree opened, noFree]
    · simp [report.loading.noJump, (remap_loading mapped).noJump, printed.loading.noJump,
        (remap_loading opened).noJump, noJump]
    · intro base size shown
      simp only [obtains_append] at shown
      rcases shown with shown | shown | shown | shown | shown
      · exact report.not_obtains shown
      · exact not_obtains_of_lacks (efiRemapImageAllRwx_plain mapped) shown
      · exact printed.not_obtains shown
      · exact not_obtains_of_lacks (efiRemapImageAllRwx_plain opened) shown
      · exact (installs.quiet ∅).2 base size shown
    · simp only [tableRefused_append, report.loading.noTable.1, (remap_loading mapped).noTable.1,
        printed.loading.noTable.1, (remap_loading opened).noTable.1, false_or]
      exact decided
    · intro done
      obtain ⟨tbl, here, reads⟩ := installed done
      refine ⟨tbl, ?_, reads⟩
      simp only [tableInstalled_append]
      exact .inr (.inr (.inr (.inr here)))
    · intro failed tbl here
      simp only [tableInstalled_append, report.loading.noTable.2, (remap_loading mapped).noTable.2,
        printed.loading.noTable.2, (remap_loading opened).noTable.2, false_or] at here
      exact refused failed tbl here

/-- Where the program headers of a payload start. -/
def phdrStartOf (m : Memory) (info : PayloadInfo) : UInt64 :=
  info.payloadAddr + fieldAt m info.payloadAddr ePhoff

/-- The tests of `load_program` pass: the firmware gives a region, and every segment that the loop
reads is accepted. -/
def LoadsProgram (m : Memory) (info : PayloadInfo) (events : List Event) : Prop :=
  ∃ base size, Obtains base size events ∧
    ∀ header ∈ segmentsRead info.payloadAddr info.payloadSize base
      (tableExtent m (phdrStartOf m info) (phdrCount m info.payloadAddr).toUInt32).minPaddr
      (phdrCount m info.payloadAddr).toUInt32.toNat (phdrStartOf m info) (zeroed m base size),
      header.Accepted info.payloadSize

/-- Where `load_program` is called, its tests pass. -/
def LoadsIfCalled (m : Memory) (info : PayloadInfo) (events : List Event) : Prop :=
  identOk m info.payloadAddr info.payloadSize = true →
    TableAccepted m info.payloadAddr info.payloadSize → LoadsProgram m info events

/-- The memory after the segments of a payload are copied into a region. -/
def programMemory (m : Memory) (info : PayloadInfo) (base size : UInt64) : Memory :=
  (copiedInto m info.payloadAddr info.payloadSize (phdrStartOf m info)
    (phdrCount m info.payloadAddr).toUInt32 base size).foldl
      (copySegment info.payloadAddr base
        (tableExtent m (phdrStartOf m info) (phdrCount m info.payloadAddr).toUInt32).minPaddr)
      (zeroed m base size)

/-- A kernel is loaded: `load_program` has succeeded, its region is held and is what the table
installed for the kernel describes, and the entry is computed from it. -/
structure KernelIsLoaded (m : Memory) (info info' : PayloadInfo) (final : Memory)
    (events : List Event) : Prop where
  /-- `load_program` has returned success. -/
  returned : (⟨.reach (.loadProgram efiSuccess), ()⟩ : Event) ∈ events
  /-- The region was given. -/
  region : Obtains info'.loadedPaddr info'.loadedSize events
  /-- The region is held. -/
  held : regionBytes info'.loadedPaddr info'.loadedSize ⊆ firmwareEffects.held ∅ events
  /-- The table describes the region. -/
  table : ∃ tbl, TableInstalled events tbl ∧ readLe final tbl 8 = info'.loadedPaddr.toNat ∧
    readLe final (tbl + 8) 8 = info'.loadedSize.toNat
  /-- The entry is that of the header, moved by the distance from the lowest `p_vaddr` to the
  region. -/
  entry : info'.kernelEntry =
    fieldAt (programMemory m info info'.loadedPaddr info'.loadedSize) info.payloadAddr eEntry -
      (tableExtent m (phdrStartOf m info) (phdrCount m info.payloadAddr).toUInt32).minVaddr +
      info'.loadedPaddr

/-- Failures of `load_program` are reported: a success of `load_elf` means that a kernel is loaded,
and behind a failure of `load_program` it fails, installs no table, and the kernel is not entered. -/
structure PropagatesFailure (m : Memory) (info info' : PayloadInfo) (final : Memory)
    (status : EfiStatus) (load events : List Event) : Prop where
  /-- A success is a kernel. -/
  success : status = efiSuccess → KernelIsLoaded m info info' final load
  /-- A failure is reported. -/
  failure : FailedLoad load → status ≠ efiSuccess ∧ (∀ tbl, ¬TableInstalled load tbl) ∧
    Lacks Call.isJump events

/-- A table that is refused is refused with an error. -/
theorem ParseRun.failed {α : Type} {accepts reads : Prop} {accepted : α} {status : EfiStatus}
    (run : ParseRun m payloadStart accepts reads accepted events (some (.error status))) :
    status ≠ efiSuccess := by
  rcases run.decided with ⟨-, impossible⟩ | ⟨-, other, failed, same⟩
  · cases impossible
  · cases same
    exact failed

/-- A run of `load_elf` that does not get to `load_program` fails, and is quiet. -/
structure FailsEarly (status : EfiStatus) (events : List Event) : Prop where
  /-- It fails. -/
  failed : status ≠ efiSuccess
  /-- `load_program` does not return. -/
  noReturn : Lacks Call.isReturn events
  /-- Its calls are those of the loader. -/
  loading : Loading events

/-- `load_elf` fails early, or calls `load_program` and finishes. -/
theorem ElfRun.finishes (run : ElfRun m image info events (status, info', final)) :
    (FailsEarly status events ∧ (identOk m info.payloadAddr info.payloadSize = true →
      ¬TableAccepted m info.payloadAddr info.payloadSize)) ∨
    identOk m info.payloadAddr info.payloadSize = true ∧
    TableAccepted m info.payloadAddr info.payloadSize ∧
    ∃ before loading rest loaded middle,
      events = before ++ (loading ++ ⟨.reach (.loadProgram (statusOf loaded)), ()⟩ :: rest) ∧
      Looks Set.univ before ∧
      ProgramRun m info.payloadAddr info.payloadSize (phdrStartOf m info)
        (phdrCount m info.payloadAddr).toUInt32 loading (loaded, middle) ∧
      info' = loadedInfo info (programOf loaded) (fieldAt middle info.payloadAddr eEntry) ∧
      Finishes info' final status rest := by
  cases run with
  | noHeader bad looks =>
    refine .inl ⟨⟨by decide, looks.noReturn, looks.loading⟩, fun good => ?_⟩
    rw [bad] at good
    cases good
  | noTable good looks read parsed printed =>
    refine .inl ⟨⟨parsed.failed, ?_, ?_⟩, fun _ => parsed.refused⟩
    · simp [looks.noReturn, parsed.looks.noReturn, printed.noReturn]
    · exact loading_append.mpr ⟨looks.loading, loading_append.mpr
        ⟨parsed.looks.loading, printed.loading⟩⟩
  | @loaded header parse prints segments result good looks read parsed printed run =>
    obtain ⟨loading, rest, loaded, middle, rfl, ran, informed, finishes⟩ := run.finishes
    refine .inr ⟨good, parsed.passed, header ++ (parse ++ prints), loading, rest, loaded, middle, ?_, ?_,
      ran, informed, finishes⟩
    · simp only [List.append_assoc]
    · exact looks_append.mpr ⟨looks.mono (Set.subset_univ _), looks_append.mpr
        ⟨parsed.looks, printed.mono (Set.empty_subset _)⟩⟩

/-- What `load_program` returns for a region that was given, and the memory after it. -/
theorem ProgramRun.returned {program : Program}
    (run : ProgramRun m info.payloadAddr info.payloadSize (phdrStartOf m info)
      (phdrCount m info.payloadAddr).toUInt32 events (.ok program, middle)) :
    Obtains program.memPaddr program.memSize events ∧
      program.minVaddr =
        (tableExtent m (phdrStartOf m info) (phdrCount m info.payloadAddr).toUInt32).minVaddr ∧
      middle = programMemory m info program.memPaddr program.memSize := by
  have shown := run.loaded_region
  obtain ⟨-, copy, copies, status, copying, done, success, -⟩ := run.obtains shown
  obtain rfl := success program rfl
  have same := Except.ok.inj (done rfl)
  refine ⟨shown, congrArg Program.minVaddr same, ?_⟩
  change middle = List.foldl _ _ (copied ..)
  rw [← copying.headers_eq]
  exact copying.final_eq

/-- `load_program` is reported to fail exactly when its tests do not pass where it is called. -/
theorem ElfRun.failedLoad_iff (run : ElfRun m image info events (status, info', final)) :
    FailedLoad events ↔ ¬LoadsIfCalled m info events := by
  obtain ⟨early, notCalled⟩ | ⟨good, accepted, before, loading, rest, loaded, middle, rfl, looks, ran,
    -, finishes⟩ := run.finishes
  · refine iff_of_false early.noReturn.not_failed fun fails => fails fun good accepted => ?_
    exact absurd accepted (notCalled good)
  have called : LoadsIfCalled m info
      (before ++ (loading ++ ⟨.reach (.loadProgram (statusOf loaded)), ()⟩ :: rest)) ↔
        LoadsProgram m info loading := by
    have shows (base size : UInt64) : Obtains base size
        (before ++ (loading ++ ⟨.reach (.loadProgram (statusOf loaded)), ()⟩ :: rest)) ↔
          Obtains base size loading := by
      have tail : ¬Obtains base size (⟨.reach (.loadProgram (statusOf loaded)), ()⟩ :: rest) := by
        intro shown
        rcases List.mem_cons.mp shown with same | shown
        · cases same
        · exact finishes.noRegion base size shown
      rw [obtains_append, obtains_append, or_iff_right looks.not_obtains, or_iff_left tail]
    unfold LoadsIfCalled LoadsProgram
    simp only [shows, good, accepted, forall_const]
  have failed : FailedLoad
      (before ++ (loading ++ ⟨.reach (.loadProgram (statusOf loaded)), ()⟩ :: rest)) ↔
        statusOf loaded ≠ efiSuccess := by
    rw [failedLoad_append, failedLoad_append, or_iff_right looks.noReturn.not_failed,
      or_iff_right ran.noReturn.not_failed]
    constructor
    · rintro ⟨status, member, failed⟩
      rcases List.mem_cons.mp member with same | member
      · cases same
        exact failed
      · cases finishes.noReturn _ member
    · intro failed
      exact ⟨_, List.mem_cons_self, failed⟩
  rw [called, failed]
  apply not_congr
  constructor
  · intro done
    cases loaded with
    | error status => exact absurd done ran.error_status
    | ok program =>
      have shown := ran.loaded_region
      exact ⟨_, _, shown, (ran.success_iff shown).mp ⟨program, rfl⟩⟩
  · rintro ⟨base, size, shown, passes⟩
    obtain ⟨program, same⟩ := (ran.success_iff shown).mpr passes
    rw [show loaded = .ok program from same]
    rfl

/-- When `load_program` succeeds, a success of `load_elf` is a kernel. -/
theorem ElfRun.kernelIsLoaded (gives : GivesPages events)
    (run : ElfRun m image info events (status, info', final)) (done : status = efiSuccess)
    (loads : ¬FailedLoad events) : KernelIsLoaded m info info' final events := by
  obtain ⟨early, -⟩ | ⟨-, -, before, loading, rest, loaded, middle, rfl, -, ran, informed,
    finishes⟩ := run.finishes
  · exact absurd done early.failed
  cases loaded with
  | error failure =>
    refine absurd ⟨failure, ?_, ran.error_status⟩ loads
    exact List.mem_append_right _ (List.mem_append_right _ List.mem_cons_self)
  | ok program =>
    obtain ⟨shown, lowest, memory⟩ := ran.returned
    subst informed
    obtain ⟨tbl, installed, described⟩ := finishes.installed done
    refine ⟨?_, ?_, ?_, ⟨tbl, ?_, described⟩, ?_⟩
    · exact List.mem_append_right _ (List.mem_append_right _ List.mem_cons_self)
    · exact List.mem_append_right _ (List.mem_append_left _ shown)
    · rw [Effects.held_append, Effects.held_append]
      have here : regionBytes program.memPaddr program.memSize ⊆ firmwareEffects.held
          (firmwareEffects.held ∅ before) loading := ran.holds gives.append.2.append.1
      apply here.trans
      change _ ⊆ firmwareEffects.held (firmwareEffects.after _ _) rest
      rw [after_other rfl]
      exact (Lacks.keeps finishes.noFree).2
    · exact List.mem_append_right _ (List.mem_append_right _ (List.mem_cons_of_mem _ installed))
    · change fieldAt middle info.payloadAddr eEntry - program.minVaddr + program.memPaddr = _
      rw [lowest, memory]
      rfl

/-- `load_elf` fails when the table is refused, and where it fails behind `load_program` the table is
refused. -/
theorem ElfRun.refused (run : ElfRun m image info events (status, info', final)) :
    (TableRefused events → status ≠ efiSuccess) ∧
      (FailedLoad events → status ≠ efiSuccess → TableRefused events) ∧
      (status ≠ efiSuccess → (∀ tbl, ¬TableInstalled events tbl) ∧ Lacks Call.isJump events) := by
  obtain ⟨early, -⟩ | ⟨-, -, before, loading, rest, loaded, middle, rfl, looks, ran, -, finishes⟩ :=
    run.finishes
  · refine ⟨fun _ => early.failed, fun failed => absurd failed early.noReturn.not_failed,
      fun _ => ⟨early.loading.noTable.2, early.loading.noJump⟩⟩
  have point : Loading [(⟨.reach (.loadProgram (statusOf loaded)), ()⟩ : Event)] := by
    simp [Loading, Call.isLoading]
  have split : (⟨.reach (.loadProgram (statusOf loaded)), ()⟩ : Event) :: rest =
      [⟨.reach (.loadProgram (statusOf loaded)), ()⟩] ++ rest := rfl
  have refuses : TableRefused (before ++
      (loading ++ ⟨.reach (.loadProgram (statusOf loaded)), ()⟩ :: rest)) ↔ TableRefused rest := by
    rw [split]
    simp only [tableRefused_append, looks.loading.noTable.1, ran.loading.noTable.1, point.noTable.1,
      false_or]
  rw [refuses]
  refine ⟨fun refused done => finishes.decided.mp done refused,
    fun _ failed => not_not.mp fun fine => failed (finishes.decided.mpr fine),
    fun failed => ⟨fun tbl installed => ?_, ?_⟩⟩
  · rw [split] at installed
    simp only [tableInstalled_append, looks.loading.noTable.2, ran.loading.noTable.2,
      point.noTable.2, false_or] at installed
    exact finishes.refused failed tbl installed
  · simp [looks.loading.noJump, ran.loading.noJump, finishes.noJump, Call.isJump]

variable {Blob : Type} {lib : Libfdt Blob} {fdtAt : UInt64 → Blob} {globals : Globals}
  {handle : UInt64} {cmdline : List UInt8}

/-- A run of `efi_boot_kernel` loads the payload first, and ends with the failure if that fails. -/
theorem efiBootKernel_of_exec {outcome : Option EfiStatus}
    (run : Exec (efiBootKernel lib fdtAt m image globals handle info cmdline) events outcome) :
    ∃ load after result, events =
        ⟨.print ("[INFO]: " ++ "Loading ELF payload...\n") [], ()⟩ :: (load ++ after) ∧
      Exec (loadElf m image info) load (some result) ∧
      (result.1 ≠ efiSuccess → outcome = some result.1 ∧ Lacks Call.isJump after) := by
  simp only [efiBootKernel, efiInfo, efiPrintk, perform_bind] at run
  rw [exec_call] at run
  obtain ⟨-, rest, rfl, run⟩ := run
  rw [exec_bind] at run
  rcases run with ⟨result, load, after, rfl, loading, run⟩ | ⟨-, stuck⟩
  swap
  · obtain ⟨_, impossible, -⟩ := elfRun_of_exec stuck
    cases impossible
  obtain ⟨status, info', final⟩ := result
  refine ⟨load, after, _, rfl, loading, fun failed => ?_⟩
  have failed : (status != efiSuccess) = true := bne_iff_ne.mpr failed
  simp only [failed, if_true, efiErr, efiPrintk, perform_bind, pure_eq_ret, exec_call, exec_ret]
    at run
  obtain ⟨-, _, rfl, rfl, rfl⟩ := run
  exact ⟨rfl, by simp [Call.isJump]⟩

/-- In a run of `efi_boot_kernel` on a firmware that gives pages, a failure of `load_program` is
reported exactly when there is none, or the firmware happens to refuse the table for the kernel. -/
theorem boot_kernel_propagates_iff {outcome : Option EfiStatus} (gives : GivesPages events)
    (run : Exec (efiBootKernel lib fdtAt m image globals handle info cmdline) events outcome) :
    ∃ load after status info' final, events =
        ⟨.print ("[INFO]: " ++ "Loading ELF payload...\n") [], ()⟩ :: (load ++ after) ∧
      Exec (loadElf m image info) load (some (status, info', final)) ∧
      (PropagatesFailure m info info' final status load events ↔
        LoadsIfCalled m info load ∨ TableRefused load) := by
  obtain ⟨load, after, ⟨status, info', final⟩, rfl, loading, ends⟩ := efiBootKernel_of_exec run
  refine ⟨load, after, status, info', final, rfl, loading, ?_⟩
  obtain ⟨result, same, ran⟩ := elfRun_of_exec loading
  obtain rfl := Option.some.inj same
  have pages : GivesPages load :=
    (show GivesPages ([_] ++ (load ++ after)) from gives).append.2.append.1
  obtain ⟨refusedFails, failsRefused, quiet⟩ := ran.refused
  constructor
  · intro propagates
    by_cases loads : LoadsIfCalled m info load
    · exact .inl loads
    · have failed := ran.failedLoad_iff.mpr loads
      exact .inr (failsRefused failed (propagates.failure failed).1)
  · rintro (loads | refused)
    · have fine : ¬FailedLoad load := fun failed => ran.failedLoad_iff.mp failed loads
      exact ⟨fun done => ran.kernelIsLoaded pages done fine, fun failed => absurd failed fine⟩
    · have failed := refusedFails refused
      obtain ⟨noTable, noJump⟩ := quiet failed
      refine ⟨fun done => absurd done failed, fun _ => ⟨failed, noTable, ?_⟩⟩
      exact lacks_cons.mpr ⟨rfl, lacks_append.mpr ⟨noJump, (ends failed).2⟩⟩

/-- A firmware without memory attributes that boots up to the exit, which it refuses. -/
def bootFirmware (past : List Event) : (call : Call) → Option call.Reply
  | .locateProtocol .. => some ⟨efiNotFound, 0⟩
  | other => plainFirmware [] efiSuccess efiLoadError past other

/-- Booting the plain kernel. -/
def plainBoot : Stub EfiStatus :=
  efiBootKernel plainLibfdt (fun _ => ()) plainKernel ⟨0x80000000, 0x80010000⟩ plainGlobals 1
    plainPayload []

/-- What is seen of booting it: it returns, and requests for pages are answered with pages. -/
theorem plainBoot_seen : (plainBoot.valueWith bootFirmware).isSome = true ∧
    (plainBoot.eventsWith bootFirmware).all givesPages = true := by
  simp only [plainBoot, efiBootKernel, loadElf, loadSegments, loadProgram, efiAllocateKernelMemory,
    memset_word]
  decide +kernel

/-- The plain kernel, with a firmware that accepts all. -/
theorem boot_kernel_propagates_iff_plain :
    ∃ load after status info' final, plainBoot.eventsWith bootFirmware =
        ⟨.print ("[INFO]: " ++ "Loading ELF payload...\n") [], ()⟩ :: (load ++ after) ∧
      Exec (loadElf plainKernel ⟨0x80000000, 0x80010000⟩ plainPayload) load
        (some (status, info', final)) ∧
      (PropagatesFailure plainKernel plainPayload info' final status load
          (plainBoot.eventsWith bootFirmware) ↔
        LoadsIfCalled plainKernel plainPayload load ∨ TableRefused load) := by
  obtain ⟨returns, pages⟩ := plainBoot_seen
  exact boot_kernel_propagates_iff (gives_of_all pages) (exec_eventsWith returns)

/-- Without pages for the kernel, `load_elf` returns success. -/
theorem load_elf_hides_failure :
    ¬∀ m image info load status info' final, GivesPages load →
      Exec (loadElf m image info) load (some (status, info', final)) →
        PropagatesFailure m info info' final status load load := by
  intro claim
  obtain ⟨success, pages, failed⟩ := plainLoadElf_seen efiOutOfResources (by simp)
  obtain ⟨⟨status, info', final⟩, seen, run⟩ := exec_of_seen success
  obtain rfl : status = efiSuccess := congrArg Prod.fst seen
  have propagates := claim _ _ _ _ _ _ _ (gives_of_all pages) run
  exact (propagates.failure ⟨_, point_mem failed, by decide⟩).1 rfl

/-- The table of a payload. -/
def tableOf (m : Memory) (info : PayloadInfo) : List Elf64Phdr :=
  phdrs m (phdrStartOf m info) (phdrCount m info.payloadAddr).toUInt32.toNat

/-- Where the loader puts the byte of a virtual address that belongs to a segment. -/
def Elf64Phdr.placed (header : Elf64Phdr) (headers : List Elf64Phdr) (base address : UInt64) :
    UInt64 :=
  base + (header.pPaddr - (extentOf headers).minPaddr) + (address - header.pVaddr)

/-- No byte of the region, and no byte that is copied, is one of `e_entry`. -/
def EntryKept (m : Memory) (info : PayloadInfo) (base size : UInt64) : Prop :=
  Disjoint (window (info.payloadAddr + eEntry.offset) 8) (window base size.toNat) ∧
    ∀ header ∈ copiedInto m info.payloadAddr info.payloadSize (phdrStartOf m info)
      (phdrCount m info.payloadAddr).toUInt32 base size,
      Disjoint (window (info.payloadAddr + eEntry.offset) 8)
        (window (header.dest base (extentOf (tableOf m info)).minPaddr) header.pFilesz.toNat)

/-- The entry of the header is still there after loading. -/
theorem entry_kept (kept : EntryKept m info base size) :
    fieldAt (programMemory m info base size) info.payloadAddr eEntry =
      fieldAt m info.payloadAddr eEntry := by
  refine wordAt_congr (by decide) fun x inside => ?_
  refine (foldl_copySegment_outside _ fun header member =>
    Set.disjoint_left.mp (kept.2 header member) inside).trans ?_
  exact zeroed_outside kept.1.symm x inside

/-- The run of `load_program` that a success of it is reported of. -/
theorem ElfRun.entered (run : ElfRun m image info events (status, info', final))
    (returned : (⟨.reach (.loadProgram efiSuccess), ()⟩ : Event) ∈ events) :
    Obtains info'.loadedPaddr info'.loadedSize events ∧ info'.kernelEntry =
      fieldAt (programMemory m info info'.loadedPaddr info'.loadedSize) info.payloadAddr eEntry -
        (extentOf (tableOf m info)).minVaddr + info'.loadedPaddr := by
  obtain ⟨early, -⟩ | ⟨-, -, before, loading, rest, loaded, middle, rfl, looks, ran, rfl,
    finishes⟩ := run.finishes
  · cases early.noReturn _ returned
  have status : statusOf loaded = efiSuccess := by
    rcases List.mem_append.mp returned with member | member
    · cases looks.noReturn _ member
    rcases List.mem_append.mp member with member | member
    · cases ran.noReturn _ member
    rcases List.mem_cons.mp member with same | member
    · injection same with call
      injection call with point
      injection point with status
      exact status.symm
    · cases finishes.noReturn _ member
  cases loaded with
  | error failure => exact absurd status ran.error_status
  | ok program =>
    obtain ⟨shown, lowest, rfl⟩ := ran.returned
    refine ⟨List.mem_append_right _ (List.mem_append_left _ shown), ?_⟩
    change _ - program.minVaddr + program.memPaddr = _
    rw [lowest]
    rfl

/-- Where `load_program` succeeds, the entry of the kernel is where the loader has put the byte at
`e_entry` exactly when the distances that `e_entry` and its segment are moved by agree. While `e_entry`
is not overwritten, this says that the segment lies at one offset in physical and in virtual memory. -/
theorem kernel_entry_iff
    (run : Exec (loadElf m image info) events (some (status, info', final)))
    (returned : (⟨.reach (.loadProgram efiSuccess), ()⟩ : Event) ∈ events) :
    ∀ header ∈ loads (tableOf m info),
      (fieldAt m info.payloadAddr eEntry - header.pVaddr).toNat < header.pMemsz.toNat →
      (info'.kernelEntry = header.placed (tableOf m info) info'.loadedPaddr
          (fieldAt m info.payloadAddr eEntry) ↔
        header.pPaddr - (extentOf (tableOf m info)).minPaddr +
            (fieldAt m info.payloadAddr eEntry - header.pVaddr) =
          fieldAt (programMemory m info info'.loadedPaddr info'.loadedSize) info.payloadAddr eEntry -
            (extentOf (tableOf m info)).minVaddr) ∧
      (EntryKept m info info'.loadedPaddr info'.loadedSize →
        (info'.kernelEntry = header.placed (tableOf m info) info'.loadedPaddr
            (fieldAt m info.payloadAddr eEntry) ↔
          header.pPaddr - (extentOf (tableOf m info)).minPaddr =
            header.pVaddr - (extentOf (tableOf m info)).minVaddr)) := by
  obtain ⟨result, same, ran⟩ := elfRun_of_exec run
  obtain rfl := Option.some.inj same
  obtain ⟨-, entry⟩ := ran.entered returned
  intro header _ _
  rw [entry, Elf64Phdr.placed]
  constructor
  · grind
  · intro kept
    rw [entry_kept kept]
    grind

/-- The plain kernel is copied away from its header. -/
theorem plainKernel_entryKept : EntryKept plainKernel plainPayload 0x40000000 0x200000 := by
  have copies : copiedInto plainKernel 0x100000 184 (phdrStartOf plainKernel plainPayload)
      (phdrCount plainKernel 0x100000).toUInt32 0x40000000 0x200000 =
      [⟨1, 176, 0x200000, 0x200000, 4, 8, 4096⟩, ⟨1, 180, 0x201000, 0x201000, 4, 4096, 4096⟩] := by
    simp only [copiedInto, zeroed, memset_word]
    decide +kernel
  have lowest : (extentOf (tableOf plainKernel plainPayload)).minPaddr = 0x200000 := by
    decide +kernel
  refine ⟨window_apart (by decide) (by decide), fun header member => ?_⟩
  rw [lowest]
  have listed := copies ▸ member
  simp only [List.mem_cons, List.not_mem_nil, or_false] at listed
  rcases listed with rfl | rfl
  · exact window_apart (by decide) (by decide)
  · exact window_apart (by decide) (by decide)

/-- The entry of the plain kernel lies in its first segment, which is at one offset in physical and
in virtual memory. -/
theorem kernel_entry_iff_plain : ∃ events status info' final,
    Exec (loadElf plainKernel ⟨0x80000000, 0x80010000⟩ plainPayload) events
      (some (status, info', final)) ∧
    (info'.kernelEntry = (⟨1, 176, 0x200000, 0x200000, 4, 8, 4096⟩ : Elf64Phdr).placed
        (tableOf plainKernel plainPayload) info'.loadedPaddr
        (fieldAt plainKernel plainPayload.payloadAddr eEntry) ↔
      (0x200000 : UInt64) - (extentOf (tableOf plainKernel plainPayload)).minPaddr +
          (fieldAt plainKernel plainPayload.payloadAddr eEntry - 0x200000) =
        fieldAt (programMemory plainKernel plainPayload info'.loadedPaddr info'.loadedSize)
            plainPayload.payloadAddr eEntry -
          (extentOf (tableOf plainKernel plainPayload)).minVaddr) ∧
    EntryKept plainKernel plainPayload info'.loadedPaddr info'.loadedSize ∧
    info'.kernelEntry = (⟨1, 176, 0x200000, 0x200000, 4, 8, 4096⟩ : Elf64Phdr).placed
      (tableOf plainKernel plainPayload) info'.loadedPaddr
      (fieldAt plainKernel plainPayload.payloadAddr eEntry) := by
  obtain ⟨success, -, returned⟩ := plainLoadElf_seen efiSuccess (by simp)
  obtain ⟨⟨status, info', final⟩, seen, run⟩ := exec_of_seen success
  obtain ⟨-, region⟩ := Prod.mk.inj seen
  obtain ⟨base, size⟩ := Prod.mk.inj region
  have kept : EntryKept plainKernel plainPayload info'.loadedPaddr info'.loadedSize := by
    rw [base, size]
    exact plainKernel_entryKept
  obtain ⟨general, plain⟩ :=
    kernel_entry_iff run (point_mem returned) ⟨1, 176, 0x200000, 0x200000, 4, 8, 4096⟩
      (by decide +kernel) (by decide +kernel)
  exact ⟨_, status, info', final, run, general, kept, (plain kept).mpr (by decide +kernel)⟩

/-- A kernel whose second segment is entered, and is further away in virtual than in physical
memory. -/
def distantKernel : Memory := memoryWith 0x100000 (elfFile 0x400000
  [⟨1, 176, 0x200000, 0x200000, 4, 8, 4096⟩, ⟨1, 180, 0x400000, 0x201000, 4, 4096, 4096⟩]
  [0x13, 0, 0, 0, 0x13, 0, 0, 0])

/-- Loading it. -/
def distantLoadElf : Stub (EfiStatus × PayloadInfo × Memory) :=
  loadElf distantKernel ⟨0x80000000, 0x80010000⟩ plainPayload

/-- What is seen of it: the region, the entry, and that `load_program` succeeds. -/
theorem distantLoadElf_seen :
    (distantLoadElf.valueWith (loaderFirmware efiSuccess)).map (fun result =>
        (result.2.1.loadedPaddr, result.2.1.kernelEntry)) = some (0x40000000, 0x40200000) ∧
      Call.reach (.loadProgram efiSuccess) ∈
        (distantLoadElf.eventsWith (loaderFirmware efiSuccess)).map Interaction.Event.op := by
  simp only [distantLoadElf, loadElf, loadSegments, loadProgram, efiAllocateKernelMemory,
    memset_word]
  decide +kernel

/-- The entry is moved by the virtual distance, and the segment by the physical one. -/
theorem kernel_entry_misplaced :
    ¬∀ m image info events status info' final,
      Exec (loadElf m image info) events (some (status, info', final)) →
      (⟨.reach (.loadProgram efiSuccess), ()⟩ : Event) ∈ events →
      ∀ header ∈ loads (tableOf m info),
        (fieldAt m info.payloadAddr eEntry - header.pVaddr).toNat < header.pMemsz.toNat →
        info'.kernelEntry = header.placed (tableOf m info) info'.loadedPaddr
          (fieldAt m info.payloadAddr eEntry) := by
  intro claim
  obtain ⟨entered, returned⟩ := distantLoadElf_seen
  obtain ⟨⟨status, info', final⟩, placed, run⟩ := exec_of_seen entered
  obtain ⟨base, entry⟩ := Prod.mk.inj placed
  have member : ⟨1, 180, 0x400000, 0x201000, 4, 4096, 4096⟩ ∈
      loads (tableOf distantKernel plainPayload) := by
    decide +kernel
  have same := claim _ _ _ _ _ _ _ run (point_mem returned) _ member (by decide +kernel)
  rw [base, entry] at same
  revert same
  decide +kernel

end DragonStub

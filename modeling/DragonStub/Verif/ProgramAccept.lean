import DragonStub.Verif.HandoverRuns
import DragonStub.Verif.ProgramBounds

/-!
# The tables that are loaded

`load_program` succeeds when the link address is aligned, the firmware has pages, and every segment
the copying loop reads passes its tests. The tests compare wrapped sums and do not look at the
alignment of a segment or at the end of its memory, so more tables pass than can be loaded.
-/

namespace DragonStub

open ByteMemory Interaction Layout Prog Word

variable {m final : Memory} {events first second : List Event}
  {payloadStart payloadSize base size minPaddr phdr phdrStart : UInt64} {phdrsNr : UInt32}
  {count : Nat} {header : Elf64Phdr} {headers copies : List Elf64Phdr} {status : EfiStatus}

/-- A segment that can be loaded: page-aligned, its file part in its memory part and in the payload,
and its memory part in the address space. -/
structure Elf64Phdr.Loadable (header : Elf64Phdr) (payloadSize : UInt64) : Prop where
  /-- `p_align` is a multiple of the page size. -/
  pages : header.pAlign.toNat % 4096 = 0
  /-- The file part is part of the memory part. -/
  part : header.pFilesz.toNat ≤ header.pMemsz.toNat
  /-- The file part is in the payload. -/
  file : header.pOffset.toNat + header.pFilesz.toNat ≤ payloadSize.toNat
  /-- The memory part is in the address space. -/
  memory : header.pPaddr.toNat + header.pMemsz.toNat ≤ 2 ^ 64

/-- A table that can be loaded: the lowest segment is at a multiple of 2 MiB, and every segment can
be loaded. -/
structure LoadableTable (headers : List Elf64Phdr) (payloadSize : UInt64) : Prop where
  /-- The lowest segment. -/
  lowest : ∃ header ∈ loads headers, (∀ other ∈ loads headers, header.pPaddr ≤ other.pPaddr) ∧
    header.pPaddr.toNat % 2 ^ 21 = 0
  /-- The segments. -/
  segments : ∀ header ∈ loads headers, header.Loadable payloadSize

/-- What the wrapped comparisons leave out of a test: the sums are exact, and the alignment is of
pages. -/
structure Elf64Phdr.Exact (header : Elf64Phdr) : Prop where
  /-- `p_align` is a multiple of the page size. -/
  pages : header.pAlign.toNat % 4096 = 0
  /-- The end of the file part does not wrap. -/
  file : header.pOffset.toNat + header.pFilesz.toNat < 2 ^ 64
  /-- The memory part is in the address space. -/
  memory : header.pPaddr.toNat + header.pMemsz.toNat ≤ 2 ^ 64

/-- A segment can be loaded when it passes the tests and nothing wraps. -/
theorem Elf64Phdr.loadable_iff :
    header.Loadable payloadSize ↔ header.Accepted payloadSize ∧ header.Exact := by
  have bound := payloadSize.toNat_lt
  have order : header.pFilesz ≤ header.pMemsz ↔ header.pFilesz.toNat ≤ header.pMemsz.toNat :=
    UInt64.le_iff_toNat_le
  constructor
  · intro loadable
    have file := loadable.file
    have within : header.pOffset + header.pFilesz ≤ payloadSize := by
      rw [UInt64.le_iff_toNat_le, UInt64.toNat_add, Nat.mod_eq_of_lt (by omega)]
      exact file
    exact ⟨⟨within, order.mpr loadable.part⟩, loadable.pages, by omega, loadable.memory⟩
  · rintro ⟨⟨within, part⟩, exact⟩
    rw [UInt64.le_iff_toNat_le, UInt64.toNat_add, Nat.mod_eq_of_lt exact.file] at within
    exact ⟨exact.pages, order.mp part, within, exact.memory⟩

/-- The lowest address after widening is the one before or that of a segment. -/
theorem foldl_widen_minPaddr (headers : List Elf64Phdr) (extent : Extent) :
    (headers.foldl Extent.widen extent).minPaddr = extent.minPaddr ∨
      ∃ header ∈ headers, (headers.foldl Extent.widen extent).minPaddr = header.pPaddr := by
  induction headers generalizing extent with
  | nil => exact .inl rfl
  | cons header rest ih =>
    rw [List.foldl_cons]
    rcases ih (extent.widen header) with same | ⟨lowest, member, same⟩
    · have value : (extent.widen header).minPaddr =
          if extent.minPaddr ≤ header.pPaddr then extent.minPaddr else header.pPaddr := rfl
      rw [same, value]
      by_cases order : extent.minPaddr ≤ header.pPaddr
      · exact .inl (if_pos order)
      · exact .inr ⟨header, List.mem_cons_self, if_neg order⟩
    · exact .inr ⟨lowest, List.mem_cons_of_mem _ member, same⟩

/-- The test of the link address finds the lowest segment at a multiple of 2 MiB. Without a segment
it fails, because the extremes start at an odd address. -/
theorem aligned_iff : (extentOf headers).Aligned ↔ ∃ header ∈ loads headers,
    (∀ other ∈ loads headers, header.pPaddr ≤ other.pPaddr) ∧ header.pPaddr.toNat % 2 ^ 21 = 0 := by
  have unit : kernelMemAlign.toNat = 2 ^ 21 := sz2M_pow.2
  have mask (x : UInt64) : x &&& (kernelMemAlign - 1) = 0 ↔ x.toNat % 2 ^ 21 = 0 := by
    change x &&& (sz2M - 1) = 0 ↔ _
    rw [← UInt64.toNat_inj, sz2M_pow.and_mask, UInt64.toNat_zero]
    exact Eq.congr_left (congrArg (x.toNat % ·) unit)
  obtain ⟨-, -, reached⟩ := foldl_widen (loads headers) Extent.none
  unfold Extent.Aligned
  rw [mask]
  constructor
  · intro aligned
    rcases foldl_widen_minPaddr (loads headers) Extent.none with same | ⟨header, member, same⟩
    · have odd : (extentOf headers).minPaddr = 0xFFFFFFFFFFFFFFFF := same
      rw [odd] at aligned
      cases aligned
    · have lowest : (extentOf headers).minPaddr = header.pPaddr := same
      rw [lowest] at aligned
      refine ⟨header, member, fun other listed => ?_, aligned⟩
      rw [← lowest]
      exact (reached other listed).1
  · rintro ⟨header, member, below, aligned⟩
    have low : (extentOf headers).minPaddr ≤ header.pPaddr := (reached header member).1
    have same : (extentOf headers).minPaddr = header.pPaddr := by
      rcases foldl_widen_minPaddr (loads headers) Extent.none with start | ⟨lowest, listed, same⟩
      · have top : header.pPaddr ≤ (extentOf headers).minPaddr := by
          change header.pPaddr ≤ ((loads headers).foldl Extent.widen Extent.none).minPaddr
          rw [start, UInt64.le_iff_toNat_le]
          exact Nat.le_of_lt_succ header.pPaddr.toNat_lt
        exact UInt64.le_antisymm low top
      · exact UInt64.le_antisymm low (same ▸ below lowest listed)
    rw [same]
    exact aligned

/-- The segments whose headers the copying loop reads: it stops behind the first one it rejects, and
reads each header after the copies before it. -/
def segmentsRead (payloadStart payloadSize base minPaddr : UInt64) :
    Nat → UInt64 → Memory → List Elf64Phdr
  | 0, _, _ => []
  | count + 1, phdr, m =>
    if (phdrAt m phdr).pType ≠ ptLoad then
      segmentsRead payloadStart payloadSize base minPaddr count (phdr + elf64PhdrSize) m
    else if ¬(phdrAt m phdr).Accepted payloadSize then [phdrAt m phdr]
    else if (phdrAt m phdr).pMemsz = 0 then
      phdrAt m phdr ::
        segmentsRead payloadStart payloadSize base minPaddr count (phdr + elf64PhdrSize) m
    else phdrAt m phdr :: segmentsRead payloadStart payloadSize base minPaddr count
      (phdr + elf64PhdrSize) (copySegment payloadStart base minPaddr m (phdrAt m phdr))

/-- The loop succeeds when every segment it reads passes. -/
theorem CopyRun.success_iff
    (run : CopyRun payloadStart payloadSize base minPaddr count phdr m events copies status final) :
    status = efiSuccess ↔
      ∀ header ∈ segmentsRead payloadStart payloadSize base minPaddr count phdr m,
        header.Accepted payloadSize := by
  induction run with
  | done => simp [segmentsRead]
  | @skipped _ phdr m _ _ _ _ skips rest ih =>
    by_cases load : (phdrAt m phdr).pType = ptLoad
    · rcases skips with other | ⟨accepted, none⟩
      · exact absurd load other
      rw [ih, segmentsRead, if_neg (not_not.mpr load), if_neg (not_not.mpr accepted), if_pos none,
        List.forall_mem_cons, and_iff_right accepted]
    · rw [ih, segmentsRead, if_pos load]
  | rejected load bad =>
    rw [segmentsRead, if_neg (not_not.mpr load), if_pos bad]
    refine iff_of_false (by decide) fun all => bad (all _ List.mem_cons_self)
  | copied load accepted memory rest ih =>
    rw [ih, segmentsRead, if_neg (not_not.mpr load), if_neg (not_not.mpr accepted), if_neg memory,
      List.forall_mem_cons, and_iff_right accepted]

/-- While the copies stay off the table, the loop reads the segments of the table up to the first
one it rejects. -/
theorem segmentsRead_accepted {m' : Memory} (small : count ≤ 2 ^ 32)
    (same : ∀ x ∈ tableWindow phdr count, m' x = m x)
    (apart : ∀ header ∈ loads (phdrs m phdr count), header.Accepted payloadSize →
      Disjoint (window (header.dest base minPaddr) header.pFilesz.toNat) (tableWindow phdr count)) :
    (∀ header ∈ segmentsRead payloadStart payloadSize base minPaddr count phdr m',
        header.Accepted payloadSize) ↔
      ∀ header ∈ loads (phdrs m phdr count), header.Accepted payloadSize := by
  induction count generalizing phdr m' with
  | zero => simp [segmentsRead, phdrs, loads]
  | succ count ih =>
    obtain ⟨first, later⟩ := tableWindow_succ phdr small
    have header : phdrAt m' phdr = phdrAt m phdr :=
      phdrAt_congr fun x inside => same x (first inside)
    rw [phdrs, loads_cons, ← header] at apart ⊢
    by_cases load : (phdrAt m' phdr).pType = ptLoad
    · rw [if_pos load] at apart ⊢
      rw [segmentsRead, if_neg (not_not.mpr load)]
      have rest := fun header member passed =>
        (apart header (List.mem_cons_of_mem _ member) passed).mono_right later
      by_cases accepted : (phdrAt m' phdr).Accepted payloadSize
      · rw [if_neg (not_not.mpr accepted)]
        by_cases none : (phdrAt m' phdr).pMemsz = 0
        · rw [if_pos none, List.forall_mem_cons, List.forall_mem_cons,
            ih (by omega) (fun x inside => same x (later inside)) rest]
        · have off := apart (phdrAt m' phdr) List.mem_cons_self accepted
          have kept : ∀ x ∈ tableWindow (phdr + elf64PhdrSize) count,
              copySegment payloadStart base minPaddr m' (phdrAt m' phdr) x = m x :=
            copySegment_off (off.mono_right later) fun x inside => same x (later inside)
          rw [if_neg none, List.forall_mem_cons, List.forall_mem_cons, ih (by omega) kept rest]
      · rw [if_pos accepted]
        refine iff_of_false (fun all => ?_) fun all => ?_
        · exact accepted (all _ List.mem_cons_self)
        · exact accepted (all _ List.mem_cons_self)
    · rw [if_neg load] at apart ⊢
      rw [segmentsRead, if_pos load]
      exact ih (by omega) (fun x inside => same x (later inside)) fun header member passed =>
        (apart header member passed).mono_right later

/-- The firmware grants a request for pages. -/
def PagesGranted (events : List Event) : Prop :=
  ∃ request memoryType pages address reply,
    (⟨.allocatePages request memoryType pages address, reply⟩ : Event) ∈ events ∧
      reply.status = efiSuccess

/-- Pages are granted in a trace when they are in one of its parts. -/
theorem pagesGranted_append :
    PagesGranted (first ++ second) ↔ PagesGranted first ∨ PagesGranted second := by
  simp [PagesGranted, or_and_right, exists_or]

/-- Looking at memory is granted no pages. -/
theorem Looks.not_granted {region : Set UInt64} (looks : Looks region events) :
    ¬PagesGranted events := by
  rintro ⟨request, memoryType, pages, address, reply, member, -⟩
  exact looks _ member

/-- The allocator returns pages when its request is granted. -/
theorem allocateKernel_granted {extent : Extent} {result : Except EfiStatus UInt64}
    (run : Exec (allocateKernel extent) events (some result)) :
    PagesGranted events ↔ ∃ address, result = .ok address := by
  obtain ⟨_, _, reply, _, rfl, ⟨refused, rfl, rfl⟩ | ⟨granted, address, rfl⟩⟩ :=
    allocateKernel_cases run
  · refine iff_of_false ?_ (by simp)
    rintro ⟨request, memoryType, pages, address, reply', member, granted⟩
    rw [List.mem_singleton] at member
    injection member with call same
    injection call
    subst_vars
    exact refused granted
  · exact iff_of_true ⟨_, _, _, _, reply, List.mem_cons_self, granted⟩ ⟨address, rfl⟩

/-- Pages are granted just when the region is reserved. -/
theorem RegionRun.granted {result : Except EfiStatus (KernelMemory × Memory)}
    (run : RegionRun m phdrStart phdrsNr events result) :
    PagesGranted events ↔ ∃ kernel, result = .ok kernel := by
  have table := (tableReads_looks phdrStart phdrsNr.toNat).not_granted
  cases run with
  | unaligned printed => simp [pagesGranted_append, table, printed.not_granted]
  | refused asked _ printed =>
    simp [pagesGranted_append, table, printed.not_granted, allocateKernel_granted asked]
  | allocated _ _ given mapped =>
    have granted := (allocateKernel_granted given).mpr ⟨_, rfl⟩
    simp [pagesGranted_append, granted]

/-- A run of `load_program` shows a region when its request for pages is granted. -/
theorem ProgramRun.granted_shows {result : Except EfiStatus Program × Memory}
    (run : ProgramRun m payloadStart payloadSize phdrStart phdrsNr events result) :
    PagesGranted events ↔ ∃ base size, Obtains base size events := by
  cases run with
  | refused run printed =>
    rw [pagesGranted_append, run.granted, or_iff_left printed.not_granted]
    apply iff_of_false (by simp)
    rintro ⟨base, size, shown⟩
    rcases obtains_append.mp shown with shown | shown
    · obtain ⟨-, -, impossible, -⟩ := run.obtains shown
      cases impossible
    · exact printed.not_obtains shown
  | rejected run | loaded run =>
    refine iff_of_true ?_ ⟨_, _, obtains_append.mpr (.inl run.shows)⟩
    exact pagesGranted_append.mpr (.inl (run.granted.mpr ⟨_, rfl⟩))

/-- A run of `load_program` that obtains a region succeeds when every segment it reads passes. -/
theorem ProgramRun.success_iff {result : Except EfiStatus Program × Memory}
    (run : ProgramRun m payloadStart payloadSize phdrStart phdrsNr events result)
    (shown : Obtains base size events) : (∃ program, result.1 = .ok program) ↔
      ∀ header ∈ segmentsRead payloadStart payloadSize base (tableExtent m phdrStart phdrsNr).minPaddr
        phdrsNr.toNat phdrStart (zeroed m base size), header.Accepted payloadSize := by
  obtain ⟨-, copy, copies, status, copying, done, failed, -⟩ := run.obtains shown
  rw [← copying.success_iff]
  constructor
  · rintro ⟨program, same⟩
    exact failed program same
  · intro success
    exact ⟨_, done success⟩

/-- A region is obtained only for an aligned extent. -/
theorem ProgramRun.aligned {result : Except EfiStatus Program × Memory}
    (run : ProgramRun m payloadStart payloadSize phdrStart phdrsNr events result)
    (shown : Obtains base size events) : (tableExtent m phdrStart phdrsNr).Aligned := by
  cases run with
  | refused run printed =>
    rcases obtains_append.mp shown with shown | shown
    · exact (run.obtains shown).2.1
    · exact absurd shown printed.not_obtains
  | rejected run | loaded run => exact (run.obtains run.shows).2.1

/-- A program that is loaded has obtained a region. -/
theorem ProgramRun.shows_of_ok {result : Except EfiStatus Program × Memory} {program : Program}
    (run : ProgramRun m payloadStart payloadSize phdrStart phdrsNr events result)
    (same : result.1 = .ok program) : ∃ base size, Obtains base size events := by
  cases run with
  | refused | rejected => cases same
  | loaded run => exact ⟨_, _, obtains_append.mpr (.inl run.shows)⟩

/-- `load_program` succeeds exactly for the tables that can be loaded, when the firmware has pages.
This is what the copying loop and the table have to agree on: for a region that is obtained, every
segment the loop reads passes its tests exactly when every segment of the table can be loaded. While
the copies stay off the table, it is enough that no accepted table is inexact. -/
theorem load_program_accepts_iff {outcome : Option (Except EfiStatus Program × Memory)}
    (run : Exec (loadProgram m payloadStart payloadSize phdrStart phdrsNr) events outcome) :
    (((∃ program final, outcome = some (.ok program, final)) ↔
        LoadableTable (phdrs m phdrStart phdrsNr.toNat) payloadSize ∧ PagesGranted events) ↔
      ∀ base size, Obtains base size events →
        ((∀ header ∈ segmentsRead payloadStart payloadSize base
            (tableExtent m phdrStart phdrsNr).minPaddr phdrsNr.toNat phdrStart (zeroed m base size),
            header.Accepted payloadSize) ↔
          ∀ header ∈ loads (phdrs m phdrStart phdrsNr.toNat), header.Loadable payloadSize)) ∧
    ∀ base size, Obtains base size events →
      Disjoint (window base size.toNat) (tableWindow phdrStart phdrsNr.toNat) →
      (∀ header ∈ loads (phdrs m phdrStart phdrsNr.toNat), header.Accepted payloadSize →
        Disjoint (window (header.dest base (tableExtent m phdrStart phdrsNr).minPaddr)
          header.pFilesz.toNat) (tableWindow phdrStart phdrsNr.toNat)) →
      (((∃ program final, outcome = some (.ok program, final)) ↔
          LoadableTable (phdrs m phdrStart phdrsNr.toNat) payloadSize ∧ PagesGranted events) ↔
        ((∀ header ∈ loads (phdrs m phdrStart phdrsNr.toNat), header.Accepted payloadSize) →
          ∀ header ∈ loads (phdrs m phdrStart phdrsNr.toNat), header.Exact)) := by
  obtain ⟨result, rfl, ran⟩ := programRun_of_exec run
  have value : (∃ program final, some result = some (.ok program, final)) ↔
      ∃ program, result.1 = .ok program := by
    constructor
    · rintro ⟨program, final, same⟩
      obtain rfl := Option.some.inj same
      exact ⟨program, rfl⟩
    · rintro ⟨program, same⟩
      exact ⟨program, result.2, congrArg some (Prod.ext same rfl)⟩
  rw [value]
  have claim {base size : UInt64} (shown : Obtains base size events) :
      ((∃ program, result.1 = .ok program) ↔
        LoadableTable (phdrs m phdrStart phdrsNr.toNat) payloadSize ∧ PagesGranted events) ↔
      ((∀ header ∈ segmentsRead payloadStart payloadSize base
            (tableExtent m phdrStart phdrsNr).minPaddr phdrsNr.toNat phdrStart (zeroed m base size),
            header.Accepted payloadSize) ↔
          ∀ header ∈ loads (phdrs m phdrStart phdrsNr.toNat), header.Loadable payloadSize) := by
    have granted : PagesGranted events := ran.granted_shows.mpr ⟨base, size, shown⟩
    have lowest := aligned_iff.mp (ran.aligned shown)
    have table : LoadableTable (phdrs m phdrStart phdrsNr.toNat) payloadSize ↔
        ∀ header ∈ loads (phdrs m phdrStart phdrsNr.toNat), header.Loadable payloadSize :=
      ⟨fun loadable => loadable.segments, fun segments => ⟨lowest, segments⟩⟩
    rw [ran.success_iff shown, and_iff_left granted, table]
  constructor
  · by_cases shown : ∃ base size, Obtains base size events
    · obtain ⟨base, size, shown⟩ := shown
      constructor
      · intro holds other length also
        exact (claim also).mp holds
      · intro all
        exact (claim shown).mpr (all base size shown)
    · have refused : ¬PagesGranted events := fun granted => shown (ran.granted_shows.mp granted)
      refine iff_of_true (iff_of_false ?_ fun both => refused both.2) fun base size also =>
        absurd ⟨base, size, also⟩ shown
      rintro ⟨program, same⟩
      exact shown (ran.shows_of_ok same)
  · intro base size shown fresh apart
    have kept : ∀ x ∈ tableWindow phdrStart phdrsNr.toNat, zeroed m base size x = m x :=
      zeroed_outside fresh
    rw [claim shown, segmentsRead_accepted phdrsNr.toNat_lt.le kept apart]
    constructor
    · intro agree accepted header member
      exact (Elf64Phdr.loadable_iff.mp (agree.mp accepted header member)).2
    · intro exact
      refine ⟨fun accepted header member => ?_, fun loadable header member => ?_⟩
      · exact Elf64Phdr.loadable_iff.mpr ⟨accepted header member, exact accepted header member⟩
      · exact (Elf64Phdr.loadable_iff.mp (loadable header member)).1

/-- The plain kernel is loadable, and its copies stay off the table. -/
theorem load_program_accepts_iff_plain :
    ((∃ program final, plainLoad.valueWith (loaderFirmware efiSuccess) = some (.ok program, final)) ↔
        LoadableTable (phdrs plainKernel 0x100040 (2 : UInt32).toNat) 184 ∧
          PagesGranted (plainLoad.eventsWith (loaderFirmware efiSuccess))) ↔
      ∀ base size, Obtains base size (plainLoad.eventsWith (loaderFirmware efiSuccess)) →
        ((∀ header ∈ segmentsRead 0x100000 184 base (tableExtent plainKernel 0x100040 2).minPaddr
            (2 : UInt32).toNat 0x100040 (zeroed plainKernel base size), header.Accepted 184) ↔
          ∀ header ∈ loads (phdrs plainKernel 0x100040 (2 : UInt32).toNat), header.Loadable 184) :=
  (load_program_accepts_iff (exec_eventsWith plainLoad_returns)).1

/-- A kernel of one segment that asks for an alignment of a single byte. -/
def bytewiseKernel : Memory := memoryWith 0x100000 (elfFile 0x200000
  [⟨1, 120, 0x200000, 0x200000, 4, 8, 1⟩] [0x13, 0, 0, 0])

/-- Loading the segment. -/
def bytewiseLoad : Stub (Except EfiStatus Program × Memory) :=
  loadProgram bytewiseKernel 0x100000 124 0x100040 1

/-- A segment with an alignment below a page is loaded. -/
theorem load_program_accepts_misaligned :
    ¬∀ (m : Memory) (payloadStart payloadSize phdrStart : UInt64) (phdrsNr : UInt32) events outcome,
      Exec (loadProgram m payloadStart payloadSize phdrStart phdrsNr) events outcome →
        ((∃ program final, outcome = some (.ok program, final)) ↔
          LoadableTable (phdrs m phdrStart phdrsNr.toNat) payloadSize ∧ PagesGranted events) := by
  intro claim
  have accepted : ((bytewiseLoad.valueWith (loaderFirmware efiSuccess)).map fun result =>
      result.1.toBool) = some true := by
    simp only [bytewiseLoad, loadProgram, efiAllocateKernelMemory, memset_word]
    decide +kernel
  obtain ⟨⟨result, final⟩, status, run⟩ := exec_of_seen accepted
  cases result with
  | error failure => cases status
  | ok program =>
    obtain ⟨table, -⟩ := (claim _ _ _ _ _ _ _ run).mp ⟨program, final, rfl⟩
    have header : ⟨1, 120, 0x200000, 0x200000, 4, 8, 1⟩ ∈
        loads (phdrs bytewiseKernel 0x100040 (1 : UInt32).toNat) := by decide +kernel
    exact absurd (table.segments _ header).pages (by decide)

end DragonStub

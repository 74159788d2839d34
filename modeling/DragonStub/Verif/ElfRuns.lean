import DragonStub.Verif.HeaderRuns

/-!
# Runs of the ELF loader

The runs of the functions of `elf.c` that allocate and copy, each listed once with its events in
order, up to those of `load_elf`.
-/

namespace DragonStub

open ByteMemory Interaction Prog

variable {m : Memory} {events : List Event} {region : Set UInt64}
  {payloadStart payloadSize : UInt64}

/-- The headers of a table. -/
def phdrs (m : Memory) : UInt64 → Nat → List Elf64Phdr
  | _, 0 => []
  | phdr, count + 1 => phdrAt m phdr :: phdrs m (phdr + elf64PhdrSize) count

/-- The reads of a table. -/
def tableReads : UInt64 → Nat → List Event
  | _, 0 => []
  | phdr, count + 1 => ⟨.reach (.read phdr 56), ()⟩ :: tableReads (phdr + elf64PhdrSize) count

/-- The segments of a table that are loaded. -/
def loads (headers : List Elf64Phdr) : List Elf64Phdr :=
  headers.filter fun header => header.pType == ptLoad

/-- The extremes over the segments of a table. -/
def extentOf (headers : List Elf64Phdr) : Extent := (loads headers).foldl Extent.widen Extent.none

/-- The mask of the alignment test is zero. -/
@[simp] theorem badAlign_eq_false (header : Elf64Phdr) : badAlign header = false := by
  simp [badAlign, logicalNot, efiPageSize]

/-- Measuring the program headers reads the table and widens the extent by each loaded segment. -/
theorem measurePhdrs_of_exec {count : Nat} {phdr : UInt64} {extent : Extent}
    {outcome : Option (Except EfiStatus Extent)}
    (run : Exec (measurePhdrs m count phdr extent) events outcome) :
    events = tableReads phdr count ∧
      outcome = some (.ok ((loads (phdrs m phdr count)).foldl Extent.widen extent)) := by
  induction count generalizing phdr extent events with
  | zero => exact exec_ret.mp run
  | succ count ih =>
    simp only [measurePhdrs, readPhdr, reading, perform_bind, call_bind, ret_bind, pure_eq_ret,
      exec_call, exec_ite, bne_iff_ne, not_not, badAlign_eq_false, Bool.false_eq_true, false_and,
      not_false_eq_true, true_and, false_or] at run
    obtain ⟨-, rest, rfl, ⟨other, run⟩ | ⟨load, run⟩⟩ := run
    · obtain ⟨rfl, rfl⟩ := ih run
      simp [tableReads, phdrs, loads, other, elf64PhdrSize]
    · obtain ⟨rfl, rfl⟩ := ih run
      simp [tableReads, phdrs, loads, load, elf64PhdrSize]

/-- Reading the table only looks at memory. -/
theorem tableReads_looks (phdr : UInt64) (count : Nat) : Looks Set.univ (tableReads phdr count) := by
  induction count generalizing phdr with
  | zero => simp [tableReads]
  | succ count ih => simp [tableReads, ih]

/-- The table is read in a region when its first header and the rest are. -/
theorem tableReads_within_succ {phdr : UInt64} {count : Nat} :
    Within .read region (tableReads phdr (count + 1)) ↔
      window phdr 56 ⊆ region ∧ Within .read region (tableReads (phdr + elf64PhdrSize) count) := by
  simp [tableReads]

/-- A table that is read inside a payload has all its headers there. -/
theorem tableReads_within_iff {offset : UInt64} {count : Nat} (some : 0 < count) :
    Within .read (window payloadStart payloadSize.toNat) (tableReads (payloadStart + offset) count) ↔
      offset.toNat + count * 56 ≤ payloadSize.toNat := by
  induction count generalizing offset with
  | zero => omega
  | succ count ih =>
    have bound := payloadSize.toNat_lt
    have next : payloadStart + offset + elf64PhdrSize = payloadStart + (offset + elf64PhdrSize) :=
      UInt64.add_assoc ..
    have entry : elf64PhdrSize.toNat = 56 := rfl
    rw [tableReads_within_succ, window_subset_iff, next]
    by_cases last : count = 0
    · subst last
      simp [tableReads]
    · have sum : (offset + elf64PhdrSize).toNat = (offset.toNat + 56) % 2 ^ 64 := by
        rw [UInt64.toNat_add, entry]
      rw [ih (by omega), sum]
      omega

/-- The size that `efi_allocate_kernel_memory` asks for. -/
def Extent.memSize (extent : Extent) : UInt64 :=
  alignUp (extent.maxPaddr - extent.minPaddr) kernelMemAlign

/-- The link addresses start at a multiple of `KERNEL_MEM_ALIGN`. -/
def Extent.Aligned (extent : Extent) : Prop := extent.minPaddr &&& (kernelMemAlign - 1) = 0

/-- The call of the page allocator. -/
def allocateKernel (extent : Extent) : Stub (Except EfiStatus UInt64) :=
  efiAllocatePagesAligned extent.memSize 0xFFFFFFFFFFFFFFFF kernelMemAlign efiLoaderData

/-- The calls of the page allocators. -/
def Call.isPages : Call → Bool
  | .allocatePages .. | .freePages .. => true
  | _ => false

/-- The calls of the remapping. -/
def Call.isRemap : Call → Bool
  | .locateProtocol .. | .getMemoryAttributes .. | .clearMemoryAttributes .. | .print .. => true
  | _ => false

/-- A call for pages is a call of the firmware. -/
theorem Call.isPoint_of_isPages {call : Call} (pages : call.isPages = true) :
    call.isPoint = false := by
  cases call with
  | reach => cases pages
  | _ => rfl

/-- A change of attributes is a call of the firmware. -/
theorem Call.isPoint_of_isRemap {call : Call} (remap : call.isRemap = true) :
    call.isPoint = false := by
  cases call with
  | reach => cases remap
  | _ => rfl

/-- A call for pages is answered. -/
theorem Call.answered_of_isPages (call : Call) (pages : call.isPages = true) :
    Nonempty call.Reply := by
  cases call with
  | allocatePages | freePages => exact ⟨default⟩
  | _ => cases pages

/-- A change of attributes is answered. -/
theorem Call.answered_of_isRemap (call : Call) (remap : call.isRemap = true) :
    Nonempty call.Reply := by
  cases call with
  | locateProtocol | getMemoryAttributes | clearMemoryAttributes | print => exact ⟨default⟩
  | _ => cases remap

/-- `efi_free` makes calls for pages alone. -/
theorem efiFree_pages (size addr : UInt64) :
    Calls (fun call => call.isPages = true) (efiFree size addr) := by
  unfold efiFree
  exact calls_ite calls_ret ⟨rfl, fun _ => calls_ret⟩

/-- The releases only free pages. -/
theorem releaseSlack_calls {allowed : Call → Prop} (allocAddr addr size align : UInt64)
    (slack : Int32) (frees : ∀ address pages, allowed (.freePages address pages)) :
    Calls allowed (releaseSlack allocAddr addr size align slack) := by
  unfold releaseSlack
  have tail (rest : Int32) : Calls allowed (if rest != 0 then do
      let _ ← perform (Call.freePages (addr + size) (Word.ofInt rest))
      pure () else pure () : Stub Unit) :=
    calls_ite ⟨frees _ _, fun _ => calls_ret⟩ calls_ret
  exact calls_ite (calls_ite ⟨frees _ _, fun _ => tail _⟩ (tail _)) calls_ret

/-- `efi_allocate_pages_aligned` makes calls for pages alone. -/
theorem efiAllocatePagesAligned_pages (size max align : UInt64) (memoryType : UInt32) :
    Calls (fun call => call.isPages = true)
      (efiAllocatePagesAligned size max align memoryType) := by
  unfold efiAllocatePagesAligned
  refine ⟨rfl, fun reply => calls_ite calls_ret ?_⟩
  exact (releaseSlack_calls _ _ _ _ _ fun _ _ => rfl).bind fun _ => calls_ret

/-- Clearing an attribute makes no calls but changes of attributes and prints. -/
theorem clearAttribute_remap (imageBase allocSize attr unwanted : UInt64) (warning : String) :
    Calls (fun call => call.isRemap = true)
      (clearAttribute imageBase allocSize attr unwanted warning) := by
  unfold clearAttribute
  refine calls_ite ⟨rfl, fun status => calls_ite ⟨rfl, fun _ => calls_ret⟩ calls_ret⟩ calls_ret

/-- Remapping the image makes no calls but changes of attributes and prints. -/
theorem efiRemapImageAllRwx_remap (imageBase : UInt64) (allocSize : UInt32) :
    Calls (fun call => call.isRemap = true) (efiRemapImageAllRwx imageBase allocSize) := by
  unfold efiRemapImageAllRwx
  refine ⟨rfl, fun memattr => calls_ite calls_ret ⟨rfl, fun current => ?_⟩⟩
  refine calls_ite ⟨rfl, fun _ => calls_ret⟩ ⟨rfl, fun _ => ?_⟩
  exact (clearAttribute_remap ..).bind fun _ => (clearAttribute_remap ..).bind fun _ =>
    clearAttribute_remap ..

/-- The page allocator asks for pages first. A refusal is its error and its end; when pages are
granted it returns an address. -/
theorem allocateKernel_cases {extent : Extent} {result : Except EfiStatus UInt64}
    (run : Exec (allocateKernel extent) events (some result)) : ∃ pages limit reply rest,
    events = ⟨.allocatePages efiAllocateMaxAddress efiLoaderData pages limit, reply⟩ :: rest ∧
      (reply.status ≠ efiSuccess ∧ rest = [] ∧ result = .error reply.status ∨
        reply.status = efiSuccess ∧ ∃ address, result = .ok address) := by
  rw [allocateKernel, efiAllocatePagesAligned] at run
  simp only [perform_bind] at run
  rw [exec_call] at run
  obtain ⟨reply, rest, rfl, run⟩ := run
  refine ⟨_, _, reply, rest, rfl, ?_⟩
  rw [exec_ite] at run
  rcases run with ⟨refused, run⟩ | ⟨granted, run⟩
  · obtain ⟨none, same⟩ := exec_ret.mp run
    exact .inl ⟨bne_iff_ne.mp refused, none, Option.some.inj same⟩
  · rw [bne_iff_ne, not_not] at granted
    obtain ⟨⟨⟩, freed, _, -, -, run⟩ := exec_bind_some.mp run
    obtain ⟨-, same⟩ := exec_ret.mp run
    exact .inr ⟨granted, _, Option.some.inj same⟩

/-- A refused allocation is an error. -/
theorem allocateKernel_failed {extent : Extent} {status : EfiStatus}
    (run : Exec (allocateKernel extent) events (some (.error status))) : status ≠ efiSuccess := by
  obtain ⟨_, _, reply, _, -, ⟨refused, -, same⟩ | ⟨-, _, impossible⟩⟩ := allocateKernel_cases run
  · cases same
    exact refused
  · cases impossible

/-- The page allocator returns. -/
theorem allocateKernel_returns {extent : Extent} {outcome : Option (Except EfiStatus UInt64)}
    (run : Exec (allocateKernel extent) events outcome) : ∃ result, outcome = some result :=
  (efiAllocatePagesAligned_pages ..).returns Call.answered_of_isPages run

/-- The remapping returns. -/
theorem efiRemapImageAllRwx_returns {imageBase : UInt64} {allocSize : UInt32}
    {outcome : Option Unit} (run : Exec (efiRemapImageAllRwx imageBase allocSize) events outcome) :
    outcome = some () :=
  let ⟨_, returned⟩ := (efiRemapImageAllRwx_remap ..).returns Call.answered_of_isRemap run
  returned

/-- Allocating the kernel makes calls of the firmware alone. -/
theorem allocateKernel_plain {extent : Extent} {outcome : Option (Except EfiStatus UInt64)}
    (run : Exec (allocateKernel extent) events outcome) : Lacks Call.isPoint events :=
  fun event member => Call.isPoint_of_isPages
    ((efiAllocatePagesAligned_pages ..).events run event member)

/-- `efi_free` makes calls of the firmware alone. -/
theorem efiFree_plain {size addr : UInt64} {outcome : Option Unit}
    (run : Exec (efiFree size addr) events outcome) : Lacks Call.isPoint events :=
  fun event member => Call.isPoint_of_isPages ((efiFree_pages ..).events run event member)

/-- Remapping the image makes calls of the firmware alone. -/
theorem efiRemapImageAllRwx_plain {imageBase : UInt64} {allocSize : UInt32}
    {outcome : Option Unit} (run : Exec (efiRemapImageAllRwx imageBase allocSize) events outcome) :
    Lacks Call.isPoint events :=
  fun event member => Call.isPoint_of_isRemap
    ((efiRemapImageAllRwx_remap ..).events run event member)

/-- What is recorded of a region between its allocation and its remapping. -/
def regionEvents (base size : UInt64) : List Event :=
  [⟨.reach (.kernelRegion base size), ()⟩,
    ⟨.print ("[INFO]: " ++ "Allocated kernel memory: paddr=%p, mem_size= %d bytes\n") [base, size], ()⟩,
    ⟨.reach (.write base size.toNat), ()⟩]

/-- The runs of `efi_allocate_kernel_memory`. -/
inductive RegionRun (m : Memory) (phdrStart : UInt64) (phdrsNr : UInt32) :
    List Event → Except EfiStatus (KernelMemory × Memory) → Prop where
  /-- The link address is not aligned. -/
  | unaligned {prints : List Event} (printed : Looks ∅ prints) :
      RegionRun m phdrStart phdrsNr (tableReads phdrStart phdrsNr.toNat ++ prints)
        (.error efiInvalidParameter)
  /-- There is no memory. -/
  | refused {allocate prints : List Event} {status : EfiStatus}
      (asked : Exec (allocateKernel (extentOf (phdrs m phdrStart phdrsNr.toNat))) allocate
        (some (.error status)))
      (failed : status ≠ efiSuccess) (printed : Looks ∅ prints) :
      RegionRun m phdrStart phdrsNr
        (tableReads phdrStart phdrsNr.toNat ++ (allocate ++ prints)) (.error status)
  /-- The region is allocated, zeroed and remapped. -/
  | allocated {allocate remap : List Event} {base : UInt64} {extent : Extent}
      (measured : extent = extentOf (phdrs m phdrStart phdrsNr.toNat)) (aligned : extent.Aligned)
      (given : Exec (allocateKernel extent) allocate (some (.ok base)))
      (mapped : Exec (efiRemapImageAllRwx base extent.memSize.toUInt32) remap (some ())) :
      RegionRun m phdrStart phdrsNr
        (tableReads phdrStart phdrsNr.toNat ++
          (allocate ++ (regionEvents base extent.memSize ++ remap)))
        (.ok (⟨base, extent.memSize, extent.minPaddr, extent.maxPaddr, extent.minVaddr⟩,
          memset m base 0 extent.memSize.toNat))

/-- Every run that reserves the region is one of its runs case by case, and returns. -/
theorem regionRun_of_exec {phdrStart : UInt64} {phdrsNr : UInt32}
    {outcome : Option (Except EfiStatus (KernelMemory × Memory))}
    (run : Exec (efiAllocateKernelMemory m phdrStart phdrsNr) events outcome) :
    ∃ result, outcome = some result ∧ RegionRun m phdrStart phdrsNr events result := by
  rw [efiAllocateKernelMemory, exec_bind] at run
  rcases run with ⟨measured, _, rest, rfl, measuring, run⟩ | ⟨-, stuck⟩
  swap
  · cases (measurePhdrs_of_exec stuck).2
  obtain ⟨rfl, result⟩ := measurePhdrs_of_exec measuring
  obtain rfl := Option.some.inj result
  change Exec (if _ then _ else _) rest outcome at run
  rw [exec_ite] at run
  rcases run with ⟨-, run⟩ | ⟨aligned, run⟩
  · simp only [efiErr, efiPrintk, perform_bind, exec_call, pure_eq_ret, exec_ret] at run
    obtain ⟨-, _, rfl, rfl, rfl⟩ := run
    exact ⟨_, rfl, .unaligned (by simp)⟩
  rw [exec_bind] at run
  rcases run with ⟨given, allocate, rest, rfl, asked, run⟩ | ⟨-, stuck⟩
  swap
  · obtain ⟨_, impossible⟩ := allocateKernel_returns stuck
    cases impossible
  cases given with
  | error status =>
    simp only [efiErr, efiPrintk, perform_bind, exec_call, pure_eq_ret, exec_ret] at run
    obtain ⟨-, _, rfl, rfl, rfl⟩ := run
    exact ⟨_, rfl, .refused asked (allocateKernel_failed asked) (by simp)⟩
  | ok base =>
    simp only [efiInfo, efiPrintk, writing, perform_bind, exec_call, exec_bind, pure_eq_ret,
      exec_ret] at run
    obtain ⟨-, _, rfl, -, _, rfl, -, _, rfl, run⟩ := run
    rcases run with ⟨⟨⟩, remap, _, rfl, mapped, rfl, rfl⟩ | ⟨-, stuck⟩
    · have start : (extentOf (phdrs m phdrStart phdrsNr.toNat)).Aligned := by
        rw [bne_iff_ne, not_not] at aligned
        exact aligned
      have run := RegionRun.allocated rfl start asked mapped
      rw [List.append_nil]
      exact ⟨_, rfl, run⟩
    · cases efiRemapImageAllRwx_returns stuck

/-- Where a segment is copied to. -/
def Elf64Phdr.dest (header : Elf64Phdr) (base minPaddr : UInt64) : UInt64 :=
  base + (header.pPaddr - minPaddr)

/-- Where a segment is copied from. -/
def Elf64Phdr.src (header : Elf64Phdr) (payloadStart : UInt64) : UInt64 :=
  payloadStart + header.pOffset

/-- The tests `load_program` makes of a segment. -/
def Elf64Phdr.Accepted (header : Elf64Phdr) (payloadSize : UInt64) : Prop :=
  header.pOffset + header.pFilesz ≤ payloadSize ∧ header.pFilesz ≤ header.pMemsz

/-- Whether a header is accepted can be computed. -/
instance (header : Elf64Phdr) (payloadSize : UInt64) : Decidable (header.Accepted payloadSize) :=
  inferInstanceAs (Decidable (_ ∧ _))

section Copy

variable (payloadStart payloadSize base minPaddr : UInt64)

/-- The memory after one segment is copied. -/
def copySegment (m : Memory) (header : Elf64Phdr) : Memory :=
  memcpy m (header.dest base minPaddr) (header.src payloadStart) header.pFilesz.toNat

/-- The segments that the loop of `load_program` copies, as it reads their headers: it stops at the
first one it rejects, and passes over those without memory. -/
def copied : Nat → UInt64 → Memory → List Elf64Phdr
  | 0, _, _ => []
  | count + 1, phdr, m =>
    if (phdrAt m phdr).pType ≠ ptLoad then copied count (phdr + elf64PhdrSize) m
    else if ¬(phdrAt m phdr).Accepted payloadSize then []
    else if (phdrAt m phdr).pMemsz = 0 then copied count (phdr + elf64PhdrSize) m
    else phdrAt m phdr :: copied count (phdr + elf64PhdrSize)
      (copySegment payloadStart base minPaddr m (phdrAt m phdr))

/-- The runs of the loop of `load_program`: the headers from an address on, the memory before, the
events, the segments copied, the status and the memory after. -/
inductive CopyRun : Nat → UInt64 → Memory → List Event → List Elf64Phdr → EfiStatus → Memory → Prop
    where
  /-- There are no more headers. -/
  | done (phdr : UInt64) (m : Memory) : CopyRun 0 phdr m [] [] efiSuccess m
  /-- The header is not for loading, or has no memory. -/
  | skipped {count : Nat} {phdr : UInt64} {m final : Memory} {events : List Event}
      {headers : List Elf64Phdr} {status : EfiStatus}
      (skips : (phdrAt m phdr).pType ≠ ptLoad ∨
        (phdrAt m phdr).Accepted payloadSize ∧ (phdrAt m phdr).pMemsz = 0)
      (rest : CopyRun count (phdr + elf64PhdrSize) m events headers status final) :
      CopyRun (count + 1) phdr m (⟨.reach (.read phdr 56), ()⟩ :: events) headers status final
  /-- The segment is rejected. -/
  | rejected {count : Nat} {phdr : UInt64} {m : Memory} (load : (phdrAt m phdr).pType = ptLoad)
      (bad : ¬(phdrAt m phdr).Accepted payloadSize) :
      CopyRun (count + 1) phdr m [⟨.reach (.read phdr 56), ()⟩] [] efiInvalidParameter m
  /-- The segment is copied. -/
  | copied {count : Nat} {phdr : UInt64} {m final : Memory} {events : List Event}
      {headers : List Elf64Phdr} {status : EfiStatus} (load : (phdrAt m phdr).pType = ptLoad)
      (accepted : (phdrAt m phdr).Accepted payloadSize) (memory : (phdrAt m phdr).pMemsz ≠ 0)
      (rest : CopyRun count (phdr + elf64PhdrSize)
        (copySegment payloadStart base minPaddr m (phdrAt m phdr)) events headers status final) :
      CopyRun (count + 1) phdr m
        (⟨.reach (.read phdr 56), ()⟩ ::
          ⟨.reach (.read ((phdrAt m phdr).src payloadStart) (phdrAt m phdr).pFilesz.toNat), ()⟩ ::
          ⟨.reach (.write ((phdrAt m phdr).dest base minPaddr) (phdrAt m phdr).pFilesz.toNat), ()⟩ ::
          events)
        (phdrAt m phdr :: headers) status final

end Copy

variable {base minPaddr : UInt64} {count : Nat} {phdr : UInt64} {final : Memory}
  {headers : List Elf64Phdr} {status : EfiStatus}

/-- Every run that copies the segments is one of its runs case by case, and returns. -/
theorem copyRun_of_exec {outcome : Option (EfiStatus × Memory)}
    (run : Exec (copyPhdrs payloadStart payloadSize base minPaddr count phdr m) events outcome) :
    ∃ headers status final, outcome = some (status, final) ∧
      CopyRun payloadStart payloadSize base minPaddr count phdr m events headers status final := by
  induction count generalizing phdr m events with
  | zero =>
    obtain ⟨rfl, rfl⟩ := exec_ret.mp run
    exact ⟨_, _, _, rfl, .done phdr m⟩
  | succ count ih =>
    simp only [copyPhdrs, readPhdr, reading, writing, perform_bind, call_bind, ret_bind,
      pure_eq_ret, exec_call, exec_ite, exec_ret, bne_iff_ne, not_not, badAlign_eq_false,
      Bool.false_eq_true, false_and, not_false_eq_true, true_and, false_or, beq_iff_eq] at run
    obtain ⟨-, rest, rfl, ⟨other, run⟩ | ⟨load, run⟩⟩ := run
    · obtain ⟨headers, status, final, rfl, tail⟩ := ih run
      exact ⟨headers, status, final, rfl, .skipped (.inl other) tail⟩
    rcases run with ⟨far, rfl, rfl⟩ | ⟨near, ⟨small, rfl, rfl⟩ | ⟨large, run⟩⟩
    · exact ⟨_, _, _, rfl, .rejected load fun accepted => UInt64.not_lt.mpr accepted.1 far⟩
    · exact ⟨_, _, _, rfl, .rejected load fun accepted => UInt64.not_lt.mpr accepted.2 small⟩
    have accepted : (phdrAt m phdr).Accepted payloadSize :=
      ⟨UInt64.not_lt.mp near, UInt64.not_lt.mp large⟩
    rcases run with ⟨none, run⟩ | ⟨memory, -, _, rfl, -, _, rfl, run⟩
    · obtain ⟨headers, status, final, rfl, tail⟩ := ih run
      exact ⟨headers, status, final, rfl, .skipped (.inr ⟨accepted, none⟩) tail⟩
    · obtain ⟨headers, status, final, rfl, tail⟩ := ih run
      exact ⟨_, status, final, rfl, .copied load accepted memory tail⟩

/-- The segments of a run are those the memory before it determines. -/
theorem CopyRun.headers_eq
    (run : CopyRun payloadStart payloadSize base minPaddr count phdr m events headers status final) :
    headers = DragonStub.copied payloadStart payloadSize base minPaddr count phdr m := by
  induction run with
  | done => rfl
  | @skipped _ phdr m _ _ _ _ skips rest ih =>
    rcases skips with other | ⟨accepted, none⟩
    · rw [DragonStub.copied, if_pos other]
      exact ih
    · by_cases load : (phdrAt m phdr).pType = ptLoad
      · rw [DragonStub.copied, if_neg (not_not.mpr load), if_neg (not_not.mpr accepted), if_pos none]
        exact ih
      · rw [DragonStub.copied, if_pos load]
        exact ih
  | rejected load bad => rw [DragonStub.copied, if_neg (not_not.mpr load), if_pos bad]
  | copied load accepted memory rest ih =>
    rw [DragonStub.copied, if_neg (not_not.mpr load), if_neg (not_not.mpr accepted), if_neg memory,
      ih]

/-- The memory after a run is the memory before it with its segments copied. -/
theorem CopyRun.final_eq
    (run : CopyRun payloadStart payloadSize base minPaddr count phdr m events headers status final) :
    final = headers.foldl (copySegment payloadStart base minPaddr) m := by
  induction run with
  | done => rfl
  | skipped _ _ ih => exact ih
  | rejected => rfl
  | copied _ _ _ _ ih => rw [List.foldl_cons, ih]

/-- The writes of a run are its copies. -/
theorem CopyRun.writes
    (run : CopyRun payloadStart payloadSize base minPaddr count phdr m events headers status final) :
    Within .write region events ↔ ∀ header ∈ headers,
      window (header.dest base minPaddr) header.pFilesz.toNat ⊆ region := by
  induction run with
  | done => simp
  | skipped _ _ ih => simp [ih]
  | rejected => simp
  | copied _ _ _ _ ih => simp [ih]

/-- The reads of a run, when the table is inside the region, are its copies. -/
theorem CopyRun.reads
    (run : CopyRun payloadStart payloadSize base minPaddr count phdr m events headers status final)
    (table : Within .read region (tableReads phdr count)) :
    Within .read region events ↔ ∀ header ∈ headers,
      window (header.src payloadStart) header.pFilesz.toNat ⊆ region := by
  induction run with
  | done => simp
  | skipped _ _ ih =>
    rw [tableReads_within_succ] at table
    simp [ih table.2, table.1]
  | rejected =>
    rw [tableReads_within_succ] at table
    simpa using table.1
  | copied _ _ _ _ ih =>
    rw [tableReads_within_succ] at table
    simp [ih table.2, table.1]

/-- Every segment that is copied passed the tests. -/
theorem copied_accepted {header : Elf64Phdr} (member : header ∈
    copied payloadStart payloadSize base minPaddr count phdr m) : header.Accepted payloadSize := by
  induction count generalizing phdr m with
  | zero => cases member
  | succ count ih =>
    rw [copied] at member
    by_cases load : (phdrAt m phdr).pType ≠ ptLoad
    · rw [if_pos load] at member
      exact ih member
    · rw [if_neg load] at member
      by_cases accepted : ¬(phdrAt m phdr).Accepted payloadSize
      · rw [if_pos accepted] at member
        cases member
      · rw [if_neg accepted] at member
        by_cases none : (phdrAt m phdr).pMemsz = 0
        · rw [if_pos none] at member
          exact ih member
        · rw [if_neg none] at member
          rcases List.mem_cons.mp member with rfl | member
          · exact not_not.mp accepted
          · exact ih member

/-- The extremes that `load_program` computes for a table. -/
abbrev tableExtent (m : Memory) (phdrStart : UInt64) (phdrsNr : UInt32) : Extent :=
  extentOf (phdrs m phdrStart phdrsNr.toNat)

/-- The runs of `load_program`. -/
inductive ProgramRun (m : Memory) (payloadStart payloadSize phdrStart : UInt64) (phdrsNr : UInt32) :
    List Event → Except EfiStatus Program × Memory → Prop where
  /-- There is no region. -/
  | refused {region prints : List Event} {status : EfiStatus}
      (run : RegionRun m phdrStart phdrsNr region (.error status)) (printed : Looks ∅ prints) :
      ProgramRun m payloadStart payloadSize phdrStart phdrsNr (region ++ prints) (.error status, m)
  /-- A segment is rejected, and the region freed. -/
  | rejected {region copy free : List Event} {kernel : KernelMemory} {zeroed final : Memory}
      {headers : List Elf64Phdr} {status : EfiStatus}
      (run : RegionRun m phdrStart phdrsNr region (.ok (kernel, zeroed)))
      (copies : CopyRun payloadStart payloadSize kernel.paddr kernel.minPaddr phdrsNr.toNat phdrStart
        (memset zeroed kernel.paddr 0 kernel.size.toNat) copy headers status final)
      (failed : status ≠ efiSuccess) (freed : Exec (efiFree kernel.size kernel.paddr) free (some ())) :
      ProgramRun m payloadStart payloadSize phdrStart phdrsNr
        (region ++ ⟨.reach (.write kernel.paddr kernel.size.toNat), ()⟩ :: (copy ++ free))
        (.error status, final)
  /-- The segments are copied. -/
  | loaded {region copy : List Event} {kernel : KernelMemory} {zeroed final : Memory}
      {headers : List Elf64Phdr}
      (run : RegionRun m phdrStart phdrsNr region (.ok (kernel, zeroed)))
      (copies : CopyRun payloadStart payloadSize kernel.paddr kernel.minPaddr phdrsNr.toNat phdrStart
        (memset zeroed kernel.paddr 0 kernel.size.toNat) copy headers efiSuccess final) :
      ProgramRun m payloadStart payloadSize phdrStart phdrsNr
        (region ++ ⟨.reach (.write kernel.paddr kernel.size.toNat), ()⟩ :: copy)
        (.ok ⟨kernel.paddr, kernel.size, kernel.minPaddr, kernel.minVaddr⟩, final)

variable {phdrStart : UInt64} {phdrsNr : UInt32}

/-- Every run of `load_program` is one of its runs case by case, and returns. -/
theorem programRun_of_exec {outcome : Option (Except EfiStatus Program × Memory)}
    (run : Exec (loadProgram m payloadStart payloadSize phdrStart phdrsNr) events outcome) :
    ∃ result, outcome = some result ∧
      ProgramRun m payloadStart payloadSize phdrStart phdrsNr events result := by
  rw [loadProgram, exec_bind] at run
  rcases run with ⟨result, region, rest, rfl, allocating, run⟩ | ⟨-, stuck⟩
  swap
  · obtain ⟨_, impossible, -⟩ := regionRun_of_exec stuck
    cases impossible
  obtain ⟨_, same, allocated⟩ := regionRun_of_exec allocating
  obtain rfl := Option.some.inj same
  cases result with
  | error status =>
    simp only [efiErr, efiPrintk, perform_bind, exec_call, pure_eq_ret, exec_ret] at run
    obtain ⟨-, _, rfl, rfl, rfl⟩ := run
    exact ⟨_, rfl, .refused allocated (by simp)⟩
  | ok kernel =>
    obtain ⟨kernel, zeroed⟩ := kernel
    simp only [writing, perform_bind, exec_call, exec_bind] at run
    obtain ⟨-, _, rfl, ⟨⟨status, final⟩, copy, rest, rfl, copying, run⟩ | ⟨-, stuck⟩⟩ := run
    swap
    · obtain ⟨_, _, _, impossible, -⟩ := copyRun_of_exec stuck
      cases impossible
    obtain ⟨headers, status', final', same, copies⟩ := copyRun_of_exec copying
    obtain ⟨rfl, rfl⟩ := Prod.mk.inj (Option.some.inj same)
    simp only [exec_ite, exec_bind, pure_eq_ret, exec_ret, beq_iff_eq] at run
    rcases run with ⟨rfl, rfl, rfl⟩ | ⟨failed, run⟩
    · rw [List.append_nil]
      exact ⟨_, rfl, .loaded allocated copies⟩
    rcases run with ⟨⟨⟩, free, _, rfl, freed, rfl, rfl⟩ | ⟨-, stuck⟩
    · rw [List.append_nil]
      exact ⟨_, rfl, .rejected allocated copies failed freed⟩
    · obtain ⟨_, impossible⟩ := (efiFree_pages ..).returns Call.answered_of_isPages stuck
      cases impossible

/-- The size of the table for the kernel. -/
def tableSize : UInt64 := 16

/-- The events of a table that is filled in. -/
def tableEvents (tbl : WordReply) : List Event :=
  [⟨.allocatePool efiLoaderData tableSize, tbl⟩, ⟨.reach (.write tbl.value 8), ()⟩,
    ⟨.reach (.write (tbl.value + 8) 8), ()⟩]

/-- The memory after the table is filled in. -/
def tableMemory (m : Memory) (tbl : UInt64) (info : PayloadInfo) : Memory :=
  writeLe (writeLe m tbl info.loadedPaddr.toNat 8) (tbl + 8) info.loadedSize.toNat 8

/-- The runs of the end of `load_elf`. -/
inductive InstallRun (m : Memory) (info : PayloadInfo) : List Event → EfiStatus × Memory → Prop where
  /-- There is no memory for the table. -/
  | noPool (tbl : WordReply) (refused : tbl.status ≠ efiSuccess) {prints : List Event}
      (printed : Looks ∅ prints) :
      InstallRun m info (⟨.allocatePool efiLoaderData tableSize, tbl⟩ :: prints) (tbl.status, m)
  /-- The table is not installed. -/
  | noTable (tbl : WordReply) (granted : tbl.status = efiSuccess) (status : EfiStatus)
      (refused : status ≠ efiSuccess) {prints : List Event} (printed : Looks ∅ prints) :
      InstallRun m info
        (tableEvents tbl ++
          ⟨.installConfigurationTable dragonstubEfiPayloadEfiGuid tbl.value, status⟩ :: prints)
        (status, tableMemory m tbl.value info)
  /-- The table is installed. -/
  | installed (tbl : WordReply) (granted : tbl.status = efiSuccess) :
      InstallRun m info
        (tableEvents tbl ++
          [⟨.installConfigurationTable dragonstubEfiPayloadEfiGuid tbl.value, efiSuccess⟩])
        (efiSuccess, tableMemory m tbl.value info)

/-- Every run that installs the table is one of its runs case by case, and returns. -/
theorem installRun_of_exec {info : PayloadInfo} {outcome : Option (EfiStatus × Memory)}
    (run : Exec (installPayloadTable m info) events outcome) :
    ∃ result, outcome = some result ∧ InstallRun m info events result := by
  simp only [installPayloadTable, writing, efiErr, efiPrintk, perform_bind, pure_eq_ret,
    exec_call, exec_ite, exec_ret, bne_iff_ne, not_not] at run
  obtain ⟨tbl, _, rfl, ⟨refused, -, _, rfl, rfl, rfl⟩ | ⟨granted, -, _, rfl, -, _, rfl, run⟩⟩ := run
  · exact ⟨_, rfl, .noPool tbl refused (by simp)⟩
  obtain ⟨status, _, rfl, ⟨refused, -, _, rfl, rfl, rfl⟩ | ⟨rfl, rfl, rfl⟩⟩ := run
  · exact ⟨_, rfl, .noTable tbl granted status refused (by simp)⟩
  · exact ⟨_, rfl, .installed tbl granted⟩

/-- The payload information after loading. -/
def loadedInfo (info : PayloadInfo) (program : Program) (entry : UInt64) : PayloadInfo :=
  { info with
    loadedPaddr := program.memPaddr
    loadedSize := program.memSize
    kernelEntry := entry - program.minVaddr + program.memPaddr }

/-- What `load_elf` reads and prints once `load_program` has returned. -/
def reportEvents (ehdr entry : UInt64) (program : Program) : List Event :=
  [⟨.reach (.read (ehdr + eEntry.offset) eEntry.size), ()⟩,
    ⟨.print ("[INFO]: " ++ "loaded_paddr: %p\n") [program.memPaddr], ()⟩,
    ⟨.print ("[INFO]: " ++ "loaded_size: %p\n") [program.memSize], ()⟩,
    ⟨.reach (.read (ehdr + eEntry.offset) eEntry.size), ()⟩,
    ⟨.print ("[INFO]: " ++ "ehdr->e_entry: %lx\n") [entry], ()⟩,
    ⟨.print ("[INFO]: " ++ "image_link_base_paddr: %lx\n") [program.minPaddr], ()⟩,
    ⟨.print ("[INFO]: " ++ "kernel_entry: %lx\n")
      [entry - program.minVaddr + program.memPaddr], ()⟩]

/-- The report on the program only looks at the header. -/
theorem reportEvents_looks (ehdr entry : UInt64) (program : Program) :
    Looks (window ehdr 64) (reportEvents ehdr entry program) := by
  have field := field_inside ehdr eEntry (by decide)
  simp [reportEvents, field]

/-- The runs of `load_elf` from the call of `load_program` on. -/
inductive SegmentsRun (m : Memory) (image : StubImage) (info : PayloadInfo)
    (ehdr phdrStart : UInt64) (phdrsNr : UInt32) :
    List Event → EfiStatus × PayloadInfo × Memory → Prop where
  /-- Whatever `load_program` returns, the table is installed. -/
  | mk {program first debug second table : List Event}
      {loaded : Except EfiStatus Program} {middle final : Memory} {info' : PayloadInfo}
      {status : EfiStatus}
      (ran : ProgramRun m info.payloadAddr info.payloadSize phdrStart phdrsNr program
        (loaded, middle))
      (mapped : Exec (efiRemapImageAllRwx (programOf loaded).memPaddr
        (programOf loaded).memSize.toUInt32) first (some ()))
      (printed : Looks ∅ debug)
      (opened : Exec (efiRemapImageAllRwx image.start
        ((image.imageEnd - image.start + 4095) &&& ~~~4095).toUInt32) second (some ()))
      (informed : info' = loadedInfo info (programOf loaded) (fieldAt middle ehdr eEntry))
      (installs : InstallRun middle info' table (status, final)) :
      SegmentsRun m image info ehdr phdrStart phdrsNr
        (program ++ ⟨.reach (.loadProgram (statusOf loaded)), ()⟩ ::
          (reportEvents ehdr (fieldAt middle ehdr eEntry) (programOf loaded) ++
            (first ++ (debug ++ (second ++ table))))) (status, info', final)

/-- Every run behind an accepted table is one of its runs case by case, and returns. -/
theorem segmentsRun_of_exec {image : StubImage} {info : PayloadInfo} {ehdr : UInt64}
    {outcome : Option (EfiStatus × PayloadInfo × Memory)}
    (run : Exec (loadSegments m image info ehdr phdrStart phdrsNr) events outcome) :
    ∃ result, outcome = some result ∧
      SegmentsRun m image info ehdr phdrStart phdrsNr events result := by
  rw [loadSegments, exec_bind] at run
  rcases run with ⟨⟨loaded, middle⟩, program, rest, rfl, loading, run⟩ | ⟨-, stuck⟩
  swap
  · obtain ⟨_, impossible, -⟩ := programRun_of_exec stuck
    cases impossible
  obtain ⟨_, same, ran⟩ := programRun_of_exec loading
  obtain rfl := Option.some.inj same
  simp only [readField, readWord, reading, efiInfo, efiDebug, efiPrintk, perform_bind,
    call_bind, ret_bind, pure_eq_ret, exec_call] at run
  obtain ⟨-, _, rfl, -, _, rfl, -, _, rfl, -, _, rfl, -, _, rfl, -, _, rfl, -, _, rfl, -, _, rfl,
    run⟩ := run
  rw [exec_bind] at run
  rcases run with ⟨⟨⟩, first, rest, rfl, mapped, run⟩ | ⟨-, stuck⟩
  swap
  · cases efiRemapImageAllRwx_returns stuck
  rw [exec_call] at run
  obtain ⟨-, rest, rfl, run⟩ := run
  rw [exec_bind] at run
  rcases run with ⟨⟨⟩, second, rest, rfl, opened, run⟩ | ⟨-, stuck⟩
  swap
  · cases efiRemapImageAllRwx_returns stuck
  rw [exec_bind] at run
  rcases run with ⟨⟨status, final⟩, table, rest, rfl, installing, run⟩ | ⟨-, stuck⟩
  swap
  · obtain ⟨_, impossible, -⟩ := installRun_of_exec stuck
    cases impossible
  obtain ⟨_, same, installs⟩ := installRun_of_exec installing
  obtain rfl := Option.some.inj same
  obtain ⟨rfl, rfl⟩ := exec_ret.mp run
  have printed : Looks ∅ [(⟨.print ("[DEBUG]: " ++ "image_size: %d\n")
      [image.imageEnd - image.start], ()⟩ : Event)] := by simp
  rw [List.append_nil]
  exact ⟨_, rfl, .mk ran mapped printed opened rfl installs⟩

/-- The runs of `load_elf`. -/
inductive ElfRun (m : Memory) (image : StubImage) (info : PayloadInfo) :
    List Event → EfiStatus × PayloadInfo × Memory → Prop where
  /-- The identification is not that of an ELF file. -/
  | noHeader {events : List Event} (bad : identOk m info.payloadAddr info.payloadSize = false)
      (looks : Looks (window info.payloadAddr info.payloadSize.toNat) events) :
      ElfRun m image info events (efiInvalidParameter, info, m)
  /-- The program headers are refused. -/
  | noTable {header parse prints : List Event} {status : EfiStatus}
      (good : identOk m info.payloadAddr info.payloadSize = true)
      (looks : Looks (window info.payloadAddr 64) header)
      (read : (⟨.reach (.read (info.payloadAddr + 62) 2), ()⟩ : Event) ∈ header)
      (parsed : ParseRun m info.payloadAddr (TableAccepted m info.payloadAddr info.payloadSize)
        (ReadsSection m info.payloadAddr info.payloadSize)
        ((phdrCount m info.payloadAddr).toUInt32,
          info.payloadAddr + fieldAt m info.payloadAddr ePhoff) parse (some (.error status)))
      (printed : Looks ∅ prints) :
      ElfRun m image info (header ++ (parse ++ prints)) (status, info, m)
  /-- The segments are loaded. -/
  | loaded {header parse prints segments : List Event} {result : EfiStatus × PayloadInfo × Memory}
      (good : identOk m info.payloadAddr info.payloadSize = true)
      (looks : Looks (window info.payloadAddr 64) header)
      (read : (⟨.reach (.read (info.payloadAddr + 62) 2), ()⟩ : Event) ∈ header)
      (parsed : ParseRun m info.payloadAddr (TableAccepted m info.payloadAddr info.payloadSize)
        (ReadsSection m info.payloadAddr info.payloadSize)
        ((phdrCount m info.payloadAddr).toUInt32,
          info.payloadAddr + fieldAt m info.payloadAddr ePhoff) parse
        (some (.ok ((phdrCount m info.payloadAddr).toUInt32,
          info.payloadAddr + fieldAt m info.payloadAddr ePhoff))))
      (printed : Looks ∅ prints)
      (run : SegmentsRun m image info info.payloadAddr
        (info.payloadAddr + fieldAt m info.payloadAddr ePhoff)
        (phdrCount m info.payloadAddr).toUInt32 segments result) :
      ElfRun m image info (header ++ (parse ++ (prints ++ segments))) result

/-- Every run of `load_elf` is one of its runs case by case, and returns. -/
theorem elfRun_of_exec {image : StubImage} {info : PayloadInfo}
    {outcome : Option (EfiStatus × PayloadInfo × Memory)}
    (run : Exec (loadElf m image info) events outcome) :
    ∃ result, outcome = some result ∧ ElfRun m image info events result := by
  rw [loadElf, exec_bind] at run
  rcases run with ⟨result, ident, rest, rfl, checking, run⟩ | ⟨-, stuck⟩
  swap
  · rcases elfGetHeader_of_exec stuck with ⟨-, -, impossible⟩ | ⟨-, -, impossible⟩
    · cases impossible
    · cases impossible
  rcases elfGetHeader_of_exec checking with ⟨good, looks, same⟩ | ⟨bad, looks, same⟩
  swap
  · obtain rfl := Option.some.inj same
    simp only [efiErr, efiPrintk, perform_bind, exec_call, pure_eq_ret, exec_ret] at run
    obtain ⟨-, _, rfl, rfl, rfl⟩ := run
    exact ⟨_, rfl, .noHeader bad (by simpa using looks)⟩
  obtain rfl := Option.some.inj same
  rw [exec_bind] at run
  rcases run with ⟨⟨⟩, info', rest, rfl, printing, run⟩ | ⟨-, stuck⟩
  swap
  · cases (printElfInfo_of_exec stuck).1
  obtain ⟨-, more, read⟩ := printElfInfo_of_exec printing
  have header : Looks (window info.payloadAddr 64) (ident ++ info') := looks_append.mpr ⟨looks, more⟩
  have last := List.mem_append_right ident read
  rw [exec_bind] at run
  rcases run with ⟨parsed, parse, rest, rfl, parsing, run⟩ | ⟨-, stuck⟩
  swap
  · rcases (parsePhdrs_of_exec stuck).decided with ⟨-, impossible⟩ | ⟨-, _, -, impossible⟩
    · cases impossible
    · cases impossible
  have parseRun := parsePhdrs_of_exec parsing
  rcases parseRun.decided with ⟨-, same⟩ | ⟨-, status, -, same⟩
  swap
  · obtain rfl := Option.some.inj same
    simp only [efiErr, efiPrintk, perform_bind, exec_call, pure_eq_ret, exec_ret] at run
    obtain ⟨-, _, rfl, rfl, rfl⟩ := run
    rw [← List.append_assoc]
    exact ⟨_, rfl, .noTable good header last parseRun (by simp)⟩
  obtain rfl := Option.some.inj same
  simp only [efiDebug, efiPrintk, perform_bind, exec_call] at run
  obtain ⟨-, segments, rfl, run⟩ := run
  obtain ⟨result, rfl, loaded⟩ := segmentsRun_of_exec run
  have printed : Looks ∅ [(⟨.print ("[DEBUG]: " ++ "program headers: %d\n")
      [(phdrCount m info.payloadAddr).toUInt32.toUInt64], ()⟩ : Event)] := by simp
  rw [← List.append_assoc]
  exact ⟨_, rfl, .loaded good header last parseRun printed loaded⟩

end DragonStub

import DragonStub.Verif.AlignedPages
import DragonStub.Verif.ProgramAccept

/-!
# Failures of the loader

What `load_program` holds of the firmware's pages: the region of the kernel when it succeeds, and
nothing new when it fails.
-/

namespace DragonStub

open ByteMemory Interaction Layout Prog Trace Word

variable {m final : Memory} {events first second : List Event}
  {payloadStart payloadSize base size minPaddr phdr phdrStart : UInt64} {phdrsNr : UInt32}
  {count : Nat} {copies : List Elf64Phdr} {status : EfiStatus} {extent : Extent}
  {live reserved : Set Resource}

/-- The calls that allocate or free. -/
def Call.isMemory : Call → Bool
  | .allocatePool .. | .freePool .. | .allocatePages .. | .freePages .. => true
  | _ => false

/-- What is no call for memory changes nothing that is held. -/
theorem after_other {event : Event} (other : event.op.isMemory = false) :
    firmwareEffects.after live event = live := by
  obtain ⟨call, reply⟩ := event
  cases call with
  | allocatePool | freePool | allocatePages | freePages => cases other
  | _ => simp [Effects.after, firmwareEffects]

/-- A part that neither allocates nor frees changes nothing. -/
theorem Lacks.held_eq (none : Lacks Call.isMemory events) :
    firmwareEffects.held live events = live := by
  induction events generalizing live with
  | nil => rfl
  | cons event rest ih =>
    rw [lacks_cons] at none
    change firmwareEffects.held (firmwareEffects.after live event) rest = live
    rw [after_other none.1, ih none.2]

/-- A change of attributes is no call for memory. -/
theorem Call.isMemory_of_isRemap {call : Call} (remap : call.isRemap = true) :
    call.isMemory = false := by
  cases call with
  | allocatePool | freePool | allocatePages | freePages => cases remap
  | _ => rfl

/-- What only prints and reads makes no call of another kind. -/
theorem Looks.lacks {kind : Call → Bool} {region : Set UInt64} (looks : Looks region events)
    (print : ∀ format args, kind (.print format args) = false)
    (reach : ∀ point, kind (.reach point) = false) : Lacks kind events := by
  intro event member
  have seen := looks event member
  cases call : event.op with
  | print => exact print ..
  | reach => exact reach _
  | _ =>
    rw [call] at seen
    exact seen.elim

/-- Looking at memory makes no calls for it. -/
theorem Looks.noMemory {region : Set UInt64} (looks : Looks region events) :
    Lacks Call.isMemory events := looks.lacks (fun _ _ => rfl) fun _ => rfl

/-- Remapping the image makes no calls for memory. -/
theorem remap_noMemory {imageBase : UInt64} {allocSize : UInt32} {outcome : Option Unit}
    (run : Exec (efiRemapImageAllRwx imageBase allocSize) events outcome) :
    Lacks Call.isMemory events := fun event member =>
  Call.isMemory_of_isRemap ((efiRemapImageAllRwx_remap ..).events run event member)

/-- Copying the segments makes no calls for memory. -/
theorem CopyRun.noMemory
    (run : CopyRun payloadStart payloadSize base minPaddr count phdr m events copies status final) :
    Lacks Call.isMemory events := by
  induction run with
  | done => simp
  | skipped _ _ ih => simp [ih, Call.isMemory]
  | rejected => simp [Call.isMemory]
  | copied _ _ _ _ ih => simp [ih, Call.isMemory]

/-- The marks of the region are no calls for memory. -/
theorem regionEvents_noMemory : Lacks Call.isMemory (regionEvents base size) := by
  simp [regionEvents, Call.isMemory]

/-- The bytes of a region. -/
def regionBytes (base size : UInt64) : Set Resource := Resource.byte '' window base size.toNat

/-- The size of a region is a multiple of its unit. -/
theorem memSize_whole (extent : Extent) : extent.memSize.toNat % 2 ^ 21 = 0 := by
  have unit : sz2M.toNat = 2 ^ 21 := sz2M_pow.2
  have rounded : extent.memSize.toNat =
      ceilTo (extent.maxPaddr - extent.minPaddr).toNat sz2M.toNat % 2 ^ 64 := alignUp_toNat sz2M_pow
  have multiple := (ceilTo_spec (n := (extent.maxPaddr - extent.minPaddr).toNat) sz2M_pow.pos).2.2
  rw [unit] at rounded multiple
  omega

/-- The size of a region is a number of pages. -/
theorem memSize_pages : (roundUp extent.memSize efiAllocAlign).toNat = extent.memSize.toNat := by
  have bound := extent.memSize.toNat_lt
  have whole := memSize_whole extent
  rw [roundUp_page (by omega)]
  exact ceilTo_of_multiple (by decide) (by omega)

/-- The allocator is given pages and keeps the region of them. -/
theorem allocateKernel_trims (gives : GivesPages events)
    (run : Exec (allocateKernel extent) events (some (.ok base))) :
    ∃ request range frees, events = request :: frees ∧
      firmwareEffects.acquired request = range ∧ firmwareEffects.released request = ∅ ∧
      regionBytes base extent.memSize ⊆ range ∧
      ∀ live, firmwareEffects.held (live ∪ range) frees =
        (live \ range) ∪ regionBytes base extent.memSize := by
  have aligned : PageAlign (allocAlign kernelMemAlign) 21 := ⟨sz2M_pow, by decide, by decide⟩
  obtain ⟨limit, pages, address, frees, low, rfl, range, fits, placed, -, trims⟩ :=
    (alignedRun_of_exec aligned gives run).trims aligned
  rw [memSize_pages] at trims
  have order := trims.parts
  obtain ⟨_, _, -, before, behind⟩ := order
  have start := before.order
  have stop := behind.order
  have kept : regionBytes base extent.memSize =
      bytesBetween low (low + extent.memSize.toNat) := by
    by_cases none : extent.memSize.toNat = 0
    · rw [regionBytes, none, window_zero, Set.image_empty, Nat.add_zero, bytesBetween_self]
    · obtain rfl : base.toNat = low := by omega
      unfold regionBytes bytesBetween
      congr 1
      ext x
      exact mem_window_of_fits (by omega)
  refine ⟨_, pageBytes address pages, frees, rfl, by simp [firmwareEffects], rfl, ?_,
    fun live => ?_⟩
  · rw [range, kept, ← bytesBetween_union start (Nat.le_trans (Nat.le_add_right ..) stop),
      ← bytesBetween_union (Nat.le_add_right ..) stop]
    exact Set.subset_union_left.trans Set.subset_union_right
  · rw [range, kept]
    exact trims.held

/-- Pages are given in a trace when they are in both of its parts. -/
theorem GivesPages.append (gives : GivesPages (first ++ second)) :
    GivesPages first ∧ GivesPages second := by
  constructor
  · intro request memoryType pages address reply member
    exact gives _ _ _ _ _ (List.mem_append_left _ member)
  · intro request memoryType pages address reply member
    exact gives _ _ _ _ _ (List.mem_append_right _ member)

/-- The region is held after its allocation. -/
theorem allocateKernel_holds (gives : GivesPages events)
    (run : Exec (allocateKernel extent) events (some (.ok base))) :
    regionBytes base extent.memSize ⊆ firmwareEffects.held live events := by
  obtain ⟨request, range, frees, rfl, acquired, released, -, held⟩ := allocateKernel_trims gives run
  change _ ⊆ firmwareEffects.held ((live \ _) ∪ _) frees
  rw [acquired, released, Set.sdiff_empty, held]
  exact Set.subset_union_right

/-- With fresh pages, nothing but the region is held that was not held before. -/
theorem allocateKernel_held (gives : GivesPages events)
    (fresh : firmwareEffects.AcquiresFresh reserved live events)
    (run : Exec (allocateKernel extent) events (some (.ok base))) :
    firmwareEffects.held live events = live ∪ regionBytes base extent.memSize ∧
      Disjoint live (regionBytes base extent.memSize) := by
  obtain ⟨request, range, frees, rfl, acquired, released, inside, held⟩ :=
    allocateKernel_trims gives run
  have apart : Disjoint live range := by
    have new := fresh.1
    rw [acquired] at new
    exact (Set.disjoint_union_right.mp new).1.symm
  refine ⟨?_, apart.mono_right inside⟩
  change firmwareEffects.held ((live \ _) ∪ _) frees = _
  rw [acquired, released, Set.sdiff_empty, held, apart.sdiff_eq_left]

/-- A refused request leaves what is held. -/
theorem allocateKernel_refused
    (run : Exec (allocateKernel extent) events (some (.error status))) :
    firmwareEffects.held live events = live := by
  obtain ⟨_, _, reply, _, rfl, ⟨refused, rfl, -⟩ | ⟨-, _, impossible⟩⟩ := allocateKernel_cases run
  · simp [Effects.held, Effects.after, firmwareEffects, refused]
  · cases impossible

/-- Freeing the region with its size frees all of it. -/
theorem free_region {outcome : Option Unit}
    (run : Exec (efiFree extent.memSize base) events outcome) :
    firmwareEffects.held (live ∪ regionBytes base extent.memSize) events =
      live \ regionBytes base extent.memSize := by
  have page : efiPageSize.toNat = 4096 := rfl
  obtain ⟨status, rfl, -⟩ := efiFree_of_exec run
  unfold freeEvents
  by_cases none : extent.memSize = 0
  · rw [if_pos none, regionBytes, none, UInt64.toNat_zero, window_zero, Set.image_empty,
      Set.union_empty, Set.sdiff_empty]
    rfl
  · have count : (roundUp extent.memSize efiAllocAlign / efiPageSize).toNat * 4096 =
        extent.memSize.toNat := by
      have bound := extent.memSize.toNat_lt
      have whole := memSize_whole extent
      rw [UInt64.toNat_div, page, memSize_pages]
      omega
    have released : firmwareEffects.released ⟨.freePages base
        (roundUp extent.memSize efiAllocAlign / efiPageSize), status⟩ =
          regionBytes base extent.memSize := by
      change pageBytes _ _ = _
      rw [pageBytes, count]
      rfl
    rw [if_neg none]
    change (_ \ firmwareEffects.released _) ∪ ∅ = _
    rw [released, Set.union_sdiff_right, Set.union_empty]

/-- A region that cannot be reserved leaves the pages that were held. -/
theorem RegionRun.held_of_error {region : List Event} {status : EfiStatus}
    (run : RegionRun m phdrStart phdrsNr region (.error status)) :
    firmwareEffects.held live region = live := by
  have table := (tableReads_looks phdrStart phdrsNr.toNat).noMemory
  cases run with
  | unaligned printed => rw [Effects.held_append, table.held_eq, printed.noMemory.held_eq]
  | refused asked _ printed =>
    rw [Effects.held_append, table.held_eq, Effects.held_append, allocateKernel_refused asked,
      printed.noMemory.held_eq]

/-- A reserved region is held beside what was held before. -/
theorem RegionRun.held_of_ok {kernel : KernelMemory} {zeroed : Memory} (gives : GivesPages events)
    (fresh : firmwareEffects.AcquiresFresh reserved live events)
    (run : RegionRun m phdrStart phdrsNr events (.ok (kernel, zeroed))) :
    kernel.size = (tableExtent m phdrStart phdrsNr).memSize ∧
      firmwareEffects.held live events = live ∪ regionBytes kernel.paddr kernel.size ∧
      Disjoint live (regionBytes kernel.paddr kernel.size) := by
  have table := (tableReads_looks phdrStart phdrsNr.toNat).noMemory
  cases run with
  | allocated measured aligned given mapped =>
    subst measured
    have here := gives.append.2.append.1
    rw [Effects.acquiresFresh_append, table.held_eq] at fresh
    obtain ⟨held, apart⟩ := allocateKernel_held here
      (Effects.acquiresFresh_append.mp fresh.2).1 given
    refine ⟨rfl, ?_, apart⟩
    rw [Effects.held_append, table.held_eq, Effects.held_append, held, Effects.held_append,
      regionEvents_noMemory.held_eq, (remap_noMemory mapped).held_eq]

/-- The variables behind the output pointers of `load_program` after it returns. The outputs of the
source are the value of a successful result here, so a failure leaves the variables by construction;
what it does to memory and to the pages it holds is not settled by that. -/
def programInto (before : Program) : Except EfiStatus Program → Program
  | .ok program => program
  | .error _ => before

/-- On a firmware that gives fresh pages, a `load_program` that fails holds the pages it held before.
It writes nothing through its output pointers, whose values are those of a successful result. -/
theorem load_program_error_frees (gives : GivesPages events)
    (fresh : firmwareEffects.AcquiresFresh reserved live events)
    (run : Exec (loadProgram m payloadStart payloadSize phdrStart phdrsNr) events
      (some (.error status, final))) :
    firmwareEffects.held live events = live ∧
      ∀ before, programInto before (.error status) = before := by
  refine ⟨?_, fun before => rfl⟩
  obtain ⟨result, same, ran⟩ := programRun_of_exec run
  obtain rfl := Option.some.inj same
  cases ran with
  | refused allocating printed =>
    rw [Effects.held_append, allocating.held_of_error, printed.noMemory.held_eq]
  | rejected allocating copies failed freed =>
    have regionFresh := (Effects.acquiresFresh_append.mp fresh).1
    obtain ⟨sized, held, apart⟩ := allocating.held_of_ok gives.append.1 regionFresh
    rw [sized] at held apart freed
    rw [Effects.held_append, held]
    change firmwareEffects.held (firmwareEffects.after _ _) _ = live
    rw [after_other rfl, Effects.held_append, copies.noMemory.held_eq, free_region freed,
      apart.sdiff_eq_left]

/-- Whether a call hands out memory. -/
def Call.isGrant : Call → Bool
  | .allocatePool .. | .allocatePages .. => true
  | _ => false

/-- With at most one request, what is acquired is fresh. -/
theorem acquiresFresh_of_once (once : events.countP (fun event => event.op.isGrant) ≤ 1) :
    firmwareEffects.AcquiresFresh ∅ ∅ events := by
  have quiet {event : Event} (other : event.op.isGrant = false) :
      firmwareEffects.acquired event = ∅ := by
    obtain ⟨call, reply⟩ := event
    cases call with
    | allocatePool | allocatePages => cases other
    | _ => rfl
  induction events with
  | nil => trivial
  | cons event rest ih =>
    by_cases grant : event.op.isGrant = true
    · simp only [List.countP_cons, grant, if_true] at once
      refine ⟨by simp, Effects.acquiresFresh_of_none fun later member => quiet ?_⟩
      have zero : rest.countP (fun event => event.op.isGrant) = 0 := by omega
      simpa using List.countP_eq_zero.mp zero later member
    · simp only [List.countP_cons, grant, Bool.false_eq_true, if_false] at once
      have none := quiet (Bool.eq_false_iff.mpr grant)
      have still : firmwareEffects.after ∅ event = ∅ := by simp [Effects.after, none]
      refine ⟨by simp [none], ?_⟩
      rw [still]
      exact ih once

/-- Whether pages are given can be computed. -/
theorem gives_of_all (all : events.all givesPages = true) : GivesPages events := by
  intro request memoryType pages address reply member _
  have answer := List.all_eq_true.mp all _ member
  simpa [givesPages] using answer

/-- The plain kernel in a payload that is cut within its second segment. -/
def cutLoad : Stub (Except EfiStatus Program × Memory) :=
  loadProgram plainKernel 0x100000 182 0x100040 2

/-- What is seen of loading it: the failure, and one request for pages, which is granted. -/
theorem cutLoad_seen :
    (cutLoad.valueWith (loaderFirmware efiSuccess)).map (fun result => statusOf result.1) =
        some efiInvalidParameter ∧
      (cutLoad.eventsWith (loaderFirmware efiSuccess)).all givesPages = true ∧
      (cutLoad.eventsWith (loaderFirmware efiSuccess)).countP (fun event => event.op.isGrant) ≤ 1 := by
  simp only [cutLoad, loadProgram, efiAllocateKernelMemory, memset_word]
  decide +kernel

/-- A file that ends in its second segment leaves no pages. -/
theorem load_program_error_frees_cut :
    firmwareEffects.held ∅ (cutLoad.eventsWith (loaderFirmware efiSuccess)) = ∅ ∧
      ∀ before, programInto before (.error efiInvalidParameter) = before := by
  obtain ⟨failed, pages, once⟩ := cutLoad_seen
  obtain ⟨⟨result, final⟩, status, run⟩ := exec_of_seen failed
  cases result with
  | ok => cases status
  | error failure =>
    obtain rfl : failure = efiInvalidParameter := status
    generalize cutLoad.eventsWith (loaderFirmware efiSuccess) = events at pages once run ⊢
    have fresh := acquiresFresh_of_once once
    exact load_program_error_frees (gives_of_all pages) fresh run

end DragonStub

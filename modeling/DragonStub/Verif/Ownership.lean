import DragonStub.Base.ByteMemory
import DragonStub.Base.Trace
import DragonStub.Verif.QuietExit

/-!
# Who owns what the handover frees

The cleanup at the labels `fail_free_new_fdt` and `fail` frees the pages of the new device tree, the
device tree it started from and the runtime map. The first and the last are the stub's own; the
second one belongs to the firmware, and without a runtime map the last is the null pointer.
-/

namespace DragonStub

open Interaction Prog Trace ByteMemory

/-- What the firmware hands out: a pool block, known by its address, or a byte of a page. -/
inductive Resource where
  /-- The pool block at an address. -/
  | block (address : UInt64)
  /-- A byte of an allocated page. -/
  | byte (address : UInt64)

/-- The bytes of `n` pages from an address on. -/
def pageBytes (address : UInt64) (n : UInt64) : Set Resource :=
  Resource.byte '' window address (n.toNat * 4096)

/-- What the calls of a run acquire and release. -/
def firmwareEffects : Effects Event Resource where
  acquired event :=
    match event with
    | ⟨.allocatePool .., reply⟩ => if reply.status = efiSuccess then {.block reply.value} else ∅
    | ⟨.allocatePages _ _ pages _, reply⟩ =>
      if reply.status = efiSuccess then pageBytes reply.value pages else ∅
    | _ => ∅
  released event :=
    match event.op with
    | .freePool buffer => {.block buffer}
    | .freePages address pages => pageBytes address pages
    | _ => ∅

/-- Every range given to `FreePages` and every block given to `FreePool` was allocated in this run
and not freed since. -/
def OwnsFrees (events : List Event) : Prop := firmwareEffects.ReleasesHeld ∅ events

variable {Blob : Type}

/-- Memory that is not the stub's to have: the null block, and the device tree of the firmware. -/
def firmwareMemory (lib : Libfdt Blob) (fdtAt : UInt64 → Blob) (events : List Event) :
    Set Resource :=
  {.block 0} ∪ {resource | ∃ tables, (⟨.configurationTable, tables⟩ : Event) ∈ events ∧
    resource ∈ Resource.byte '' window (firmwareFdt lib fdtAt tables).1
      (firmwareFdt lib fdtAt tables).2.toNat}

/-- The firmware allocates only memory that nobody has: no null block, nothing the stub holds, and
not the memory of its own device tree. -/
def AllocatesFresh (lib : Libfdt Blob) (fdtAt : UInt64 → Blob) (events : List Event) : Prop :=
  firmwareEffects.AcquiresFresh (firmwareMemory lib fdtAt events) ∅ events

/-- Whether a call frees memory. -/
def Call.isFree : Call → Bool
  | .freePool .. | .freePages .. => true
  | _ => false

variable {lib : Libfdt Blob} {globals : Globals} {handle m : UInt64} {events : List Event}
  {live reserved : Set Resource}

/-- An event that frees nothing releases nothing. -/
theorem released_eq_empty {event : Event} (other : event.op.isFree = false) :
    firmwareEffects.released event = ∅ := by
  obtain ⟨call, reply⟩ := event
  cases call with
  | freePool | freePages => cases other
  | _ => rfl

/-- Whether a call hands out memory. -/
def Call.isAllocation : Call → Bool
  | .allocatePool .. | .allocatePages .. => true
  | _ => false

/-- An event that allocates nothing acquires nothing. -/
theorem acquired_eq_empty {event : Event} (other : event.op.isAllocation = false) :
    firmwareEffects.acquired event = ∅ := by
  obtain ⟨call, reply⟩ := event
  cases call with
  | allocatePool | allocatePages => cases other
  | _ => rfl

/-- Neither an allocation nor a free. -/
def Quiet (events : List Event) : Prop := Lacks Call.isAllocation events ∧ Lacks Call.isFree events

/-- No events are quiet. -/
theorem quiet_nil : Quiet [] := ⟨lacks_nil, lacks_nil⟩

/-- Two quiet parts of a trace are quiet together. -/
theorem Quiet.append {first second : List Event} (before : Quiet first) (behind : Quiet second) :
    Quiet (first ++ second) :=
  ⟨lacks_append.mpr ⟨before.1, behind.1⟩, lacks_append.mpr ⟨before.2, behind.2⟩⟩

/-- A single call is quiet when it is neither. -/
theorem quiet_single {event : Event} (gained : event.op.isAllocation = false)
    (kept : event.op.isFree = false) : Quiet [event] :=
  ⟨lacks_cons.mpr ⟨gained, lacks_nil⟩, lacks_cons.mpr ⟨kept, lacks_nil⟩⟩

/-- Marks of the stub itself are quiet. -/
theorem quiet_points (points : ∀ event ∈ events, event.op.isPoint = true) : Quiet events := by
  have neither {call : Call} (point : call.isPoint = true) :
      call.isAllocation = false ∧ call.isFree = false := by
    cases call with
    | reach => exact ⟨rfl, rfl⟩
    | _ => cases point
  exact ⟨fun event member => (neither (points event member)).1,
    fun event member => (neither (points event member)).2⟩

/-- A quiet part changes nothing. -/
theorem Quiet.held (quiet : Quiet events) : firmwareEffects.held live events = live :=
  Effects.held_of_none (fun event member => acquired_eq_empty (quiet.1 event member))
    fun event member => released_eq_empty (quiet.2 event member)

/-- Taking a fresh pool block and giving it back changes nothing. -/
theorem held_block {middle : List Event} {memoryType : UInt32} {size : UInt64}
    {pool : WordReply} {freed : EfiStatus} (granted : pool.status = efiSuccess)
    (quiet : Quiet middle) (new : Resource.block pool.value ∉ live) :
    firmwareEffects.held live
      (⟨.allocatePool memoryType size, pool⟩ :: (middle ++ [⟨.freePool pool.value, freed⟩])) =
        live := by
  refine Effects.held_borrow rfl (fun event member => acquired_eq_empty (quiet.1 event member))
    (fun event member => released_eq_empty (quiet.2 event member)) ?_ rfl ?_
  · simp [firmwareEffects, granted]
  · simpa [firmwareEffects, granted] using new

/-- A granted block is what is held. -/
theorem held_granted {memoryType : UInt32} {size : UInt64} {pool : WordReply}
    (granted : pool.status = efiSuccess) (quiet : Quiet events) :
    firmwareEffects.held ∅ (⟨.allocatePool memoryType size, pool⟩ :: events) =
      {.block pool.value} := by
  have taken : firmwareEffects.after ∅ ⟨.allocatePool memoryType size, pool⟩ =
      {.block pool.value} := by
    simp [Effects.after, firmwareEffects, granted]
  exact (congrArg (firmwareEffects.held · events) taken).trans quiet.held

/-- A part that frees nothing keeps everything. -/
theorem Lacks.keeps (none : Lacks Call.isFree events) :
    firmwareEffects.ReleasesHeld live events ∧ live ⊆ firmwareEffects.held live events := by
  have kept : ∀ event ∈ events, firmwareEffects.released event = ∅ := fun event member =>
    released_eq_empty (none event member)
  exact ⟨Effects.releasesHeld_of_none kept, Effects.subset_held kept⟩

/-- A call of the console frees nothing. -/
theorem Call.isFree_of_isConsole {call : Call} (console : call.isConsole = true) :
    call.isFree = false := by
  cases call with
  | print => rfl
  | _ => cases console

/-- Printing frees nothing. -/
theorem lacksFree_of_console (printed : ∀ event ∈ events, event.op.isConsole = true) :
    Lacks Call.isFree events := fun event member => Call.isFree_of_isConsole (printed event member)

/-- A query frees nothing. -/
theorem Call.isFree_of_isQuery {call : Call} (query : call.isQuery = true) :
    call.isFree = false := by
  cases call with
  | freePool | freePages => cases query
  | _ => rfl

/-- A pool block taken and given back leaves everything held that was held before. -/
theorem borrow_block (before middle : List Event) {memoryType : UInt32} {size : UInt64}
    {pool : WordReply} {freed : EfiStatus} (granted : pool.status = efiSuccess)
    (beforeKept : Lacks Call.isFree before) (middleKept : Lacks Call.isFree middle)
    (fresh : firmwareEffects.AcquiresFresh reserved live (before ++
      ⟨.allocatePool memoryType size, pool⟩ :: (middle ++ [⟨.freePool pool.value, freed⟩]))) :
    firmwareEffects.ReleasesHeld live (before ++
        ⟨.allocatePool memoryType size, pool⟩ :: (middle ++ [⟨.freePool pool.value, freed⟩])) ∧
      live ⊆ firmwareEffects.held live (before ++
        ⟨.allocatePool memoryType size, pool⟩ :: (middle ++ [⟨.freePool pool.value, freed⟩])) := by
  refine Effects.borrow (fun event member => released_eq_empty (beforeKept event member)) rfl
    (fun event member => released_eq_empty (middleKept event member)) ?_ fresh
  simp [firmwareEffects, granted]

section Exit

variable {priv : ExitBootStruct Blob} {map : EfiBootMemmap}
  {outcome : Option (EfiStatus × ExitBootStruct Blob)}

/-- `efi_get_memory_map` frees at most the buffer it has allocated. -/
theorem getMapRun_owns {result : Except EfiStatus (UInt64 × EfiBootMemmap)}
    (run : GetMapRun events result) (fresh : firmwareEffects.AcquiresFresh reserved live events) :
    firmwareEffects.ReleasesHeld live events ∧ live ⊆ firmwareEffects.held live events := by
  cases run with
  | unsized tmp refused => exact Lacks.keeps (by simp [Call.isFree])
  | noPool tmp pool refused => exact Lacks.keeps (by simp [sizedMap, Call.isFree])
  | noTable tmp pool status freed granted refused =>
    exact borrow_block [_] [_] granted (by simp [Call.isFree])
      (by simp [Call.isFree]) fresh
  | noMap tmp pool reply removed freed granted refused =>
    exact borrow_block [_] [_, _, _] granted (by simp [Call.isFree])
      (by simp [Call.isFree]) fresh
  | read tmp pool reply granted given =>
    exact Lacks.keeps (by simp [readMapEvents, sizedMap, Call.isFree])

/-- The second attempt to exit frees nothing. -/
theorem retryRun_noFree
    (run : RetryRun handle m map priv (exitBootFunc lib globals) events outcome) :
    Lacks Call.isFree events := by
  cases run with
  | noMap reply refused => simp [Call.isFree]
  | waits reply given waits =>
    obtain ⟨rfl, -⟩ := exitBootFunc_of_exec waits
    simp [Call.isFree]
  | refused reply given ran refused =>
    obtain ⟨rfl, -⟩ := exitBootFunc_of_exec ran
    simp [Call.isFree]
  | exits reply given ran status =>
    obtain ⟨rfl, -⟩ := exitBootFunc_of_exec ran
    simp [Call.isFree]

/-- The first attempt to exit frees nothing. -/
theorem firstRun_noFree
    (run : FirstRun globals handle m map priv (exitBootFunc lib globals) events outcome) :
    Lacks Call.isFree events := by
  have prints (mapKey : UInt64) : Lacks Call.isFree (beforeExit globals handle mapKey) :=
    lacksFree_of_console beforeExit_console
  cases run with
  | decided status final => simp [prints, Call.isFree]
  | retried retry => simp [prints, retryRun_noFree retry, Call.isFree]

/-- A map that is read comes from the pool block its address names, and nothing is freed. -/
theorem getMapRun_ok {result : UInt64 × EfiBootMemmap} (run : GetMapRun events (.ok result)) :
    ∃ before memoryType size pool later, pool.status = efiSuccess ∧ result.1 = pool.value ∧
      events = before ++ ⟨.allocatePool memoryType size, pool⟩ :: later ∧
      Lacks Call.isFree before ∧ Lacks Call.isFree later := by
  cases run with
  | read tmp pool reply granted given =>
    exact ⟨[⟨.getMemoryMap 0 0, tmp⟩], _, _, pool, _, granted, rfl, rfl, by simp [Call.isFree],
      by simp [Call.isFree]⟩

/-- `efi_exit_boot_services` frees at most the buffer of its map. -/
theorem exitRun_owns
    (run : ExitRun globals handle priv (exitBootFunc lib globals) events outcome)
    (fresh : firmwareEffects.AcquiresFresh reserved live events) :
    firmwareEffects.ReleasesHeld live events ∧ live ⊆ firmwareEffects.held live events := by
  cases run with
  | unimplemented prints asked => exact (lacksFree_of_console prints).keeps
  | noMap got => exact getMapRun_owns got fresh
  | waits got waits =>
    obtain ⟨rfl, -⟩ := exitBootFunc_of_exec waits
    obtain ⟨before, _, _, pool, later, -, -, rfl, beforeKept, laterKept⟩ := getMapRun_ok got
    exact Lacks.keeps (by simp [beforeKept, laterKept, Call.isFree])
  | @refused _ _ m map _ _ _ got ran refused freed =>
    obtain ⟨rfl, -⟩ := exitBootFunc_of_exec ran
    obtain ⟨before, memoryType, size, pool, later, granted, rfl, rfl, beforeKept, laterKept⟩ :=
      getMapRun_ok got
    have shape : before ++ ⟨.allocatePool memoryType size, pool⟩ :: later ++
        ⟨.print ("[DEBUG]: " ++ "before priv_func\n") [], ()⟩ :: ⟨.reach (.privFunc map), ()⟩ ::
          ([] ++ [⟨.freePool pool.value, freed⟩]) =
        before ++ ⟨.allocatePool memoryType size, pool⟩ :: (later ++
          [⟨.print ("[DEBUG]: " ++ "before priv_func\n") [], ()⟩, ⟨.reach (.privFunc map), ()⟩] ++
          [⟨.freePool pool.value, freed⟩]) := by simp
    rw [shape] at fresh ⊢
    exact borrow_block before _ granted beforeKept (by simp [laterKept, Call.isFree]) fresh
  | exits got ran exit =>
    obtain ⟨rfl, -⟩ := exitBootFunc_of_exec ran
    obtain ⟨before, _, _, pool, later, -, -, rfl, beforeKept, laterKept⟩ := getMapRun_ok got
    exact Lacks.keeps (by simp [beforeKept, laterKept, firstRun_noFree exit, Call.isFree])

/-- An exit that succeeds or never returns frees nothing. -/
theorem exitRun_noFree
    (run : ExitRun globals handle priv (exitBootFunc lib globals) events outcome)
    (settled : ∀ status final, outcome = some (status, final) → status = efiSuccess) :
    Lacks Call.isFree events := by
  cases run with
  | unimplemented prints asked => exact lacksFree_of_console prints
  | noMap got => exact absurd (settled _ _ rfl) got.failed
  | waits got waits =>
    obtain ⟨rfl, -⟩ := exitBootFunc_of_exec waits
    obtain ⟨before, _, _, pool, later, -, -, rfl, beforeKept, laterKept⟩ := getMapRun_ok got
    simp [beforeKept, laterKept, Call.isFree]
  | refused got ran refused freed => exact absurd (settled _ _ rfl) refused
  | exits got ran exit =>
    obtain ⟨rfl, -⟩ := exitBootFunc_of_exec ran
    obtain ⟨before, _, _, pool, later, -, -, rfl, beforeKept, laterKept⟩ := getMapRun_ok got
    simp [beforeKept, laterKept, firstRun_noFree exit, Call.isFree]

end Exit

variable {buffer : VirtmapBuffer} {fdtAddr fdtSize : UInt64} {fdtAt : UInt64 → Blob}
  {result : Option (Except EfiStatus (ExitBootStruct Blob))}

/-- Freeing nothing but what is held, one call at a time. -/
theorem releases_freeEvents {size addr : UInt64} {status : EfiStatus} {later : List Event}
    (held : size ≠ 0 →
      pageBytes addr (roundUp size efiAllocAlign / efiPageSize) ⊆ live)
    (rest : firmwareEffects.ReleasesHeld
      (firmwareEffects.held live (freeEvents size addr status)) later) :
    firmwareEffects.ReleasesHeld live (freeEvents size addr status ++ later) := by
  refine Effects.releasesHeld_append.mpr ⟨?_, rest⟩
  unfold freeEvents
  split
  case isTrue zero => trivial
  case isFalse nonzero => exact ⟨held nonzero, trivial⟩

/-- Pages are not blocks. -/
theorem block_held_freeEvents {address size addr : UInt64} {status : EfiStatus}
    (held : Resource.block address ∈ live) :
    Resource.block address ∈ firmwareEffects.held live (freeEvents size addr status) := by
  unfold freeEvents
  split
  · exact held
  · exact .inl ⟨held, by simp [firmwareEffects, pageBytes]⟩

/-- The pages asked for and the pages freed are the same 512. -/
theorem newFdt_pages : roundUp maxFdtSize efiAllocAlign / efiPageSize =
    divRoundUp maxFdtSize efiPageSize := by decide

/-- Without a tree to free, the clean-up frees the runtime map alone. -/
theorem cleanFail_owns {runtimeMap : UInt64}
    (run : Exec (cleanFail fdtAddr 0 runtimeMap) events result)
    (held : Resource.block runtimeMap ∈ live) : firmwareEffects.ReleasesHeld live events := by
  obtain ⟨status, freed, rfl, -⟩ := cleanFail_of_exec run
  exact ⟨Set.singleton_subset_iff.mpr held, trivial⟩

/-- Without a tree of its own to free, the clean-up frees the new tree and the runtime map. -/
theorem cleanFailFreeNewFdt_owns {newFdtAddr runtimeMap : UInt64}
    (run : Exec (cleanFailFreeNewFdt newFdtAddr fdtAddr 0 runtimeMap) events result)
    (held : Resource.block runtimeMap ∈ live)
    (pages : pageBytes newFdtAddr (divRoundUp maxFdtSize efiPageSize) ⊆ live) :
    firmwareEffects.ReleasesHeld live events := by
  obtain ⟨new, status, freed, rfl, -⟩ := cleanFailFreeNewFdt_of_exec run
  refine releases_freeEvents (fun _ => by rwa [newFdt_pages]) ?_
  exact ⟨Set.singleton_subset_iff.mpr (block_held_freeEvents held), trivial⟩

/-- What the request for the new tree's pages adds is theirs. -/
theorem newFdtRequest_acquires {address : UInt64} {reply : WordReply}
    (granted : reply.status = efiSuccess) :
    firmwareEffects.after live ⟨newFdtRequest address, reply⟩ =
      live ∪ pageBytes reply.value (divRoundUp maxFdtSize efiPageSize) := by
  simp [Effects.after, firmwareEffects, newFdtRequest, granted]

/-- A handover that leaves boot services frees nothing. -/
theorem leftRun_noFree {address : UInt64} {reply : WordReply} {prints exit install : List Event}
    {priv priv' : ExitBootStruct Blob} (printed : ∀ event ∈ prints, event.op.isConsole = true)
    (ran : ExitRun globals handle priv (exitBootFunc lib globals) exit (some (efiSuccess, priv')))
    (installed : Exec (installVirtmap globals buffer priv') install result) :
    Lacks Call.isFree (⟨newFdtRequest address, reply⟩ :: (prints ++ (exit ++ install))) := by
  have installs : Lacks Call.isFree install := by
    intro event member
    obtain ⟨_, _, _, _, install⟩ := (installVirtmap_of_exec installed).1 event member
    rw [install]
    rfl
  have exits : Lacks Call.isFree exit := by
    apply exitRun_noFree ran
    rintro _ _ ⟨⟩
    rfl
  simp [lacksFree_of_console printed, exits, installs, newFdtRequest, Call.isFree]

/-- With no tree of the firmware to free and a runtime map of its own, the cleanup frees what the
run holds. -/
theorem treeRun_owns (run : TreeRun lib globals handle buffer fdtAddr 0 events result)
    (held : Resource.block buffer.runtimeMap ∈ live)
    (fresh : firmwareEffects.AcquiresFresh reserved live events) :
    firmwareEffects.ReleasesHeld live events := by
  cases run with
  | noPages address reply prints refused printed clean =>
    have kept : live ⊆ firmwareEffects.held live (⟨newFdtRequest address, reply⟩ :: prints) :=
      (Lacks.keeps (by simp [lacksFree_of_console printed, newFdtRequest, Call.isFree])).2
    rw [← List.cons_append]
    refine Effects.releasesHeld_append.mpr ⟨?_, cleanFail_owns clean (kept held)⟩
    exact (Lacks.keeps (by simp [lacksFree_of_console printed, newFdtRequest, Call.isFree])).1
  | noTree address reply prints granted printed clean =>
    have kept (held : Set Resource) : firmwareEffects.ReleasesHeld held prints ∧
        held ⊆ firmwareEffects.held held prints := (lacksFree_of_console printed).keeps
    refine ⟨Set.empty_subset _, ?_⟩
    rw [newFdtRequest_acquires granted]
    exact Effects.releasesHeld_append.mpr ⟨(kept _).1, cleanFailFreeNewFdt_owns clean
      ((kept _).2 (.inl held)) (Set.subset_union_right.trans (kept _).2)⟩
  | waits address reply prints granted printed ran =>
    refine (Lacks.keeps ?_).1
    simp [lacksFree_of_console printed, exitRun_noFree ran (by rintro _ _ ⟨⟩), newFdtRequest, Call.isFree]
  | left address reply prints granted printed ran installed =>
    exact (leftRun_noFree printed ran installed).keeps.1
  | @failed address reply prints exit cleanup _ _ _ _ granted printed ran refused clean =>
    have kept (held : Set Resource) : firmwareEffects.ReleasesHeld held prints ∧
        held ⊆ firmwareEffects.held held prints := (lacksFree_of_console printed).keeps
    have exitFresh := (Effects.acquiresFresh_append.mp
      (Effects.acquiresFresh_append.mp fresh.2).2).1
    rw [newFdtRequest_acquires granted] at exitFresh
    have exits := exitRun_owns ran exitFresh
    have still := (kept _).2.trans exits.2
    refine ⟨Set.empty_subset _, ?_⟩
    rw [newFdtRequest_acquires granted]
    refine Effects.releasesHeld_append.mpr ⟨(kept _).1, Effects.releasesHeld_append.mpr
      ⟨exits.1, Set.empty_subset _, ?_⟩⟩
    -- the report of the failure changes nothing that is held
    have said (held : Set Resource) (reply : Unit) : firmwareEffects.after held
        ⟨.print ("[ERROR]: " ++ "Exit boot services failed.\n") [], reply⟩ = held := by
      simp [Effects.after, firmwareEffects]
    rw [said]
    exact cleanFailFreeNewFdt_owns clean (still (.inl held)) (Set.subset_union_right.trans still)

/-- A run that leaves boot services or never returns frees nothing. -/
theorem treeRun_settled_noFree
    (run : TreeRun lib globals handle buffer fdtAddr fdtSize events result)
    (settled : result = none ∨ Accepted events) : Lacks Call.isFree events := by
  cases run with
  | noPages address reply prints refused printed clean =>
    obtain ⟨_, _, -, rfl⟩ := cleanFail_of_exec clean
    have none := (noExit_of_console printed).not_accepted
    have cleaned := (cleanFail_noExit clean).not_accepted
    simp [none, cleaned, acceptedExit, newFdtRequest] at settled
  | noTree address reply prints granted printed clean =>
    have returned := cleanFailFreeNewFdt_returns clean
    have none := (noExit_of_console printed).not_accepted
    have cleaned := (cleanFailFreeNewFdt_noExit clean).not_accepted
    simp [returned, none, cleaned, acceptedExit, newFdtRequest] at settled
  | waits address reply prints granted printed ran =>
    simp [lacksFree_of_console printed, exitRun_noFree ran (by rintro _ _ ⟨⟩), newFdtRequest, Call.isFree]
  | left address reply prints granted printed ran installed =>
    exact leftRun_noFree printed ran installed
  | failed address reply prints granted printed ran refused clean =>
    have returned := cleanFailFreeNewFdt_returns clean
    have none := (noExit_of_console printed).not_accepted
    have cleaned := (cleanFailFreeNewFdt_noExit clean).not_accepted
    have declined : ¬Accepted _ := fun accepted =>
      refused (((exitRun_quiet ran).2 _ _ rfl).mpr accepted)
    simp [returned, none, cleaned, declined, acceptedExit, newFdtRequest] at settled

/-- The cleanup frees the runtime map, and the chosen tree when it has a size. -/
def CleansUp (buffer : VirtmapBuffer) (fdtAddr fdtSize : UInt64) (events : List Event) : Prop :=
  (∃ freed, (⟨.freePool buffer.runtimeMap, freed⟩ : Event) ∈ events) ∧
    (fdtSize ≠ 0 → ∃ status,
      (⟨.freePages fdtAddr (roundUp fdtSize efiAllocAlign / efiPageSize), status⟩ : Event) ∈ events)

/-- A trace that ends with the frees of the clean-up cleans up. -/
theorem cleansUp_fail {status freed : EfiStatus} (within :
    freeEvents fdtSize fdtAddr status ++ [⟨.freePool buffer.runtimeMap, freed⟩] ⊆ events) :
    CleansUp buffer fdtAddr fdtSize events := by
  refine ⟨⟨freed, within (by simp)⟩, fun nonzero => ⟨status, within ?_⟩⟩
  simp [freeEvents, nonzero]

/-- Every other run cleans up. -/
theorem treeRun_cleansUp (run : TreeRun lib globals handle buffer fdtAddr fdtSize events result)
    (unsettled : ¬(result = none ∨ Accepted events)) :
    CleansUp buffer fdtAddr fdtSize events := by
  cases run with
  | noPages address reply prints refused printed clean =>
    obtain ⟨_, _, rfl, -⟩ := cleanFail_of_exec clean
    exact cleansUp_fail (List.subset_cons_of_subset _ (List.subset_append_right _ _))
  | noTree address reply prints granted printed clean =>
    obtain ⟨_, _, _, rfl, -⟩ := cleanFailFreeNewFdt_of_exec clean
    exact cleansUp_fail (List.subset_cons_of_subset _ (List.subset_append_of_subset_right _
      (List.subset_append_right _ _)))
  | waits => exact absurd (.inl rfl) unsettled
  | left address reply prints granted printed ran installed =>
    have accepted := ((exitRun_quiet ran).2 _ _ rfl).mp rfl
    exact absurd (.inr (by simp [accepted])) unsettled
  | failed address reply prints granted printed ran refused clean =>
    obtain ⟨_, _, _, rfl, -⟩ := cleanFailFreeNewFdt_of_exec clean
    exact cleansUp_fail (List.subset_cons_of_subset _ (List.subset_append_of_subset_right _
      (List.subset_append_of_subset_right _ (List.subset_cons_of_subset _
        (List.subset_append_right _ _)))))

/-- A page that is freed for a tree of some size holds the first byte of the tree. -/
theorem first_byte_freed {size addr : UInt64} (nonzero : size ≠ 0) (small : size.toNat < 2 ^ 32) :
    Resource.byte addr ∈ pageBytes addr (roundUp size efiAllocAlign / efiPageSize) := by
  have positive : size.toNat ≠ 0 := fun zero => nonzero (UInt64.toNat_inj.mp zero)
  have rounded := roundUp_toNat (x := size) efiAllocAlign_pow
  obtain ⟨above, near, whole⟩ := Layout.ceilTo_spec (n := size.toNat) efiAllocAlign_pow.pos
  have unit : efiAllocAlign.toNat = 4096 := by decide
  have page : efiPageSize.toNat = 4096 := by decide
  rw [unit] at rounded above near whole
  rw [Nat.mod_eq_of_lt (by omega)] at rounded
  refine ⟨addr, ?_, rfl⟩
  rw [mem_window, UInt64.toNat_div, rounded, page]
  have self : (addr - addr).toNat = 0 := by simp
  omega

/-- The tree a run is said to have is one the firmware showed, of less than 2^32 bytes. -/
theorem firmwareFdt_size_lt (lib : Libfdt Blob) (fdtAt : UInt64 → Blob)
    (tables : List (EfiGuid × UInt64)) : (firmwareFdt lib fdtAt tables).2.toNat < 2 ^ 32 := by
  simp only [firmwareFdt]
  split
  · decide
  · exact (lib.totalsize _).toNat_lt

/-- A run that frees what the firmware keeps frees what it does not own. -/
theorem not_owns_of_reserved (fresh : AllocatesFresh lib fdtAt events) {event : Event}
    (member : event ∈ events) {resource : Resource}
    (released : resource ∈ firmwareEffects.released event)
    (reserved : resource ∈ firmwareMemory lib fdtAt events) : ¬OwnsFrees events := by
  intro owns
  have spared := Effects.ReleasesHeld.spares owns fresh (Set.empty_disjoint _) event member
  exact Set.disjoint_left.mp spared released reserved

/-- A free at address zero frees what is not held. -/
theorem not_owns_null (fresh : AllocatesFresh lib fdtAt events) {freed : EfiStatus}
    (member : (⟨.freePool 0, freed⟩ : Event) ∈ events) : ¬OwnsFrees events :=
  not_owns_of_reserved fresh member (Set.mem_singleton _) (.inl rfl)

/-- Freeing the tree of the configuration table frees what is not held. -/
theorem not_owns_tree (fresh : AllocatesFresh lib fdtAt events)
    {tables : List (EfiGuid × UInt64)} {status : EfiStatus}
    (shown : (⟨.configurationTable, tables⟩ : Event) ∈ events)
    (sized : (firmwareFdt lib fdtAt tables).2 ≠ 0)
    (member : (⟨.freePages (firmwareFdt lib fdtAt tables).1
      (roundUp (firmwareFdt lib fdtAt tables).2 efiAllocAlign / efiPageSize), status⟩ : Event) ∈
        events) : ¬OwnsFrees events := by
  refine not_owns_of_reserved fresh member
    (first_byte_freed sized (firmwareFdt_size_lt lib fdtAt tables))
    (.inr ⟨tables, shown, _, ?_, rfl⟩)
  have positive : (firmwareFdt lib fdtAt tables).2.toNat ≠ 0 := fun zero =>
    sized (UInt64.toNat_inj.mp zero)
  rw [mem_window, UInt64.sub_self, UInt64.toNat_zero]
  omega

variable {cmdline : List UInt8}

/-- The choice of a tree frees nothing. -/
theorem choice_noFree {before prints : List Event} {tables : List (EfiGuid × UInt64)}
    (asked : ∀ event ∈ before, event.op.isQuery = true)
    (printed : ∀ event ∈ prints, event.op.isConsole = true) :
    Lacks Call.isFree (before ++ ⟨.configurationTable, tables⟩ :: prints) := by
  have queries : Lacks Call.isFree before := fun event member =>
    Call.isFree_of_isQuery (asked event member)
  simp [queries, lacksFree_of_console printed, Call.isFree]

/-- The tables that are shown are the ones the tree was chosen from. -/
theorem prefix_shows {first before prints later : List Event} {tables : List (EfiGuid × UInt64)}
    (none : Lacks Call.isTables first) (asked : ∀ event ∈ before, event.op.isQuery = true)
    (printed : ∀ event ∈ prints, event.op.isConsole = true)
    (noTables : Lacks Call.isTables later) {shown : List (EfiGuid × UInt64)}
    (member : (⟨.configurationTable, shown⟩ : Event) ∈
      first ++ (before ++ ⟨.configurationTable, tables⟩ :: (prints ++ later))) : shown = tables := by
  simp only [List.mem_append, List.mem_cons] at member
  rcases member with member | member | same | member | member
  · cases none _ member
  · cases asked _ member
  · cases same
    rfl
  · cases printed _ member
  · cases noTables _ member

/-- Getting the runtime map frees nothing. -/
theorem VirtmapRun.noFree {answer : Except EfiStatus VirtmapBuffer}
    (run : VirtmapRun events answer) : Lacks Call.isFree events := by
  cases run <;> simp [Call.isFree]

/-- Getting the runtime map does not look at the configuration tables. -/
theorem VirtmapRun.noTables {answer : Except EfiStatus VirtmapBuffer}
    (run : VirtmapRun events answer) : Lacks Call.isTables events := by
  cases run <;> simp [Call.isTables]

/-- The runtime map is held once it is given. -/
theorem VirtmapRun.held (run : VirtmapRun events (.ok buffer)) :
    Resource.block buffer.runtimeMap ∈ firmwareEffects.held ∅ events := by
  cases run with
  | granted tmp pool granted => simp [Effects.held, Effects.after, firmwareEffects, granted]

/-- The runtime map a run works with: none, or a pool block it holds. -/
def RuntimeMap (globals : Globals) (buffer : VirtmapBuffer) (live : Set Resource) : Prop :=
  globals.efiNovamap = true ∧ buffer.runtimeMap = 0 ∨
    globals.efiNovamap = false ∧ Resource.block buffer.runtimeMap ∈ live

/-- From the choice of the tree on, behind a part that frees, exits and chooses nothing. -/
theorem bodyRun_owns_iff {first later : List Event} (noFree : Lacks Call.isFree first)
    (noExit : NoExit first) (noTables : Lacks Call.isTables first)
    (run : BodyRun lib fdtAt globals handle buffer later result)
    (runtimeMap : RuntimeMap globals buffer (firmwareEffects.held ∅ first))
    (fresh : AllocatesFresh lib fdtAt (first ++ later)) : OwnsFrees (first ++ later) ↔
      result = none ∨ Accepted (first ++ later) ∨ globals.efiNovamap = false ∧
        ∀ tables, (⟨.configurationTable, tables⟩ : Event) ∈ first ++ later →
          (firmwareFdt lib fdtAt tables).2 = 0 := by
  cases run with
  | @chosen before prints tail tables _ asked printed tailTables tree =>
    have accepts : Accepted (first ++ (before ++ ⟨.configurationTable, tables⟩ ::
        (prints ++ tail))) ↔ Accepted tail := by
      simp [noExit.not_accepted, (noExit_of_query asked).not_accepted,
        (noExit_of_console printed).not_accepted, acceptedExit]
    have shown : (⟨.configurationTable, tables⟩ : Event) ∈
        first ++ (before ++ ⟨.configurationTable, tables⟩ :: (prints ++ tail)) := by simp
    have shape : first ++ (before ++ ⟨.configurationTable, tables⟩ :: (prints ++ tail)) =
        (first ++ (before ++ ⟨.configurationTable, tables⟩ :: prints)) ++ tail := by simp
    have middle : Lacks Call.isFree (before ++ ⟨.configurationTable, tables⟩ :: prints) :=
      choice_noFree asked printed
    have quiet : firmwareEffects.ReleasesHeld ∅
        (first ++ (before ++ ⟨.configurationTable, tables⟩ :: prints)) :=
      (Lacks.keeps (lacks_append.mpr ⟨noFree, middle⟩)).1
    rw [accepts]
    by_cases settled : result = none ∨ Accepted tail
    · have none := treeRun_settled_noFree tree settled
      refine iff_of_true ?_ (settled.imp_right .inl)
      rw [shape]
      exact Effects.releasesHeld_append.mpr ⟨quiet, none.keeps.1⟩
    obtain ⟨⟨freed, freesMap⟩, freesTree⟩ := treeRun_cleansUp tree settled
    have within : tail ⊆ first ++ (before ++ ⟨.configurationTable, tables⟩ :: (prints ++ tail)) := by
      rw [shape]
      exact List.subset_append_right _ _
    rw [not_or] at settled
    simp only [settled.1, settled.2, false_or]
    rcases runtimeMap with ⟨novamap, null⟩ | ⟨mapped, held⟩
    · rw [null] at freesMap
      exact iff_of_false (not_owns_null fresh (within freesMap)) (by simp [novamap])
    by_cases sized : (firmwareFdt lib fdtAt tables).2 = 0
    · refine iff_of_true ?_ ⟨mapped, fun other member => ?_⟩
      · rw [AllocatesFresh, shape] at fresh
        rw [sized] at tree
        have tailFresh := (Effects.acquiresFresh_append.mp fresh).2
        rw [shape]
        refine Effects.releasesHeld_append.mpr ⟨quiet, treeRun_owns tree ?_ tailFresh⟩
        rw [Effects.held_append]
        exact middle.keeps.2 held
      · rw [prefix_shows noTables asked printed tailTables member]
        exact sized
    · obtain ⟨status, frees⟩ := freesTree sized
      refine iff_of_false (not_owns_tree fresh shown sized (within frees)) fun condition => ?_
      exact sized (condition.2 tables shown)

/-- Every range and block freed by a run of `allocate_new_fdt_and_exit_boot` was allocated by that
run and not freed before, exactly when the run never returns, leaves boot services, or has its own
runtime map and no tree of the firmware to free. -/
theorem handover_owns_iff
    (run : Exec (allocateNewFdtAndExitBoot lib fdtAt globals handle cmdline) events result)
    (fresh : AllocatesFresh lib fdtAt events) : OwnsFrees events ↔
      result = none ∨ Accepted events ∨ globals.efiNovamap = false ∧
        ∀ tables, (⟨.configurationTable, tables⟩ : Event) ∈ events →
          (firmwareFdt lib fdtAt tables).2 = 0 := by
  cases handoverRun_of_exec run with
  | novamap set run =>
    exact bodyRun_owns_iff lacks_nil lacks_nil lacks_nil run (.inl ⟨set, rfl⟩) fresh
  | noBuffer unset map printed =>
    have none := lacks_append.mpr ⟨map.noFree, lacksFree_of_console printed⟩
    refine iff_of_true none.keeps.1 (.inr (.inr ⟨unset, fun tables member => ?_⟩))
    rcases List.mem_append.mp member with member | member
    · cases map.noTables _ member
    · cases printed _ member
  | buffered unset map run =>
    exact bodyRun_owns_iff map.noFree map.exitFree map.noTables run (.inr ⟨unset, map.held⟩) fresh

/-- The events of a handover that finds a tree of the firmware and gets no pages for its own. -/
def refusedHandover : List Event :=
  plainHandover.eventsWith
    (plainFirmware [(deviceTreeGuid, 0x80000000)] efiOutOfResources efiSuccess)

/-- The trace of that run. -/
theorem refusedHandover_eq : refusedHandover = [
    ⟨.getMemoryMap 0 0, ⟨efiBufferTooSmall, 40, 7, 40, 1, [plainDescriptor]⟩⟩,
    ⟨.allocatePool efiLoaderData 40, ⟨efiSuccess, 0x2000⟩⟩,
    ⟨.getVariable "SecureBoot" efiGlobalVariableGuid 1, ⟨efiNotFound, 0, 0⟩⟩,
    ⟨.print "[INFO]: efi_secureboot_mode: efi_secureboot_mode_disabled\n" [], ()⟩,
    ⟨.configurationTable, [(deviceTreeGuid, 0x80000000)]⟩,
    ⟨.print "[INFO]: Using DTB from configuration table\n" [], ()⟩,
    ⟨.allocatePages efiAllocateMaxAddress efiLoaderData 512 0xFFFFFFFFFFFFFFFF,
      ⟨efiOutOfResources, 0x40000000⟩⟩,
    ⟨.print "[ERROR]: Unable to allocate memory for new device tree.\n" [], ()⟩,
    ⟨.freePages 0x80000000 1, efiSuccess⟩,
    ⟨.freePool 0x2000, efiSuccess⟩] := by rfl

/-- That firmware grants nothing that is held. -/
theorem refusedHandover_fresh : AllocatesFresh plainLibfdt (fun _ => ()) refusedHandover := by
  have reserved : Resource.block 0x2000 ∉ firmwareMemory plainLibfdt (fun _ => ())
      refusedHandover := by simp [firmwareMemory]
  have refused : efiOutOfResources ≠ efiSuccess := by decide
  unfold AllocatesFresh
  generalize firmwareMemory plainLibfdt (fun _ => ()) refusedHandover = memory at reserved ⊢
  rw [refusedHandover_eq]
  simp [Effects.AcquiresFresh, firmwareEffects, Effects.after, refused, reserved]

/-- The tree is the firmware's own, and the run frees it. -/
theorem handover_owns_iff_refused : OwnsFrees refusedHandover ↔
    plainHandover.valueWith (plainFirmware [(deviceTreeGuid, 0x80000000)] efiOutOfResources
        efiSuccess) = none ∨
      Accepted refusedHandover ∨ plainGlobals.efiNovamap = false ∧
        ∀ tables, (⟨.configurationTable, tables⟩ : Event) ∈ refusedHandover →
          (firmwareFdt plainLibfdt (fun _ => ()) tables).2 = 0 :=
  handover_owns_iff (exec_eventsWith (by decide +kernel)) refusedHandover_fresh

/-- A handover that finds a tree of the firmware and gets no pages for its own frees the tree of the
firmware, which a firmware that allocates only free memory never gave it. -/
theorem handover_frees_firmware_tree : ¬∀ events result, Exec plainHandover events result →
    AllocatesFresh plainLibfdt (fun _ => ()) events → OwnsFrees events := by
  intro claim
  have owns : OwnsFrees refusedHandover :=
    claim _ _ (exec_eventsWith (by decide +kernel)) refusedHandover_fresh
  have shown : (⟨.configurationTable, [(deviceTreeGuid, 0x80000000)]⟩ : Event) ∈
      refusedHandover := by
    rw [refusedHandover_eq]
    simp
  have freed : (⟨.freePages 0x80000000 1, efiSuccess⟩ : Event) ∈ refusedHandover := by
    rw [refusedHandover_eq]
    simp
  exact not_owns_tree refusedHandover_fresh shown (by decide) freed owns

end DragonStub

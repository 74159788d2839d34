import DragonStub.Boot.ExitBoot

/-!
# Runs of the exit from boot services

Every run of `efi_get_memory_map` and `efi_exit_boot_services` has one of finitely many shapes,
whatever the firmware answers. The relations here list the shapes once, with the events in order,
and the properties of a run are read off them.
-/

namespace DragonStub

open Interaction Prog

/-- Whether a call reads the memory map. -/
def Call.isGetMap : Call → Bool
  | .getMemoryMap .. => true
  | _ => false

/-- Bytes that `efi_get_memory_map` asks for after the first answer. -/
def MemoryMapReply.askedSize (tmp : MemoryMapReply) : UInt64 :=
  tmp.mapSize + tmp.descSize * efiMmapNrSlackSlots

/-- The events up to the allocation of the buffer for the map. -/
def sizedMap (tmp : MemoryMapReply) (pool : WordReply) : List Event :=
  [⟨.getMemoryMap 0 0, tmp⟩,
    ⟨.allocatePool efiACPIReclaimMemory (efiBootMemmapSize + tmp.askedSize), pool⟩]

/-- The events of a map read into its installed buffer. -/
def readMapEvents (tmp : MemoryMapReply) (pool : WordReply) (reply : MemoryMapReply) : List Event :=
  sizedMap tmp pool ++ [⟨.installConfigurationTable linuxEfiBootMemmapGuid pool.value, efiSuccess⟩,
    ⟨.getMemoryMap tmp.askedSize (pool.value + efiBootMemmapSize), reply⟩]

/-- The runs of `efi_get_memory_map` with the table installed. -/
inductive GetMapRun : List Event → Except EfiStatus (UInt64 × EfiBootMemmap) → Prop where
  /-- The firmware does not say how large the map is. -/
  | unsized (tmp : MemoryMapReply) (refused : tmp.status ≠ efiBufferTooSmall) :
      GetMapRun [⟨.getMemoryMap 0 0, tmp⟩] (.error efiLoadError)
  /-- There is no buffer. -/
  | noPool (tmp : MemoryMapReply) (pool : WordReply) (refused : pool.status ≠ efiSuccess) :
      GetMapRun (sizedMap tmp pool) (.error pool.status)
  /-- The table is not installed; the buffer is freed. -/
  | noTable (tmp : MemoryMapReply) (pool : WordReply) (status freed : EfiStatus)
      (granted : pool.status = efiSuccess) (refused : status ≠ efiSuccess) :
      GetMapRun (sizedMap tmp pool ++
        [⟨.installConfigurationTable linuxEfiBootMemmapGuid pool.value, status⟩,
          ⟨.freePool pool.value, freed⟩]) (.error status)
  /-- The map is not read; the table is removed and the buffer freed. -/
  | noMap (tmp : MemoryMapReply) (pool : WordReply) (reply : MemoryMapReply)
      (removed freed : EfiStatus) (granted : pool.status = efiSuccess)
      (refused : reply.status ≠ efiSuccess) :
      GetMapRun (readMapEvents tmp pool reply ++
        [⟨.installConfigurationTable linuxEfiBootMemmapGuid 0, removed⟩,
          ⟨.freePool pool.value, freed⟩]) (.error reply.status)
  /-- The map is read. -/
  | read (tmp : MemoryMapReply) (pool : WordReply) (reply : MemoryMapReply)
      (granted : pool.status = efiSuccess) (given : reply.status = efiSuccess) :
      GetMapRun (readMapEvents tmp pool reply) (.ok (pool.value, reply.memmap tmp.askedSize))

variable {P : Type} {events : List Event}

/-- `efi_get_memory_map` always returns. -/
theorem getMapRun_of_exec {outcome : Option (Except EfiStatus (UInt64 × EfiBootMemmap))}
    (run : Exec (efiGetMemoryMap true) events outcome) :
    ∃ result, outcome = some result ∧ GetMapRun events result := by
  simp only [efiGetMemoryMap, freeMap, readMap, uninstallTable, if_true, perform_bind, exec_call,
    exec_ite, pure_eq_ret, exec_ret, bne_iff_ne, not_not] at run
  obtain ⟨tmp, _, rfl, ⟨refused, rfl, rfl⟩ | ⟨-, pool, _, rfl, run⟩⟩ := run
  · exact ⟨_, rfl, .unsized tmp refused⟩
  rcases run with ⟨refused, rfl, rfl⟩ | ⟨granted, status, _, rfl, run⟩
  · exact ⟨_, rfl, .noPool tmp pool refused⟩
  rcases run with ⟨refused, freed, _, rfl, rfl, rfl⟩ | ⟨rfl, reply, _, rfl, run⟩
  · exact ⟨_, rfl, .noTable tmp pool status freed granted refused⟩
  rcases run with ⟨refused, removed, _, rfl, freed, _, rfl, rfl, rfl⟩ | ⟨given, rfl, rfl⟩
  · exact ⟨_, rfl, .noMap tmp pool reply removed freed granted refused⟩
  · exact ⟨_, rfl, .read tmp pool reply granted given⟩

/-- The runs of the second attempt of `efi_exit_boot_services`. -/
inductive RetryRun (handle m : UInt64) (map : EfiBootMemmap) (priv : P) (privFunc : PrivFunc P) :
    List Event → Option (EfiStatus × P) → Prop where
  /-- The map is not read again. -/
  | noMap (reply : MemoryMapReply) (refused : reply.status ≠ efiSuccess) :
      RetryRun handle m map priv privFunc
        [⟨.getMemoryMap map.buffSize (m + efiBootMemmapSize), reply⟩] (some (reply.status, priv))
  /-- The callback never returns. -/
  | waits (reply : MemoryMapReply) (given : reply.status = efiSuccess) {inner : List Event}
      (waits : Exec (privFunc m (reply.memmap map.buffSize) priv) inner none) :
      RetryRun handle m map priv privFunc
        (⟨.getMemoryMap map.buffSize (m + efiBootMemmapSize), reply⟩ ::
          ⟨.reach (.privFunc (reply.memmap map.buffSize)), ()⟩ :: inner) none
  /-- The callback fails. -/
  | refused (reply : MemoryMapReply) (given : reply.status = efiSuccess) {inner : List Event}
      {status : EfiStatus} {map' : EfiBootMemmap} {priv' : P}
      (ran : Exec (privFunc m (reply.memmap map.buffSize) priv) inner (some (status, map', priv')))
      (refused : status ≠ efiSuccess) : RetryRun handle m map priv privFunc
        (⟨.getMemoryMap map.buffSize (m + efiBootMemmapSize), reply⟩ ::
          ⟨.reach (.privFunc (reply.memmap map.buffSize)), ()⟩ :: inner) (some (status, priv'))
  /-- The firmware is asked to exit again, and its answer is the result. -/
  | exits (reply : MemoryMapReply) (given : reply.status = efiSuccess) {inner : List Event}
      {map' : EfiBootMemmap} {priv' : P} (ran : Exec (privFunc m (reply.memmap map.buffSize) priv)
        inner (some (efiSuccess, map', priv'))) (status : EfiStatus) :
      RetryRun handle m map priv privFunc
        (⟨.getMemoryMap map.buffSize (m + efiBootMemmapSize), reply⟩ ::
          ⟨.reach (.privFunc (reply.memmap map.buffSize)), ()⟩ ::
          (inner ++ [⟨.exitBootServices handle map'.mapKey, status⟩])) (some (status, priv'))

/-- Every run of the second attempt is one of its runs case by case. -/
theorem retryRun_of_exec {handle m : UInt64} {map : EfiBootMemmap} {priv : P}
    {privFunc : PrivFunc P} {outcome : Option (EfiStatus × P)}
    (run : Exec (retryExit handle m map priv privFunc) events outcome) :
    RetryRun handle m map priv privFunc events outcome := by
  simp only [retryExit, perform_bind, exec_call, exec_ite, pure_eq_ret, exec_ret, exec_bind,
    bne_iff_ne, not_not] at run
  obtain ⟨reply, _, rfl, ⟨refused, rfl, rfl⟩ | ⟨given, -, _, rfl, run⟩⟩ := run
  · exact .noMap reply refused
  rcases run with ⟨⟨status, map', priv'⟩, inner, _, rfl, ran, run⟩ | ⟨rfl, waits⟩
  · rcases run with ⟨refused, rfl, rfl⟩ | ⟨rfl, status, _, rfl, rfl, rfl⟩
    · rw [List.append_nil]
      exact .refused reply given ran refused
    · exact .exits reply given ran status
  · exact .waits reply given waits

/-- The console output between the callback and the first exit. -/
def beforeExit (globals : Globals) (handle mapKey : UInt64) : List Event :=
  [⟨.print ("[DEBUG]: " ++ "before ExitBootServices, handle=%p, map_key=%p\n") [handle, mapKey], ()⟩,
    ⟨.print ("[DEBUG]: " ++ "BS->ExitBootServices=%p\n") [globals.exitBootServices], ()⟩,
    ⟨.print ("[DEBUG]: " ++ "ST->BS->ExitBootServices=%p\n") [globals.exitBootServices], ()⟩]

/-- The runs of `efi_exit_boot_services` from the first exit on. -/
inductive FirstRun (globals : Globals) (handle m : UInt64) (map : EfiBootMemmap) (priv : P)
    (privFunc : PrivFunc P) : List Event → Option (EfiStatus × P) → Prop where
  /-- The first answer is the result. -/
  | decided (status : EfiStatus) (final : status ≠ efiInvalidParameter) :
      FirstRun globals handle m map priv privFunc
        (beforeExit globals handle map.mapKey ++ [⟨.exitBootServices handle map.mapKey, status⟩])
        (some (status, priv))
  /-- The firmware says the map has changed. -/
  | retried {later : List Event} {outcome : Option (EfiStatus × P)}
      (retry : RetryRun handle m map priv privFunc later outcome) :
      FirstRun globals handle m map priv privFunc
        (beforeExit globals handle map.mapKey ++
          ⟨.exitBootServices handle map.mapKey, efiInvalidParameter⟩ :: later) outcome

/-- Every run of the first attempt is one of its runs case by case. -/
theorem firstRun_of_exec {globals : Globals} {handle m : UInt64} {map : EfiBootMemmap} {priv : P}
    {privFunc : PrivFunc P} {outcome : Option (EfiStatus × P)}
    (run : Exec (firstExit globals handle m map priv privFunc) events outcome) :
    FirstRun globals handle m map priv privFunc events outcome := by
  simp only [firstExit, efiDebug, efiPrintk, perform_bind, exec_call, exec_ite, pure_eq_ret,
    exec_ret, beq_iff_eq] at run
  obtain ⟨-, _, rfl, -, _, rfl, -, _, rfl, status, _, rfl, run⟩ := run
  rcases run with ⟨rfl, run⟩ | ⟨final, rfl, rfl⟩
  · exact .retried (retryRun_of_exec run)
  · exact .decided status final

/-- The runs of `efi_exit_boot_services`. -/
inductive ExitRun (globals : Globals) (handle : UInt64) (priv : P) (privFunc : PrivFunc P) :
    List Event → Option (EfiStatus × P) → Prop where
  /-- `efi_disable_pci_dma` is set, which is not implemented. -/
  | unimplemented {notice : List Event} (prints : ∀ event ∈ notice, event.op.isConsole = true)
      (asked : globals.efiDisablePciDma = true) :
      ExitRun globals handle priv privFunc notice none
  /-- There is no map. -/
  | noMap {first : List Event} {status : EfiStatus} (got : GetMapRun first (.error status)) :
      ExitRun globals handle priv privFunc first (some (status, priv))
  /-- The callback never returns. -/
  | waits {first inner : List Event} {m : UInt64} {map : EfiBootMemmap}
      (got : GetMapRun first (.ok (m, map))) (waits : Exec (privFunc m map priv) inner none) :
      ExitRun globals handle priv privFunc
        (first ++ ⟨.print ("[DEBUG]: " ++ "before priv_func\n") [], ()⟩ ::
          ⟨.reach (.privFunc map), ()⟩ :: inner) none
  /-- The callback fails; the map is freed. -/
  | refused {first inner : List Event} {m : UInt64} {map map' : EfiBootMemmap}
      {status : EfiStatus} {priv' : P} (got : GetMapRun first (.ok (m, map)))
      (ran : Exec (privFunc m map priv) inner (some (status, map', priv')))
      (refused : status ≠ efiSuccess) (freed : EfiStatus) : ExitRun globals handle priv privFunc
        (first ++ ⟨.print ("[DEBUG]: " ++ "before priv_func\n") [], ()⟩ ::
          ⟨.reach (.privFunc map), ()⟩ :: (inner ++ [⟨.freePool m, freed⟩])) (some (status, priv'))
  /-- The firmware is asked to exit. -/
  | exits {first inner later : List Event} {m : UInt64} {map map' : EfiBootMemmap} {priv' : P}
      {outcome : Option (EfiStatus × P)} (got : GetMapRun first (.ok (m, map)))
      (ran : Exec (privFunc m map priv) inner (some (efiSuccess, map', priv')))
      (exit : FirstRun globals handle m map' priv' privFunc later outcome) :
      ExitRun globals handle priv privFunc
        (first ++ ⟨.print ("[DEBUG]: " ++ "before priv_func\n") [], ()⟩ ::
          ⟨.reach (.privFunc map), ()⟩ :: (inner ++ later)) outcome

/-- Every run of `efi_exit_boot_services` is one of its runs case by case. -/
theorem exitRun_of_exec {globals : Globals} {handle : UInt64} {priv : P} {privFunc : PrivFunc P}
    {outcome : Option (EfiStatus × P)}
    (run : Exec (efiExitBootServices globals handle priv privFunc) events outcome) :
    ExitRun globals handle priv privFunc events outcome := by
  by_cases asked : globals.efiDisablePciDma = true
  · simp only [efiExitBootServices, asked, if_true, efiTodo, efiPrintk, perform_bind, call_bind,
      exec_call, exec_never] at run
    obtain ⟨-, _, rfl, rfl, rfl⟩ := run
    exact .unimplemented (by simp [Call.isConsole]) asked
  rw [efiExitBootServices, if_neg asked, exec_bind] at run
  rcases run with ⟨result, first, _, rfl, got, run⟩ | ⟨-, waits⟩
  swap
  · obtain ⟨_, ⟨⟩, -⟩ := getMapRun_of_exec waits
  obtain ⟨_, ⟨⟩, got⟩ := getMapRun_of_exec got
  cases result with
  | error status =>
    obtain ⟨rfl, rfl⟩ := exec_ret.mp run
    rw [List.append_nil]
    exact .noMap got
  | ok filled =>
    obtain ⟨m, map⟩ := filled
    simp only [efiDebug, efiPrintk, perform_bind, exec_call, exec_ite, pure_eq_ret, exec_ret,
      exec_bind, bne_iff_ne, not_not] at run
    obtain ⟨-, _, rfl, -, _, rfl, run⟩ := run
    rcases run with ⟨⟨status, map', priv'⟩, inner, _, rfl, ran, run⟩ | ⟨rfl, waits⟩
    · rcases run with ⟨refused, freed, _, rfl, rfl, rfl⟩ | ⟨rfl, run⟩
      · exact .refused got ran refused freed
      · exact .exits got ran (firstRun_of_exec run)
    · exact .waits got waits

end DragonStub

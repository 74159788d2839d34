import DragonStub.Verif.BootTable
import DragonStub.Verif.HandleCmdline

/-!
# The block of the memory map

`efi_get_memory_map` either returns its pool block with the map in it, or undoes what it has done:
it frees the block, and takes it out of the configuration table when it had published it.
-/

namespace DragonStub

open Interaction Prog Trace

variable {installCfgTbl : Bool} {events : List Event} {m : UInt64} {map : EfiBootMemmap}
  {result : Except EfiStatus (UInt64 × EfiBootMemmap)}

/-- The memory type of the block. -/
def mapMemoryType (installCfgTbl : Bool) : UInt32 :=
  if installCfgTbl then efiACPIReclaimMemory else efiLoaderData

/-- The size of the map is asked for, and a block of that size. -/
def takingBlock (installCfgTbl : Bool) (tmp : MemoryMapReply) (pool : WordReply) : List Event :=
  [⟨.getMemoryMap 0 0, tmp⟩,
    ⟨.allocatePool (mapMemoryType installCfgTbl) (efiBootMemmapSize + tmp.askedSize), pool⟩]

/-- The table is set, when the caller asked for one. -/
def settingTable (installCfgTbl : Bool) (table : UInt64) (status : EfiStatus) : List Event :=
  if installCfgTbl then [⟨.installConfigurationTable linuxEfiBootMemmapGuid table, status⟩] else []

/-- The runs of `efi_get_memory_map`. -/
inductive MapRun (installCfgTbl : Bool) :
    List Event → Except EfiStatus (UInt64 × EfiBootMemmap) → Prop where
  /-- The firmware does not say how large the map is. -/
  | unsized (tmp : MemoryMapReply) (refused : tmp.status ≠ efiBufferTooSmall) :
      MapRun installCfgTbl [⟨.getMemoryMap 0 0, tmp⟩] (.error efiLoadError)
  /-- There is no block. -/
  | noPool (tmp : MemoryMapReply) (pool : WordReply) (refused : pool.status ≠ efiSuccess) :
      MapRun installCfgTbl (takingBlock installCfgTbl tmp pool) (.error pool.status)
  /-- The table is refused; the block is freed. -/
  | noTable (tmp : MemoryMapReply) (pool : WordReply) (status freed : EfiStatus)
      (asked : installCfgTbl = true) (granted : pool.status = efiSuccess)
      (refused : status ≠ efiSuccess) :
      MapRun installCfgTbl (takingBlock installCfgTbl tmp pool ++
        (settingTable installCfgTbl pool.value status ++ [⟨.freePool pool.value, freed⟩]))
        (.error status)
  /-- The map is not read; the table is removed and the block freed. -/
  | noMap (tmp : MemoryMapReply) (pool : WordReply) (reply : MemoryMapReply)
      (removed freed : EfiStatus) (granted : pool.status = efiSuccess)
      (refused : reply.status ≠ efiSuccess) :
      MapRun installCfgTbl (takingBlock installCfgTbl tmp pool ++
        (settingTable installCfgTbl pool.value efiSuccess ++
          ⟨.getMemoryMap tmp.askedSize (pool.value + efiBootMemmapSize), reply⟩ ::
            settingTable installCfgTbl 0 removed ++ [⟨.freePool pool.value, freed⟩]))
        (.error reply.status)
  /-- The map is read. -/
  | read (tmp : MemoryMapReply) (pool : WordReply) (reply : MemoryMapReply)
      (granted : pool.status = efiSuccess) (given : reply.status = efiSuccess) :
      MapRun installCfgTbl (takingBlock installCfgTbl tmp pool ++
        (settingTable installCfgTbl pool.value efiSuccess ++
          [⟨.getMemoryMap tmp.askedSize (pool.value + efiBootMemmapSize), reply⟩]))
        (.ok (pool.value, reply.memmap tmp.askedSize))

/-- `efi_get_memory_map` always returns, with or without the table. -/
theorem mapRun_of_exec {outcome : Option (Except EfiStatus (UInt64 × EfiBootMemmap))}
    (run : Exec (efiGetMemoryMap installCfgTbl) events outcome) :
    ∃ result, outcome = some result ∧ MapRun installCfgTbl events result := by
  cases installCfgTbl with
  | true =>
    obtain ⟨result, returned, got⟩ := getMapRun_of_exec run
    refine ⟨result, returned, ?_⟩
    cases got with
    | unsized tmp refused => exact .unsized tmp refused
    | noPool tmp pool refused => exact .noPool tmp pool refused
    | noTable tmp pool status freed granted refused =>
      exact .noTable tmp pool status freed rfl granted refused
    | noMap tmp pool reply removed freed granted refused =>
      exact .noMap tmp pool reply removed freed granted refused
    | read tmp pool reply granted given => exact .read tmp pool reply granted given
  | false =>
    simp only [efiGetMemoryMap, freeMap, readMap, uninstallTable, Bool.false_eq_true, if_false,
      perform_bind, exec_call, exec_ite, pure_eq_ret, exec_ret, bne_iff_ne, not_not] at run
    obtain ⟨tmp, _, rfl, ⟨refused, rfl, rfl⟩ | ⟨-, pool, _, rfl, run⟩⟩ := run
    · exact ⟨_, rfl, .unsized tmp refused⟩
    rcases run with ⟨refused, rfl, rfl⟩ | ⟨granted, reply, _, rfl, run⟩
    · exact ⟨_, rfl, .noPool tmp pool refused⟩
    rcases run with ⟨refused, freed, _, rfl, rfl, rfl⟩ | ⟨given, rfl, rfl⟩
    · exact ⟨_, rfl, .noMap tmp pool reply efiSuccess freed granted refused⟩
    · exact ⟨_, rfl, .read tmp pool reply granted given⟩

/-- Setting the table neither allocates nor frees. -/
theorem quiet_settingTable (table : UInt64) (status : EfiStatus) :
    Quiet (settingTable installCfgTbl table status) := by
  cases installCfgTbl with
  | false => exact quiet_nil
  | true => exact quiet_single rfl rfl

/-- Getting the map neither allocates nor frees. -/
theorem quiet_getMemoryMap (size buffer : UInt64) (reply : MemoryMapReply) :
    Quiet [⟨.getMemoryMap size buffer, reply⟩] := quiet_single rfl rfl

/-- Asking for the size holds nothing. -/
theorem held_sized (tmp : MemoryMapReply) (rest : List Event) :
    firmwareEffects.held ∅ (⟨.getMemoryMap 0 0, tmp⟩ :: rest) = firmwareEffects.held ∅ rest := by
  rw [← List.singleton_append, Effects.held_append, (quiet_getMemoryMap 0 0 tmp).held]

/-- A block that is freed behind calls that neither allocate nor free is not held. -/
theorem held_freed {tmp : MemoryMapReply} {pool : WordReply} {middle : List Event}
    {freed : EfiStatus} (granted : pool.status = efiSuccess) (quiet : Quiet middle) :
    firmwareEffects.held ∅ (takingBlock installCfgTbl tmp pool ++
      (middle ++ [⟨.freePool pool.value, freed⟩])) = ∅ := by
  rw [takingBlock, List.cons_append, held_sized]
  exact held_block granted quiet (Set.notMem_empty _)

/-- The block is held by whoever gets the map, and by nobody when there is none. -/
theorem MapRun.held (run : MapRun installCfgTbl events result) : firmwareEffects.held ∅ events =
    match result with
    | .ok (m, _) => {.block m}
    | .error _ => ∅ := by
  cases run with
  | unsized tmp refused => exact held_sized tmp []
  | noPool tmp pool refused =>
    exact (held_sized tmp _).trans (balanced_refused refused).held
  | noTable tmp pool status freed asked granted refused =>
    exact held_freed granted (quiet_settingTable _ _)
  | noMap tmp pool reply removed freed granted refused =>
    have asks : Quiet (⟨.getMemoryMap tmp.askedSize (pool.value + efiBootMemmapSize), reply⟩ ::
        settingTable installCfgTbl 0 removed) :=
      (quiet_getMemoryMap ..).append (quiet_settingTable 0 removed)
    exact held_freed granted ((quiet_settingTable _ _).append asks)
  | read tmp pool reply granted given =>
    have quiet : Quiet (settingTable installCfgTbl pool.value efiSuccess ++
        [⟨.getMemoryMap tmp.askedSize (pool.value + efiBootMemmapSize), reply⟩]) :=
      (quiet_settingTable _ _).append (quiet_getMemoryMap ..)
    exact (held_sized tmp _).trans (held_granted granted quiet)

/-- No entry of the configuration table points to a block that the events were given. -/
def PointsElsewhere (tables : EfiGuid → Option UInt64) (events : List Event) : Prop :=
  ∀ guid, ∀ block ∈ events.filterMap givenBlock, tables guid ≠ some block.1

variable {tables : EfiGuid → Option UInt64}

/-- The tables are followed through two parts of a trace. -/
theorem tablesAfter_append (first second : List Event) :
    tablesAfter tables (first ++ second) = tablesAfter (tablesAfter tables first) second :=
  List.foldl_append

/-- Setting the table changes no other entry. -/
theorem tablesAfter_other {guid : EfiGuid} (other : guid ≠ linuxEfiBootMemmapGuid) (table : UInt64)
    (status : EfiStatus) :
    tablesAfter tables (settingTable installCfgTbl table status) guid = tables guid := by
  cases installCfgTbl with
  | false => rfl
  | true =>
    change tablesStep tables ⟨.installConfigurationTable linuxEfiBootMemmapGuid table, status⟩ guid =
      tables guid
    simp only [tablesStep]
    split_ifs
    · exact Function.update_of_ne other _ _
    · exact Function.update_of_ne other _ _
    · rfl

/-- A table that is refused leaves its entry as it was, or without a table. -/
theorem tablesAfter_refused {status : EfiStatus} (refused : status ≠ efiSuccess) (table : UInt64)
    (guid : EfiGuid) :
    tablesAfter tables (settingTable installCfgTbl table status) guid = none ∨
      tablesAfter tables (settingTable installCfgTbl table status) guid = tables guid := by
  by_cases other : guid = linuxEfiBootMemmapGuid
  swap
  · exact .inr (tablesAfter_other other table status)
  cases installCfgTbl with
  | false => exact .inr rfl
  | true =>
    subst other
    change tablesStep tables ⟨.installConfigurationTable linuxEfiBootMemmapGuid table, status⟩ _ =
      none ∨ tablesStep tables ⟨.installConfigurationTable linuxEfiBootMemmapGuid table, status⟩ _ = _
    simp only [tablesStep, if_neg refused]
    split_ifs
    · exact .inl (Function.update_self ..)
    · exact .inr rfl

/-- Removing the entry leaves every other one as it was before the block was published. -/
theorem tablesAfter_removed (table : UInt64) (status removed : EfiStatus) (guid : EfiGuid) :
    tablesAfter (tablesAfter tables (settingTable installCfgTbl table status))
        (settingTable installCfgTbl 0 removed) guid = none ∨
      tablesAfter (tablesAfter tables (settingTable installCfgTbl table status))
        (settingTable installCfgTbl 0 removed) guid = tables guid := by
  by_cases other : guid = linuxEfiBootMemmapGuid
  swap
  · right
    rw [tablesAfter_other other, tablesAfter_other other]
  cases installCfgTbl with
  | false => exact .inr rfl
  | true =>
    subst other
    exact .inl (by simp [settingTable, tablesAfter, tablesStep])

/-- Without a map, every entry is as it was, or removed. -/
theorem MapRun.tables_error {status : EfiStatus} (run : MapRun installCfgTbl events (.error status))
    (tables : EfiGuid → Option UInt64) (guid : EfiGuid) :
    tablesAfter tables events guid = none ∨ tablesAfter tables events guid = tables guid := by
  cases run with
  | unsized tmp refused => exact .inr rfl
  | noPool tmp pool refused => exact .inr rfl
  | noTable tmp pool status freed asked granted refused =>
    have sets : tablesAfter tables (takingBlock installCfgTbl tmp pool ++
        (settingTable installCfgTbl pool.value status ++ [⟨.freePool pool.value, freed⟩])) =
        tablesAfter tables (settingTable installCfgTbl pool.value status) := by
      rw [tablesAfter_append, tablesAfter_append]
      rfl
    rw [sets]
    exact tablesAfter_refused refused pool.value guid
  | noMap tmp pool reply removed freed granted refused =>
    have sets : tablesAfter tables (takingBlock installCfgTbl tmp pool ++
        (settingTable installCfgTbl pool.value efiSuccess ++
          ⟨.getMemoryMap tmp.askedSize (pool.value + efiBootMemmapSize), reply⟩ ::
            settingTable installCfgTbl 0 removed ++ [⟨.freePool pool.value, freed⟩])) =
        tablesAfter (tablesAfter tables (settingTable installCfgTbl pool.value efiSuccess))
          (settingTable installCfgTbl 0 removed) := by
      rw [tablesAfter_append, tablesAfter_append, tablesAfter_append]
      rfl
    rw [sets]
    exact tablesAfter_removed pool.value efiSuccess removed guid

/-- A failed call publishes none of its blocks. -/
theorem MapRun.pointsElsewhere {status : EfiStatus}
    (run : MapRun installCfgTbl events (.error status)) (elsewhere : PointsElsewhere tables events) :
    PointsElsewhere (tablesAfter tables events) events := by
  intro guid block given
  rcases run.tables_error tables guid with removed | kept
  · rw [removed]
    exact Option.some_ne_none _ |>.symm
  · rw [kept]
    exact elsewhere guid block given

/-- A map that is read is not reported larger than the buffer it is read into. -/
def ReadsWithin : Event → Prop
  | ⟨.getMemoryMap size _, reply⟩ => reply.status = efiSuccess → reply.mapSize ≤ size
  | _ => True

/-- The reported size of a map and its slack slots do not wrap. -/
def SizeFits : Event → Prop
  | ⟨.getMemoryMap .., reply⟩ =>
    reply.mapSize.toNat + reply.descSize.toNat * efiMmapNrSlackSlots.toNat < 2 ^ 64
  | _ => True

/-- What a successful call returns: a block it holds, requested with the room it says it has, that
has the room the first answer asks for and holds the second answer. -/
structure MapGiven (installCfgTbl : Bool) (events : List Event) (m : UInt64)
    (map : EfiBootMemmap) : Prop where
  /-- The block of the map is all that is held. -/
  live : firmwareEffects.held ∅ events = {.block m}
  /-- It was asked for with room for the map behind its own fields. -/
  requested : (⟨.allocatePool (mapMemoryType installCfgTbl) (efiBootMemmapSize + map.buffSize),
    ⟨efiSuccess, m⟩⟩ : Event) ∈ events
  /-- The map is the second answer, in a buffer with room beside the first. -/
  answers : ∃ first second : MemoryMapReply,
    events.filter (fun event => event.op.isGetMap) = [⟨.getMemoryMap 0 0, first⟩,
      ⟨.getMemoryMap map.buffSize (m + efiBootMemmapSize), second⟩] ∧
    first.mapSize.toNat + first.descSize.toNat * efiMmapNrSlackSlots.toNat ≤ map.buffSize.toNat ∧
    second.status = efiSuccess ∧ map = second.memmap map.buffSize
  /-- The map lies in its buffer. -/
  within : map.mapSize ≤ map.buffSize

/-- What a failed call leaves: no block held, and none in the configuration table. -/
structure MapRefused (events : List Event) : Prop where
  /-- Nothing is held. -/
  live : firmwareEffects.held ∅ events = ∅
  /-- No table points to a block that is no longer held. -/
  tables : ∀ tables, PointsElsewhere tables events →
    PointsElsewhere (tablesAfter tables events) events

/-- The size that is asked for leaves room for the slack slots. -/
theorem askedSize_toNat {tmp : MemoryMapReply} (fits : tmp.mapSize.toNat +
    tmp.descSize.toNat * efiMmapNrSlackSlots.toNat < 2 ^ 64) : tmp.askedSize.toNat =
      tmp.mapSize.toNat + tmp.descSize.toNat * efiMmapNrSlackSlots.toNat := by
  have slots : tmp.descSize.toNat * efiMmapNrSlackSlots.toNat < 2 ^ 64 := by omega
  rw [MemoryMapReply.askedSize, UInt64.toNat_add, UInt64.toNat_mul, Nat.mod_eq_of_lt slots,
    Nat.mod_eq_of_lt fits]

/-- Setting the table asks for no map. -/
theorem filter_settingTable (table : UInt64) (status : EfiStatus) :
    (settingTable installCfgTbl table status).filter (fun event => event.op.isGetMap) = [] := by
  cases installCfgTbl <;> rfl

/-- A run that succeeds gives the map as it is asked for. -/
theorem MapRun.given (run : MapRun installCfgTbl events (.ok (m, map)))
    (reads : ∀ event ∈ events, ReadsWithin event) (sizes : ∀ event ∈ events, SizeFits event) :
    MapGiven installCfgTbl events m map := by
  have live := run.held
  cases run with
  | read tmp pool reply granted given =>
    have asked : (⟨.getMemoryMap 0 0, tmp⟩ : Event) ∈ takingBlock installCfgTbl tmp pool :=
      List.mem_cons_self
    have fits : SizeFits ⟨.getMemoryMap 0 0, tmp⟩ := sizes _ (List.mem_append_left _ asked)
    have last : (⟨.getMemoryMap tmp.askedSize (pool.value + efiBootMemmapSize), reply⟩ : Event) ∈
        takingBlock installCfgTbl tmp pool ++ (settingTable installCfgTbl pool.value efiSuccess ++
          [⟨.getMemoryMap tmp.askedSize (pool.value + efiBootMemmapSize), reply⟩]) := by simp
    refine ⟨live, ?_, ⟨tmp, reply, ?_, ?_, given, rfl⟩, reads _ last given⟩
    · apply List.mem_append_left
      rw [← granted]
      exact List.mem_cons_of_mem _ List.mem_cons_self
    · rw [List.filter_append, List.filter_append, filter_settingTable]
      rfl
    · exact (askedSize_toNat fits).ge

/-- `efi_get_memory_map` returns, with or without the table, and gives a block with the map in it or
leaves no trace of one. -/
theorem efiGetMemoryMap_given {outcome : Option (Except EfiStatus (UInt64 × EfiBootMemmap))}
    (reads : ∀ event ∈ events, ReadsWithin event) (sizes : ∀ event ∈ events, SizeFits event)
    (run : Exec (efiGetMemoryMap installCfgTbl) events outcome) :
    (∃ m map, outcome = some (.ok (m, map)) ∧ MapGiven installCfgTbl events m map) ∨
      ∃ status, outcome = some (.error status) ∧ MapRefused events := by
  obtain ⟨result, returned, run⟩ := mapRun_of_exec run
  cases result with
  | ok filled => exact .inl ⟨filled.1, filled.2, returned, run.given reads sizes⟩
  | error status =>
    exact .inr ⟨status, returned, run.held, fun tables elsewhere => run.pointsElsewhere elsewhere⟩

/-- The map of three plain pages. -/
def plainMap : List EfiMemoryDescriptor := List.replicate 3 ⟨7, 0, 0x80000000, 0, 1, 0, []⟩

/-- Firmware with a map of two descriptors, that has grown by one when it is read. -/
def growingFirmware (_ : List Event) : (call : Call) → Option call.Reply
  | .getMemoryMap size _ =>
    if size = 0 then some ⟨efiBufferTooSmall, 96, 1, 48, 1, []⟩
    else some ⟨efiSuccess, 144, 2, 48, 1, plainMap⟩
  | .allocatePool .. => some ⟨efiSuccess, 0x5000⟩
  | .installConfigurationTable .. => some efiSuccess
  | _ => none

/-- The slack slots take the descriptor the map has grown by. -/
theorem efiGetMemoryMap_given_grown : MapGiven true
    ((efiGetMemoryMap true).eventsWith growingFirmware) 0x5000 ⟨144, 48, 1, 2, 480, plainMap⟩ := by
  have events : (efiGetMemoryMap true).eventsWith growingFirmware =
      [⟨.getMemoryMap 0 0, ⟨efiBufferTooSmall, 96, 1, 48, 1, []⟩⟩,
        ⟨.allocatePool efiACPIReclaimMemory 520, ⟨efiSuccess, 0x5000⟩⟩,
        ⟨.installConfigurationTable linuxEfiBootMemmapGuid 0x5000, efiSuccess⟩,
        ⟨.getMemoryMap 480 0x5028, ⟨efiSuccess, 144, 2, 48, 1, plainMap⟩⟩] := by rfl
  have value : (efiGetMemoryMap true).valueWith growingFirmware =
      some (.ok (0x5000, ⟨144, 48, 1, 2, 480, plainMap⟩)) := by rfl
  have ran : Exec (efiGetMemoryMap true) ((efiGetMemoryMap true).eventsWith growingFirmware)
      ((efiGetMemoryMap true).valueWith growingFirmware) := exec_eventsWith (by decide +kernel)
  have reads : ∀ event ∈ (efiGetMemoryMap true).eventsWith growingFirmware, ReadsWithin event := by
    rw [events]
    simp only [List.forall_mem_cons, List.not_mem_nil, ReadsWithin, true_and]
    exact ⟨by decide, by decide, fun _ none => none.elim⟩
  have sizes : ∀ event ∈ (efiGetMemoryMap true).eventsWith growingFirmware, SizeFits event := by
    rw [events]
    simp only [List.forall_mem_cons, List.not_mem_nil, SizeFits, true_and]
    exact ⟨by decide, by decide, fun _ none => none.elim⟩
  obtain ⟨m, map, returned, given⟩ | ⟨status, returned, -⟩ :=
    efiGetMemoryMap_given reads sizes ran
  · rw [value] at returned
    obtain ⟨rfl, rfl⟩ := Prod.mk.inj (Except.ok.inj (Option.some.inj returned))
    exact given
  · rw [value] at returned
    cases returned

end DragonStub

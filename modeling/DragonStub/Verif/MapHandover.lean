import DragonStub.Verif.HandoverRuns
import DragonStub.Verif.RuntimeMap

/-!
# The map handed to the kernel

`exit_boot_func` processes the last map of the firmware, and `SetVirtualAddressMap` is told of its
runtime descriptors. The map that is handed over agrees with what the firmware was told, whether the
exit was retried or not.
-/

namespace DragonStub

open Interaction Prog Word

variable {map : List EfiMemoryDescriptor} {novamap : Bool}

/-- With `efi_novamap` a runtime descriptor is mapped to itself. -/
theorem virtmapEntry_novamap (entry : EfiMemoryDescriptor) (out : Virtmap)
    (runtime : (virtmapEntry true entry out).1.isRuntime = true) :
    (virtmapEntry true entry out).1.virtualStart = (virtmapEntry true entry out).1.physicalStart := by
  have kept : (virtmapEntry true entry out).1.isRuntime = entry.isRuntime :=
    (virtmapEntry_remapped entry out).isRuntime
  rw [kept] at runtime
  simp [virtmapEntry, runtime, efiRtVirtualOffset]

/-- The loop behind a refused `SetVirtualAddressMap` remaps, and leaves no runtime descriptor
mapped. -/
theorem unmapEntry_spec (entry : EfiMemoryDescriptor) (s : Unit) :
    Remapped entry (unmapEntry entry s).1 ∧ ((unmapEntry entry s).1.isRuntime = true →
      (unmapEntry entry s).1.virtualStart = 0xFFFFFFFFFFFFFFFF) := by
  cases kind : entry.isRuntime with
  | false => simp [unmapEntry, kind, Remapped]
  | true => simp [unmapEntry, kind, Remapped]

/-- The last call of `GetMemoryMap` in a run has this reply. -/
def ReadsLast (events : List Event) (reply : MemoryMapReply) : Prop :=
  ∃ before size buffer later, events = before ++ ⟨.getMemoryMap size buffer, reply⟩ :: later ∧
    Lacks Call.isGetMap later

/-- The offsets into each map that is read are in reach of an `int`. -/
def FitInt (events : List Event) : Prop :=
  ∀ size buffer reply, (⟨.getMemoryMap size buffer, reply⟩ : Event) ∈ events →
    reply.status = efiSuccess → IntOffsets reply.map.length reply.mapSize reply.descSize

variable {Blob : Type} {lib : Libfdt Blob} {fdtAt : UInt64 → Blob} {globals : Globals}
  {events first later : List Event} {reply : MemoryMapReply} {priv final : ExitBootStruct Blob}

/-- What comes before the last map is of no matter, nor what follows without one. -/
theorem ReadsLast.between (first : List Event) (read : ReadsLast events reply)
    (quiet : Lacks Call.isGetMap later) : ReadsLast (first ++ (events ++ later)) reply := by
  obtain ⟨before, size, buffer, after, rfl, none⟩ := read
  exact ⟨first ++ before, size, buffer, after ++ later, by simp, by simp [none, quiet]⟩

/-- Maps that fit do so in a part of a trace. -/
theorem FitInt.part (fits : FitInt (first ++ (events ++ later))) : FitInt events :=
  fun size buffer reply member => fits size buffer reply (by simp [member])

/-- What the callback leaves of a map it was given. -/
structure Processed (novamap : Bool) (given : EfiBootMemmap) (priv : ExitBootStruct Blob) :
    Prop where
  /-- The map is the one it was given, with its virtual starts set. -/
  memmap : priv.bootMemmap = some { given with
    map := (sweep (virtmapEntry novamap) given.map ⟨[], 0, efiRtVirtualBase⟩).1 }
  /-- The runtime map holds the copies. -/
  entries : priv.runtimeEntries =
    (sweep (virtmapEntry novamap) given.map ⟨[], 0, efiRtVirtualBase⟩).2.runtimeMap
  /-- The copies are counted. -/
  count : priv.runtimeEntryCount =
    (sweep (virtmapEntry novamap) given.map ⟨[], 0, efiRtVirtualBase⟩).2.count

/-- The callback of the exit processes the map that it is given. -/
theorem exitBootFunc_processed {m : UInt64} {given given' : EfiBootMemmap} {status : EfiStatus}
    (fits : IntOffsets given.map.length given.mapSize given.descSize)
    (run : Exec (exitBootFunc lib globals m given priv) events (some (status, given', final))) :
    Processed globals.efiNovamap given final := by
  rw [exitBootFunc, efiGetVirtmap, forEachDescriptor_eq fits] at run
  obtain ⟨-, returned⟩ := exec_ret.mp run
  cases returned
  exact ⟨rfl, rfl, rfl⟩

/-- A map that was read last and processed. -/
def LeavesProcessed (novamap : Bool) (events : List Event) (final : ExitBootStruct Blob) : Prop :=
  ∃ reply buffSize, reply.status = efiSuccess ∧ ReadsLast events reply ∧
    Processed novamap (reply.memmap buffSize) final

/-- A second attempt that succeeds leaves its map processed. -/
theorem RetryRun.processed {handle m : UInt64} {given : EfiBootMemmap}
    {outcome : Option (EfiStatus × ExitBootStruct Blob)}
    (run : RetryRun handle m given priv (exitBootFunc lib globals) events outcome)
    (fits : FitInt events) (left : outcome = some (efiSuccess, final)) :
    LeavesProcessed globals.efiNovamap events final := by
  cases run with
  | waits => cases left
  | noMap reply refused | refused reply _ _ refused =>
    exact absurd (congrArg Prod.fst (Option.some.inj left)) refused
  | exits reply given ran status =>
    cases left
    have offsets := fits _ _ _ List.mem_cons_self given
    obtain ⟨rfl, -⟩ := exitBootFunc_of_exec ran
    exact ⟨reply, _, given, ⟨[], _, _, _, rfl, by simp [Call.isGetMap]⟩,
      exitBootFunc_processed offsets ran⟩

/-- When boot services are left, the map that was read last has been processed. -/
theorem ExitRun.processed {handle : UInt64}
    {outcome : Option (EfiStatus × ExitBootStruct Blob)}
    (run : ExitRun globals handle priv (exitBootFunc lib globals) events outcome)
    (fits : FitInt events) (left : outcome = some (efiSuccess, final)) :
    LeavesProcessed globals.efiNovamap events final := by
  cases run with
  | unimplemented | waits => cases left
  | noMap got => exact absurd (congrArg Prod.fst (Option.some.inj left)) got.failed
  | refused got ran refused freed => exact absurd (congrArg Prod.fst (Option.some.inj left)) refused
  | exits got ran exit =>
    obtain ⟨rfl, -⟩ := exitBootFunc_of_exec ran
    cases exit with
    | decided status =>
      cases left
      cases got with
      | read tmp pool reply granted given =>
        have offsets := fits tmp.askedSize (pool.value + efiBootMemmapSize) reply
          (by simp [readMapEvents]) given
        have read : ReadsLast (readMapEvents tmp pool reply) reply :=
          ⟨sizedMap tmp pool ++
              [⟨.installConfigurationTable linuxEfiBootMemmapGuid pool.value, efiSuccess⟩],
            tmp.askedSize, pool.value + efiBootMemmapSize, [], by simp [readMapEvents], by simp⟩
        refine ⟨reply, _, given, ?_, exitBootFunc_processed offsets ran⟩
        exact read.between [] (by simp [beforeExit, Call.isGetMap])
    | retried retry =>
      rename_i first m map map' priv' again
      have split : first ++ ⟨.print ("[DEBUG]: " ++ "before priv_func\n") [], ()⟩ ::
          ⟨.reach (.privFunc map), ()⟩ :: ([] ++ (beforeExit globals handle map'.mapKey ++
            ⟨.exitBootServices handle map'.mapKey, efiInvalidParameter⟩ :: again)) =
          (first ++ ⟨.print ("[DEBUG]: " ++ "before priv_func\n") [], ()⟩ ::
            ⟨.reach (.privFunc map), ()⟩ :: (beforeExit globals handle map'.mapKey ++
              [⟨.exitBootServices handle map'.mapKey, efiInvalidParameter⟩])) ++ (again ++ []) := by
        simp
      rw [split] at fits ⊢
      obtain ⟨reply, buffSize, given, read, processed⟩ := retry.processed fits.part left
      exact ⟨reply, buffSize, given, read.between _ (by simp), processed⟩

/-- The map is the last one that was read, but for the virtual starts of its runtime descriptors. -/
def IsLastMap (events : List Event) (map : EfiBootMemmap) : Prop :=
  ∃ reply, reply.status = efiSuccess ∧ ReadsLast events reply ∧ map.mapSize = reply.mapSize ∧
    map.descSize = reply.descSize ∧ map.descVer = reply.descVer ∧ map.mapKey = reply.mapKey ∧
    List.Forall₂ Remapped reply.map map.map

/-- What the map says of virtual addresses agrees with what the firmware was told: the runtime
descriptors are those it was given, or none is mapped when it refused them. -/
def AgreesWithFirmware (events : List Event) (count : Int32) (map : EfiBootMemmap) : Prop :=
  ∃ before mapSize descVer entries status,
    events = before ++ [⟨.setVirtualAddressMap mapSize map.descSize descVer entries, status⟩] ∧
      entries.length = count.toInt ∧ mapSize.toNat = entries.length * map.descSize.toNat ∧
      (status = efiSuccess → runtime map.map = entries) ∧
      (status ≠ efiSuccess → ∀ entry ∈ runtime map.map, entry.virtualStart = 0xFFFFFFFFFFFFFFFF)

/-- The map handed over is the last one read, and agrees with what the firmware was told of it. -/
def MapHandedOver (novamap : Bool) (events : List Event) (final : ExitBootStruct Blob) : Prop :=
  ∃ map, final.bootMemmap = some map ∧ IsLastMap events map ∧
    (novamap = true → ∀ entry ∈ runtime map.map, entry.virtualStart = entry.physicalStart) ∧
    (novamap = false → AgreesWithFirmware events final.runtimeEntryCount map)

/-- The firmware gives maps of whole descriptors, and names the same size of them in every answer. -/
structure GivesMaps (descSize : UInt64) (events : List Event) : Prop where
  /-- Every answer names the same size. -/
  same : ∀ size buffer reply, (⟨.getMemoryMap size buffer, reply⟩ : Event) ∈ events →
    reply.descSize = descSize
  /-- A descriptor has at least the fields of the C structure. -/
  fields : 40 ≤ descSize.toNat
  /-- A map that is given consists of its descriptors. -/
  whole : ∀ size buffer reply, (⟨.getMemoryMap size buffer, reply⟩ : Event) ∈ events →
    reply.status = efiSuccess → reply.mapSize.toNat = reply.map.length * descSize.toNat ∧
      ∀ entry ∈ reply.map, entry.rest.length + 40 = descSize.toNat

/-- Every descriptor of a map that is given starts below byte 2^31, and the map ends below byte
2^32. -/
def MapsInReach (events : List Event) : Prop :=
  ∀ size buffer reply, (⟨.getMemoryMap size buffer, reply⟩ : Event) ∈ events →
    reply.status = efiSuccess → reply.mapSize.toNat < 2 ^ 32 ∧
      ∀ i < reply.map.length, i * reply.descSize.toNat < 2 ^ 31

/-- Maps of whole descriptors in reach fit the `int` offsets. -/
theorem GivesMaps.fitInt {descSize : UInt64} (gives : GivesMaps descSize events)
    (reach : MapsInReach events) : FitInt events := by
  intro size buffer reply member given
  have same := gives.same size buffer reply member
  obtain ⟨whole, -⟩ := gives.whole size buffer reply member given
  obtain ⟨small, starts⟩ := reach size buffer reply member given
  have fields := gives.fields
  exact ⟨by rw [whole, same], by rw [same]; omega, starts, small⟩

/-- A map within reach of the offsets has fewer than 2^31 descriptors. -/
theorem IntOffsets.count {count : Nat} {mapSize descSize : UInt64}
    (fits : IntOffsets count mapSize descSize) (fields : 40 ≤ descSize.toNat) :
    count < 2 ^ 31 := by
  have size := fits.size
  rw [fits.whole] at size
  have unit : count * 40 ≤ count * descSize.toNat := Nat.mul_le_mul_left _ fields
  omega

/-- What is left by the callback is the last map. -/
theorem Processed.isLastMap {novamap : Bool} {buffSize : UInt64} {left : EfiBootMemmap}
    (processed : Processed novamap (reply.memmap buffSize) priv) (given : reply.status = efiSuccess)
    (read : ReadsLast events reply) (memmap : priv.bootMemmap = some left) :
    IsLastMap events left := by
  rw [processed.memmap] at memmap
  obtain rfl := Option.some.inj memmap
  exact ⟨reply, given, read, rfl, rfl, rfl, rfl, sweep_forall₂ virtmapEntry_remapped _⟩

/-- The map after a refused `SetVirtualAddressMap`. -/
def unmapped (map : EfiBootMemmap) : EfiBootMemmap :=
  { map with map := (sweep unmapEntry map.map ()).1 }

/-- The ways in which `installVirtmap` returns. -/
theorem installVirtmap_returns {buffer : VirtmapBuffer} {memmap : EfiBootMemmap}
    (left : priv.bootMemmap = some memmap)
    (fits : IntOffsets memmap.map.length memmap.mapSize memmap.descSize)
    (run : Exec (installVirtmap globals buffer priv) events (some (.ok final))) :
    globals.efiNovamap = true ∧ events = [] ∧ final = priv ∨
      globals.efiNovamap = false ∧ ∃ status,
        events = [⟨.setVirtualAddressMap (ofInt priv.runtimeEntryCount * buffer.descSize)
          buffer.descSize buffer.descVer priv.runtimeEntries, status⟩] ∧
        (status = efiSuccess ∧ final = priv ∨
          status ≠ efiSuccess ∧ final = { priv with bootMemmap := some (unmapped memmap) }) := by
  simp only [installVirtmap, perform_bind, exec_call, exec_ite, pure_eq_ret, exec_ret,
    beq_iff_eq, left, forEachDescriptor_eq fits] at run
  rcases run with ⟨novamap, rfl, ⟨⟩⟩ | ⟨mapped, status, _, rfl, run⟩
  · exact .inl ⟨novamap, rfl, rfl⟩
  rw [Bool.not_eq_true] at mapped
  rcases run with ⟨accepted, rfl, ⟨⟩⟩ | ⟨refused, rfl, ⟨⟩⟩
  · exact .inr ⟨mapped, status, rfl, .inl ⟨accepted, rfl⟩⟩
  · exact .inr ⟨mapped, status, rfl, .inr ⟨refused, rfl⟩⟩

/-- Maps that are remapped one after the other are remapped. -/
theorem forall₂_remapped_trans {first second third : List EfiMemoryDescriptor}
    (one : List.Forall₂ Remapped first second) (two : List.Forall₂ Remapped second third) :
    List.Forall₂ Remapped first third := by
  induction one generalizing third with
  | nil => exact two
  | cons head tail ih =>
    cases two with
    | cons next rest => exact List.Forall₂.cons (remapped_trans head next) (ih rest)

/-- The last map of a trace is the last one with its addresses taken out. -/
theorem IsLastMap.unmapped {memmap : EfiBootMemmap} (last : IsLastMap events memmap) :
    IsLastMap events (unmapped memmap) := by
  obtain ⟨reply, given, read, mapSize, descSize, descVer, mapKey, entries⟩ := last
  refine ⟨reply, given, read, mapSize, descSize, descVer, mapKey, ?_⟩
  exact forall₂_remapped_trans entries (sweep_forall₂ (fun entry s => (unmapEntry_spec entry s).1) _)

/-- Calls behind the last map, and before it, do not matter. -/
theorem IsLastMap.between {memmap : EfiBootMemmap} (last : IsLastMap events memmap)
    (quiet : Lacks Call.isGetMap later) : IsLastMap (first ++ (events ++ later)) memmap := by
  obtain ⟨reply, given, read, same⟩ := last
  exact ⟨reply, given, read.between first quiet, same⟩

/-- The runtime map and its size, as `SetVirtualAddressMap` is given them. -/
theorem Processed.told {buffSize : UInt64} {left : EfiBootMemmap}
    (processed : Processed false (reply.memmap buffSize) priv)
    (fits : IntOffsets reply.map.length reply.mapSize reply.descSize)
    (fields : 40 ≤ reply.descSize.toNat) (memmap : priv.bootMemmap = some left) :
    runtime left.map = priv.runtimeEntries ∧
      priv.runtimeEntries.length = priv.runtimeEntryCount.toInt ∧
      (ofInt priv.runtimeEntryCount * left.descSize).toNat =
        priv.runtimeEntries.length * left.descSize.toNat := by
  have copies : (sweep (virtmapEntry false) reply.map ⟨[], 0, efiRtVirtualBase⟩).2.runtimeMap =
      runtime (sweep (virtmapEntry false) reply.map ⟨[], 0, efiRtVirtualBase⟩).1 :=
    sweep_runtimeMap reply.map _
  have counted : CountsCopies (sweep (virtmapEntry false) reply.map ⟨[], 0, efiRtVirtualBase⟩).2 :=
    sweep_counted reply.map rfl
  rw [processed.memmap] at memmap
  obtain rfl := Option.some.inj memmap
  have entries : priv.runtimeEntries =
      runtime (sweep (virtmapEntry false) reply.map ⟨[], 0, efiRtVirtualBase⟩).1 :=
    processed.entries.trans copies
  have count : priv.runtimeEntryCount = toInt (UInt64.ofNat priv.runtimeEntries.length) := by
    rw [processed.entries]
    exact processed.count.trans counted
  have few : priv.runtimeEntries.length ≤ reply.map.length := by
    have filtered := List.length_filter_le EfiMemoryDescriptor.isRuntime
      (sweep (virtmapEntry false) reply.map ⟨[], 0, efiRtVirtualBase⟩).1
    rw [sweep_length] at filtered
    rw [entries]
    exact filtered
  have all := fits.count fields
  have word : (UInt64.ofNat priv.runtimeEntries.length).toNat = priv.runtimeEntries.length := by
    rw [UInt64.toNat_ofNat', Nat.mod_eq_of_lt (by omega)]
  have small : (UInt64.ofNat priv.runtimeEntries.length).toNat < 2 ^ 31 := by omega
  refine ⟨entries.symm, ?_, ?_⟩
  · rw [count, toInt_toInt small, word]
  · have room : priv.runtimeEntries.length * reply.descSize.toNat < 2 ^ 64 := by
      have size := fits.size
      rw [fits.whole] at size
      have part := Nat.mul_le_mul_right reply.descSize.toNat few
      omega
    rw [count, ofInt_toInt small]
    change (UInt64.ofNat priv.runtimeEntries.length * reply.descSize).toNat = _
    rw [UInt64.toNat_mul, word, Nat.mod_eq_of_lt room]
    rfl

/-- What follows an accepted exit hands over the map that was processed. -/
theorem installed_handedOver {buffer : VirtmapBuffer} {buffSize : UInt64} {install : List Event}
    (processed : Processed globals.efiNovamap (reply.memmap buffSize) priv)
    (given : reply.status = efiSuccess) (read : ReadsLast events reply)
    (fits : IntOffsets reply.map.length reply.mapSize reply.descSize)
    (fields : 40 ≤ reply.descSize.toNat)
    (same : globals.efiNovamap = false → buffer.descSize = reply.descSize)
    (run : Exec (installVirtmap globals buffer priv) install (some (.ok final))) :
    MapHandedOver globals.efiNovamap (first ++ (events ++ install)) final := by
  have memmap := processed.memmap
  generalize found : ({ reply.memmap buffSize with
    map := (sweep (virtmapEntry globals.efiNovamap) (reply.memmap buffSize).map
      ⟨[], 0, efiRtVirtualBase⟩).1 } : EfiBootMemmap) = left at memmap
  have last : IsLastMap events left := processed.isLastMap given read memmap
  have offsets : IntOffsets left.map.length left.mapSize left.descSize := by
    rw [← found]
    change IntOffsets (sweep _ reply.map _).1.length reply.mapSize reply.descSize
    rw [sweep_length]
    exact fits
  obtain ⟨novamap, rfl, rfl⟩ | ⟨mapped, status, rfl, ending⟩ :=
    installVirtmap_returns memmap offsets run
  · refine ⟨left, memmap, last.between (by simp), fun _ => ?_, fun unset => ?_⟩
    · rw [← found, novamap]
      intro entry member
      obtain ⟨member, kind⟩ := List.mem_filter.mp member
      exact sweep_forall (fun entry => entry.isRuntime = true →
        entry.virtualStart = entry.physicalStart) virtmapEntry_novamap _ entry member kind
    · rw [novamap] at unset
      cases unset
  · rw [mapped] at processed
    obtain ⟨entries, counted, size⟩ := processed.told fits fields memmap
    have descSize : buffer.descSize = left.descSize := by
      rw [same mapped, ← found]
      rfl
    have quiet : Lacks Call.isGetMap
        [(⟨.setVirtualAddressMap (ofInt priv.runtimeEntryCount * buffer.descSize) buffer.descSize
          buffer.descVer priv.runtimeEntries, status⟩ : Event)] := by simp [Call.isGetMap]
    rw [descSize] at quiet ⊢
    rcases ending with ⟨accepted, rfl⟩ | ⟨refused, rfl⟩
    · refine ⟨left, memmap, last.between quiet, fun set => ?_, fun _ => ?_⟩
      · rw [mapped] at set
        cases set
      · exact ⟨first ++ events, _, _, _, status, by rw [List.append_assoc], counted, size,
          fun _ => entries, fun refused => absurd accepted refused⟩
    · refine ⟨unmapped left, rfl, last.unmapped.between quiet, fun set => ?_, fun _ => ?_⟩
      · rw [mapped] at set
        cases set
      · refine ⟨first ++ events, _, _, _, status, by rw [List.append_assoc]; rfl, counted, size,
          fun accepted => absurd accepted refused, fun _ entry member => ?_⟩
        obtain ⟨member, kind⟩ := List.mem_filter.mp member
        exact sweep_forall (fun entry => entry.isRuntime = true →
          entry.virtualStart = 0xFFFFFFFFFFFFFFFF) (fun entry s => (unmapEntry_spec entry s).2) _
          entry member kind

/-- A handover that returns a tree has left boot services and hands over the last map. -/
theorem TreeRun.handedOver {handle fdtAddr fdtSize descSize : UInt64} {buffer : VirtmapBuffer}
    {outcome : Option (Except EfiStatus (ExitBootStruct Blob))}
    (first : List Event) (run : TreeRun lib globals handle buffer fdtAddr fdtSize events outcome)
    (returned : outcome = some (.ok final)) (gives : GivesMaps descSize (first ++ events))
    (reach : MapsInReach (first ++ events))
    (same : globals.efiNovamap = false → buffer.descSize = descSize) :
    MapHandedOver globals.efiNovamap (first ++ events) final := by
  cases run with
  | waits => cases returned
  | noPages _ _ _ _ _ clean =>
    obtain ⟨_, _, -, failed⟩ := cleanFail_of_exec clean
    rw [returned] at failed
    cases failed
  | noTree _ _ _ _ _ clean | failed _ _ _ _ _ _ _ clean =>
    obtain ⟨_, _, _, -, failed⟩ := cleanFailFreeNewFdt_of_exec clean
    rw [returned] at failed
    cases failed
  | @left address pages prints exit install priv priv' _ granted printed ran installed =>
    rw [returned] at installed
    have split : first ++ ⟨newFdtRequest address, pages⟩ :: (prints ++ (exit ++ install)) =
        (first ++ ⟨newFdtRequest address, pages⟩ :: prints) ++ (exit ++ install) := by simp
    rw [split] at gives reach ⊢
    obtain ⟨reply, buffSize, given, read, processed⟩ :=
      ran.processed (gives.fitInt reach).part rfl
    obtain ⟨before, size, place, later, rfl, none⟩ := read
    have member : (⟨.getMemoryMap size place, reply⟩ : Event) ∈
        first ++ ⟨newFdtRequest address, pages⟩ :: prints ++
          (before ++ ⟨.getMemoryMap size place, reply⟩ :: later ++ install) := by simp
    have named := gives.same _ _ _ member
    have fields := gives.fields
    rw [← named] at fields same
    exact installed_handedOver processed given ⟨before, size, place, later, rfl, none⟩
      (gives.fitInt reach _ _ _ member given) fields same installed

/-- A body that returns hands the last map over. -/
theorem BodyRun.handedOver {handle descSize : UInt64} {buffer : VirtmapBuffer}
    {outcome : Option (Except EfiStatus (ExitBootStruct Blob))}
    (first : List Event) (run : BodyRun lib fdtAt globals handle buffer events outcome)
    (returned : outcome = some (.ok final)) (gives : GivesMaps descSize (first ++ events))
    (reach : MapsInReach (first ++ events))
    (same : globals.efiNovamap = false → buffer.descSize = descSize) :
    MapHandedOver globals.efiNovamap (first ++ events) final := by
  cases run with
  | @chosen before prints later tables _ asked printed noTables run =>
    have split : first ++ (before ++ ⟨.configurationTable, tables⟩ :: (prints ++ later)) =
        (first ++ (before ++ ⟨.configurationTable, tables⟩ :: prints)) ++ later := by simp
    rw [split] at gives reach ⊢
    exact run.handedOver _ returned gives reach same

/-- When `allocate_new_fdt_and_exit_boot` succeeds on a firmware whose maps the `int` offsets reach,
it hands over the last map that was read. With `efi_novamap` every runtime descriptor is mapped to
itself; otherwise they are the descriptors `SetVirtualAddressMap` accepted, or unmapped when it
refused them. Nothing else of the map has changed. -/
theorem handover_map_agrees {handle descSize : UInt64} {cmdline : List UInt8}
    (gives : GivesMaps descSize events) (reach : MapsInReach events)
    (run : Exec (allocateNewFdtAndExitBoot lib fdtAt globals handle cmdline) events
      (some (.ok final))) : MapHandedOver globals.efiNovamap events final := by
  have shape := handoverRun_of_exec run
  generalize returned : some (Except.ok final) = outcome at shape
  cases shape with
  | noBuffer => cases returned
  | novamap set run =>
    have same : globals.efiNovamap = false → (⟨0, 0, 0⟩ : VirtmapBuffer).descSize = descSize := by
      intro unset
      rw [set] at unset
      cases unset
    exact run.handedOver [] returned.symm gives reach same
  | @buffered before later buffer _ unset map run =>
    cases map with
    | granted tmp pool granted =>
      exact run.handedOver _ returned.symm gives reach fun _ => gives.same 0 0 tmp (by simp)

/-- A firmware with one map, without configuration tables, that agrees to exit when it is asked a
second time. -/
def mapFirmware (descSize : UInt64) (map : List EfiMemoryDescriptor) (past : List Event) :
    (call : Call) → Option call.Reply
  | .getMemoryMap size _ =>
    some ⟨if size = 0 then efiBufferTooSmall else efiSuccess,
      descSize * UInt64.ofNat map.length, 7, descSize, 1, map⟩
  | .exitBootServices .. => some (if exitCalls past = 0 then efiInvalidParameter else efiSuccess)
  | other => plainFirmware [] efiSuccess efiSuccess past other

/-- That firmware gives whole descriptors. -/
theorem mapFirmware_givesMaps {descSize : UInt64} (fields : 40 ≤ descSize.toNat)
    (whole : (descSize * UInt64.ofNat map.length).toNat = map.length * descSize.toNat)
    (filled : ∀ entry ∈ map, entry.rest.length + 40 = descSize.toNat) {α : Type} (p : Stub α) :
    GivesMaps descSize (p.eventsWith (mapFirmware descSize map)) := by
  have answered {size buffer : UInt64} {reply : MemoryMapReply}
      (member : (⟨.getMemoryMap size buffer, reply⟩ : Event) ∈
        p.eventsWith (mapFirmware descSize map)) : ∃ status,
      reply = ⟨status, descSize * UInt64.ofNat map.length, 7, descSize, 1, map⟩ := by
    obtain ⟨past, answer⟩ := answered_eventsWith _ member
    exact ⟨_, (Option.some.inj answer).symm⟩
  refine ⟨fun size buffer reply member => ?_, fields, fun size buffer reply member given => ?_⟩
  · obtain ⟨status, rfl⟩ := answered member
    rfl
  · obtain ⟨status, rfl⟩ := answered member
    exact ⟨whole, filled⟩

/-- The handover to a plain libfdt on a firmware with one map. -/
def mapHandover (novamap : Bool) : Stub (Except EfiStatus (ExitBootStruct Unit)) :=
  allocateNewFdtAndExitBoot plainLibfdt (fun _ => ()) { plainGlobals with efiNovamap := novamap } 1 []

/-- The descriptors that are handed over. -/
def handedMap (result : Except EfiStatus (ExitBootStruct Unit)) : List EfiMemoryDescriptor :=
  match result with
  | .ok final => final.bootMemmap.elim [] EfiBootMemmap.map
  | .error _ => []

/-- A mixed map, with the runtime map in use. -/
theorem handover_map_agrees_retried : ∃ final,
    (mapHandover false).valueWith (mapFirmware 40 mixedMap) = some (.ok final) ∧
      MapHandedOver false ((mapHandover false).eventsWith (mapFirmware 40 mixedMap)) final := by
  have starts : ((mapHandover false).valueWith (mapFirmware 40 mixedMap)).map (fun result =>
      (handedMap result).map EfiMemoryDescriptor.virtualStart) =
      some [0x20003000, 0, 0x20200000] := by decide +kernel
  obtain ⟨result, value, handed⟩ := Option.map_eq_some_iff.mp starts
  cases result with
  | error status => cases handed
  | ok final =>
    have gives : GivesMaps 40 ((mapHandover false).eventsWith (mapFirmware 40 mixedMap)) :=
      mapFirmware_givesMaps (by decide) (by decide) (by decide) _
    have reach : MapsInReach ((mapHandover false).eventsWith (mapFirmware 40 mixedMap)) := by
      intro size buffer reply member given
      obtain ⟨past, answer⟩ := answered_eventsWith _ member
      obtain rfl := Option.some.inj answer
      change (40 * UInt64.ofNat mixedMap.length).toNat < 2 ^ 32 ∧
        ∀ i < mixedMap.length, i * (40 : UInt64).toNat < 2 ^ 31
      decide
    have run := exec_eventsWith (Option.isSome_iff_exists.mpr ⟨_, value⟩)
    rw [value] at run
    exact ⟨final, value, handover_map_agrees gives reach run⟩

/-- Three runtime descriptors of one page in a map with descriptors of 1 GiB. -/
def hugeMap : List EfiMemoryDescriptor :=
  [0x1000, 0x2000, 0x3000].map fun physicalStart =>
    { pageOfServices physicalStart with rest := List.replicate (2 ^ 30 - 40) 0 }

/-- The third descriptor of 1 GiB is out of reach: it is handed over without a virtual start. -/
theorem handover_map_out_of_reach : ¬∀ novamap descSize events final,
    GivesMaps descSize events → Exec (mapHandover novamap) events (some (.ok final)) →
      MapHandedOver novamap events final := by
  intro claim
  have astray : ((mapHandover true).valueWith (mapFirmware (2 ^ 30) hugeMap)).map (fun result =>
      (runtime (handedMap result)).all fun entry => entry.virtualStart == entry.physicalStart) =
      some false := by decide +kernel
  have gives : GivesMaps (2 ^ 30) ((mapHandover true).eventsWith (mapFirmware (2 ^ 30) hugeMap)) := by
    refine mapFirmware_givesMaps (by decide) (by decide) (fun entry member => ?_) _
    obtain ⟨start, -, rfl⟩ := List.mem_map.mp member
    change (List.replicate (2 ^ 30 - 40) (0 : UInt8)).length + 40 = 2 ^ 30
    rw [List.length_replicate]
    rfl
  obtain ⟨result, handed, run⟩ := exec_of_seen astray
  cases result with
  | error status => cases handed
  | ok final =>
    obtain ⟨map, left, -, itself, -⟩ := claim true _ _ _ gives run
    have handedOver : handedMap (.ok final) = map.map := by
      simp only [handedMap, left, Option.elim_some]
    rw [handedOver, List.all_eq_false] at handed
    obtain ⟨entry, member, moved⟩ := handed
    exact moved (beq_iff_eq.mpr (itself rfl entry member))

end DragonStub

import DragonStub.Boot.Handover
import DragonStub.Verif.ExitBoot

/-!
# Runs of the handover

What the parts of `allocate_new_fdt_and_exit_boot` do on every run, and the shapes a whole run can
have. Each shape names the parts it went through, so a property of runs is proved part by part.
-/

namespace DragonStub

open Interaction Prog

variable {Blob : Type} {lib : Libfdt Blob} {fdtAt : UInt64 → Blob} {globals : Globals}
  {events : List Event}

/-- Console output and queries of variables. -/
def Call.isQuery : Call → Bool
  | .print .. | .getVariable .. => true
  | _ => false

/-- The device tree of the firmware and its size, as `get_fdt` takes them from the tables. -/
def firmwareFdt (lib : Libfdt Blob) (fdtAt : UInt64 → Blob) (tables : List (EfiGuid × UInt64)) :
    UInt64 × UInt64 :=
  let fdt := efiConfigTable deviceTreeGuid tables
  if fdt = 0 ∨ lib.checkHeader (fdtAt fdt) ≠ 0 then (0, 0)
  else (fdt, (lib.totalsize (fdtAt fdt)).toUInt64)

/-- `get_fdt` reads the tables and reports; it never fails. -/
theorem getFdt_of_exec {outcome : Option (UInt64 × UInt64)}
    (run : Exec (getFdt lib fdtAt) events outcome) : ∃ tables prints,
      events = ⟨.configurationTable, tables⟩ :: prints ∧
      (∀ event ∈ prints, event.op.isConsole = true) ∧
      outcome = some (firmwareFdt lib fdtAt tables) := by
  simp only [getFdt, getEfiConfigTable, efiErr, efiPrintk, perform_bind, call_bind, ret_bind,
    exec_call, exec_ite, pure_eq_ret, exec_ret, beq_iff_eq, bne_iff_ne] at run
  obtain ⟨tables, _, rfl, run⟩ := run
  refine ⟨tables, ?_⟩
  unfold firmwareFdt
  rcases run with ⟨none, rfl, rfl⟩ | ⟨found, ⟨invalid, -, _, rfl, rfl, rfl⟩ | ⟨valid, rfl, rfl⟩⟩
  · exact ⟨[], rfl, by simp, by simp [none]⟩
  · exact ⟨_, rfl, by simp [Call.isConsole], by simp [invalid]⟩
  · exact ⟨[], rfl, by simp, by simp [found, valid]⟩

/-- Every query is answered. -/
theorem Call.isQuery.answered {call : Call} (query : call.isQuery = true) :
    Nonempty call.Reply := by
  cases call with
  | print | getVariable => infer_instance
  | _ => cases query

/-- A call of the console is a query. -/
theorem Call.isQuery_of_isConsole {call : Call} (console : call.isConsole = true) :
    call.isQuery = true := by
  cases call with
  | print => rfl
  | _ => cases console

/-- Reading the secure boot mode makes queries alone. -/
theorem secureboot_queries : Calls (fun call => call.isQuery = true) efiGetSecureboot := by
  have mode : Calls (fun call => call.isQuery = true) efiGetSecurebootMode :=
    ⟨rfl, fun _ => calls_ite trivial (calls_ite trivial ⟨rfl, fun _ =>
      calls_ite trivial trivial⟩)⟩
  refine Calls.bind mode fun mode => calls_ite ⟨rfl, fun _ => trivial⟩ (calls_ite trivial ?_)
  exact ⟨rfl, fun _ => calls_ite trivial ⟨rfl, fun _ => trivial⟩⟩

/-- Until the tables are read, the handover only queries variables and prints. -/
theorem considerDtb_queries (cmdline : List UInt8) :
    Calls (fun call => call.isQuery = true) (considerDtb cmdline) := by
  refine Calls.bind secureboot_queries fun mode => Calls.bind ?_ fun _ => ?_
  · cases mode <;> exact ⟨rfl, fun _ => trivial⟩
  · simp only [pure_bind, configEfiArmstubDtbLoader, Bool.not_true, Bool.not_false,
      Bool.false_eq_true, if_false, if_true]
    exact calls_ite ⟨rfl, fun _ => trivial⟩ trivial

/-- The choice of the device tree queries and prints, reads the tables once, and returns. -/
theorem chooseFdt_of_exec {cmdline : List UInt8} {outcome : Option (UInt64 × UInt64)}
    (run : Exec (chooseFdt lib fdtAt cmdline) events outcome) : ∃ before tables prints,
      events = before ++ ⟨.configurationTable, tables⟩ :: prints ∧
      (∀ event ∈ before, event.op.isQuery = true) ∧
      (∀ event ∈ prints, event.op.isConsole = true) ∧
      outcome = some (firmwareFdt lib fdtAt tables) := by
  have queries := considerDtb_queries cmdline
  rcases exec_bind.mp run with ⟨_, before, _, rfl, considered, run⟩ | ⟨-, waits⟩
  swap
  · obtain ⟨_, ⟨⟩⟩ := queries.returns (fun _ => Call.isQuery.answered) waits
  have asked := queries.events considered
  rcases exec_bind.mp run with ⟨chosen, _, _, rfl, found, run⟩ | ⟨-, waits⟩
  swap
  · obtain ⟨_, _, -, -, ⟨⟩⟩ := getFdt_of_exec waits
  obtain ⟨tables, prints, rfl, printed, ⟨⟩⟩ := getFdt_of_exec found
  simp only [efiInfo, efiPrintk, perform_bind, exec_call, exec_ite, pure_eq_ret, exec_ret] at run
  rcases run with ⟨-, -, _, rfl, rfl, rfl⟩ | ⟨-, -, _, rfl, rfl, rfl⟩
  all_goals
    refine ⟨before, tables, _, by rw [List.cons_append], asked, ?_, rfl⟩
    intro event member
    rcases List.mem_append.mp member with member | member
    · exact printed event member
    · rw [List.mem_singleton.mp member]
      rfl

/-- `update_fdt` only prints, and returns. -/
theorem updateFdt_prints (origFdt origFdtSize : UInt64) (fdt : Blob)
    (cmdline : Option (List UInt8)) : Calls (fun call => call.isConsole = true)
      (updateFdt lib globals fdtAt origFdt origFdtSize fdt cmdline) := by
  refine calls_ite ⟨rfl, fun _ => trivial⟩ (calls_ite ⟨rfl, fun _ => trivial⟩ ?_)
  split <;> exact trivial

/-- A call of the console is answered. -/
theorem Call.isConsole.answered {call : Call} (console : call.isConsole = true) :
    Nonempty call.Reply :=
  Call.isQuery.answered (Call.isQuery_of_isConsole console)

/-- `exit_boot_func` asks nothing, and keeps the key when it returns. -/
theorem exitBootFunc_of_exec {m : UInt64} {map : EfiBootMemmap} {p : ExitBootStruct Blob}
    {outcome : Option (EfiStatus × EfiBootMemmap × ExitBootStruct Blob)}
    (run : Exec (exitBootFunc lib globals m map p) events outcome) :
    events = [] ∧ ∀ result, outcome = some result → result.2.1.mapKey = map.mapKey := by
  unfold exitBootFunc at run
  split at run
  · obtain ⟨rfl, rfl⟩ := exec_never.mp run
    exact ⟨rfl, nofun⟩
  · obtain ⟨rfl, rfl⟩ := exec_ret.mp run
    refine ⟨rfl, ?_⟩
    rintro _ ⟨⟩
    rfl

/-- The runs of `efi_alloc_virtmap`. -/
inductive VirtmapRun : List Event → Except EfiStatus VirtmapBuffer → Prop where
  /-- The firmware does not say how large the map is. -/
  | unsized (tmp : MemoryMapReply) (refused : tmp.status ≠ efiBufferTooSmall) :
      VirtmapRun [⟨.getMemoryMap 0 0, tmp⟩] (.error efiLoadError)
  /-- There is no buffer. -/
  | noPool (tmp : MemoryMapReply) (pool : WordReply) (refused : pool.status ≠ efiSuccess) :
      VirtmapRun [⟨.getMemoryMap 0 0, tmp⟩, ⟨.allocatePool efiLoaderData tmp.mapSize, pool⟩]
        (.error pool.status)
  /-- The buffer is there. -/
  | granted (tmp : MemoryMapReply) (pool : WordReply) (granted : pool.status = efiSuccess) :
      VirtmapRun [⟨.getMemoryMap 0 0, tmp⟩, ⟨.allocatePool efiLoaderData tmp.mapSize, pool⟩]
        (.ok ⟨pool.value, tmp.descSize, tmp.descVer⟩)

/-- Every run that allocates the runtime map is one of its runs case by case, and returns. -/
theorem virtmapRun_of_exec {outcome : Option (Except EfiStatus VirtmapBuffer)}
    (run : Exec efiAllocVirtmap events outcome) :
    ∃ result, outcome = some result ∧ VirtmapRun events result := by
  simp only [efiAllocVirtmap, perform_bind, exec_call, exec_ite, pure_eq_ret, exec_ret, bne_iff_ne,
    not_not] at run
  obtain ⟨tmp, _, rfl, ⟨refused, rfl, rfl⟩ | ⟨-, pool, _, rfl, run⟩⟩ := run
  · exact ⟨_, rfl, .unsized tmp refused⟩
  rcases run with ⟨refused, rfl, rfl⟩ | ⟨granted, rfl, rfl⟩
  · exact ⟨_, rfl, .noPool tmp pool refused⟩
  · exact ⟨_, rfl, .granted tmp pool granted⟩

/-- `efi_allocate_pages` makes one call and hands on its answer. -/
theorem efiAllocatePages_of_exec {size max : UInt64} {outcome : Option (Except EfiStatus UInt64)}
    (run : Exec (efiAllocatePages size max) events outcome) : ∃ address reply,
      events = [⟨.allocatePages efiAllocateMaxAddress efiLoaderData (divRoundUp size efiPageSize)
        address, reply⟩] ∧
      (reply.status ≠ efiSuccess ∧ outcome = some (.error reply.status) ∨
        reply.status = efiSuccess ∧ outcome = some (.ok reply.value)) := by
  simp only [efiAllocatePages, perform_bind, exec_call, exec_ite, pure_eq_ret, exec_ret, bne_iff_ne,
    not_not] at run
  obtain ⟨reply, _, rfl, ⟨refused, rfl, rfl⟩ | ⟨granted, rfl, rfl⟩⟩ := run
  · exact ⟨_, reply, rfl, .inl ⟨refused, rfl⟩⟩
  · exact ⟨_, reply, rfl, .inr ⟨granted, rfl⟩⟩

/-- The events of `efi_free`, given the answer of the firmware. -/
def freeEvents (size addr : UInt64) (status : EfiStatus) : List Event :=
  if size = 0 then [] else
    [⟨.freePages addr (roundUp size efiAllocAlign / efiPageSize), status⟩]

/-- Every run of `efi_free` frees the pages of the size, where there are any, and returns. -/
theorem efiFree_of_exec {size addr : UInt64} {outcome : Option Unit}
    (run : Exec (efiFree size addr) events outcome) :
    ∃ status, events = freeEvents size addr status ∧ outcome = some () := by
  simp only [efiFree, perform_bind, exec_call, exec_ite, pure_eq_ret, exec_ret, beq_iff_eq] at run
  unfold freeEvents
  rcases run with ⟨zero, rfl, rfl⟩ | ⟨some, status, _, rfl, rfl, rfl⟩
  · exact ⟨efiSuccess, by simp [zero], rfl⟩
  · exact ⟨status, by simp [some], rfl⟩

/-- The label `fail` frees the chosen tree and the runtime map. -/
theorem cleanFail_of_exec {fdtAddr fdtSize runtimeMap : UInt64}
    {outcome : Option (Except EfiStatus (ExitBootStruct Blob))}
    (run : Exec (cleanFail fdtAddr fdtSize runtimeMap) events outcome) :
    ∃ status freed, events = freeEvents fdtSize fdtAddr status ++ [⟨.freePool runtimeMap, freed⟩] ∧
      outcome = some (.error efiLoadError) := by
  rcases exec_bind.mp run with ⟨_, first, _, rfl, tree, later⟩ | ⟨-, waits⟩
  · obtain ⟨status, rfl, -⟩ := efiFree_of_exec tree
    simp only [perform_bind, exec_call, pure_eq_ret, exec_ret] at later
    obtain ⟨freed, _, rfl, rfl, rfl⟩ := later
    exact ⟨status, freed, rfl, rfl⟩
  · obtain ⟨_, -, ⟨⟩⟩ := efiFree_of_exec waits

/-- The label `fail_free_new_fdt` frees the new tree first. -/
theorem cleanFailFreeNewFdt_of_exec {newFdtAddr fdtAddr fdtSize runtimeMap : UInt64}
    {outcome : Option (Except EfiStatus (ExitBootStruct Blob))}
    (run : Exec (cleanFailFreeNewFdt newFdtAddr fdtAddr fdtSize runtimeMap) events outcome) :
    ∃ new status freed, events = freeEvents maxFdtSize newFdtAddr new ++
      (freeEvents fdtSize fdtAddr status ++ [⟨.freePool runtimeMap, freed⟩]) ∧
      outcome = some (.error efiLoadError) := by
  rcases exec_bind.mp run with ⟨_, first, _, rfl, tree, later⟩ | ⟨-, waits⟩
  · obtain ⟨new, rfl, -⟩ := efiFree_of_exec tree
    obtain ⟨status, freed, rfl, rfl⟩ := cleanFail_of_exec later
    exact ⟨new, status, freed, rfl, rfl⟩
  · obtain ⟨_, -, ⟨⟩⟩ := efiFree_of_exec waits

/-- After the exit only `SetVirtualAddressMap` is called, and no error is returned. -/
theorem installVirtmap_of_exec {buffer : VirtmapBuffer} {priv : ExitBootStruct Blob}
    {outcome : Option (Except EfiStatus (ExitBootStruct Blob))}
    (run : Exec (installVirtmap globals buffer priv) events outcome) :
    (∀ event ∈ events, ∃ mapSize descSize descVer map,
      event.op = .setVirtualAddressMap mapSize descSize descVer map) ∧
      ∀ result, outcome = some result → ∃ left, result = .ok left := by
  have install (mapSize descSize : UInt64) (descVer : UInt32) (map : List EfiMemoryDescriptor)
      (status : EfiStatus) : ∀ event ∈ ([⟨.setVirtualAddressMap mapSize descSize descVer map, status⟩] :
        List Event), ∃ mapSize descSize descVer map,
          event.op = .setVirtualAddressMap mapSize descSize descVer map := by
    intro event member
    rw [List.mem_singleton.mp member]
    exact ⟨_, _, _, _, rfl⟩
  simp only [installVirtmap, perform_bind, exec_call, exec_ite, pure_eq_ret, exec_ret,
    beq_iff_eq] at run
  rcases run with ⟨-, rfl, rfl⟩ | ⟨-, status, _, rfl, run⟩
  · exact ⟨by rintro _ ⟨⟩, by rintro _ ⟨⟩; exact ⟨_, rfl⟩⟩
  rcases run with ⟨-, rfl, rfl⟩ | ⟨-, run⟩
  · exact ⟨install _ _ _ _ _, by rintro _ ⟨⟩; exact ⟨_, rfl⟩⟩
  split at run
  · obtain ⟨rfl, rfl⟩ := exec_ret.mp run
    exact ⟨install _ _ _ _ _, by rintro _ ⟨⟩; exact ⟨_, rfl⟩⟩
  · split at run
    · obtain ⟨rfl, rfl⟩ := exec_never.mp run
      exact ⟨install _ _ _ _ _, by rintro _ ⟨⟩⟩
    · obtain ⟨rfl, rfl⟩ := exec_ret.mp run
      exact ⟨install _ _ _ _ _, by rintro _ ⟨⟩; exact ⟨_, rfl⟩⟩

/-- Whether a call reads the configuration tables. -/
def Call.isTables : Call → Bool
  | .configurationTable => true
  | _ => false

/-- A program that never reads the configuration tables. -/
abbrev ReadsNoTables {α : Type} (p : Stub α) : Prop := Calls (fun call => call.isTables = false) p

/-- The callback of the exit does not look at the configuration tables. -/
theorem exitBootFunc_readsNoTables (m : UInt64) (map : EfiBootMemmap) (p : ExitBootStruct Blob) :
    ReadsNoTables (exitBootFunc lib globals m map p) := by
  unfold ReadsNoTables exitBootFunc
  split
  · exact ⟨rfl, nofun⟩
  · exact trivial

/-- Getting the memory map does not look at the configuration tables. -/
theorem efiGetMemoryMap_readsNoTables : ReadsNoTables (efiGetMemoryMap true) := by
  have free (m : UInt64) (status : EfiStatus) : ReadsNoTables (freeMap m status) :=
    ⟨rfl, fun _ => trivial⟩
  have read (m size : UInt64) : ReadsNoTables (readMap true m size) :=
    ⟨rfl, fun reply => calls_ite ⟨rfl, fun _ => free m reply.status⟩ trivial⟩
  exact ⟨rfl, fun _ => calls_ite trivial ⟨rfl, fun pool => calls_ite trivial
    ⟨rfl, fun status => calls_ite (free pool.value status) (read pool.value _)⟩⟩⟩

/-- Exiting does not look at the configuration tables. -/
theorem efiExitBootServices_readsNoTables (handle : UInt64) (priv : ExitBootStruct Blob) :
    ReadsNoTables (efiExitBootServices globals handle priv (exitBootFunc lib globals)) := by
  have retry (m : UInt64) (map : EfiBootMemmap) (priv : ExitBootStruct Blob) :
      ReadsNoTables (retryExit handle m map priv (exitBootFunc lib globals)) :=
    ⟨rfl, fun _ => calls_ite trivial ⟨rfl, fun _ =>
      (exitBootFunc_readsNoTables ..).bind fun _ => calls_ite trivial ⟨rfl, fun _ => trivial⟩⟩⟩
  have first (m : UInt64) (map : EfiBootMemmap) (priv : ExitBootStruct Blob) :
      ReadsNoTables (firstExit globals handle m map priv (exitBootFunc lib globals)) :=
    ⟨rfl, fun _ => ⟨rfl, fun _ => ⟨rfl, fun _ => ⟨rfl, fun _ =>
      calls_ite (retry m map priv) trivial⟩⟩⟩⟩
  refine calls_ite ⟨rfl, fun _ => ⟨rfl, nofun⟩⟩ (efiGetMemoryMap_readsNoTables.bind fun got => ?_)
  cases got with
  | error status => exact trivial
  | ok filled =>
    exact ⟨rfl, fun _ => ⟨rfl, fun _ => (exitBootFunc_readsNoTables ..).bind fun _ =>
      calls_ite ⟨rfl, fun _ => trivial⟩ (first ..)⟩⟩

/-- What follows once the tree is known does not look at the configuration tables. -/
theorem handOver_readsNoTables (handle : UInt64) (cmdline : List UInt8) (buffer : VirtmapBuffer)
    (fdtAddr fdtSize : UInt64) :
    ReadsNoTables (handOver lib fdtAt globals handle cmdline buffer fdtAddr fdtSize) := by
  have free (size addr : UInt64) : ReadsNoTables (efiFree size addr) :=
    calls_ite trivial ⟨rfl, fun _ => trivial⟩
  have clean : ReadsNoTables (cleanFail fdtAddr fdtSize buffer.runtimeMap :
      Stub (Except EfiStatus (ExitBootStruct Blob))) :=
    (free ..).bind fun _ => ⟨rfl, fun _ => trivial⟩
  have install (priv : ExitBootStruct Blob) : ReadsNoTables (installVirtmap globals buffer priv) := by
    refine calls_ite trivial ⟨rfl, fun status => calls_ite trivial ?_⟩
    split
    · exact trivial
    · split
      · exact ⟨rfl, nofun⟩
      · exact trivial
  have print (origFdt origFdtSize : UInt64) (fdt : Blob) (cmdline : Option (List UInt8)) :
      ReadsNoTables (updateFdt lib globals fdtAt origFdt origFdtSize fdt cmdline) := by
    refine calls_ite ⟨rfl, fun _ => trivial⟩ (calls_ite ⟨rfl, fun _ => trivial⟩ ?_)
    split <;> exact trivial
  have pages : ReadsNoTables (efiAllocatePages maxFdtSize (-1)) :=
    ⟨rfl, fun _ => calls_ite trivial trivial⟩
  refine pages.bind fun result => ?_
  cases result with
  | error status => exact ⟨rfl, fun _ => clean⟩
  | ok newFdtAddr =>
    exact ⟨rfl, fun _ => ⟨rfl, fun _ => (print ..).bind fun _ =>
      calls_ite ⟨rfl, fun _ => (free ..).bind fun _ => clean⟩ ⟨rfl, fun _ =>
        (efiExitBootServices_readsNoTables ..).bind fun _ => calls_ite (install _)
          ⟨rfl, fun _ => (free ..).bind fun _ => clean⟩⟩⟩⟩

/-- The request for the pages of the new device tree. -/
def newFdtRequest (address : UInt64) : Call :=
  .allocatePages efiAllocateMaxAddress efiLoaderData (divRoundUp maxFdtSize efiPageSize) address

/-- The runs of the handover once a device tree is chosen. -/
inductive TreeRun (lib : Libfdt Blob) (globals : Globals) (handle : UInt64) (buffer : VirtmapBuffer)
    (fdtAddr fdtSize : UInt64) :
    List Event → Option (Except EfiStatus (ExitBootStruct Blob)) → Prop where
  /-- There are no pages for the new tree. -/
  | noPages (address : UInt64) (reply : WordReply) (prints : List Event) {cleanup : List Event}
      {outcome : Option (Except EfiStatus (ExitBootStruct Blob))}
      (refused : reply.status ≠ efiSuccess)
      (printed : ∀ event ∈ prints, event.op.isConsole = true)
      (clean : Exec (cleanFail fdtAddr fdtSize buffer.runtimeMap) cleanup outcome) :
      TreeRun lib globals handle buffer fdtAddr fdtSize
        (⟨newFdtRequest address, reply⟩ :: (prints ++ cleanup)) outcome
  /-- The new tree is not built. -/
  | noTree (address : UInt64) (reply : WordReply) (prints : List Event) {cleanup : List Event}
      {outcome : Option (Except EfiStatus (ExitBootStruct Blob))}
      (granted : reply.status = efiSuccess)
      (printed : ∀ event ∈ prints, event.op.isConsole = true)
      (clean : Exec (cleanFailFreeNewFdt reply.value fdtAddr fdtSize
        buffer.runtimeMap) cleanup outcome) :
      TreeRun lib globals handle buffer fdtAddr fdtSize
        (⟨newFdtRequest address, reply⟩ :: (prints ++ cleanup)) outcome
  /-- The exit from boot services never returns. -/
  | waits (address : UInt64) (reply : WordReply) (prints : List Event) {exit : List Event}
      {priv : ExitBootStruct Blob} (granted : reply.status = efiSuccess)
      (printed : ∀ event ∈ prints, event.op.isConsole = true)
      (ran : ExitRun globals handle priv (exitBootFunc lib globals) exit none) :
      TreeRun lib globals handle buffer fdtAddr fdtSize
        (⟨newFdtRequest address, reply⟩ :: (prints ++ exit)) none
  /-- Boot services are left. -/
  | left (address : UInt64) (reply : WordReply) (prints : List Event) {exit install : List Event}
      {priv priv' : ExitBootStruct Blob}
      {outcome : Option (Except EfiStatus (ExitBootStruct Blob))}
      (granted : reply.status = efiSuccess)
      (printed : ∀ event ∈ prints, event.op.isConsole = true)
      (ran : ExitRun globals handle priv (exitBootFunc lib globals) exit
        (some (efiSuccess, priv')))
      (installed : Exec (installVirtmap globals buffer priv') install outcome) :
      TreeRun lib globals handle buffer fdtAddr fdtSize
        (⟨newFdtRequest address, reply⟩ :: (prints ++ (exit ++ install))) outcome
  /-- Boot services are not left. -/
  | failed (address : UInt64) (reply : WordReply) (prints : List Event) {exit cleanup : List Event}
      {priv priv' : ExitBootStruct Blob} {status : EfiStatus}
      {outcome : Option (Except EfiStatus (ExitBootStruct Blob))}
      (granted : reply.status = efiSuccess)
      (printed : ∀ event ∈ prints, event.op.isConsole = true)
      (ran : ExitRun globals handle priv (exitBootFunc lib globals) exit (some (status, priv')))
      (refused : status ≠ efiSuccess)
      (clean : Exec (cleanFailFreeNewFdt reply.value fdtAddr fdtSize
        buffer.runtimeMap) cleanup outcome) :
      TreeRun lib globals handle buffer fdtAddr fdtSize
        (⟨newFdtRequest address, reply⟩ :: (prints ++ (exit ++
          ⟨.print ("[ERROR]: " ++ "Exit boot services failed.\n") [], ()⟩ :: cleanup))) outcome

/-- The runs of the handover once it has its runtime map. -/
inductive BodyRun (lib : Libfdt Blob) (fdtAt : UInt64 → Blob) (globals : Globals) (handle : UInt64)
    (buffer : VirtmapBuffer) :
    List Event → Option (Except EfiStatus (ExitBootStruct Blob)) → Prop where
  /-- A tree is chosen from the tables, if they have one. -/
  | chosen {before prints later : List Event} {tables : List (EfiGuid × UInt64)}
      {outcome : Option (Except EfiStatus (ExitBootStruct Blob))}
      (asked : ∀ event ∈ before, event.op.isQuery = true)
      (printed : ∀ event ∈ prints, event.op.isConsole = true)
      (noTables : Lacks Call.isTables later)
      (run : TreeRun lib globals handle buffer (firmwareFdt lib fdtAt tables).1
        (firmwareFdt lib fdtAt tables).2 later outcome) :
      BodyRun lib fdtAt globals handle buffer
        (before ++ ⟨.configurationTable, tables⟩ :: (prints ++ later)) outcome

/-- Every run once the tree is known is one of its runs case by case. -/
theorem treeRun_of_exec {handle : UInt64} {cmdline : List UInt8} {buffer : VirtmapBuffer}
    {fdtAddr fdtSize : UInt64} {outcome : Option (Except EfiStatus (ExitBootStruct Blob))}
    (run : Exec (handOver lib fdtAt globals handle cmdline buffer fdtAddr fdtSize) events outcome) :
    TreeRun lib globals handle buffer fdtAddr fdtSize events outcome := by
  rcases exec_bind.mp run with ⟨result, _, _, rfl, pages, more⟩ | ⟨-, waits⟩
  swap
  · obtain ⟨_, _, -, ⟨-, ⟨⟩⟩ | ⟨-, ⟨⟩⟩⟩ := efiAllocatePages_of_exec waits
  obtain ⟨address, reply, rfl, ⟨refused, ⟨⟩⟩ | ⟨granted, ⟨⟩⟩⟩ := efiAllocatePages_of_exec pages
  · simp only [efiErr, efiPrintk, perform_bind, exec_call] at more
    obtain ⟨-, cleanup, rfl, clean⟩ := more
    exact .noPages address reply [_] refused (by simp [Call.isConsole]) clean
  simp only [efiDebug, efiInfo, efiPrintk, perform_bind, exec_call] at more
  obtain ⟨-, _, rfl, -, _, rfl, more⟩ := more
  have updates : Calls (fun call => call.isConsole = true) (updateFdt lib globals fdtAt fdtAddr
    fdtSize (fdtAt reply.value) (some cmdline)) := updateFdt_prints ..
  rcases exec_bind.mp more with ⟨⟨status, newFdt⟩, building, _, rfl, built, rest⟩ | ⟨-, waits⟩
  swap
  · obtain ⟨_, ⟨⟩⟩ := updates.returns (fun _ => Call.isConsole.answered) waits
  have said := updates.events built
  have around (format : String) (args : List UInt64) :
      ∀ event ∈ ([⟨.print ("[DEBUG]: " ++ "New FDT address: 0x%lx\n") [reply.value], ()⟩,
        ⟨.print ("[INFO]: " ++ "Generating new FDT...\n") [], ()⟩] ++ (building ++
          [⟨.print format args, ()⟩]) : List Event), event.op.isConsole = true := by
    simpa [Call.isConsole, or_imp, forall_and] using said
  simp only [efiErr, efiPrintk, perform_bind, exec_call, exec_ite, bne_iff_ne, not_not] at rest
  rcases rest with ⟨-, -, cleanup, rfl, clean⟩ | ⟨-, rest⟩
  · simpa [newFdtRequest] using TreeRun.noTree address reply _ granted
      (around ("[ERROR]: " ++ "Unable to construct new device tree.\n") []) clean
  obtain ⟨-, _, rfl, rest⟩ := rest
  have printed := around ("[INFO]: " ++ "Exiting boot services...\n") []
  rcases exec_bind.mp rest with ⟨⟨status, priv⟩, exit, _, rfl, exited, last⟩ | ⟨rfl, waits⟩
  · have ran := exitRun_of_exec exited
    simp only [exec_call, exec_ite, beq_iff_eq] at last
    rcases last with ⟨rfl, installed⟩ | ⟨refused, -, cleanup, rfl, clean⟩
    · simpa [newFdtRequest] using TreeRun.left address reply _ granted printed ran installed
    · simpa [newFdtRequest] using TreeRun.failed address reply _ granted printed ran refused clean
  · simpa [newFdtRequest] using TreeRun.waits address reply _ granted printed (exitRun_of_exec waits)

/-- Every run of the body is one of its runs case by case. -/
theorem bodyRun_of_exec {handle : UInt64} {cmdline : List UInt8} {buffer : VirtmapBuffer}
    {outcome : Option (Except EfiStatus (ExitBootStruct Blob))}
    (run : Exec (newFdtAndExitBoot lib fdtAt globals handle cmdline buffer) events outcome) :
    BodyRun lib fdtAt globals handle buffer events outcome := by
  rcases exec_bind.mp run with ⟨_, _, _, rfl, choice, later⟩ | ⟨-, waits⟩
  swap
  · obtain ⟨_, _, _, -, -, -, ⟨⟩⟩ := chooseFdt_of_exec waits
  obtain ⟨before, tables, prints, rfl, asked, printed, ⟨⟩⟩ := chooseFdt_of_exec choice
  rw [List.append_assoc, List.cons_append]
  have noTables := (handOver_readsNoTables ..).events later
  exact .chosen asked printed noTables (treeRun_of_exec later)

/-- The runs of `allocate_new_fdt_and_exit_boot`. -/
inductive HandoverRun (lib : Libfdt Blob) (fdtAt : UInt64 → Blob) (globals : Globals)
    (handle : UInt64) :
    List Event → Option (Except EfiStatus (ExitBootStruct Blob)) → Prop where
  /-- Without a virtual map there is no runtime map. -/
  | novamap {later : List Event} {outcome : Option (Except EfiStatus (ExitBootStruct Blob))}
      (set : globals.efiNovamap = true)
      (run : BodyRun lib fdtAt globals handle ⟨0, 0, 0⟩ later outcome) :
      HandoverRun lib fdtAt globals handle later outcome
  /-- There is no memory for the runtime map. -/
  | noBuffer {first prints : List Event} {status : EfiStatus} (unset : globals.efiNovamap = false)
      (map : VirtmapRun first (.error status))
      (printed : ∀ event ∈ prints, event.op.isConsole = true) :
      HandoverRun lib fdtAt globals handle (first ++ prints) (some (.error status))
  /-- The runtime map has its memory. -/
  | buffered {first later : List Event} {buffer : VirtmapBuffer}
      {outcome : Option (Except EfiStatus (ExitBootStruct Blob))}
      (unset : globals.efiNovamap = false) (map : VirtmapRun first (.ok buffer))
      (run : BodyRun lib fdtAt globals handle buffer later outcome) :
      HandoverRun lib fdtAt globals handle (first ++ later) outcome

/-- Every run of the handover is one of its runs case by case. -/
theorem handoverRun_of_exec {handle : UInt64} {cmdline : List UInt8}
    {outcome : Option (Except EfiStatus (ExitBootStruct Blob))}
    (run : Exec (allocateNewFdtAndExitBoot lib fdtAt globals handle cmdline) events outcome) :
    HandoverRun lib fdtAt globals handle events outcome := by
  rcases exec_ite.mp run with ⟨set, run⟩ | ⟨unset, run⟩
  · exact .novamap set (bodyRun_of_exec run)
  rw [Bool.not_eq_true] at unset
  rcases exec_bind.mp run with ⟨result, first, _, rfl, map, later⟩ | ⟨-, waits⟩
  swap
  · obtain ⟨_, ⟨⟩, -⟩ := virtmapRun_of_exec waits
  obtain ⟨_, ⟨⟩, map⟩ := virtmapRun_of_exec map
  cases result with
  | error status =>
    simp only [efiErr, efiPrintk, perform_bind, exec_call, pure_eq_ret, exec_ret] at later
    obtain ⟨-, _, rfl, rfl, rfl⟩ := later
    exact .noBuffer unset map (by simp [Call.isConsole])
  | ok buffer => exact .buffered unset map (bodyRun_of_exec later)

/-- A libfdt whose trees hold nothing; every call succeeds and every tree has 4096 bytes. -/
def plainLibfdt : Libfdt Unit where
  checkHeader _ := 0
  totalsize _ := 4096
  openInto _ _ _ := (0, ())
  createEmptyTree _ _ := (0, ())
  pathOffset _ _ := 0
  subnodeOffset _ _ _ := 0
  addSubnode _ _ _ := (0, ())
  setprop _ _ _ _ := (0, ())
  setpropInplace _ _ _ _ := (0, ())
  numMemRsv _ := 0
  delMemRsv _ _ := (0, ())
  pack _ := (0, ())

/-- A firmware with the given tables, answering requests for pages and exits with the given
statuses; every pool block it gives is behind the one before. -/
def plainFirmware (tables : List (EfiGuid × UInt64)) (pages exit : EfiStatus) (past : List Event) :
    (call : Call) → Option call.Reply
  | .getMemoryMap size _ =>
    some ⟨if size = 0 then efiBufferTooSmall else efiSuccess, 40, 7, 40, 1, [plainDescriptor]⟩
  | .allocatePool .. => some ⟨efiSuccess, 0x1000 * UInt64.ofNat (past.length + 1)⟩
  | .allocatePages .. => some ⟨pages, 0x40000000⟩
  | .freePool .. => some efiSuccess
  | .freePages .. => some efiSuccess
  | .installConfigurationTable .. => some efiSuccess
  | .exitBootServices .. => some exit
  | .setVirtualAddressMap .. => some efiSuccess
  | .getVariable .. => some ⟨efiNotFound, 0, 0⟩
  | .configurationTable => some tables
  | .print .. => some ()
  | .reach .. => some ()
  | _ => none

/-- The handover to a plain libfdt. -/
def plainHandover : Stub (Except EfiStatus (ExitBootStruct Unit)) :=
  allocateNewFdtAndExitBoot plainLibfdt (fun _ => ()) plainGlobals 1 []

end DragonStub

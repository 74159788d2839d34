import DragonStub.Boot.Fdt

/-!
# The handover of the memory map

`allocate_new_fdt_and_exit_boot` of `fdt.c` with what it calls: the search for the firmware's
device tree, the secure boot query of `secureboot.c`, and the callback that processes the last
memory map.
-/

namespace DragonStub

open Interaction Prog Word

/-- The search of `get_efi_config_table`; a missing table is the null pointer. -/
def findTable (guid : EfiGuid) : List (EfiGuid × UInt64) → UInt64
  | [] => 0
  | (vendorGuid, vendorTable) :: rest => if vendorGuid = guid then vendorTable else findTable guid rest

/-- `get_efi_config_table` — the number of entries is read into an `int`. -/
def efiConfigTable (guid : EfiGuid) (tables : List (EfiGuid × UInt64)) : UInt64 :=
  findTable guid (tables.take (Int32.ofNat tables.length).toInt.toNat)

/-- `get_efi_config_table` of the system table. -/
def getEfiConfigTable (guid : EfiGuid) : Stub UInt64 := do
  let tables ← perform Call.configurationTable
  return efiConfigTable guid tables

variable {Blob : Type} (lib : Libfdt Blob) (fdtAt : UInt64 → Blob)

/-- `get_fdt` — the firmware's device tree and its size; the size is left zero without one. -/
def getFdt : Stub (UInt64 × UInt64) := do
  let fdt ← getEfiConfigTable deviceTreeGuid
  if fdt == 0 then
    return (0, 0)
  if lib.checkHeader (fdtAt fdt) != 0 then
    efiErr "Invalid header detected on UEFI supplied FDT, ignoring ...\n" []
    return (0, 0)
  return (fdt, (lib.totalsize (fdtAt fdt)).toUInt64)

/-- `enum efi_secureboot_mode`. -/
inductive EfiSecurebootMode where
  /-- `efi_secureboot_mode_unset`. -/
  | unset
  /-- `efi_secureboot_mode_unknown`. -/
  | unknown
  /-- `efi_secureboot_mode_disabled`. -/
  | disabled
  /-- `efi_secureboot_mode_enabled`. -/
  | enabled
  deriving DecidableEq, Repr

/-- `efi_get_secureboot_mode` — the setup mode is what its query leaves in a zeroed byte. -/
def efiGetSecurebootMode : Stub EfiSecurebootMode := do
  let secboot ← perform (Call.getVariable "SecureBoot" efiGlobalVariableGuid 1)
  if secboot.status == efiNotFound then
    return .disabled
  if secboot.status != efiSuccess then
    return .unknown
  let setupmode ← perform (Call.getVariable "SetupMode" efiGlobalVariableGuid 1)
  if secboot.data == 0 || setupmode.data == 1 then
    return .disabled
  return .enabled

/-- `EFI_VARIABLE_NON_VOLATILE`. -/
def efiVariableNonVolatile : UInt32 := 1

/-- `efi_get_secureboot`. -/
def efiGetSecureboot : Stub EfiSecurebootMode := do
  let mode ← efiGetSecurebootMode
  if mode == .unknown then
    efiErr "Could not determine UEFI Secure Boot status.\n" []
    return .unknown
  if mode != .enabled then
    return mode
  let moksbstate ← perform (Call.getVariable "MokSBStateRT" efiShimLockGuid 1)
  if moksbstate.status == efiSuccess && moksbstate.attributes &&& efiVariableNonVolatile == 0
      && moksbstate.data == 1 then
    return .disabled
  efiInfo "UEFI Secure Boot is enabled.\n" []
  return .enabled

/-- `print_efi_secureboot_mode`. -/
def printEfiSecurebootMode : EfiSecurebootMode → Stub Unit
  | .unknown => efiInfo "efi_secureboot_mode: efi_secureboot_mode_unknown\n" []
  | .disabled => efiInfo "efi_secureboot_mode: efi_secureboot_mode_disabled\n" []
  | .enabled => efiInfo "efi_secureboot_mode: efi_secureboot_mode_enabled\n" []
  | .unset => efiInfo "efi_secureboot_mode: efi_secureboot_mode_unset\n" []

/-- `struct exit_boot_struct`, with what memory holds at its pointers. -/
structure ExitBootStruct (Blob : Type) where
  /-- `boot_memmap`. -/
  bootMemmap : Option EfiBootMemmap
  /-- `runtime_map`. -/
  runtimeMap : UInt64
  /-- What is at `runtime_map`. -/
  runtimeEntries : List EfiMemoryDescriptor
  /-- `runtime_entry_count`. -/
  runtimeEntryCount : Int32
  /-- `new_fdt_addr`. -/
  newFdtAddr : UInt64
  /-- What is at `new_fdt_addr`. -/
  newFdt : Blob

/-- `exit_boot_func` — `efi_get_virtmap` sets the virtual addresses in the map itself. -/
def exitBootFunc (globals : Globals) : PrivFunc (ExitBootStruct Blob) := fun m map p => do
  match efiGetVirtmap globals map.map map.mapSize map.descSize with
  | none => nomatch ← perform Call.hang
  | some (entries, virtmap) =>
    let map := { map with map := entries }
    let (status, newFdt) := updateFdtMemmap lib p.newFdt m map
    return (status, map, { p with
      bootMemmap := some map
      runtimeEntries := virtmap.runtimeMap
      runtimeEntryCount := virtmap.count
      newFdt := newFdt })

/-- `strstr` as a test. -/
def strstr (text needle : List UInt8) : Bool := text.tails.any fun rest => needle.isPrefixOf rest

/-- The bytes of `dtb=`. -/
def dtbOption : List UInt8 := [0x64, 0x74, 0x62, 0x3D]

/-- `config_efi_armstub_dtb_loader`. -/
def configEfiArmstubDtbLoader : Bool := false

/-- The start of `allocate_new_fdt_and_exit_boot`, where `dtb=` would be honoured. -/
def considerDtb (cmdline : List UInt8) : Stub Unit := do
  printEfiSecurebootMode (← efiGetSecureboot)
  let ignored ← if !configEfiArmstubDtbLoader then pure true else
    (· != EfiSecurebootMode.disabled) <$> efiGetSecureboot
  if !ignored then
    efiTodo "Load DTB from command line\n"
  else if strstr cmdline dtbOption then
    efiErr "Ignoring DTB from command line.\n" []

/-- The choice of the device tree in `allocate_new_fdt_and_exit_boot`: its address and size. -/
def chooseFdt (cmdline : List UInt8) : Stub (UInt64 × UInt64) := do
  considerDtb cmdline
  let (fdtAddr, fdtSize) ← getFdt lib fdtAt
  if fdtAddr != 0 then
    efiInfo "Using DTB from configuration table\n" []
    return (fdtAddr, fdtSize)
  else
    efiInfo "Generating empty DTB\n" []
    return (fdtAddr, fdtSize)

/-- The label `fail`. -/
def cleanFail (fdtAddr fdtSize runtimeMap : UInt64) : Stub (Except EfiStatus (ExitBootStruct Blob)) := do
  efiFree fdtSize fdtAddr
  let _ ← perform (Call.freePool runtimeMap)
  return .error efiLoadError

/-- The label `fail_free_new_fdt`. -/
def cleanFailFreeNewFdt (newFdtAddr fdtAddr fdtSize runtimeMap : UInt64) :
    Stub (Except EfiStatus (ExitBootStruct Blob)) := do
  efiFree maxFdtSize newFdtAddr
  cleanFail fdtAddr fdtSize runtimeMap

/-- Set the virtual address of a runtime entry to `UINT64_MAX`. -/
def unmapEntry (entry : EfiMemoryDescriptor) (_ : Unit) : EfiMemoryDescriptor × Unit :=
  (if entry.isRuntime then { entry with virtualStart := 0xFFFFFFFFFFFFFFFF } else entry, ())

/-- What follows an accepted exit: install the runtime map, or mark the entries unmapped. -/
def installVirtmap (globals : Globals) (buffer : VirtmapBuffer) (priv : ExitBootStruct Blob) :
    Stub (Except EfiStatus (ExitBootStruct Blob)) := do
  if globals.efiNovamap then
    return .ok priv
  let status ← perform (Call.setVirtualAddressMap (ofInt priv.runtimeEntryCount * buffer.descSize)
    buffer.descSize buffer.descVer priv.runtimeEntries)
  if status == efiSuccess then
    return .ok priv
  match priv.bootMemmap with
  | none => return .ok priv
  | some map =>
    match forEachDescriptor map.mapSize map.descSize unmapEntry map.map () with
    | none => nomatch ← perform Call.hang
    | some (entries, _) => return .ok { priv with bootMemmap := some { map with map := entries } }

/-- `allocate_new_fdt_and_exit_boot` behind the choice of the device tree. -/
def handOver (globals : Globals) (handle : UInt64) (cmdline : List UInt8) (buffer : VirtmapBuffer)
    (fdtAddr fdtSize : UInt64) : Stub (Except EfiStatus (ExitBootStruct Blob)) := do
  match ← efiAllocatePages maxFdtSize (-1) with
  | .error _ =>
    efiErr "Unable to allocate memory for new device tree.\n" []
    cleanFail fdtAddr fdtSize buffer.runtimeMap
  | .ok newFdtAddr =>
    efiDebug "New FDT address: 0x%lx\n" [newFdtAddr]
    efiInfo "Generating new FDT...\n" []
    let (status, newFdt) ← updateFdt lib globals fdtAt fdtAddr fdtSize (fdtAt newFdtAddr)
      (some cmdline)
    if status != efiSuccess then
      efiErr "Unable to construct new device tree.\n" []
      cleanFailFreeNewFdt newFdtAddr fdtAddr fdtSize buffer.runtimeMap
    else
      efiInfo "Exiting boot services...\n" []
      let (status, priv) ← efiExitBootServices globals handle
        { bootMemmap := none, runtimeMap := buffer.runtimeMap, runtimeEntries := []
          runtimeEntryCount := 0, newFdtAddr := newFdtAddr, newFdt := newFdt }
        (exitBootFunc lib globals)
      if status == efiSuccess then
        installVirtmap globals buffer priv
      else
        efiErr "Exit boot services failed.\n" []
        cleanFailFreeNewFdt newFdtAddr fdtAddr fdtSize buffer.runtimeMap

/-- `allocate_new_fdt_and_exit_boot` behind the allocation of the virtual map. -/
def newFdtAndExitBoot (globals : Globals) (handle : UInt64) (cmdline : List UInt8)
    (buffer : VirtmapBuffer) : Stub (Except EfiStatus (ExitBootStruct Blob)) := do
  let (fdtAddr, fdtSize) ← chooseFdt lib fdtAt cmdline
  handOver lib fdtAt globals handle cmdline buffer fdtAddr fdtSize

/-- `allocate_new_fdt_and_exit_boot` — what it hands over, or a status. With `efi_novamap` the
pointer to the runtime map stays null. -/
def allocateNewFdtAndExitBoot (globals : Globals) (handle : UInt64) (cmdline : List UInt8) :
    Stub (Except EfiStatus (ExitBootStruct Blob)) := do
  if globals.efiNovamap then
    newFdtAndExitBoot lib fdtAt globals handle cmdline ⟨0, 0, 0⟩
  else
    match ← efiAllocVirtmap with
    | .error status =>
      efiErr "Unable to retrieve UEFI memory map.\n" []
      return .error status
    | .ok buffer => newFdtAndExitBoot lib fdtAt globals handle cmdline buffer

end DragonStub

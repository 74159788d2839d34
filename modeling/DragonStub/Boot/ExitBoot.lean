import DragonStub.Boot.Virtmap

/-!
# Leaving boot services

`efi_get_memory_map` of `mem.c` and `efi_exit_boot_services` of `helper.c`. The map is a pool
buffer that the firmware fills, so a reply to `GetMemoryMap` replaces what the buffer held.
-/

namespace DragonStub

open Interaction Prog

/-- The map a `GetMemoryMap` call left in a buffer of `buffSize` bytes. -/
def MemoryMapReply.memmap (reply : MemoryMapReply) (buffSize : UInt64) : EfiBootMemmap where
  mapSize := reply.mapSize
  descSize := reply.descSize
  descVer := reply.descVer
  mapKey := reply.mapKey
  buffSize := buffSize
  map := reply.map

/-- The label `free_map` of `efi_get_memory_map`. -/
def freeMap (m : UInt64) (status : EfiStatus) : Stub (Except EfiStatus (UInt64 × EfiBootMemmap)) := do
  let _ ← perform (Call.freePool m)
  return .error status

/-- The label `uninstall_table` of `efi_get_memory_map`. -/
def uninstallTable (installCfgTbl : Bool) (m : UInt64) (status : EfiStatus) :
    Stub (Except EfiStatus (UInt64 × EfiBootMemmap)) := do
  if installCfgTbl then
    let _ ← perform (Call.installConfigurationTable linuxEfiBootMemmapGuid 0)
  freeMap m status

/-- The read of the map into its buffer, the end of `efi_get_memory_map`. -/
def readMap (installCfgTbl : Bool) (m size : UInt64) :
    Stub (Except EfiStatus (UInt64 × EfiBootMemmap)) := do
  let reply ← perform (Call.getMemoryMap size (m + efiBootMemmapSize))
  if reply.status != efiSuccess then
    uninstallTable installCfgTbl m reply.status
  else
    return .ok (m, reply.memmap size)

/-- `efi_get_memory_map` — the buffer of the map and what it holds. -/
def efiGetMemoryMap (installCfgTbl : Bool) : Stub (Except EfiStatus (UInt64 × EfiBootMemmap)) := do
  let memtype := if installCfgTbl then efiACPIReclaimMemory else efiLoaderData
  let tmp ← perform (Call.getMemoryMap 0 0)
  if tmp.status != efiBufferTooSmall then
    return .error efiLoadError
  let size := tmp.mapSize + tmp.descSize * efiMmapNrSlackSlots
  let pool ← perform (Call.allocatePool memtype (efiBootMemmapSize + size))
  if pool.status != efiSuccess then
    return .error pool.status
  if installCfgTbl then
    let status ← perform (Call.installConfigurationTable linuxEfiBootMemmapGuid pool.value)
    if status != efiSuccess then
      freeMap pool.value status
    else
      readMap installCfgTbl pool.value size
  else
    readMap installCfgTbl pool.value size

variable {P : Type}

/-- `efi_exit_boot_map_processing` — given the address of the map, the map and the private
argument, it returns a status and leaves both changed. -/
abbrev PrivFunc (P : Type) := UInt64 → EfiBootMemmap → P → Stub (EfiStatus × EfiBootMemmap × P)

/-- The second attempt of `efi_exit_boot_services`, with the buffer of the first. -/
def retryExit (handle m : UInt64) (map : EfiBootMemmap) (priv : P) (privFunc : PrivFunc P) :
    Stub (EfiStatus × P) := do
  let reply ← perform (Call.getMemoryMap map.buffSize (m + efiBootMemmapSize))
  if reply.status != efiSuccess then
    return (reply.status, priv)
  let map := reply.memmap map.buffSize
  perform (Call.reach (.privFunc map))
  let (status, map, priv) ← privFunc m map priv
  if status != efiSuccess then
    return (status, priv)
  let status ← perform (Call.exitBootServices handle map.mapKey)
  return (status, priv)

/-- The first attempt of `efi_exit_boot_services`, once `priv_func` has processed the map. -/
def firstExit (globals : Globals) (handle m : UInt64) (map : EfiBootMemmap) (priv : P)
    (privFunc : PrivFunc P) : Stub (EfiStatus × P) := do
  efiDebug "before ExitBootServices, handle=%p, map_key=%p\n" [handle, map.mapKey]
  efiDebug "BS->ExitBootServices=%p\n" [globals.exitBootServices]
  efiDebug "ST->BS->ExitBootServices=%p\n" [globals.exitBootServices]
  let status ← perform (Call.exitBootServices handle map.mapKey)
  if status == efiInvalidParameter then
    retryExit handle m map priv privFunc
  else
    return (status, priv)

/-- `efi_exit_boot_services` — the status, and the private argument as it is left. -/
def efiExitBootServices (globals : Globals) (handle : UInt64) (priv : P) (privFunc : PrivFunc P) :
    Stub (EfiStatus × P) := do
  if globals.efiDisablePciDma then
    efiTodo "efi_exit_boot_services:: efi_disable_pci_dma: efi_pci_disable_bridge_busmaster"
  match ← efiGetMemoryMap true with
  | .error status => return (status, priv)
  | .ok (m, map) =>
    efiDebug "before priv_func\n" []
    perform (Call.reach (.privFunc map))
    let (status, map, priv) ← privFunc m map priv
    if status != efiSuccess then
      let _ ← perform (Call.freePool m)
      return (status, priv)
    firstExit globals handle m map priv privFunc

end DragonStub

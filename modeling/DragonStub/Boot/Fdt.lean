import DragonStub.Boot.ExitBoot
import DragonStub.Boot.Pages

/-!
# Device trees and the way out of boot services

`fdt.c` up to `allocate_new_fdt_and_exit_boot`, with the secure boot query it makes. The functions
of libfdt are parameters: a device tree is a value of a type the model knows nothing about, and a
libfdt function that writes returns the tree it leaves.
-/

namespace DragonStub

open Interaction Prog

/-- The functions of libfdt that the stub calls, over device trees of type `Blob`. -/
structure Libfdt (Blob : Type) where
  /-- `fdt_check_header`. -/
  checkHeader : Blob → Int32
  /-- `fdt_totalsize`. -/
  totalsize : Blob → UInt32
  /-- `fdt_open_into`: the tree to copy, what the buffer holds, its size. -/
  openInto : Blob → Blob → Int32 → Int32 × Blob
  /-- `fdt_create_empty_tree`. -/
  createEmptyTree : Blob → Int32 → Int32 × Blob
  /-- `fdt_path_offset`. -/
  pathOffset : Blob → String → Int32
  /-- `fdt_subnode_offset`. -/
  subnodeOffset : Blob → Int32 → String → Int32
  /-- `fdt_add_subnode`. -/
  addSubnode : Blob → Int32 → String → Int32 × Blob
  /-- `fdt_setprop`. -/
  setprop : Blob → Int32 → String → List UInt8 → Int32 × Blob
  /-- `fdt_setprop_inplace`. -/
  setpropInplace : Blob → Int32 → String → List UInt8 → Int32 × Blob
  /-- `fdt_num_mem_rsv`. -/
  numMemRsv : Blob → Int32
  /-- `fdt_del_mem_rsv`. -/
  delMemRsv : Blob → Int32 → Int32 × Blob
  /-- `fdt_pack`. -/
  pack : Blob → Int32 × Blob

/-- `FDT_ERR_NOSPACE`. -/
def fdtErrNospace : Int32 := 3

/-- `MAX_FDT_SIZE`. -/
def maxFdtSize : UInt64 := sz2M

/-- The bytes of `cpu_to_fdt32`, in memory order. -/
def cpuToFdt32 (x : UInt32) : List UInt8 :=
  [(x >>> 24).toUInt8, (x >>> 16).toUInt8, (x >>> 8).toUInt8, x.toUInt8]

/-- The bytes of `cpu_to_fdt64`, in memory order. -/
def cpuToFdt64 (x : UInt64) : List UInt8 :=
  cpuToFdt32 (x >>> 32).toUInt32 ++ cpuToFdt32 x.toUInt32

variable {Blob : Type} (lib : Libfdt Blob)

/-- Work on one device tree that stops at the first status other than zero. -/
abbrev Edit (Blob : Type) := ExceptT Int32 (StateM Blob)

/-- Make a libfdt call that writes, and hand on its status. -/
def Edit.attempt (change : Blob → Int32 × Blob) : Edit Blob Int32 := do
  let fdt ← get
  let (status, fdt) := change fdt
  set fdt
  return status

/-- Make a libfdt call that writes, and stop at a status other than zero. -/
def Edit.check (change : Blob → Int32 × Blob) : Edit Blob Unit := do
  let status ← Edit.attempt change
  if status != 0 then
    throw status

/-- `fdt_update_cell_size`. -/
def fdtUpdateCellSize : Edit Blob Unit := do
  let offset := lib.pathOffset (← get) "/"
  let _ ← Edit.attempt (lib.setprop · offset "#address-cells" (cpuToFdt32 2))
  let _ ← Edit.attempt (lib.setprop · offset "#size-cells" (cpuToFdt32 2))

/-- `while (num_rsv-- > 0) fdt_del_mem_rsv(fdt, num_rsv);` -/
def delMemRsvs : Nat → Edit Blob Unit
  | 0 => return
  | numRsv + 1 => do
    let _ ← Edit.attempt (lib.delMemRsv · (Int32.ofNat numRsv))
    delMemRsvs numRsv

/-- The part of `update_fdt` that fails through `fdt_set_fail`. -/
def fillFdt (globals : Globals) (orig : Option Blob) (cmdline : Option (List UInt8)) :
    Edit Blob Unit := do
  match orig with
  | some tree => Edit.check (lib.openInto tree · (Word.toInt maxFdtSize))
  | none =>
    Edit.check (lib.createEmptyTree · (Word.toInt maxFdtSize))
    fdtUpdateCellSize lib
  delMemRsvs lib (lib.numMemRsv (← get)).toInt.toNat
  let mut node := lib.subnodeOffset (← get) 0 "chosen"
  if node < 0 then
    node ← Edit.attempt (lib.addSubnode · 0 "chosen")
    if node < 0 then
      throw node
  match cmdline with
  | some text =>
    if !text.isEmpty then
      Edit.check (lib.setprop · node "bootargs" (text ++ [0]))
  | none => pure ()
  node := lib.subnodeOffset (← get) 0 "chosen"
  Edit.check (lib.setprop · node "linux,uefi-system-table" (cpuToFdt64 globals.st))
  Edit.check (lib.setprop · node "linux,uefi-mmap-start" (cpuToFdt64 (-1)))
  Edit.check (lib.setprop · node "linux,uefi-mmap-size" (cpuToFdt32 (-1)))
  Edit.check (lib.setprop · node "linux,uefi-mmap-desc-size" (cpuToFdt32 (-1)))
  Edit.check (lib.setprop · node "linux,uefi-mmap-desc-ver" (cpuToFdt32 (-1)))
  let _ ← Edit.attempt lib.pack

/-- `update_fdt` — `fdtAt` is what memory holds at the original tree, `fdt` what the new buffer
holds. -/
def updateFdt (globals : Globals) (fdtAt : UInt64 → Blob) (origFdt origFdtSize : UInt64)
    (fdt : Blob) (cmdline : Option (List UInt8)) : Stub (EfiStatus × Blob) := do
  let orig := if origFdt == 0 then none else some (fdtAt origFdt)
  if orig.any fun tree => lib.checkHeader tree != 0 then
    efiErr "Device Tree header not valid!\n" []
    return (efiLoadError, fdt)
  if orig.any fun tree => origFdtSize != 0 && (lib.totalsize tree).toUInt64 > origFdtSize then
    efiErr "Truncated device tree! foo!\n" []
    return (efiLoadError, fdt)
  match (fillFdt lib globals orig cmdline).run.run fdt with
  | (.ok _, fdt) => return (efiSuccess, fdt)
  | (.error status, fdt) =>
    return (if status == -fdtErrNospace then efiBufferTooSmall else efiLoadError, fdt)

/-- The part of `update_fdt_memmap` behind the search for its node. -/
def fillMemmap (node : Int32) (mapStart : UInt64) (map : EfiBootMemmap) : Edit Blob Unit := do
  Edit.check (lib.setpropInplace · node "linux,uefi-mmap-start" (cpuToFdt64 mapStart))
  Edit.check (lib.setpropInplace · node "linux,uefi-mmap-size" (cpuToFdt32 map.mapSize.toUInt32))
  Edit.check (lib.setpropInplace · node "linux,uefi-mmap-desc-size"
    (cpuToFdt32 map.descSize.toUInt32))
  Edit.check (lib.setpropInplace · node "linux,uefi-mmap-desc-ver" (cpuToFdt32 map.descVer))

/-- `update_fdt_memmap` — `m` is the address of the map. -/
def updateFdtMemmap (fdt : Blob) (m : UInt64) (map : EfiBootMemmap) : EfiStatus × Blob :=
  let node := lib.pathOffset fdt "/chosen"
  if node < 0 then (efiLoadError, fdt) else
  match (fillMemmap lib node (m + efiBootMemmapSize) map).run.run fdt with
  | (.ok _, fdt) => (efiSuccess, fdt)
  | (.error _, fdt) => (efiLoadError, fdt)

end DragonStub

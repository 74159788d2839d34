import DragonStub.Boot.Align
import DragonStub.Boot.Efi

/-!
# The virtual address map of the runtime services

`efi_alloc_virtmap` and `efi_get_virtmap` of `stub.c`. The loops over a memory map step an `int`
offset by the descriptor size; an offset that leaves the range of an `int` comes back negative,
compares as a huge unsigned number, or returns to zero and never ends.
-/

namespace DragonStub

open Interaction Prog Word

/-- The variables of the stub that its options and its environment set. -/
structure Globals where
  /-- `efi_novamap`. -/
  efiNovamap : Bool
  /-- `efi_disable_pci_dma`. -/
  efiDisablePciDma : Bool
  /-- `hartid`. -/
  hartid : UInt64
  /-- `ST`. -/
  st : UInt64
  /-- `BS->ExitBootServices`, which is printed. -/
  exitBootServices : UInt64
  deriving DecidableEq, Repr

/-- `EFI_RT_VIRTUAL_BASE`, the value of `virtmap_base`. -/
def efiRtVirtualBase : UInt64 := sz512M
/-- `EFI_RT_VIRTUAL_OFFSET`. -/
def efiRtVirtualOffset : UInt64 := 0
/-- `flat_va_mapping`. -/
def flatVaMapping : Bool := efiRtVirtualOffset != 0

variable {σ : Type}

/-- Run a loop body on the descriptor at index `i`; behind the last one there is nothing to do. -/
def visit (body : EfiMemoryDescriptor → σ → EfiMemoryDescriptor × σ) (i : Nat)
    (state : List EfiMemoryDescriptor × σ) : List EfiMemoryDescriptor × σ :=
  match state.1[i]? with
  | some entry => (state.1.set i (body entry state.2).1, (body entry state.2).2)
  | none => state

/-- The loop from offset `l` on, for at most `fuel` tests of its condition. -/
def descriptorLoop (mapSize descSize : UInt64)
    (body : EfiMemoryDescriptor → σ → EfiMemoryDescriptor × σ) :
    Nat → Int32 → List EfiMemoryDescriptor × σ → Option (List EfiMemoryDescriptor × σ)
  | 0, _, _ => none
  | fuel + 1, l, state =>
    if ofInt l < mapSize then
      descriptorLoop mapSize descSize body fuel (toInt (ofInt l + descSize))
        (visit body (ofInt l / descSize).toNat state)
    else some state

/-- `for (l = 0; l < map_size; l += desc_size)` — an `int` that has met the condition 2^32 times is
back at zero, so a loop that is not done by then never is, and has no result. -/
def forEachDescriptor (mapSize descSize : UInt64)
    (body : EfiMemoryDescriptor → σ → EfiMemoryDescriptor × σ) (map : List EfiMemoryDescriptor)
    (s : σ) : Option (List EfiMemoryDescriptor × σ) :=
  descriptorLoop mapSize descSize body (2 ^ 32) 0 (map, s)

/-- What the loop of `efi_get_virtmap` carries besides the map. -/
structure Virtmap where
  /-- The copies made at `runtime_map`. -/
  runtimeMap : List EfiMemoryDescriptor
  /-- `*count`. -/
  count : Int32
  /-- `efi_virt_base`. -/
  efiVirtBase : UInt64
  deriving DecidableEq, Repr

/-- The unit that `efi_virt_base` is rounded up to for a runtime descriptor, with `size` already
extended to its first 64 KiB granule. -/
def virtmapUnit (entry : EfiMemoryDescriptor) (size : UInt64) : UInt64 :=
  if isAligned entry.physicalStart sz2M && sz2M ≤ size then sz2M else sz64K

/-- The placement of a runtime descriptor when `flat_va_mapping` is off: the descriptor with its
virtual address, and the base behind it. -/
def virtmapPlace (entry : EfiMemoryDescriptor) (efiVirtBase : UInt64) :
    EfiMemoryDescriptor × UInt64 :=
  let paddr := roundDown entry.physicalStart sz64K
  let size := entry.numberOfPages * efiPageSize + (entry.physicalStart - paddr)
  let efiVirtBase := roundUp efiVirtBase (virtmapUnit entry size)
  ({ entry with virtualStart := entry.virtualStart + (efiVirtBase - paddr) }, efiVirtBase + size)

/-- The body of the loop of `efi_get_virtmap`. -/
def virtmapEntry (novamap : Bool) (entry : EfiMemoryDescriptor) (out : Virtmap) :
    EfiMemoryDescriptor × Virtmap :=
  if !entry.isRuntime then (entry, out) else
  let entry := { entry with virtualStart := entry.physicalStart + efiRtVirtualOffset }
  if novamap then (entry, out) else
  let (entry, efiVirtBase) :=
    if !flatVaMapping then virtmapPlace entry out.efiVirtBase else (entry, out.efiVirtBase)
  (entry, ⟨out.runtimeMap ++ [entry], out.count + 1, efiVirtBase⟩)

/-- `efi_get_virtmap` — the map with its virtual addresses set, and the runtime map. -/
def efiGetVirtmap (globals : Globals) (memoryMap : List EfiMemoryDescriptor)
    (mapSize descSize : UInt64) : Option (List EfiMemoryDescriptor × Virtmap) :=
  forEachDescriptor mapSize descSize (virtmapEntry globals.efiNovamap) memoryMap
    ⟨[], 0, efiRtVirtualBase⟩

/-- What `efi_alloc_virtmap` sets. -/
structure VirtmapBuffer where
  /-- `*virtmap`. -/
  runtimeMap : UInt64
  /-- `*desc_size`. -/
  descSize : UInt64
  /-- `*desc_ver`. -/
  descVer : UInt32
  deriving DecidableEq, Repr

/-- `efi_alloc_virtmap`. -/
def efiAllocVirtmap : Stub (Except EfiStatus VirtmapBuffer) := do
  let current ← perform (Call.getMemoryMap 0 0)
  if current.status != efiBufferTooSmall then
    return .error efiLoadError
  let pool ← perform (Call.allocatePool efiLoaderData current.mapSize)
  if pool.status != efiSuccess then
    return .error pool.status
  return .ok ⟨pool.value, current.descSize, current.descVer⟩

end DragonStub

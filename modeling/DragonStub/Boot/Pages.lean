import DragonStub.Boot.Align
import DragonStub.Boot.Efi

/-!
# Page allocation

The allocators of `mem.c` and `alignedmem.c`. Their out-parameter is written on success only, so an
allocation is an address or a status.
-/

namespace DragonStub

open Interaction Prog Word

/-- The alignment of the allocator is a power of two. -/
theorem efiAllocAlign_pow : IsPow efiAllocAlign 12 := ⟨by decide, by decide⟩

/-- `efi_allocate_pages`. -/
def efiAllocatePages (size max : UInt64) : Stub (Except EfiStatus UInt64) := do
  let max := min max efiAllocLimit
  let allocAddr := alignDown (max + 1) efiAllocAlign - 1
  let reply ← perform (Call.allocatePages efiAllocateMaxAddress efiLoaderData
    (divRoundUp size efiPageSize) allocAddr)
  if reply.status != efiSuccess then
    return .error reply.status
  return .ok reply.value

/-- `efi_free`. -/
def efiFree (size addr : UInt64) : Stub Unit := do
  if size == 0 then
    return
  let nrPages := roundUp size efiAllocAlign / efiPageSize
  let _ ← perform (Call.freePages addr nrPages)

/-- The releases of `efi_allocate_pages_aligned`: the `slack` pages around the aligned region. -/
def releaseSlack (allocAddr addr size align : UInt64) (slack : Int32) : Stub Unit := do
  if slack > 0 then
    let l := toInt ((allocAddr &&& (align - 1)) / efiPageSize)
    if l != 0 then
      let _ ← perform (Call.freePages allocAddr (ofInt (slack - l + 1)))
    let slack := if l != 0 then l - 1 else slack
    if slack != 0 then
      let _ ← perform (Call.freePages (addr + size) (ofInt slack))

/-- `efi_allocate_pages_aligned`. -/
def efiAllocatePagesAligned (size max align : UInt64) (memoryType : UInt32) :
    Stub (Except EfiStatus UInt64) := do
  let max := min max efiAllocLimit
  let align := if align < efiAllocAlign then efiAllocAlign else align
  let allocAddr := alignDown (max + 1) align - 1
  let size := roundUp size efiAllocAlign
  let slack := toInt (align / efiPageSize - 1)
  let reply ← perform (Call.allocatePages efiAllocateMaxAddress memoryType
    (size / efiPageSize + ofInt slack) allocAddr)
  if reply.status != efiSuccess then
    return .error reply.status
  let addr := alignUp reply.value align
  releaseSlack reply.value addr size align slack
  return .ok addr

end DragonStub

import DragonStub.Boot.Elf
import DragonStub.Boot.Handover

/-!
# Booting the kernel

`efi_boot_kernel` of `fdt.c` and `efi_enter_kernel` of `riscv-stub.c`: load the payload, hand over
the firmware, jump.
-/

namespace DragonStub

open ByteMemory Interaction Prog

variable {Blob : Type} (lib : Libfdt Blob) (fdtAt : UInt64 → Blob)

/-- `efi_enter_kernel` — the kernel does not come back. -/
def efiEnterKernel (globals : Globals) (payloadInfo : PayloadInfo) (fdt : UInt64) :
    Stub EfiStatus := do
  perform (Call.jumpKernel payloadInfo.kernelEntry globals.hartid fdt)
  nomatch ← perform Call.hang

/-- `efi_boot_kernel` — it returns only a failure. -/
def efiBootKernel (m : Memory) (image : StubImage) (globals : Globals) (handle : UInt64)
    (payloadInfo : PayloadInfo) (cmdline : List UInt8) : Stub EfiStatus := do
  efiInfo "Loading ELF payload...\n" []
  let (status, payloadInfo, _) ← loadElf m image payloadInfo
  if status != efiSuccess then
    efiErr "Failed to load ELF payload, efi error code: %d\n" [status]
    return status
  efiDebug "kernel entry point: 0x%lx\n" [payloadInfo.kernelEntry]
  match ← allocateNewFdtAndExitBoot lib fdtAt globals handle cmdline with
  | .error status =>
    efiErr "Failed to update FDT and exit boot services\n" []
    return status
  | .ok priv => efiEnterKernel globals payloadInfo priv.newFdtAddr

end DragonStub

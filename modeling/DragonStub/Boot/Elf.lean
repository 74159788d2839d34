import DragonStub.Base.ByteMemory
import DragonStub.Boot.Pages

/-!
# Loading an ELF payload

The functions of `elf.c`, on one byte memory that holds the payload, the loaded program and the
table handed to the kernel. Memory is passed along explicitly; every read and write of it is also a
point of the run. Fields of the ELF header are read one by one; a section or program header is read
as the whole object that its pointer refers to.
-/

namespace DragonStub

open ByteMemory Interaction Prog Word

/-- `memset`, one byte after the other. -/
def memset (m : Memory) (s : UInt64) (c : UInt8) : Nat → Memory
  | 0 => m
  | n + 1 => memset (store m s c) (s + 1) c n

/-- `memcpy`, one byte after the other. -/
def memcpy (m : Memory) (dest src : UInt64) : Nat → Memory
  | 0 => m
  | n + 1 => memcpy (store m dest (m src)) (dest + 1) (src + 1) n

/-- The word stored at an address, of at most eight bytes. -/
def wordAt (m : Memory) (address : UInt64) (length : Nat) : UInt64 :=
  UInt64.ofNat (readLe m address length)

/-- Record that bytes are read. -/
def reading (address : UInt64) (length : Nat) : Stub Unit :=
  perform (Call.reach (.read address length))

/-- Record that bytes are written. -/
def writing (address : UInt64) (length : Nat) : Stub Unit :=
  perform (Call.reach (.write address length))

/-- Read a word. -/
def readWord (m : Memory) (address : UInt64) (length : Nat) : Stub UInt64 := do
  reading address length
  return wordAt m address length

/-- `EI_NIDENT`. -/
def eiNident : UInt64 := 16
/-- `EI_CLASS`. -/
def eiClass : UInt64 := 4
/-- `EI_VERSION`. -/
def eiVersion : UInt64 := 6
/-- `ELFMAG`. -/
def elfMag : List UInt64 := [0x7F, 0x45, 0x4C, 0x46]
/-- `EV_CURRENT`. -/
def evCurrent : UInt64 := 1
/-- `ELFCLASS64`. -/
def elfClass64 : UInt64 := 2
/-- `EM_RISCV`. -/
def emRiscv : UInt64 := 243
/-- `PN_XNUM`. -/
def pnXnum : UInt16 := 0xFFFF
/-- `PT_LOAD`. -/
def ptLoad : UInt32 := 1

/-- A field of a C structure. -/
structure Field where
  /-- Where it starts in the structure. -/
  offset : UInt64
  /-- Its size in bytes. -/
  size : Nat
  deriving DecidableEq, Repr

/-- `e_type` of `Elf64_Ehdr`. -/
def eType : Field := ⟨16, 2⟩
/-- `e_machine`. -/
def eMachine : Field := ⟨18, 2⟩
/-- `e_version`. -/
def eVersion : Field := ⟨20, 4⟩
/-- `e_entry`. -/
def eEntry : Field := ⟨24, 8⟩
/-- `e_phoff`. -/
def ePhoff : Field := ⟨32, 8⟩
/-- `e_shoff`. -/
def eShoff : Field := ⟨40, 8⟩
/-- `e_flags`. -/
def eFlags : Field := ⟨48, 4⟩
/-- `e_ehsize`. -/
def eEhsize : Field := ⟨52, 2⟩
/-- `e_phentsize`. -/
def ePhentsize : Field := ⟨54, 2⟩
/-- `e_phnum`. -/
def ePhnum : Field := ⟨56, 2⟩
/-- `e_shentsize`. -/
def eShentsize : Field := ⟨58, 2⟩
/-- `e_shnum`. -/
def eShnum : Field := ⟨60, 2⟩
/-- `e_shstrndx`. -/
def eShstrndx : Field := ⟨62, 2⟩

/-- The value of a field of the ELF header at an address. -/
def fieldAt (m : Memory) (ehdr : UInt64) (field : Field) : UInt64 :=
  wordAt m (ehdr + field.offset) field.size

/-- Read a field of the ELF header. -/
def readField (m : Memory) (ehdr : UInt64) (field : Field) : Stub UInt64 :=
  readWord m (ehdr + field.offset) field.size

/-- `sizeof(Elf64_Shdr)`. -/
def elf64ShdrSize : UInt64 := 64

/-- `sh_info` of the section header at an address. -/
def shInfoAt (m : Memory) (shdr : UInt64) : UInt64 := wordAt m (shdr + 44) 4

/-- `Elf64_Phdr`, but for `p_flags`. -/
structure Elf64Phdr where
  /-- `p_type`. -/
  pType : UInt32
  /-- `p_offset`. -/
  pOffset : UInt64
  /-- `p_vaddr`. -/
  pVaddr : UInt64
  /-- `p_paddr`. -/
  pPaddr : UInt64
  /-- `p_filesz`. -/
  pFilesz : UInt64
  /-- `p_memsz`. -/
  pMemsz : UInt64
  /-- `p_align`. -/
  pAlign : UInt64
  deriving DecidableEq, Repr

/-- `sizeof(Elf64_Phdr)`. -/
def elf64PhdrSize : UInt64 := 56

/-- The program header at an address. -/
def phdrAt (m : Memory) (phdr : UInt64) : Elf64Phdr where
  pType := (wordAt m phdr 4).toUInt32
  pOffset := wordAt m (phdr + 8) 8
  pVaddr := wordAt m (phdr + 16) 8
  pPaddr := wordAt m (phdr + 24) 8
  pFilesz := wordAt m (phdr + 32) 8
  pMemsz := wordAt m (phdr + 40) 8
  pAlign := wordAt m (phdr + 48) 8

/-- Read a program header. -/
def readPhdr (m : Memory) (phdr : UInt64) : Stub Elf64Phdr := do
  reading phdr elf64PhdrSize.toNat
  return phdrAt m phdr

/-- The loop of `verify_ident` over the magic number, from an index on. -/
def verifyMagic (m : Memory) (buf : UInt64) : List UInt64 → UInt64 → Stub Bool
  | [], _ => return true
  | expected :: rest, i => do
    let c ← readWord m (buf + i) 1
    if c != expected then
      efiErr "ELF magic number not match\n" []
      return false
    else verifyMagic m buf rest (i + 1)

/-- `verify_ident`. -/
def verifyIdent (m : Memory) (buf bufsize : UInt64) : Stub Bool := do
  if bufsize < eiNident then
    return false
  if !(← verifyMagic m buf elfMag 0) then
    return false
  let version ← readWord m (buf + eiVersion) 1
  if version != evCurrent then
    efiErr "ELF version not match, expected EV_CURRENT(%d), got %d\n" [evCurrent, version]
    return false
  let «class» ← readWord m (buf + eiClass) 1
  if «class» != elfClass64 then
    efiErr "ELF class not match, expected ELFCLASS64(%d), got %d\n" [elfClass64, «class»]
    return false
  return true

/-- `elf_check`. -/
def elfCheck (m : Memory) (payloadStart payloadSize : UInt64) : Stub Bool := do
  if !(← verifyIdent m payloadStart payloadSize) then
    return false
  if (← readField m payloadStart eMachine) != emRiscv then
    efiErr "ELF machine not match, expected EM_RISCV(%d), got %d\n"
      [emRiscv, ← readField m payloadStart eMachine]
    return false
  return true

/-- `elf_get_header` — the address of the header is that of the payload. -/
def elfGetHeader (m : Memory) (payloadStart payloadSize : UInt64) :
    Stub (Except EfiStatus UInt64) := do
  if !(← verifyIdent m payloadStart payloadSize) then
    return .error efiInvalidParameter
  return .ok payloadStart

/-- The lines of `print_elf_info`: what each prints, and the field it reads. -/
def elfInfoLines : List (String × Field) :=
  [("  e_type: %d\n", eType), ("  e_machine: %d\n", eMachine), ("  e_version: %d\n", eVersion),
    ("  e_entry: %p\n", eEntry), ("  e_phoff: %p\n", ePhoff), ("  e_shoff: %p\n", eShoff),
    ("  e_flags: %d\n", eFlags), ("  e_ehsize: %d\n", eEhsize),
    ("  e_phentsize: %d\n", ePhentsize), ("  e_phnum: %d\n", ePhnum),
    ("  e_shentsize: %d\n", eShentsize), ("  e_shnum: %d\n", eShnum),
    ("  e_shstrndx: %d\n", eShstrndx)]

/-- Print the fields of a list one after another. -/
def printFields (m : Memory) (ehdr : UInt64) : List (String × Field) → Stub Unit
  | [] => return
  | (format, field) :: rest => do
    efiPrintk format [← readField m ehdr field]
    printFields m ehdr rest

/-- `print_elf_info`. -/
def printElfInfo (m : Memory) (ehdr : UInt64) : Stub Unit := do
  efiInfo "ELF header:\n" []
  printFields m ehdr elfInfoLines

/-- The number of program headers in `parse_phdrs`: an extended number is taken from section header
0 and cut to 16 bits. -/
def parsePhnum (m : Memory) (payloadStart payloadSize ehdr : UInt64) :
    Stub (Except EfiStatus UInt16) := do
  let phnum := (← readField m ehdr ePhnum).toUInt16
  if phnum == pnXnum then
    let shoff ← readField m ehdr eShoff
    if shoff == 0 then
      efiErr "No section header\n" []
      return .error efiInvalidParameter
    if shoff + elf64ShdrSize > payloadSize then
      efiErr "Section header out of range\n" []
      return .error efiInvalidParameter
    reading (payloadStart + shoff) elf64ShdrSize.toNat
    let phnum := (shInfoAt m (payloadStart + shoff)).toUInt16
    if phnum == 0 then
      efiErr "shdr[0].sh_info indicates no program header\n" []
      return .error efiInvalidParameter
    return .ok phnum
  else return .ok phnum

/-- `parse_phdrs` — the number of program headers and the address of the first. -/
def parsePhdrs (m : Memory) (payloadStart payloadSize ehdr : UInt64) :
    Stub (Except EfiStatus (UInt32 × UInt64)) := do
  if (← readField m ehdr ePhnum) == 0 then
    efiErr "No program header\n" []
    return .error efiInvalidParameter
  if (← readField m ehdr ePhentsize) != elf64PhdrSize then
    efiErr "Invalid program header size: %d, expected %d\n"
      [← readField m ehdr ePhentsize, elf64PhdrSize]
    return .error efiInvalidParameter
  match ← parsePhnum m payloadStart payloadSize ehdr with
  | .error status => return .error status
  | .ok phnum =>
    let phoff ← readField m ehdr ePhoff
    let phsize ← readField m ehdr ePhentsize
    let totalSize := phnum.toUInt64 * phsize
    if phoff + totalSize > payloadSize then
      efiErr "Program header out of range\n" []
      return .error efiInvalidParameter
    return .ok (phnum.toUInt32, payloadStart + phoff)

/-- `EFI_MEMORY_WP`. -/
def efiMemoryWp : UInt64 := 0x1000
/-- `EFI_MEMORY_RP`. -/
def efiMemoryRp : UInt64 := 0x2000
/-- `EFI_MEMORY_XP`. -/
def efiMemoryXp : UInt64 := 0x4000

/-- Clear one attribute of the image in `efi_remap_image_all_rwx` if it is set. -/
def clearAttribute (imageBase allocSize attr unwanted : UInt64) (warning : String) :
    Stub Unit := do
  if attr &&& unwanted != 0 then
    let status ← perform (Call.clearMemoryAttributes imageBase allocSize unwanted)
    if status != efiSuccess then
      efiWarn warning []

/-- `efi_remap_image_all_rwx` — the size is an `unsigned`, so a size from 4 GiB on is cut. -/
def efiRemapImageAllRwx (imageBase : UInt64) (allocSize : UInt32) : Stub Unit := do
  let memattr ← perform (Call.locateProtocol efiMemoryAttributeProtocolGuid)
  if memattr.status != efiSuccess then
    return
  let current ← perform (Call.getMemoryAttributes imageBase allocSize.toUInt64)
  if current.status != efiSuccess then
    efiWarn "Failed to retrieve memory attributes for image region: 0x%lx\n" [current.status]
    return
  efiDebug "Current attributes for image region: 0x%lx\n" [current.value]
  clearAttribute imageBase allocSize.toUInt64 current.value efiMemoryXp
    "Failed to remap region executable\n"
  clearAttribute imageBase allocSize.toUInt64 current.value efiMemoryWp
    "Failed to remap region writable\n"
  clearAttribute imageBase allocSize.toUInt64 current.value efiMemoryRp
    "Failed to remap region readable\n"

/-- The logical not of C on a word. -/
def logicalNot (x : UInt64) : UInt64 := if x == 0 then 1 else 0

/-- The test both loops make of the alignment of a segment. Its mask is a logical not, which is
zero, so no alignment is refused. -/
def badAlign (phdr : Elf64Phdr) : Bool := phdr.pAlign &&& logicalNot efiPageSize != 0

/-- What both loops print of a bad alignment. -/
def reportBadAlign (phdr : Elf64Phdr) : Stub Unit :=
  efiErr "ELF segment alignment should be multiple of EFI_PAGE_SIZE(%d), but got %d\n"
    [efiPageSize, phdr.pAlign]

/-- `KERNEL_MEM_ALIGN`. -/
def kernelMemAlign : UInt64 := sz2M

/-- The extremes of the segments seen so far. -/
structure Extent where
  /-- `min_paddr`. -/
  minPaddr : UInt64
  /-- `max_paddr`. -/
  maxPaddr : UInt64
  /-- `min_vaddr`. -/
  minVaddr : UInt64
  deriving DecidableEq, Repr

/-- The extremes before the first segment. -/
def Extent.none : Extent := ⟨0xFFFFFFFFFFFFFFFF, 0, 0xFFFFFFFFFFFFFFFF⟩

/-- The extremes with one more segment. -/
def Extent.widen (extent : Extent) (phdr : Elf64Phdr) : Extent where
  minPaddr := min extent.minPaddr phdr.pPaddr
  maxPaddr := max extent.maxPaddr (phdr.pPaddr + phdr.pMemsz)
  minVaddr := min extent.minVaddr phdr.pVaddr

/-- The loop of `efi_allocate_kernel_memory` over the headers from `phdr` on. -/
def measurePhdrs (m : Memory) : Nat → UInt64 → Extent → Stub (Except EfiStatus Extent)
  | 0, _, extent => return .ok extent
  | count + 1, phdr, extent => do
    let header ← readPhdr m phdr
    if header.pType != ptLoad then
      measurePhdrs m count (phdr + elf64PhdrSize) extent
    else if badAlign header then
      reportBadAlign header
      return .error efiInvalidParameter
    else measurePhdrs m count (phdr + elf64PhdrSize) (extent.widen header)

/-- What `efi_allocate_kernel_memory` returns through its pointers. -/
structure KernelMemory where
  /-- `*ret_paddr`. -/
  paddr : UInt64
  /-- `*ret_size`. -/
  size : UInt64
  /-- `*ret_min_paddr`. -/
  minPaddr : UInt64
  /-- `*ret_max_paddr`. -/
  maxPaddr : UInt64
  /-- `*ret_min_vaddr`. -/
  minVaddr : UInt64
  deriving DecidableEq, Repr

/-- `efi_allocate_kernel_memory` — the region, and the memory with the region zeroed. The failed
allocation prints the address of a variable, shown as zero. -/
def efiAllocateKernelMemory (m : Memory) (phdrStart : UInt64) (phdrsNr : UInt32) :
    Stub (Except EfiStatus (KernelMemory × Memory)) := do
  match ← measurePhdrs m phdrsNr.toNat phdrStart Extent.none with
  | .error status => return .error status
  | .ok extent =>
    if extent.minPaddr &&& (kernelMemAlign - 1) != 0 then
      efiErr "min_paddr should be aligned to KERNEL_MEM_ALIGN(%d), but got %p\n"
        [kernelMemAlign, extent.minPaddr]
      return .error efiInvalidParameter
    let memSize := alignUp (extent.maxPaddr - extent.minPaddr) kernelMemAlign
    match ← efiAllocatePagesAligned memSize 0xFFFFFFFFFFFFFFFF kernelMemAlign efiLoaderData with
    | .error status =>
      efiErr ("Failed to allocate pages for ELF segment: status: %d, page_size=%d, min_paddr=%p, " ++
        "max_paddr=%p, mem_size=%d. Maybe an OOM error or section overlaps.\n")
        [status, kernelMemAlign, 0, extent.maxPaddr, memSize]
      return .error status
    | .ok paddr =>
      perform (Call.reach (.kernelRegion paddr memSize))
      efiInfo "Allocated kernel memory: paddr=%p, mem_size= %d bytes\n" [paddr, memSize]
      writing paddr memSize.toNat
      efiRemapImageAllRwx paddr memSize.toUInt32
      return .ok (⟨paddr, memSize, extent.minPaddr, extent.maxPaddr, extent.minVaddr⟩,
        memset m paddr 0 memSize.toNat)

/-- The loop of `load_program` over the headers from `phdr` on, with the memory after it. -/
def copyPhdrs (payloadStart payloadSize allocatedPaddr minPaddr : UInt64) :
    Nat → UInt64 → Memory → Stub (EfiStatus × Memory)
  | 0, _, m => return (efiSuccess, m)
  | count + 1, phdr, m => do
    let header ← readPhdr m phdr
    if header.pType != ptLoad then
      copyPhdrs payloadStart payloadSize allocatedPaddr minPaddr count (phdr + elf64PhdrSize) m
    else if badAlign header then
      reportBadAlign header
      return (efiInvalidParameter, m)
    else if header.pOffset + header.pFilesz > payloadSize then
      return (efiInvalidParameter, m)
    else if header.pMemsz < header.pFilesz then
      return (efiInvalidParameter, m)
    else if header.pMemsz == 0 then
      copyPhdrs payloadStart payloadSize allocatedPaddr minPaddr count (phdr + elf64PhdrSize) m
    else
      let dest := allocatedPaddr + (header.pPaddr - minPaddr)
      let src := payloadStart + header.pOffset
      reading src header.pFilesz.toNat
      writing dest header.pFilesz.toNat
      copyPhdrs payloadStart payloadSize allocatedPaddr minPaddr count (phdr + elf64PhdrSize)
        (memcpy m dest src header.pFilesz.toNat)

/-- What `load_program` returns through its pointers. -/
structure Program where
  /-- `*ret_program_mem_paddr`. -/
  memPaddr : UInt64
  /-- `*ret_program_mem_size`. -/
  memSize : UInt64
  /-- `*ret_min_paddr`. -/
  minPaddr : UInt64
  /-- `*ret_min_vaddr`. -/
  minVaddr : UInt64
  deriving DecidableEq, Repr

/-- `load_program`, with the memory after it. -/
def loadProgram (m : Memory) (payloadStart payloadSize phdrStart : UInt64) (phdrsNr : UInt32) :
    Stub (Except EfiStatus Program × Memory) := do
  match ← efiAllocateKernelMemory m phdrStart phdrsNr with
  | .error status =>
    efiErr "Failed to allocate kernel memory\n" []
    return (.error status, m)
  | .ok (kernel, m) =>
    writing kernel.paddr kernel.size.toNat
    let (status, m) ← copyPhdrs payloadStart payloadSize kernel.paddr kernel.minPaddr phdrsNr.toNat
      phdrStart (memset m kernel.paddr 0 kernel.size.toNat)
    if status == efiSuccess then
      return (.ok ⟨kernel.paddr, kernel.size, kernel.minPaddr, kernel.minVaddr⟩, m)
    else
      efiFree kernel.size kernel.paddr
      return (.error status, m)

/-- `struct payload_info`. -/
structure PayloadInfo where
  /-- `payload_addr`. -/
  payloadAddr : UInt64
  /-- `payload_size`. -/
  payloadSize : UInt64
  /-- `loaded_paddr`. -/
  loadedPaddr : UInt64
  /-- `loaded_size`. -/
  loadedSize : UInt64
  /-- `kernel_entry`. -/
  kernelEntry : UInt64
  deriving DecidableEq, Repr

/-- The image of the stub itself, from `_start` to `_image_end`. -/
structure StubImage where
  /-- `&_start`. -/
  start : UInt64
  /-- `&_image_end`. -/
  imageEnd : UInt64
  deriving DecidableEq, Repr

/-- The status a result stands for. -/
def statusOf {α : Type} : Except EfiStatus α → EfiStatus
  | .error status => status
  | .ok _ => efiSuccess

/-- The variables `load_elf` passes to `load_program`: they start as zero, and only a success writes
them. -/
def programOf : Except EfiStatus Program → Program
  | .ok program => program
  | .error _ => ⟨0, 0, 0, 0⟩

/-- The end of `load_elf`: what was loaded goes into the configuration table. -/
def installPayloadTable (m : Memory) (info : PayloadInfo) : Stub (EfiStatus × Memory) := do
  let tbl ← perform (Call.allocatePool efiLoaderData 16)
  if tbl.status != efiSuccess then
    efiErr "Failed to allocate memory for dragonstub_payload_efi\n" []
    return (tbl.status, m)
  writing tbl.value 8
  let m := writeLe m tbl.value info.loadedPaddr.toNat 8
  writing (tbl.value + 8) 8
  let m := writeLe m (tbl.value + 8) info.loadedSize.toNat 8
  let status ← perform (Call.installConfigurationTable dragonstubEfiPayloadEfiGuid tbl.value)
  if status != efiSuccess then
    efiErr "Failed to install dragonstub_payload_efi\n" []
    return (status, m)
  return (efiSuccess, m)

/-- `load_elf` from the call of `load_program` on, whose status is not looked at. -/
def loadSegments (m : Memory) (image : StubImage) (info : PayloadInfo) (ehdr phdrStart : UInt64)
    (phdrsNr : UInt32) : Stub (EfiStatus × PayloadInfo × Memory) := do
  let (loaded, m) ← loadProgram m info.payloadAddr info.payloadSize phdrStart phdrsNr
  perform (Call.reach (.loadProgram (statusOf loaded)))
  let program := programOf loaded
  let entry ← readField m ehdr eEntry
  let info := { info with
    loadedPaddr := program.memPaddr
    loadedSize := program.memSize
    kernelEntry := entry - program.minVaddr + program.memPaddr }
  efiInfo "loaded_paddr: %p\n" [info.loadedPaddr]
  efiInfo "loaded_size: %p\n" [info.loadedSize]
  efiInfo "ehdr->e_entry: %lx\n" [← readField m ehdr eEntry]
  efiInfo "image_link_base_paddr: %lx\n" [program.minPaddr]
  efiInfo "kernel_entry: %lx\n" [info.kernelEntry]
  efiRemapImageAllRwx program.memPaddr program.memSize.toUInt32
  let imageSize := image.imageEnd - image.start
  efiDebug "image_size: %d\n" [imageSize]
  efiRemapImageAllRwx image.start ((imageSize + 4095) &&& ~~~4095).toUInt32
  let (status, m) ← installPayloadTable m info
  return (status, info, m)

/-- `load_elf` — its status, the payload information and the memory after it. -/
def loadElf (m : Memory) (image : StubImage) (info : PayloadInfo) :
    Stub (EfiStatus × PayloadInfo × Memory) := do
  match ← elfGetHeader m info.payloadAddr info.payloadSize with
  | .error status =>
    efiErr "Failed to get ELF header\n" []
    return (status, info, m)
  | .ok ehdr =>
    printElfInfo m ehdr
    match ← parsePhdrs m info.payloadAddr info.payloadSize ehdr with
    | .error status =>
      efiErr "Failed to parse ELF segments\n" []
      return (status, info, m)
    | .ok (phdrsNr, phdrStart) =>
      efiDebug "program headers: %d\n" [phdrsNr.toUInt64]
      loadSegments m image info ehdr phdrStart phdrsNr

end DragonStub

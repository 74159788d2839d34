import DragonStub.Base.Interaction
import DragonStub.Base.Word

/-!
# The firmware interface of the stub

Every service the stub calls is one operation of `Call`, with the arguments the stub passes and a
reply that holds the status and the out-parameters as they stand after the call. Nothing relates a
reply to its call, so a run of a `Stub` program is a run against some firmware, conforming or not;
theorems that need a conforming one say so. Console output and the points a claim about a run
refers to (a callback being entered, an inner function returning) are operations too, so one list
of events records a run in order.
-/

namespace DragonStub

open Interaction Prog

/-- `efi_status_t` — an unsigned 64-bit code; zero is success. -/
abbrev EfiStatus := UInt64

/-- `EFIERR` — an error code of the firmware. -/
def efierr (code : UInt64) : EfiStatus := 0x8000000000000000 ||| code

/-- `EFI_SUCCESS`. -/
def efiSuccess : EfiStatus := 0
/-- `EFI_LOAD_ERROR`. -/
def efiLoadError : EfiStatus := efierr 1
/-- `EFI_INVALID_PARAMETER`. -/
def efiInvalidParameter : EfiStatus := efierr 2
/-- `EFI_UNSUPPORTED`. -/
def efiUnsupported : EfiStatus := efierr 3
/-- `EFI_BUFFER_TOO_SMALL`. -/
def efiBufferTooSmall : EfiStatus := efierr 5
/-- `EFI_OUT_OF_RESOURCES`. -/
def efiOutOfResources : EfiStatus := efierr 9
/-- `EFI_NOT_FOUND`. -/
def efiNotFound : EfiStatus := efierr 14

/-- `EFI_PAGE_SIZE`. -/
def efiPageSize : UInt64 := 4096
/-- `EFI_ALLOC_ALIGN` — the page size on this architecture. -/
def efiAllocAlign : UInt64 := efiPageSize
/-- `EFI_ALLOC_LIMIT` — no limit below the largest address. -/
def efiAllocLimit : UInt64 := 0xFFFFFFFFFFFFFFFF
/-- `EFI_ALLOCATE_MAX_ADDRESS`. -/
def efiAllocateMaxAddress : UInt32 := 1
/-- `EfiLoaderData`, as the firmware numbers memory types. -/
def efiLoaderData : UInt32 := 2
/-- `EfiACPIReclaimMemory`. -/
def efiACPIReclaimMemory : UInt32 := 9
/-- `EFI_MEMORY_RUNTIME` — the attribute of memory the firmware keeps using. -/
def efiMemoryRuntime : UInt64 := 0x8000000000000000
/-- `EFI_MMAP_NR_SLACK_SLOTS`. -/
def efiMmapNrSlackSlots : UInt64 := 8

/-- `efi_guid_t`. -/
structure EfiGuid where
  /-- First four bytes. -/
  data1 : UInt32
  /-- Next two bytes. -/
  data2 : UInt16
  /-- Next two bytes. -/
  data3 : UInt16
  /-- Last eight bytes, first one highest. -/
  data4 : UInt64
  deriving DecidableEq, Repr

/-- `DEVICE_TREE_GUID`. -/
def deviceTreeGuid : EfiGuid := ⟨0xb1b621d5, 0xf19c, 0x41a5, 0x830bd9152c69aae0⟩
/-- `LINUX_EFI_BOOT_MEMMAP_GUID`. -/
def linuxEfiBootMemmapGuid : EfiGuid := ⟨0x800f683f, 0xd08b, 0x423a, 0xa293965c3c6fe2b4⟩
/-- `DRAGONSTUB_EFI_PAYLOAD_EFI_GUID`. -/
def dragonstubEfiPayloadEfiGuid : EfiGuid := ⟨0xddf1d47c, 0x102c, 0xaaf9, 0xce34bcef98120031⟩
/-- `EFI_MEMORY_ATTRIBUTE_PROTOCOL_GUID`. -/
def efiMemoryAttributeProtocolGuid : EfiGuid := ⟨0xf4560cf6, 0x40ec, 0x4b4a, 0xa192bf1d57d0b189⟩
/-- `EFI_TCG2_PROTOCOL_GUID`. -/
def efiTcg2ProtocolGuid : EfiGuid := ⟨0x607f766c, 0x7455, 0x42be, 0x930be4d76db2720f⟩
/-- `EFI_GLOBAL_VARIABLE_GUID`. -/
def efiGlobalVariableGuid : EfiGuid := ⟨0x8be4df61, 0x93ca, 0x11d2, 0xaa0d00e098032b8c⟩
/-- `EFI_SHIM_LOCK_GUID`. -/
def efiShimLockGuid : EfiGuid := ⟨0x605dab50, 0xe046, 0x4300, 0xabb63dd810dd8b23⟩

/-- `EFI_MEMORY_DESCRIPTOR` with the bytes a firmware adds behind it: a map's descriptors are
`desc_size` bytes each, and the C structure names the first forty. -/
structure EfiMemoryDescriptor where
  /-- `Type`. -/
  memoryType : UInt32
  /-- `Pad`. -/
  pad : UInt32
  /-- `PhysicalStart`. -/
  physicalStart : UInt64
  /-- `VirtualStart`. -/
  virtualStart : UInt64
  /-- `NumberOfPages`. -/
  numberOfPages : UInt64
  /-- `Attribute`. -/
  attributes : UInt64
  /-- The bytes of the descriptor after the C structure. -/
  rest : List UInt8
  deriving DecidableEq, Repr

/-- Whether a descriptor has `EFI_MEMORY_RUNTIME`. -/
def EfiMemoryDescriptor.isRuntime (descriptor : EfiMemoryDescriptor) : Bool :=
  descriptor.attributes &&& efiMemoryRuntime != 0

/-- `struct efi_boot_memmap` — the memory map with the sizes and key it was returned with. -/
structure EfiBootMemmap where
  /-- Bytes of the map. -/
  mapSize : UInt64
  /-- Bytes of one descriptor. -/
  descSize : UInt64
  /-- Version of the descriptors. -/
  descVer : UInt32
  /-- Key of this state of the map. -/
  mapKey : UInt64
  /-- Bytes available for the map. -/
  buffSize : UInt64
  /-- The descriptors. -/
  map : List EfiMemoryDescriptor
  deriving DecidableEq, Repr

/-- `sizeof(struct efi_boot_memmap)`, which is also the offset of its flexible array. -/
def efiBootMemmapSize : UInt64 := 40

/-- Status and out-parameters of `GetMemoryMap`. -/
structure MemoryMapReply where
  /-- Returned status. -/
  status : EfiStatus
  /-- `*MemoryMapSize` after the call. -/
  mapSize : UInt64
  /-- `*MapKey` after the call. -/
  mapKey : UInt64
  /-- `*DescriptorSize` after the call. -/
  descSize : UInt64
  /-- `*DescriptorVersion` after the call. -/
  descVer : UInt32
  /-- The descriptors in the buffer after the call. -/
  map : List EfiMemoryDescriptor
  deriving DecidableEq, Inhabited, Repr

/-- Status of a service with one word out-parameter, and the parameter after the call. -/
structure WordReply where
  /-- Returned status. -/
  status : EfiStatus
  /-- The out-parameter after the call. -/
  value : UInt64
  deriving DecidableEq, Inhabited, Repr

/-- Status, attributes and byte of data after `GetVariable`. -/
structure VariableReply where
  /-- Returned status. -/
  status : EfiStatus
  /-- `*Attributes` after the call. -/
  attributes : UInt32
  /-- `*Data` after the call. -/
  data : UInt8
  deriving DecidableEq, Inhabited, Repr

/-- A point of the stub's own execution that a statement about a run refers to. -/
inductive Point where
  /-- `priv_func` is entered with this map. -/
  | privFunc (map : EfiBootMemmap)
  /-- `efi_allocate_pages_aligned` gave the kernel this region. -/
  | kernelRegion (base size : UInt64)
  /-- `load_program` returned this status. -/
  | loadProgram (status : EfiStatus)
  /-- Bytes from an address on are read. -/
  | read (address : UInt64) (length : Nat)
  /-- Bytes from an address on are written. -/
  | write (address : UInt64) (length : Nat)
  deriving DecidableEq, Repr

/-- What the stub asks of the world. -/
inductive Call where
  /-- `BS->GetMemoryMap`: size of the buffer and its address. -/
  | getMemoryMap (mapSize buffer : UInt64)
  /-- `BS->AllocatePool`. -/
  | allocatePool (memoryType : UInt32) (size : UInt64)
  /-- `BS->FreePool`. -/
  | freePool (buffer : UInt64)
  /-- `BS->AllocatePages`: type of request, memory type, pages, address passed in. -/
  | allocatePages (request memoryType : UInt32) (pages address : UInt64)
  /-- `BS->FreePages`. -/
  | freePages (address pages : UInt64)
  /-- `BS->InstallConfigurationTable`; a null table removes the entry. -/
  | installConfigurationTable (guid : EfiGuid) (table : UInt64)
  /-- `BS->ExitBootServices`. -/
  | exitBootServices (handle mapKey : UInt64)
  /-- `BS->LocateProtocol`. -/
  | locateProtocol (guid : EfiGuid)
  /-- `memattr->get_memory_attributes`. -/
  | getMemoryAttributes (base length : UInt64)
  /-- `memattr->clear_memory_attributes`. -/
  | clearMemoryAttributes (base length attributes : UInt64)
  /-- `tcg2->hash_log_extend_event`: the data, its size, and the event. -/
  | hashLogExtendEvent (tcg2 flags address size event : UInt64)
  /-- `RT->GetVariable`. -/
  | getVariable (name : String) (vendor : EfiGuid) (size : UInt64)
  /-- `RT->SetVirtualAddressMap`. -/
  | setVirtualAddressMap (mapSize descSize : UInt64) (descVer : UInt32)
      (map : List EfiMemoryDescriptor)
  /-- A read of `ST->ConfigurationTable`. -/
  | configurationTable
  /-- `Print`: the format and the words it is given. -/
  | print (format : String) (args : List UInt64)
  /-- `while (1);` -/
  | hang
  /-- The jump to the kernel, with the hart and the device tree in registers. -/
  | jumpKernel (entry hartid fdt : UInt64)
  /-- Nothing is asked: the run has reached a point. -/
  | reach (point : Point)
  deriving DecidableEq, Repr

/-- What each call is answered with. A loop without exit is never answered. -/
@[reducible] def Call.Reply : Call → Type
  | .getMemoryMap .. => MemoryMapReply
  | .allocatePool .. => WordReply
  | .freePool .. => EfiStatus
  | .allocatePages .. => WordReply
  | .freePages .. => EfiStatus
  | .installConfigurationTable .. => EfiStatus
  | .exitBootServices .. => EfiStatus
  | .locateProtocol .. => WordReply
  | .getMemoryAttributes .. => WordReply
  | .clearMemoryAttributes .. => EfiStatus
  | .hashLogExtendEvent .. => EfiStatus
  | .getVariable .. => VariableReply
  | .setVirtualAddressMap .. => EfiStatus
  | .configurationTable => List (EfiGuid × UInt64)
  | .print .. => Unit
  | .hang => Empty
  | .jumpKernel .. => Unit
  | .reach .. => Unit

/-- Whether a call goes through the boot services table. -/
def Call.isBootService : Call → Bool
  | .getMemoryMap .. | .allocatePool .. | .freePool .. | .allocatePages .. | .freePages ..
  | .installConfigurationTable .. | .exitBootServices .. | .locateProtocol .. => true
  | _ => false

/-- Whether a call writes to the console. -/
def Call.isConsole : Call → Bool
  | .print .. => true
  | _ => false

/-- Whether a call is a point of the run rather than something asked. -/
def Call.isPoint : Call → Bool
  | .reach .. => true
  | _ => false

/-- One call of a run with its reply. -/
abbrev Event := Interaction.Event Call.Reply

/-- A program of the stub. -/
abbrev Stub := Prog Call.Reply

/-- No call of a kind is made. -/
def Lacks (kind : Call → Bool) (events : List Event) : Prop :=
  ∀ event ∈ events, kind event.op = false

/-- An empty trace lacks every kind. -/
@[simp] theorem lacks_nil {kind : Call → Bool} : Lacks kind [] := by simp [Lacks]

/-- A trace lacks a kind when its first event and the rest do. -/
@[simp] theorem lacks_cons {kind : Call → Bool} {event : Event}
    {events : List Event} :
    Lacks kind (event :: events) ↔ kind event.op = false ∧ Lacks kind events := by
  simp [Lacks]

/-- Two parts of a trace lack a kind when both do. -/
@[simp] theorem lacks_append {kind : Call → Bool} {first second : List Event} :
    Lacks kind (first ++ second) ↔ Lacks kind first ∧ Lacks kind second := by
  simp [Lacks, or_imp, forall_and]

/-- `efi_printk`. -/
def efiPrintk (format : String) (args : List UInt64) : Stub Unit := perform (Call.print format args)

/-- `efi_info`. -/
def efiInfo (format : String) (args : List UInt64) : Stub Unit :=
  efiPrintk ("[INFO]: " ++ format) args

/-- `efi_warn`. -/
def efiWarn (format : String) (args : List UInt64) : Stub Unit :=
  efiPrintk ("[WARNING]: " ++ format) args

/-- `efi_err`. -/
def efiErr (format : String) (args : List UInt64) : Stub Unit :=
  efiPrintk ("[ERROR]: " ++ format) args

/-- `efi_debug`. -/
def efiDebug (format : String) (args : List UInt64) : Stub Unit :=
  efiPrintk ("[DEBUG]: " ++ format) args

/-- `efi_todo` — report and loop forever. -/
def efiTodo {α : Type} (text : String) : Stub α := do
  efiPrintk ("Not yet implemented: " ++ text) []
  let never ← perform Call.hang
  nomatch never

end DragonStub

import DragonStub.Boot.LibfdtRw

/-!
# libfdt: writing a device tree from the front

`fdt_sw.c` as far as `fdt_empty_tree.c` uses it. While a tree is written its magic number is that of
the unfinished state, and the tokens grow behind each other into the buffer; `fdt_finish` moves the
strings behind the structure block, corrects the offsets of names and sets the magic number of a tree.
-/

namespace DragonStub

open ByteMemory Word

/-- `FDT_CREATE_FLAG_NO_NAME_DEDUP`. -/
def fdtCreateFlagNoNameDedup : UInt32 := 1

/-- `FDT_CREATE_FLAGS_ALL`. -/
def fdtCreateFlagsAll : UInt32 := fdtCreateFlagNoNameDedup

/-- `fdt_sw_probe_`. -/
def fdtSwProbe (fdt : UInt64) : Edit Memory Unit := do
  let m ← get
  Edit.failIf (fdtMagic m fdt == fdtMagicWord) (-fdtErrBadstate)
  Edit.failIf (fdtMagic m fdt != fdtSwMagic) (-fdtErrBadmagic)

/-- `fdt_sw_probe_memrsv_`. -/
def fdtSwProbeMemrsv (fdt : UInt64) : Edit Memory Unit := do
  fdtSwProbe fdt
  let m ← get
  Edit.failIf (fdtOffDtStrings m fdt != 0) (-fdtErrBadstate)

/-- `fdt_sw_probe_struct_`. -/
def fdtSwProbeStruct (fdt : UInt64) : Edit Memory Unit := do
  fdtSwProbe fdt
  let m ← get
  Edit.failIf (fdtOffDtStrings m fdt != fdtTotalsize m fdt) (-fdtErrBadstate)

/-- `fdt_grab_space_`. -/
def fdtGrabSpace (fdt len : UInt64) : Edit Memory UInt64 := do
  let m ← get
  let offset := fdtSizeDtStruct m fdt
  let spaceleft := fdtTotalsize m fdt - fdtOffDtStruct m fdt - fdtSizeDtStrings m fdt
  Edit.failIf (offset.toUInt64 + len < offset.toUInt64 || offset.toUInt64 + len > spaceleft.toUInt64)
    (-fdtErrNospace)
  fdtSetSizeDtStruct fdt fun _ => (offset.toUInt64 + len).toUInt32
  return fdtOffsetPtr_ (← get) fdt offset.toInt32

/-- `fdt_create_with_flags`. -/
def fdtCreateWithFlags (buf : UInt64) (bufsize : Int32) (flags : UInt32) : Edit Memory Unit := do
  Edit.failIf (bufsize < 48) (-fdtErrNospace)
  Edit.failIf (flags &&& ~~~fdtCreateFlagsAll != 0) (-fdtErrBadflags)
  modify fun m => fill m buf 0 bufsize.toUInt32.toNat
  fdtSetMagic buf fun _ => fdtSwMagic
  fdtSetVersion buf fun _ => fdtLastSupportedVersion
  fdtSetLastCompVersion buf fun _ => flags
  fdtSetTotalsize buf fun _ => bufsize.toUInt32
  fdtSetOffMemRsvmap buf fun _ => 48
  fdtSetOffDtStruct buf fun m => fdtOffMemRsvmap m buf
  fdtSetOffDtStrings buf fun _ => 0

/-- `fdt_create`. -/
def fdtCreate (buf : UInt64) (bufsize : Int32) : Edit Memory Unit := fdtCreateWithFlags buf bufsize 0

/-- `fdt_add_reservemap_entry`. -/
def fdtAddReservemapEntry (fdt addr size : UInt64) : Edit Memory Unit := do
  fdtSwProbeMemrsv fdt
  let m ← get
  let offset := (fdtOffDtStruct m fdt).toInt32
  Edit.failIf (ofInt offset + 16 > (fdtTotalsize m fdt).toUInt64) (-fdtErrNospace)
  let re := fdt + ofInt offset
  Edit.write re fun _ => cpuToFdt64 addr
  Edit.write (re + 8) fun _ => cpuToFdt64 size
  fdtSetOffDtStruct fdt fun _ => (ofInt offset + 16).toUInt32

/-- `fdt_finish_reservemap`. -/
def fdtFinishReservemap (fdt : UInt64) : Edit Memory Unit := do
  fdtAddReservemapEntry fdt 0 0
  fdtSetOffDtStrings fdt fun m => fdtTotalsize m fdt

/-- `fdt_begin_node`. -/
def fdtSwBeginNode (fdt : UInt64) (name : List UInt8) : Edit Memory Unit := do
  fdtSwProbeStruct fdt
  let nh ← fdtGrabSpace fdt (4 + fdtTagalign (ofInt (Int32.ofNat (name.length + 1))))
  Edit.write nh fun _ => cpuToFdt32 fdtBeginNode
  Edit.write (nh + 4) fun _ => name ++ [0]

/-- `fdt_end_node`. -/
def fdtSwEndNode (fdt : UInt64) : Edit Memory Unit := do
  fdtSwProbeStruct fdt
  let en ← fdtGrabSpace fdt 4
  Edit.write en fun _ => cpuToFdt32 fdtEndNode

/-- The loop of `fdt_finish`, which corrects the offsets of names; `nextoffset` at its end. -/
def correctOffsets (fdt : UInt64) : Nat → Int32 → Edit Memory Int32
  | 0, _ => return -fdtErrInternal
  | turns + 1, offset => do
    let (tag, nextoffset) := fdtNextTag (← get) fdt offset
    if tag == fdtEnd then return nextoffset
    else do
      if tag == fdtProp then
        let prop := fdtOffsetPtr_ (← get) fdt offset
        Edit.write (prop + 8) fun m => cpuToFdt32 (fdt32Ld m (prop + 8) + fdtSizeDtStrings m fdt)
      correctOffsets fdt turns nextoffset

/-- `fdt_finish`. -/
def fdtFinish (fdt : UInt64) : Edit Memory Unit := do
  fdtSwProbeStruct fdt
  let cell ← fdtGrabSpace fdt 4
  Edit.write cell fun _ => cpuToFdt32 fdtEnd
  let m ← get
  let oldstroffset := (fdtTotalsize m fdt - fdtSizeDtStrings m fdt).toInt32
  let newstroffset := (fdtOffDtStruct m fdt + fdtSizeDtStruct m fdt).toInt32
  set (memmove m (fdt + ofInt newstroffset) (fdt + ofInt oldstroffset)
    (fdtSizeDtStrings m fdt).toUInt64).2
  fdtSetOffDtStrings fdt fun _ => newstroffset.toUInt32
  let nextoffset ← correctOffsets fdt (fdtTurns m fdt) 0
  Edit.failIf (nextoffset < 0) nextoffset
  fdtSetTotalsize fdt fun m => newstroffset.toUInt32 + fdtSizeDtStrings m fdt
  fdtSetLastCompVersion fdt fun _ => fdtLastCompatibleVersion
  fdtSetMagic fdt fun _ => fdtMagicWord

/-- `fdt_create_empty_tree`. -/
def fdtCreateEmptyTree (buf : UInt64) (bufsize : Int32) : Edit Memory Unit := do
  fdtCreate buf bufsize
  fdtFinishReservemap buf
  fdtSwBeginNode buf []
  fdtSwEndNode buf
  fdtFinish buf
  fdtOpenInto buf buf bufsize

end DragonStub

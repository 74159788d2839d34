import DragonStub.Boot.Libfdt

/-!
# libfdt: changing a device tree

`fdt_rw.c` and `fdt_wip.c`. Memory is the state, and a function stops at the status it returns when
that is not zero. Text and values that are handed to libfdt are lists of bytes.
-/

namespace DragonStub

open ByteMemory Word

/-- Stop with a status when a check fails. -/
def Edit.failIf {Blob : Type} (bad : Bool) (status : Int32) : Edit Blob Unit :=
  if bad then throw status else pure ()

/-- Write bytes, which memory may decide. -/
def Edit.write (address : UInt64) (bytes : Memory → List UInt8) : Edit Memory Unit :=
  modify fun m => storeAll m address (bytes m)

/-- `fdt_set_magic`. -/
def fdtSetMagic (fdt : UInt64) (val : Memory → UInt32) : Edit Memory Unit :=
  Edit.write fdt fun m => cpuToFdt32 (val m)

/-- `fdt_set_totalsize`. -/
def fdtSetTotalsize (fdt : UInt64) (val : Memory → UInt32) : Edit Memory Unit :=
  Edit.write (fdt + 4) fun m => cpuToFdt32 (val m)

/-- `fdt_set_off_dt_struct`. -/
def fdtSetOffDtStruct (fdt : UInt64) (val : Memory → UInt32) : Edit Memory Unit :=
  Edit.write (fdt + 8) fun m => cpuToFdt32 (val m)

/-- `fdt_set_off_dt_strings`. -/
def fdtSetOffDtStrings (fdt : UInt64) (val : Memory → UInt32) : Edit Memory Unit :=
  Edit.write (fdt + 12) fun m => cpuToFdt32 (val m)

/-- `fdt_set_off_mem_rsvmap`. -/
def fdtSetOffMemRsvmap (fdt : UInt64) (val : Memory → UInt32) : Edit Memory Unit :=
  Edit.write (fdt + 16) fun m => cpuToFdt32 (val m)

/-- `fdt_set_version`. -/
def fdtSetVersion (fdt : UInt64) (val : Memory → UInt32) : Edit Memory Unit :=
  Edit.write (fdt + 20) fun m => cpuToFdt32 (val m)

/-- `fdt_set_last_comp_version`. -/
def fdtSetLastCompVersion (fdt : UInt64) (val : Memory → UInt32) : Edit Memory Unit :=
  Edit.write (fdt + 24) fun m => cpuToFdt32 (val m)

/-- `fdt_set_boot_cpuid_phys`. -/
def fdtSetBootCpuidPhys (fdt : UInt64) (val : Memory → UInt32) : Edit Memory Unit :=
  Edit.write (fdt + 28) fun m => cpuToFdt32 (val m)

/-- `fdt_set_size_dt_strings`. -/
def fdtSetSizeDtStrings (fdt : UInt64) (val : Memory → UInt32) : Edit Memory Unit :=
  Edit.write (fdt + 32) fun m => cpuToFdt32 (val m)

/-- `fdt_set_size_dt_struct`. -/
def fdtSetSizeDtStruct (fdt : UInt64) (val : Memory → UInt32) : Edit Memory Unit :=
  Edit.write (fdt + 36) fun m => cpuToFdt32 (val m)

/-- `fdt_blocks_misordered_`. -/
def fdtBlocksMisordered (m : Memory) (fdt : UInt64) (memRsvSize structSize : Int32) : Bool :=
  fdtOffMemRsvmap m fdt < 40 ||
    fdtOffDtStruct m fdt < fdtOffMemRsvmap m fdt + memRsvSize.toUInt32 ||
    fdtOffDtStrings m fdt < fdtOffDtStruct m fdt + structSize.toUInt32 ||
    fdtTotalsize m fdt < fdtOffDtStrings m fdt + fdtSizeDtStrings m fdt

/-- `fdt_rw_probe_`. -/
def fdtRwProbe (fdt : UInt64) : Edit Memory Unit := do
  let m ← get
  Edit.failIf (fdtRoProbe m fdt < 0) (fdtRoProbe m fdt)
  Edit.failIf (fdtVersion m fdt < 17) (-fdtErrBadversion)
  Edit.failIf (fdtBlocksMisordered m fdt 16 (fdtSizeDtStruct m fdt).toInt32) (-fdtErrBadlayout)
  if fdtVersion m fdt > 17 then
    fdtSetVersion fdt fun _ => 17

/-- `fdt_data_size_`. -/
def fdtDataSize (m : Memory) (fdt : UInt64) : UInt32 := fdtOffDtStrings m fdt + fdtSizeDtStrings m fdt

/-- `fdt_splice_`. -/
def fdtSplice (fdt p : UInt64) (oldlen newlen : Int32) : Edit Memory Unit := do
  let m ← get
  let dsize := fdtDataSize m fdt
  let soff := p - fdt
  Edit.failIf (oldlen < 0 || soff + ofInt oldlen < soff || soff + ofInt oldlen > dsize.toUInt64)
    (-fdtErrBadoffset)
  Edit.failIf (p < fdt || dsize + newlen.toUInt32 < oldlen.toUInt32) (-fdtErrBadoffset)
  Edit.failIf (dsize - oldlen.toUInt32 + newlen.toUInt32 > fdtTotalsize m fdt) (-fdtErrNospace)
  set (memmove m (p + ofInt newlen) (p + ofInt oldlen)
    (fdt + dsize.toUInt64 - (p + ofInt oldlen))).2

/-- `fdt_splice_mem_rsv_`. -/
def fdtSpliceMemRsv (fdt p : UInt64) (oldn newn : Int32) : Edit Memory Unit := do
  let delta := toInt (ofInt (newn - oldn) * 16)
  fdtSplice fdt p (toInt (ofInt oldn * 16)) (toInt (ofInt newn * 16))
  fdtSetOffDtStruct fdt fun m => fdtOffDtStruct m fdt + delta.toUInt32
  fdtSetOffDtStrings fdt fun m => fdtOffDtStrings m fdt + delta.toUInt32

/-- `fdt_splice_struct_`. -/
def fdtSpliceStruct (fdt p : UInt64) (oldlen newlen : Int32) : Edit Memory Unit := do
  let delta := newlen - oldlen
  fdtSplice fdt p oldlen newlen
  fdtSetSizeDtStruct fdt fun m => fdtSizeDtStruct m fdt + delta.toUInt32
  fdtSetOffDtStrings fdt fun m => fdtOffDtStrings m fdt + delta.toUInt32

/-- `fdt_del_last_string_`. -/
def fdtDelLastString (fdt : UInt64) (s : List UInt8) : Edit Memory Unit := do
  let newlen := Int32.ofNat (s.length + 1)
  fdtSetSizeDtStrings fdt fun m => fdtSizeDtStrings m fdt - newlen.toUInt32

/-- `fdt_splice_string_`. -/
def fdtSpliceString (fdt : UInt64) (newlen : Int32) : Edit Memory Unit := do
  let m ← get
  fdtSplice fdt (fdt + (fdtOffDtStrings m fdt).toUInt64 + (fdtSizeDtStrings m fdt).toUInt64) 0 newlen
  fdtSetSizeDtStrings fdt fun m => fdtSizeDtStrings m fdt + newlen.toUInt32

/-- `fdt_find_add_string_` — what it returns, and `*allocated`. -/
def fdtFindAddString (fdt : UInt64) (s : List UInt8) : Edit Memory (Int32 × Bool) := do
  let m ← get
  let strtab := fdt + (fdtOffDtStrings m fdt).toUInt64
  match fdtFindString m strtab (fdtSizeDtStrings m fdt).toInt32 s with
  | some place => return (Int32.ofNat place, false)
  | none =>
    fdtSpliceString fdt (Int32.ofNat (s.length + 1))
    Edit.write (strtab + (fdtSizeDtStrings m fdt).toUInt64) fun _ => s ++ [0]
    return ((fdtSizeDtStrings m fdt).toInt32, true)

/-- `fdt_add_mem_rsv`. -/
def fdtAddMemRsv (fdt address size : UInt64) : Edit Memory Unit := do
  fdtRwProbe fdt
  let m ← get
  let re := fdtMemRsv_ m fdt (fdtNumMemRsv m fdt)
  fdtSpliceMemRsv fdt re 0 1
  Edit.write re fun _ => cpuToFdt64 address
  Edit.write (re + 8) fun _ => cpuToFdt64 size

/-- `fdt_del_mem_rsv`. -/
def fdtDelMemRsv (fdt : UInt64) (n : Int32) : Edit Memory Unit := do
  let re := fdtMemRsv_ (← get) fdt n
  fdtRwProbe fdt
  let m ← get
  Edit.failIf (n ≥ fdtNumMemRsv m fdt) (-fdtErrNotfound)
  fdtSpliceMemRsv fdt re 1 0

/-- `FDT_TAGALIGN`, of an `int`. -/
def fdtTagalignInt (len : Int32) : Int32 := toInt (fdtTagalign (ofInt len))

/-- `fdt_resize_property_` — `*prop`. -/
def fdtResizeProperty (fdt : UInt64) (nodeoffset : Int32) (name : List UInt8) (len : Int32) :
    Edit Memory UInt64 := do
  match fdtGetProperty (← get) fdt nodeoffset name with
  | .error oldlen => throw oldlen
  | .ok (prop, oldlen) =>
    fdtSpliceStruct fdt (prop + 12) (fdtTagalignInt oldlen) (fdtTagalignInt len)
    Edit.write (prop + 4) fun _ => cpuToFdt32 len.toUInt32
    return prop

/-- `fdt_add_property_` — `*prop`. -/
def fdtAddProperty (fdt : UInt64) (nodeoffset : Int32) (name : List UInt8) (len : Int32) :
    Edit Memory UInt64 := do
  let nextoffset := fdtCheckNodeOffset (← get) fdt nodeoffset
  Edit.failIf (nextoffset < 0) nextoffset
  let (namestroff, allocated) ← fdtFindAddString fdt name
  Edit.failIf (namestroff < 0) namestroff
  let prop := fdtOffsetPtr_ (← get) fdt nextoffset
  let proplen := toInt (12 + fdtTagalign (ofInt len))
  tryCatch (fdtSpliceStruct fdt prop 0 proplen) fun err => do
    -- Delete the string again.
    if allocated then
      fdtDelLastString fdt name
    throw err
  Edit.write prop fun _ => cpuToFdt32 fdtProp
  Edit.write (prop + 8) fun _ => cpuToFdt32 namestroff.toUInt32
  Edit.write (prop + 4) fun _ => cpuToFdt32 len.toUInt32
  return prop

/-- `fdt_setprop_placeholder` — `*prop_data`. -/
def fdtSetpropPlaceholder (fdt : UInt64) (nodeoffset : Int32) (name : List UInt8) (len : Int32) :
    Edit Memory UInt64 := do
  fdtRwProbe fdt
  let prop ← tryCatch (fdtResizeProperty fdt nodeoffset name len) fun err =>
    if err == -fdtErrNotfound then fdtAddProperty fdt nodeoffset name len else throw err
  return prop + 12

/-- `fdt_setprop`. -/
def fdtSetprop (fdt : UInt64) (nodeoffset : Int32) (name val : List UInt8) : Edit Memory Unit := do
  let propData ← fdtSetpropPlaceholder fdt nodeoffset name (Int32.ofNat val.length)
  Edit.write propData fun _ => val

/-- The loop of `fdt_add_subnode_namelen`: the offset behind properties and what is no token. -/
def behindProps (m : Memory) (fdt : UInt64) : Nat → Int32 → Int32
  | 0, _ => -fdtErrInternal
  | turns + 1, offset =>
    let (tag, nextoffset) := fdtNextTag m fdt offset
    if tag == fdtProp || tag == fdtNop then behindProps m fdt turns nextoffset else offset

/-- `fdt_add_subnode_namelen` from the offset of the new node on. -/
def writeSubnode (fdt : UInt64) (offset : Int32) (name : List UInt8) : Edit Memory Int32 := do
  let nh := fdtOffsetPtr_ (← get) fdt offset
  let size := fdtTagalign (UInt64.ofNat (name.length + 1))
  let nodelen := toInt (4 + size + 4)
  fdtSpliceStruct fdt nh 0 nodelen
  Edit.write nh fun _ => cpuToFdt32 fdtBeginNode
  Edit.write (nh + 4) fun _ => List.replicate size.toNat 0
  Edit.write (nh + 4) fun _ => name
  Edit.write (nh + ofInt nodelen - 4) fun _ => cpuToFdt32 fdtEndNode
  return offset

/-- `fdt_add_subnode_namelen` — what it returns when that is an offset. -/
def fdtAddSubnodeNamelen (fdt : UInt64) (parentoffset : Int32) (name : List UInt8) :
    Edit Memory Int32 := do
  fdtRwProbe fdt
  let m ← get
  let found := fdtSubnodeOffsetNamelen m fdt parentoffset name
  Edit.failIf (found ≥ 0) (-fdtErrExists)
  Edit.failIf (found != -fdtErrNotfound) found
  let (tag, nextoffset) := fdtNextTag m fdt parentoffset
  Edit.failIf (tag != fdtBeginNode) (-fdtErrInternal)
  writeSubnode fdt (behindProps m fdt (fdtTurns m fdt) nextoffset) name

/-- `fdt_add_subnode`. -/
def fdtAddSubnode (fdt : UInt64) (parentoffset : Int32) (name : List UInt8) : Edit Memory Int32 :=
  fdtAddSubnodeNamelen fdt parentoffset name

/-- `fdt_packblocks_`. -/
def fdtPackblocks (old new : UInt64) (memRsvSize structSize stringsSize : Int32) :
    Edit Memory Unit := do
  let memRsvOff : Int32 := 40
  let structOff := memRsvOff + memRsvSize
  let stringsOff := structOff + structSize
  modify fun m => (memmove m (new + ofInt memRsvOff) (old + (fdtOffMemRsvmap m old).toUInt64)
    (ofInt memRsvSize)).2
  fdtSetOffMemRsvmap new fun _ => memRsvOff.toUInt32
  modify fun m => (memmove m (new + ofInt structOff) (old + (fdtOffDtStruct m old).toUInt64)
    (ofInt structSize)).2
  fdtSetOffDtStruct new fun _ => structOff.toUInt32
  fdtSetSizeDtStruct new fun _ => structSize.toUInt32
  modify fun m => (memmove m (new + ofInt stringsOff) (old + (fdtOffDtStrings m old).toUInt64)
    (ofInt stringsSize)).2
  fdtSetOffDtStrings new fun _ => stringsOff.toUInt32
  fdtSetSizeDtStrings new fun m => fdtSizeDtStrings m old

/-- `fdt_move`. -/
def fdtMove (fdt buf : UInt64) (bufsize : Int32) : Edit Memory Unit := do
  let m ← get
  Edit.failIf (bufsize < 0) (-fdtErrNospace)
  Edit.failIf (fdtRoProbe m fdt < 0) (fdtRoProbe m fdt)
  Edit.failIf (fdtTotalsize m fdt > bufsize.toUInt32) (-fdtErrNospace)
  set (memmove m buf fdt (fdtTotalsize m fdt).toUInt64).2

/-- The loop of `fdt_open_into` over the tokens of a tree of version 16. -/
def structEnd (m : Memory) (fdt : UInt64) : Nat → Int32 → Int32
  | 0, _ => -fdtErrInternal
  | turns + 1, structSize =>
    let (tag, nextoffset) := fdtNextTag m fdt structSize
    if tag != fdtEnd then structEnd m fdt turns nextoffset else nextoffset

/-- The size of the structure block, as `fdt_open_into` gets it. -/
def openStructSize (m : Memory) (fdt : UInt64) : Edit Memory Int32 :=
  if fdtVersion m fdt ≥ 17 then return (fdtSizeDtStruct m fdt).toInt32
  else if fdtVersion m fdt == 16 then do
    let structSize := structEnd m fdt (fdtTurns m fdt) 0
    Edit.failIf (structSize < 0) structSize
    return structSize
  else throw (-fdtErrBadversion)

/-- The part of `fdt_open_into` that keeps the order of the blocks. -/
def openMoved (fdt buf : UInt64) (bufsize structSize : Int32) : Edit Memory Unit := do
  fdtMove fdt buf bufsize
  fdtSetVersion buf fun _ => 17
  fdtSetSizeDtStruct buf fun _ => structSize.toUInt32
  fdtSetTotalsize buf fun _ => bufsize.toUInt32

/-- The part of `fdt_open_into` that puts the blocks into order. -/
def openReordered (fdt buf fdtend : UInt64) (bufsize memRsvSize structSize : Int32) :
    Edit Memory Unit := do
  let m ← get
  let newsize := (40 + memRsvSize.toUInt32 + structSize.toUInt32 + fdtSizeDtStrings m fdt).toInt32
  Edit.failIf (bufsize < newsize) (-fdtErrNospace)
  let overlaps := buf + ofInt newsize > fdt && buf < fdtend
  let tmp := if overlaps then fdtend else buf
  Edit.failIf (overlaps && tmp + ofInt newsize > buf + ofInt bufsize) (-fdtErrNospace)
  fdtPackblocks fdt tmp memRsvSize structSize (fdtSizeDtStrings m fdt).toInt32
  modify fun m => (memmove m buf tmp (ofInt newsize)).2
  fdtSetMagic buf fun _ => fdtMagicWord
  fdtSetTotalsize buf fun _ => bufsize.toUInt32
  fdtSetVersion buf fun _ => 17
  fdtSetLastCompVersion buf fun _ => 16
  fdtSetBootCpuidPhys buf fun m => fdtBootCpuidPhys m fdt

/-- `fdt_open_into`. -/
def fdtOpenInto (fdt buf : UInt64) (bufsize : Int32) : Edit Memory Unit := do
  let m ← get
  let fdtend := fdt + (fdtTotalsize m fdt).toUInt64
  Edit.failIf (fdtRoProbe m fdt < 0) (fdtRoProbe m fdt)
  let memRsvSize := toInt (ofInt (fdtNumMemRsv m fdt + 1) * 16)
  let structSize ← openStructSize m fdt
  if !fdtBlocksMisordered m fdt memRsvSize structSize then openMoved fdt buf bufsize structSize
  else openReordered fdt buf fdtend bufsize memRsvSize structSize

/-- `fdt_pack`. -/
def fdtPack (fdt : UInt64) : Edit Memory Unit := do
  fdtRwProbe fdt
  let m ← get
  let memRsvSize := toInt (ofInt (fdtNumMemRsv m fdt + 1) * 16)
  fdtPackblocks fdt fdt memRsvSize (fdtSizeDtStruct m fdt).toInt32 (fdtSizeDtStrings m fdt).toInt32
  fdtSetTotalsize fdt fun m => fdtDataSize m fdt

/-- `fdt_setprop_inplace_namelen_partial`. -/
def fdtSetpropInplaceNamelenPartial (fdt : UInt64) (nodeoffset : Int32) (name : List UInt8)
    (idx : UInt32) (val : List UInt8) : Edit Memory Unit := do
  match fdtGetpropNamelen (← get) fdt nodeoffset name with
  | .error proplen => throw proplen
  | .ok (propval, proplen) =>
    Edit.failIf (proplen.toUInt32 < UInt32.ofNat val.length + idx) (-fdtErrNospace)
    Edit.write (propval + idx.toUInt64) fun _ => val

/-- `fdt_setprop_inplace`. -/
def fdtSetpropInplace (fdt : UInt64) (nodeoffset : Int32) (name val : List UInt8) :
    Edit Memory Unit := do
  match fdtGetprop (← get) fdt nodeoffset name with
  | .error proplen => throw proplen
  | .ok (_, proplen) =>
    Edit.failIf (proplen != Int32.ofNat val.length) (-fdtErrNospace)
    fdtSetpropInplaceNamelenPartial fdt nodeoffset name 0 val

end DragonStub

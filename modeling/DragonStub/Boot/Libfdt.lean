import DragonStub.Base.ByteBlock
import DragonStub.Boot.Fdt
import DragonStub.Boot.Routines

/-!
# libfdt: flattened device trees in memory

`fdt.c` and the part of `fdt_ro.c` that finds nodes and properties. A device tree is a place in
memory, and a function that only reads it is a function of memory. No assumption of `can_assume` is
made, so every check is there. Text that is handed to libfdt is a list of bytes. A loop is given a
number of turns that is above the size of the tree, and every turn goes forward by a byte at least.
-/

namespace DragonStub

open ByteMemory Word

/-- `FDT_MAGIC`. -/
def fdtMagicWord : UInt32 := 0xd00dfeed

/-- `FDT_SW_MAGIC`. -/
def fdtSwMagic : UInt32 := ~~~fdtMagicWord

/-- `FDT_FIRST_SUPPORTED_VERSION`. -/
def fdtFirstSupportedVersion : UInt32 := 0x02

/-- `FDT_LAST_COMPATIBLE_VERSION`. -/
def fdtLastCompatibleVersion : UInt32 := 0x10

/-- `FDT_LAST_SUPPORTED_VERSION`. -/
def fdtLastSupportedVersion : UInt32 := 0x11

/-- `FDT_BEGIN_NODE`. -/
def fdtBeginNode : UInt32 := 1

/-- `FDT_END_NODE`. -/
def fdtEndNode : UInt32 := 2

/-- `FDT_PROP`. -/
def fdtProp : UInt32 := 3

/-- `FDT_NOP`. -/
def fdtNop : UInt32 := 4

/-- `FDT_END`. -/
def fdtEnd : UInt32 := 9

/-- `FDT_ERR_NOTFOUND`. -/
def fdtErrNotfound : Int32 := 1

/-- `FDT_ERR_EXISTS`. -/
def fdtErrExists : Int32 := 2

/-- `FDT_ERR_BADOFFSET`. -/
def fdtErrBadoffset : Int32 := 4

/-- `FDT_ERR_BADSTATE`. -/
def fdtErrBadstate : Int32 := 7

/-- `FDT_ERR_TRUNCATED`. -/
def fdtErrTruncated : Int32 := 8

/-- `FDT_ERR_BADMAGIC`. -/
def fdtErrBadmagic : Int32 := 9

/-- `FDT_ERR_BADVERSION`. -/
def fdtErrBadversion : Int32 := 10

/-- `FDT_ERR_BADSTRUCTURE`. -/
def fdtErrBadstructure : Int32 := 11

/-- `FDT_ERR_BADLAYOUT`. -/
def fdtErrBadlayout : Int32 := 12

/-- `FDT_ERR_INTERNAL`. -/
def fdtErrInternal : Int32 := 13

/-- `FDT_ERR_BADFLAGS`. -/
def fdtErrBadflags : Int32 := 18

/-- `FDT_ERR_ALIGNMENT`. -/
def fdtErrAlignment : Int32 := 19

/-- `FDT_TAGALIGN`, of a number that fits a `size_t`. -/
def fdtTagalign (x : UInt64) : UInt64 := (x + 3) &&& ~~~3

/-- `fdt32_ld`. -/
def fdt32Ld (m : Memory) (p : UInt64) : UInt32 :=
  (m p).toUInt32 <<< 24 ||| (m (p + 1)).toUInt32 <<< 16 ||| (m (p + 2)).toUInt32 <<< 8 |||
    (m (p + 3)).toUInt32

/-- `fdt64_ld`. -/
def fdt64Ld (m : Memory) (p : UInt64) : UInt64 :=
  (m p).toUInt64 <<< 56 ||| (m (p + 1)).toUInt64 <<< 48 ||| (m (p + 2)).toUInt64 <<< 40 |||
    (m (p + 3)).toUInt64 <<< 32 ||| (m (p + 4)).toUInt64 <<< 24 ||| (m (p + 5)).toUInt64 <<< 16 |||
    (m (p + 6)).toUInt64 <<< 8 ||| (m (p + 7)).toUInt64

/-- `fdt_magic`. -/
def fdtMagic (m : Memory) (fdt : UInt64) : UInt32 := fdt32Ld m fdt

/-- `fdt_totalsize`. -/
def fdtTotalsize (m : Memory) (fdt : UInt64) : UInt32 := fdt32Ld m (fdt + 4)

/-- `fdt_off_dt_struct`. -/
def fdtOffDtStruct (m : Memory) (fdt : UInt64) : UInt32 := fdt32Ld m (fdt + 8)

/-- `fdt_off_dt_strings`. -/
def fdtOffDtStrings (m : Memory) (fdt : UInt64) : UInt32 := fdt32Ld m (fdt + 12)

/-- `fdt_off_mem_rsvmap`. -/
def fdtOffMemRsvmap (m : Memory) (fdt : UInt64) : UInt32 := fdt32Ld m (fdt + 16)

/-- `fdt_version`. -/
def fdtVersion (m : Memory) (fdt : UInt64) : UInt32 := fdt32Ld m (fdt + 20)

/-- `fdt_last_comp_version`. -/
def fdtLastCompVersion (m : Memory) (fdt : UInt64) : UInt32 := fdt32Ld m (fdt + 24)

/-- `fdt_boot_cpuid_phys`. -/
def fdtBootCpuidPhys (m : Memory) (fdt : UInt64) : UInt32 := fdt32Ld m (fdt + 28)

/-- `fdt_size_dt_strings`. -/
def fdtSizeDtStrings (m : Memory) (fdt : UInt64) : UInt32 := fdt32Ld m (fdt + 32)

/-- `fdt_size_dt_struct`. -/
def fdtSizeDtStruct (m : Memory) (fdt : UInt64) : UInt32 := fdt32Ld m (fdt + 36)

/-- `fdt_ro_probe_`. -/
def fdtRoProbe (m : Memory) (fdt : UInt64) : Int32 :=
  let totalsize := fdtTotalsize m fdt
  let status : Int32 :=
    if fdt &&& 7 != 0 then -fdtErrAlignment
    else if fdtMagic m fdt == fdtMagicWord then
      if fdtVersion m fdt < fdtFirstSupportedVersion then -fdtErrBadversion
      else if fdtLastCompVersion m fdt > fdtLastSupportedVersion then -fdtErrBadversion
      else 0
    else if fdtMagic m fdt == fdtSwMagic then
      if fdtSizeDtStruct m fdt == 0 then -fdtErrBadstate else 0
    else -fdtErrBadmagic
  if status != 0 then status
  else if totalsize < 0x7fffffff then totalsize.toInt32
  else -fdtErrTruncated

/-- `check_off_`. -/
def checkOff (hdrsize totalsize off : UInt32) : Bool := off ≥ hdrsize && off ≤ totalsize

/-- `check_block_`. -/
def checkBlock (hdrsize totalsize base size : UInt32) : Bool :=
  if !checkOff hdrsize totalsize base then false
  else if base + size < base then false
  else checkOff hdrsize totalsize (base + size)

/-- `fdt_header_size_`. -/
def fdtHeaderSizeOf (version : UInt32) : UInt32 :=
  if version ≤ 1 then 28
  else if version ≤ 2 then 32
  else if version ≤ 3 then 36
  else if version ≤ 16 then 36
  else 40

/-- `fdt_header_size`. -/
def fdtHeaderSize (m : Memory) (fdt : UInt64) : UInt32 := fdtHeaderSizeOf (fdtVersion m fdt)

/-- `fdt_check_header`. -/
def fdtCheckHeader (m : Memory) (fdt : UInt64) : Int32 :=
  let totalsize := fdtTotalsize m fdt
  let hdrsize := fdtHeaderSize m fdt
  if fdt &&& 7 != 0 then -fdtErrAlignment
  else if fdtMagic m fdt != fdtMagicWord then -fdtErrBadmagic
  else if fdtVersion m fdt < fdtFirstSupportedVersion ||
      fdtLastCompVersion m fdt > fdtLastSupportedVersion then -fdtErrBadversion
  else if fdtVersion m fdt < fdtLastCompVersion m fdt then -fdtErrBadversion
  else if totalsize < hdrsize || totalsize > 0x7fffffff then -fdtErrTruncated
  else if !checkOff hdrsize totalsize (fdtOffMemRsvmap m fdt) then -fdtErrTruncated
  else if !(if fdtVersion m fdt < 17 then checkOff hdrsize totalsize (fdtOffDtStruct m fdt)
      else checkBlock hdrsize totalsize (fdtOffDtStruct m fdt) (fdtSizeDtStruct m fdt)) then
    -fdtErrTruncated
  else if !checkBlock hdrsize totalsize (fdtOffDtStrings m fdt) (fdtSizeDtStrings m fdt) then
    -fdtErrTruncated
  else 0

/-- `fdt_offset_ptr_`. -/
def fdtOffsetPtr_ (m : Memory) (fdt : UInt64) (offset : Int32) : UInt64 :=
  fdt + (fdtOffDtStruct m fdt).toUInt64 + ofInt offset

/-- `fdt_offset_ptr`. -/
def fdtOffsetPtr (m : Memory) (fdt : UInt64) (offset : Int32) (len : UInt32) : Option UInt64 :=
  let uoffset := offset.toUInt32
  let absoffset := uoffset + fdtOffDtStruct m fdt
  if offset < 0 then none
  else if absoffset < uoffset || absoffset + len < absoffset ||
      absoffset + len > fdtTotalsize m fdt then none
  else if fdtVersion m fdt ≥ 0x11 &&
      (uoffset + len < uoffset || uoffset + len > fdtSizeDtStruct m fdt) then none
  else some (fdtOffsetPtr_ m fdt offset)

/-- More turns than a walk over the tree can take. -/
def fdtTurns (m : Memory) (fdt : UInt64) : Nat := (fdtTotalsize m fdt).toNat + 1

/-- The loop of `fdt_next_tag` over a name; the offset behind its NUL, unless the block ends first. -/
def skipName (m : Memory) (fdt : UInt64) : Nat → Int32 → Option Int32
  | 0, _ => none
  | turns + 1, offset =>
    match fdtOffsetPtr m fdt offset 1 with
    | none => none
    | some p => if m p != 0 then skipName m fdt turns (offset + 1) else some (offset + 1)

/-- The step of `fdt_next_tag` over a property behind its tag. -/
def skipProp (m : Memory) (fdt : UInt64) (offset : Int32) : Option Int32 :=
  match fdtOffsetPtr m fdt offset 4 with
  | none => none
  | some lenp =>
    let len := fdt32Ld m lenp
    let sum := len + offset.toUInt32
    if 0x7fffffff ≤ sum || sum < offset.toUInt32 then none
    else
      let behind := (offset.toUInt32 + 8 + len).toInt32
      if fdtVersion m fdt < 0x10 && len ≥ 8 && (behind.toUInt32 - len) % 8 != 0 then some (behind + 4)
      else some behind

/-- The `switch` of `fdt_next_tag`: the offset behind a token, unless `fdt_next_tag` fails. -/
def skipTag (m : Memory) (fdt : UInt64) (tag : UInt32) (offset : Int32) : Option Int32 :=
  if tag == fdtBeginNode then skipName m fdt (fdtTurns m fdt) offset
  else if tag == fdtProp then skipProp m fdt offset
  else if tag == fdtEnd || tag == fdtEndNode || tag == fdtNop then some offset
  else none

/-- `fdt_next_tag` — the tag, and `*nextoffset`. -/
def fdtNextTag (m : Memory) (fdt : UInt64) (startoffset : Int32) : UInt32 × Int32 :=
  match fdtOffsetPtr m fdt startoffset 4 with
  | none => (fdtEnd, -fdtErrTruncated)
  | some tagp =>
    let tag := fdt32Ld m tagp
    match skipTag m fdt tag (startoffset + 4) with
    | none => (fdtEnd, -fdtErrBadstructure)
    | some offset =>
      if (fdtOffsetPtr m fdt startoffset (offset - startoffset).toUInt32).isNone then
        (fdtEnd, -fdtErrBadstructure)
      else (tag, toInt (fdtTagalign (ofInt offset)))

/-- `fdt_check_node_offset_`. -/
def fdtCheckNodeOffset (m : Memory) (fdt : UInt64) (offset : Int32) : Int32 :=
  if offset < 0 || offset.toUInt32 % 4 != 0 then -fdtErrBadoffset
  else
    let (tag, next) := fdtNextTag m fdt offset
    if tag != fdtBeginNode then -fdtErrBadoffset else next

/-- `fdt_check_prop_offset_`. -/
def fdtCheckPropOffset (m : Memory) (fdt : UInt64) (offset : Int32) : Int32 :=
  if offset < 0 || offset.toUInt32 % 4 != 0 then -fdtErrBadoffset
  else
    let (tag, next) := fdtNextTag m fdt offset
    if tag != fdtProp then -fdtErrBadoffset else next

/-- The loop of `fdt_next_node`: what it returns, and `*depth`. -/
def nextNodeLoop (m : Memory) (fdt : UInt64) : Nat → Int32 → Option Int32 → Int32 × Option Int32
  | 0, _, depth => (-fdtErrInternal, depth)
  | turns + 1, offset, depth =>
    let (tag, nextoffset) := fdtNextTag m fdt offset
    if tag == fdtBeginNode then (offset, depth.map (· + 1))
    else if tag == fdtEndNode then
      let depth := depth.map (· - 1)
      if depth.any (· < 0) then (nextoffset, depth) else nextNodeLoop m fdt turns nextoffset depth
    else if tag == fdtEnd then
      if nextoffset ≥ 0 || (nextoffset == -fdtErrTruncated && depth.isNone) then
        (-fdtErrNotfound, depth)
      else (nextoffset, depth)
    else nextNodeLoop m fdt turns nextoffset depth

/-- `fdt_next_node` — what it returns, and `*depth`, where there is one. -/
def fdtNextNode (m : Memory) (fdt : UInt64) (offset : Int32) (depth : Option Int32) :
    Int32 × Option Int32 :=
  if offset ≥ 0 then
    let nextoffset := fdtCheckNodeOffset m fdt offset
    if nextoffset < 0 then (nextoffset, depth)
    else nextNodeLoop m fdt (fdtTurns m fdt) nextoffset depth
  else nextNodeLoop m fdt (fdtTurns m fdt) 0 depth

/-- `memcmp` — `vr` is text that is handed to libfdt. -/
def memcmp (m : Memory) (vl : UInt64) : List UInt8 → Int32
  | [] => 0
  | c :: vr => if m vl == c then memcmp m (vl + 1) vr else (m vl).toUInt32.toInt32 - c.toUInt32.toInt32

/-- The distance that `memchr` finds, if it finds any. -/
def findByte (m : Memory) (c : UInt8) : Nat → UInt64 → Option Nat
  | 0, _ => none
  | n + 1, s => if m s == c then some 0 else (findByte m c n (s + 1)).map (· + 1)

/-- `fdt_find_string_` — the offset in the table, whose size bounds the places that are tried. -/
def fdtFindString (m : Memory) (strtab : UInt64) (tabsize : Int32) (s : List UInt8) : Option Nat :=
  (List.range (tabsize.toInt + 1 - (s.length + 1)).toNat).find? fun place =>
    memcmp m (strtab + UInt64.ofNat place) (s ++ [0]) == 0

/-- `fdt_get_string` — what it returns with `*lenp`, or `*lenp` when it returns `NULL`. -/
def fdtGetString (m : Memory) (fdt : UInt64) (stroffset : Int32) : Except Int32 (UInt64 × Int32) :=
  let totalsize := fdtRoProbe m fdt
  if totalsize < 0 then .error totalsize
  else
    let size := fdtSizeDtStrings m fdt
    let absoffset := stroffset.toUInt32 + fdtOffDtStrings m fdt
    if absoffset ≥ totalsize.toUInt32 then .error (-fdtErrBadoffset)
    else
      let len := totalsize.toUInt32 - absoffset
      let bounded : Except Int32 UInt32 :=
        if fdtMagic m fdt == fdtMagicWord then
          if stroffset < 0 then .error (-fdtErrBadoffset)
          else if fdtVersion m fdt ≥ 17 then
            if stroffset.toUInt32 ≥ size then .error (-fdtErrBadoffset)
            else .ok (if size - stroffset.toUInt32 < len then size - stroffset.toUInt32 else len)
          else .ok len
        else if fdtMagic m fdt == fdtSwMagic then
          let swStroffset := (-stroffset).toUInt32
          if stroffset ≥ 0 || swStroffset > size then .error (-fdtErrBadoffset)
          else .ok (if swStroffset < len then swStroffset else len)
        else .error (-fdtErrInternal)
      match bounded with
      | .error err => .error err
      | .ok len =>
        let s := fdt + absoffset.toUInt64
        match findByte m 0 len.toNat s with
        | none => .error (-fdtErrTruncated)
        | some n => .ok (s, Int32.ofNat n)

/-- `fdt_string_eq_`. -/
def fdtStringEq (m : Memory) (fdt : UInt64) (stroffset : Int32) (s : List UInt8) : Bool :=
  match fdtGetString m fdt stroffset with
  | .error _ => false
  | .ok (p, slen) => slen == Int32.ofNat s.length && memcmp m p s == 0

/-- `fdt_mem_rsv_`. -/
def fdtMemRsv_ (m : Memory) (fdt : UInt64) (n : Int32) : UInt64 :=
  fdt + (fdtOffMemRsvmap m fdt).toUInt64 + ofInt n * 16

/-- `fdt_mem_rsv`. -/
def fdtMemRsv (m : Memory) (fdt : UInt64) (n : Int32) : Option UInt64 :=
  let offset := (ofInt n * 16).toUInt32
  let absoffset := fdtOffMemRsvmap m fdt + offset
  if absoffset < fdtOffMemRsvmap m fdt then none
  else if absoffset.toUInt64 > (fdtTotalsize m fdt).toUInt64 - 16 then none
  else some (fdtMemRsv_ m fdt n)

/-- `fdt_get_mem_rsv` — the status, and `*address` and `*size` when it is zero. -/
def fdtGetMemRsv (m : Memory) (fdt : UInt64) (n : Int32) : Except Int32 (UInt64 × UInt64) :=
  let totalsize := fdtRoProbe m fdt
  if totalsize < 0 then .error totalsize
  else match fdtMemRsv m fdt n with
    | none => .error (-fdtErrBadoffset)
    | some re => .ok (fdt64Ld m re, fdt64Ld m (re + 8))

/-- The loop of `fdt_num_mem_rsv`. -/
def numMemRsvLoop (m : Memory) (fdt : UInt64) : Nat → Int32 → Int32
  | 0, _ => -fdtErrInternal
  | turns + 1, i =>
    match fdtMemRsv m fdt i with
    | none => -fdtErrTruncated
    | some re => if fdt64Ld m (re + 8) == 0 then i else numMemRsvLoop m fdt turns (i + 1)

/-- `fdt_num_mem_rsv` — an `int` counts no further than the turns. -/
def fdtNumMemRsv (m : Memory) (fdt : UInt64) : Int32 := numMemRsvLoop m fdt (2 ^ 31) 0

/-- `fdt_get_name` — what it returns with `*len`, or `*len` when it returns `NULL`. -/
def fdtGetName (m : Memory) (fdt : UInt64) (nodeoffset : Int32) : Except Int32 (UInt64 × Int32) :=
  let totalsize := fdtRoProbe m fdt
  if totalsize < 0 then .error totalsize
  else
    let err := fdtCheckNodeOffset m fdt nodeoffset
    if err < 0 then .error err
    else
      let nameptr := fdtOffsetPtr_ m fdt nodeoffset + 4
      -- The tag has been checked, so there is a NUL in the tree.
      let length := (findByte m 0 (fdtTurns m fdt) nameptr).getD 0
      if fdtVersion m fdt < 0x10 then
        -- `strrchr`, and the text behind what it finds.
        match (List.range length).reverse.find? fun place =>
          m (nameptr + UInt64.ofNat place) == '/'.toUInt8 with
        | none => .error (-fdtErrBadstructure)
        | some place =>
          .ok (nameptr + UInt64.ofNat place + 1, Int32.ofNat (length - (place + 1)))
      else .ok (nameptr, Int32.ofNat length)

/-- `fdt_nodename_eq_`. -/
def fdtNodenameEq (m : Memory) (fdt : UInt64) (offset : Int32) (s : List UInt8) : Bool :=
  match fdtGetName m fdt offset with
  | .error _ => false
  | .ok (p, olen) =>
    if olen < Int32.ofNat s.length then false
    else if memcmp m p s != 0 then false
    else if m (p + UInt64.ofNat s.length) == 0 then true
    else !s.contains '@'.toUInt8 && m (p + UInt64.ofNat s.length) == '@'.toUInt8

/-- The loop of `fdt_subnode_offset_namelen`, at its condition. -/
def subnodeLoop (m : Memory) (fdt : UInt64) (name : List UInt8) :
    Nat → Int32 × Option Int32 → Int32
  | 0, _ => -fdtErrInternal
  | turns + 1, (offset, depth) =>
    if offset ≥ 0 && depth.any (· ≥ 0) then
      if depth == some 1 && fdtNodenameEq m fdt offset name then offset
      else subnodeLoop m fdt name turns (fdtNextNode m fdt offset depth)
    else if depth.any (· < 0) then -fdtErrNotfound
    else offset

/-- `fdt_subnode_offset_namelen`. -/
def fdtSubnodeOffsetNamelen (m : Memory) (fdt : UInt64) (offset : Int32) (name : List UInt8) :
    Int32 :=
  let totalsize := fdtRoProbe m fdt
  if totalsize < 0 then totalsize
  else subnodeLoop m fdt name (fdtTurns m fdt + 1) (offset, some 0)

/-- `fdt_subnode_offset`. -/
def fdtSubnodeOffset (m : Memory) (fdt : UInt64) (parentoffset : Int32) (name : List UInt8) : Int32 :=
  fdtSubnodeOffsetNamelen m fdt parentoffset name

/-- `nextprop_`. -/
def nextprop (m : Memory) (fdt : UInt64) : Nat → Int32 → Int32
  | 0, _ => -fdtErrInternal
  | turns + 1, offset =>
    let (tag, nextoffset) := fdtNextTag m fdt offset
    if tag == fdtEnd then
      if nextoffset ≥ 0 then -fdtErrBadstructure else nextoffset
    else if tag == fdtProp then offset
    else if tag == fdtNop then nextprop m fdt turns nextoffset
    else -fdtErrNotfound

/-- `fdt_first_property_offset`. -/
def fdtFirstPropertyOffset (m : Memory) (fdt : UInt64) (nodeoffset : Int32) : Int32 :=
  let offset := fdtCheckNodeOffset m fdt nodeoffset
  if offset < 0 then offset else nextprop m fdt (fdtTurns m fdt) offset

/-- `fdt_next_property_offset`. -/
def fdtNextPropertyOffset (m : Memory) (fdt : UInt64) (offset : Int32) : Int32 :=
  let offset := fdtCheckPropOffset m fdt offset
  if offset < 0 then offset else nextprop m fdt (fdtTurns m fdt) offset

/-- `fdt_get_property_by_offset_` — what it returns with `*lenp`, or `*lenp` when it returns
`NULL`. -/
def fdtGetPropertyByOffset_ (m : Memory) (fdt : UInt64) (offset : Int32) :
    Except Int32 (UInt64 × Int32) :=
  let err := fdtCheckPropOffset m fdt offset
  if err < 0 then .error err
  else
    let prop := fdtOffsetPtr_ m fdt offset
    .ok (prop, (fdt32Ld m (prop + 4)).toInt32)

/-- The loop of `fdt_get_property_namelen_`: the property with its length and offset, or the last
offset. -/
def getPropertyLoop (m : Memory) (fdt : UInt64) (name : List UInt8) :
    Nat → Int32 → Except Int32 (UInt64 × Int32 × Int32)
  | 0, _ => .error (-fdtErrInternal)
  | turns + 1, offset =>
    if offset < 0 then .error offset
    else do
      let (prop, len) ← (fdtGetPropertyByOffset_ m fdt offset).mapError fun _ => -fdtErrInternal
      if fdtStringEq m fdt (fdt32Ld m (prop + 8)).toInt32 name then .ok (prop, len, offset)
      else getPropertyLoop m fdt name turns (fdtNextPropertyOffset m fdt offset)

/-- `fdt_get_property_namelen_` — what it returns with `*lenp` and `*poffset`, or `*lenp` when it
returns `NULL`. -/
def fdtGetPropertyNamelen_ (m : Memory) (fdt : UInt64) (offset : Int32) (name : List UInt8) :
    Except Int32 (UInt64 × Int32 × Int32) :=
  getPropertyLoop m fdt name (fdtTurns m fdt) (fdtFirstPropertyOffset m fdt offset)

/-- `fdt_get_property_namelen`. -/
def fdtGetPropertyNamelen (m : Memory) (fdt : UInt64) (offset : Int32) (name : List UInt8) :
    Except Int32 (UInt64 × Int32) :=
  if fdtVersion m fdt < 0x10 then .error (-fdtErrBadversion)
  else (fdtGetPropertyNamelen_ m fdt offset name).map fun found => (found.1, found.2.1)

/-- `fdt_get_property`. -/
def fdtGetProperty (m : Memory) (fdt : UInt64) (nodeoffset : Int32) (name : List UInt8) :
    Except Int32 (UInt64 × Int32) :=
  fdtGetPropertyNamelen m fdt nodeoffset name

/-- `fdt_getprop_namelen` — what it returns with `*lenp`, or `*lenp` when it returns `NULL`. -/
def fdtGetpropNamelen (m : Memory) (fdt : UInt64) (nodeoffset : Int32) (name : List UInt8) :
    Except Int32 (UInt64 × Int32) :=
  match fdtGetPropertyNamelen_ m fdt nodeoffset name with
  | .error err => .error err
  | .ok (prop, len, poffset) =>
    if fdtVersion m fdt < 0x10 && (ofInt poffset + 12) % 8 != 0 && fdt32Ld m (prop + 4) ≥ 8 then
      .ok (prop + 12 + 4, len)
    else .ok (prop + 12, len)

/-- `fdt_getprop`. -/
def fdtGetprop (m : Memory) (fdt : UInt64) (nodeoffset : Int32) (name : List UInt8) :
    Except Int32 (UInt64 × Int32) :=
  fdtGetpropNamelen m fdt nodeoffset name

/-- The loop of `fdt_path_offset_namelen`, at the rest of an absolute path. -/
def pathLoop (m : Memory) (fdt : UInt64) : Nat → Int32 → List UInt8 → Int32
  | 0, offset, _ => offset
  | turns + 1, offset, path =>
    match path.dropWhile (· == '/'.toUInt8) with
    | [] => offset
    | c :: rest =>
      let found := fdtSubnodeOffsetNamelen m fdt offset ((c :: rest).takeWhile (· != '/'.toUInt8))
      if found < 0 then found
      else pathLoop m fdt turns found ((c :: rest).dropWhile (· != '/'.toUInt8))

/-- `fdt_path_offset_namelen`, of a path that is no alias. -/
def fdtPathOffsetNamelen (m : Memory) (fdt : UInt64) (path : List UInt8) : Int32 :=
  let totalsize := fdtRoProbe m fdt
  if totalsize < 0 then totalsize
  else pathLoop m fdt path.length 0 path

/-- `fdt_path_offset`, of a path that is no alias. -/
def fdtPathOffset (m : Memory) (fdt : UInt64) (path : List UInt8) : Int32 :=
  fdtPathOffsetNamelen m fdt path

end DragonStub

import DragonStub.Verif.FdtPack

/-!
# Opening a tree into a buffer

`fdt_open_into` copies a device tree of version 16 or later into a buffer, with its blocks in order and
the room of the buffer behind them, so that it can be changed there. Trees whose blocks are in order are
copied as a whole; the blocks of the others are copied one by one, where they can be while the original
may overlap the buffer.
-/

namespace DragonStub

open ByteMemory DeviceTree FlatTree Stateful Word

variable {m : Memory} {fdt buf : UInt64} {tokens before rest : List Token} {strings : List UInt8}
  {image : Image} {tree : Tree}

/-- What `check_block_` lets through does not wrap and is inside the tree. -/
theorem checkBlock_inside {hdrsize totalsize base size : UInt32}
    (good : checkBlock hdrsize totalsize base size = true) :
    base.toNat + size.toNat ≤ totalsize.toNat := by
  unfold checkBlock checkOff at good
  split_ifs at good with first wraps
  rw [Bool.and_eq_true, decide_eq_true_eq, decide_eq_true_eq] at good
  have within := UInt32.le_iff_toNat_le.mp good.2
  have bounds := And.intro base.toNat_lt size.toNat_lt
  rw [UInt32.lt_iff_toNat_lt, UInt32.toNat_add] at wraps
  rw [UInt32.toNat_add] at within
  omega

/-- An offset behind the header and inside the tree passes its check. -/
theorem checkOff_of_inside {hdrsize totalsize off : UInt32} (behind : hdrsize.toNat ≤ off.toNat)
    (within : off.toNat ≤ totalsize.toNat) : checkOff hdrsize totalsize off = true := by
  rw [checkOff, Bool.and_eq_true, decide_eq_true_eq, decide_eq_true_eq]
  exact ⟨UInt32.le_iff_toNat_le.mpr behind, UInt32.le_iff_toNat_le.mpr within⟩

/-- A block behind the header and inside the tree passes its check. -/
theorem checkBlock_of_inside {hdrsize totalsize base size : UInt32} (behind : hdrsize.toNat ≤ base.toNat)
    (within : base.toNat + size.toNat ≤ totalsize.toNat) :
    checkBlock hdrsize totalsize base size = true := by
  have bound := totalsize.toNat_lt
  have sum : (base + size).toNat = base.toNat + size.toNat := by
    rw [UInt32.toNat_add, Nat.mod_eq_of_lt (by omega)]
  have noWrap : ¬base + size < base := by
    rw [UInt32.lt_iff_toNat_lt, sum]
    omega
  have first := checkOff_of_inside behind (show base.toNat ≤ totalsize.toNat by omega)
  have last : checkOff hdrsize totalsize (base + size) = true :=
    checkOff_of_inside (by omega) (by omega)
  simp only [checkBlock, first, last, noWrap, Bool.not_true, Bool.false_eq_true, if_false]

/-- An image passes the check of its header. -/
theorem Editable.checkHeader (editable : Editable m fdt image) : fdtCheckHeader m fdt = 0 := by
  have stands := editable.stands
  have within := image.size_le
  have small := image.small
  have bounds := And.intro image.offStruct_le image.offReserved_le
  rw [Image.size] at within
  have start : 40 ≤ image.offReserved := Nat.le_add_right ..
  have header : (40 : UInt32).toNat = 40 := rfl
  have limit : (0x7fffffff : UInt32).toNat = 2 ^ 31 - 1 := rfl
  have total : (fdtTotalsize m fdt).toNat = image.totalsize.toNat := by
    rw [stands.totalsize]
    rfl
  have version : fdtVersion m fdt = 17 := stands.version
  have size : fdtHeaderSize m fdt = 40 := by
    rw [fdtHeaderSize, version]
    rfl
  have fits : ¬fdtTotalsize m fdt < 40 ∧ ¬fdtTotalsize m fdt > 0x7fffffff := by
    rw [gt_iff_lt, UInt32.lt_iff_toNat_lt, UInt32.lt_iff_toNat_lt, total, header, limit]
    omega
  have reserved : checkOff 40 (fdtTotalsize m fdt) (fdtOffMemRsvmap m fdt) = true := by
    apply checkOff_of_inside <;> rw [stands.offMemRsvmap, image.header_offReserved]
    · exact start
    · omega
  have struct : checkBlock 40 (fdtTotalsize m fdt) (fdtOffDtStruct m fdt) (fdtSizeDtStruct m fdt) =
      true := by
    apply checkBlock_of_inside <;> rw [stands.offDtStruct, image.header_offStruct]
    · omega
    · rw [stands.sizeDtStruct, image.header_sizeStruct]
      omega
  have strings : checkBlock 40 (fdtTotalsize m fdt) (fdtOffDtStrings m fdt) (fdtSizeDtStrings m fdt) =
      true := by
    apply checkBlock_of_inside <;> rw [stands.offDtStrings, image.header_offStrings]
    · omega
    · rw [stands.sizeDtStrings, image.header_sizeStrings]
      omega
  have magic : (fdtMagic m fdt != fdtMagicWord) = false := by
    rw [editable.readable.magic, bne_self_eq_false]
  have aligned : (fdt &&& 7 != 0) = false := by
    rw [editable.aligned, bne_self_eq_false]
  have lastComp : ¬fdtLastCompVersion m fdt > 17 := by
    rw [stands.lastCompVersion, gt_iff_lt, UInt32.not_lt]
    exact image.supported
  have versions : ¬fdtVersion m fdt < 2 ∧ ¬fdtVersion m fdt < 17 ∧
      ¬fdtVersion m fdt < fdtLastCompVersion m fdt := by
    rw [version]
    exact ⟨by decide, by decide, lastComp⟩
  unfold fdtCheckHeader
  simp only [size, aligned, magic, fdtFirstSupportedVersion, fdtLastSupportedVersion, versions,
    lastComp, fits, reserved, struct, strings, decide_false, Bool.or_self, Bool.not_true,
    Bool.false_eq_true, if_false]

/-- The structure block of a tree with a checked header is inside the tree. -/
theorem checkHeader_struct (checked : fdtCheckHeader m fdt = 0) (version : 17 ≤ fdtVersion m fdt) :
    (fdtOffDtStruct m fdt).toNat + (fdtSizeDtStruct m fdt).toNat ≤ (fdtTotalsize m fdt).toNat := by
  have recent : ¬fdtVersion m fdt < 17 := UInt32.not_lt.mpr version
  by_contra outside
  have bad : checkBlock (fdtHeaderSize m fdt) (fdtTotalsize m fdt) (fdtOffDtStruct m fdt)
      (fdtSizeDtStruct m fdt) = false :=
    Bool.eq_false_iff.mpr fun good => outside (checkBlock_inside good)
  revert checked
  unfold fdtCheckHeader
  simp only [recent, bad, if_false, Bool.not_false, if_true]
  split_ifs <;> decide

/-- A tree with a checked header is not smaller than the header. -/
theorem checkHeader_total (checked : fdtCheckHeader m fdt = 0) (version : 16 ≤ fdtVersion m fdt) :
    36 ≤ (fdtTotalsize m fdt).toNat := by
  by_contra smaller
  have size : fdtTotalsize m fdt < fdtHeaderSize m fdt := by
    have recent := UInt32.le_iff_toNat_le.mp version
    have sixteen : (16 : UInt32).toNat = 16 := rfl
    have values : (1 : UInt32).toNat = 1 ∧ (2 : UInt32).toNat = 2 ∧ (3 : UInt32).toNat = 3 ∧
      (36 : UInt32).toNat = 36 ∧ (40 : UInt32).toNat = 40 := by decide
    unfold fdtHeaderSize fdtHeaderSizeOf
    simp only [UInt32.lt_iff_toNat_lt, UInt32.le_iff_toNat_le]
    split_ifs <;> omega
  revert checked
  unfold fdtCheckHeader
  simp only [size, decide_true, Bool.true_or, if_true]
  split_ifs <;> decide

/-- The loop over the tokens of a tree of version 16 stops behind the end of the block. -/
theorem structEnd_eq (has : HasTokens m fdt (before ++ rest)) {turns : Nat}
    (enough : rest.length < turns) : structEnd m fdt turns (Int32.ofNat (extent before)) =
      Int32.ofNat (extent (before ++ rest) + 4) := by
  induction rest generalizing before turns with
  | nil =>
    obtain ⟨turns, rfl⟩ : ∃ less, turns = less + 1 := ⟨turns - 1, by simp at enough; omega⟩
    rw [List.append_nil] at has ⊢
    rw [structEnd, has.nextTag_end]
    rfl
  | cons token rest ih =>
    obtain ⟨turns, rfl⟩ : ∃ less, turns = less + 1 := ⟨turns - 1, by simp at enough; omega⟩
    have next : extent before + token.size = extent (before ++ [token]) := by simp
    have shift : before ++ token :: rest = (before ++ [token]) ++ rest := List.append_cons ..
    have other : (tagOf token != fdtEnd) = true := by cases token <;> rfl
    rw [structEnd, has.nextTag]
    simp only [other, if_true, next]
    rw [shift] at has ⊢
    exact ih has (by simp at enough; omega)

/-- `fdt_open_into` gets a size of the structure block that covers its tokens. -/
theorem Presents.structSize (presents : Presents m fdt tokens strings tree)
    (checked : fdtCheckHeader m fdt = 0) :
    ∃ struct, (openStructSize m fdt).run.run m = (.ok (Int32.ofNat struct), m) ∧
      extent tokens + 4 ≤ struct ∧
      (fdtOffDtStruct m fdt).toNat + struct ≤ (fdtTotalsize m fdt).toNat := by
  have has := presents.readable.tokens
  have version := UInt32.le_iff_toNat_le.mp has.version
  have sixteen : (16 : UInt32).toNat = 16 := rfl
  have seventeen : (17 : UInt32).toNat = 17 := rfl
  by_cases recent : 17 ≤ fdtVersion m fdt
  · refine ⟨(fdtSizeDtStruct m fdt).toNat, ?_, has.reaches.latest recent,
      checkHeader_struct checked recent⟩
    unfold openStructSize
    rw [if_pos recent, ← UInt32.toInt32_ofNat', UInt32.ofNat_toNat]
    rfl
  · have same : fdtVersion m fdt = 16 := by
      apply UInt32.toNat_inj.mp
      rw [UInt32.le_iff_toNat_le] at recent
      omega
    have bound := has.bound
    have none : HasTokens m fdt ([] ++ tokens) := has
    have turns := none.turns
    have found : structEnd m fdt (fdtTurns m fdt) 0 = Int32.ofNat (extent ([] ++ tokens) + 4) :=
      structEnd_eq none turns
    rw [List.nil_append] at found
    refine ⟨extent tokens + 4, ?_, le_rfl, has.reaches.total⟩
    have nonneg := not_ofNat_neg (show extent tokens + 4 < 2 ^ 31 by omega)
    unfold openStructSize
    rw [if_neg recent, same, if_pos (beq_self_eq_true _), found]
    simp only [nonneg, run_bind, run_failIf, decide_false, Bool.false_eq_true, if_false]
    rfl

/-- A tree that can be opened, with the size that its structure block is taken to have. -/
structure Original (m : Memory) (fdt : UInt64) (tokens : List Token) (strings : List UInt8)
    (tree : Tree) (struct : Nat) : Prop where
  /-- The tree. -/
  presents : Presents m fdt tokens strings tree
  /-- The size of its structure block. -/
  size : (openStructSize m fdt).run.run m = (.ok (Int32.ofNat struct), m)
  /-- The tokens are inside it. -/
  covers : extent tokens + 4 ≤ struct
  /-- It is inside the tree. -/
  inside : (fdtOffDtStruct m fdt).toNat + struct ≤ (fdtTotalsize m fdt).toNat
  /-- The words of the header that are read are inside the tree. -/
  header : 36 ≤ (fdtTotalsize m fdt).toNat
  /-- The tree does not wrap. -/
  fits : fdt.toNat + (fdtTotalsize m fdt).toNat < 2 ^ 64

/-- A tree that is read, and whose header is checked, is an original. -/
theorem Presents.original (presents : Presents m fdt tokens strings tree)
    (checked : fdtCheckHeader m fdt = 0) (fits : fdt.toNat + (fdtTotalsize m fdt).toNat < 2 ^ 64) :
    ∃ struct, Original m fdt tokens strings tree struct := by
  obtain ⟨struct, size, covers, inside⟩ := presents.structSize checked
  have header := checkHeader_total checked presents.readable.tokens.version
  exact ⟨struct, presents, size, covers, inside, header, fits⟩

/-- A tree that can be changed can be opened. -/
theorem Carries.original (carries : Carries m fdt image tree) :
    Original m fdt image.tokens image.strings tree image.sizeStruct := by
  have stands := carries.editable.stands
  have within := image.size_le
  have struct := image.offStruct_le
  have total : (fdtTotalsize m fdt).toNat = image.totalsize.toNat := by
    rw [stands.totalsize]
    rfl
  have size : fdtSizeDtStruct m fdt = UInt32.ofNat image.sizeStruct := stands.sizeDtStruct
  have version : fdtVersion m fdt = 17 := stands.version
  rw [Image.size] at within
  refine ⟨carries.presents, ?_, ?_, ?_, ?_, ?_⟩
  · unfold openStructSize
    rw [version, if_pos (by decide), size, UInt32.toInt32_ofNat']
    rfl
  · rw [Image.sizeStruct]
    omega
  · rw [stands.offDtStruct, image.header_offStruct, total]
    omega
  · rw [total]
    have front := image.offReserved_le
    rw [Image.offReserved] at front
    omega
  · rw [total]
    exact stands.fits

section Ordered

variable {struct : Nat}

/-- The blocks are in order. -/
def InOrder (m : Memory) (fdt : UInt64) (tree : Tree) (struct : Nat) : Prop :=
  40 ≤ (fdtOffMemRsvmap m fdt).toNat ∧
    (fdtOffMemRsvmap m fdt).toNat + (16 * tree.reservations.length + 16) ≤
      (fdtOffDtStruct m fdt).toNat ∧
    (fdtOffDtStruct m fdt).toNat + struct ≤ (fdtOffDtStrings m fdt).toNat

/-- `fdt_blocks_misordered_` compares the places of the blocks. -/
theorem Original.misordered (original : Original m fdt tokens strings tree struct) :
    fdtBlocksMisordered m fdt (Int32.ofNat (16 * tree.reservations.length + 16)) (Int32.ofNat struct) =
      false ↔ InOrder m fdt tree struct := by
  obtain ⟨stop, reserves⟩ := original.presents.reserves
  have inside := original.presents.readable.inside
  have size := original.presents.readable.size
  have struct := original.inside
  have ranges := reserves.inside
  have small := reserves.small
  have forty : (40 : UInt32).toNat = 40 := rfl
  unfold fdtBlocksMisordered InOrder
  simp only [Bool.or_eq_false_iff, decide_eq_false_iff_not, UInt32.lt_iff_toNat_lt, UInt32.toNat_add,
    Int32.toUInt32_ofNat', UInt32.toNat_ofNat', size, forty]
  omega

/-- The blocks of a tree that can be changed are in order. -/
theorem Carries.inOrder (carries : Carries m fdt image tree) : InOrder m fdt tree image.sizeStruct := by
  have stands := carries.editable.stands
  have reserved := image.offReserved_le
  unfold InOrder
  rw [stands.offMemRsvmap, stands.offDtStruct, stands.offDtStrings, image.header_offReserved,
    image.header_offStruct, image.header_offStrings, ← carries.reserved]
  refine ⟨?_, reserved, image.offStruct_le⟩
  rw [Image.offReserved]
  omega

/-- The image that blocks in order are, in a room that is large enough. -/
theorem Original.exists_image (original : Original m fdt tokens strings tree struct)
    (ordered : InOrder m fdt tree struct) {total : UInt32}
    (room : (fdtTotalsize m fdt).toNat ≤ total.toNat) (small : total.toNat < 2 ^ 31 - 1) :
    ∃ (image : Image) (header : Header),
      Lies m fdt (fdtTotalsize m fdt).toNat header image.body ∧ image.tokens = tokens ∧
      image.strings = strings ∧ image.reserved = tree.reservations ∧ image.totalsize = total ∧
      { header with totalsize := total, version := 17, sizeDtStruct := UInt32.ofNat struct } =
        image.header := by
  obtain ⟨stop, reserves⟩ := original.presents.reserves
  obtain ⟨first, second, third⟩ := ordered
  have readable := original.presents.readable
  have strings_inside := readable.inside
  have covers := original.covers
  have fits := original.fits
  have at_ (word : UInt32) : word.toUInt64 = UInt64.ofNat word.toNat := by
    rw [← UInt32.toNat_toUInt64, UInt64.ofNat_toNat]
  obtain ⟨header, head⟩ := Header.exists_bytes m fdt
  have held := reserves.held
  have block := readable.tokens.held
  have names := readable.held
  rw [at_] at held names
  rw [structAt, at_] at block
  have ranges : (rangesBytes (tree.reservations ++ [(stop, 0)])).length =
      16 * tree.reservations.length + 16 := by
    rw [length_rangesBytes, List.length_append, List.length_singleton]
    omega
  have cells : (blockOf tokens).length = extent tokens + 4 := Image.length_blockOf
  obtain ⟨front, middle, slack, spare, lFront, lMiddle, lSlack, lSpare, body⟩ :=
    exists_between held block names first (by omega) (cells ▸ covers) third
  rw [ranges] at lMiddle
  rw [cells] at lSlack
  have supported := readable.lastComp
  have lies : Lies m fdt (fdtTotalsize m fdt).toNat header (front ++
      rangesBytes (tree.reservations ++ [(stop, 0)]) ++ middle ++ blockOf tokens ++
        (slack ++ spare ++ strings)) := by
    refine ⟨head.join body Header.length_bytes, ?_, fits⟩
    simp only [List.length_append, ranges, cells]
    omega
  rw [lies.lastCompVersion] at supported
  let image : Image := {
    totalsize := total
    lastCompVersion := header.lastCompVersion
    bootCpuidPhys := header.bootCpuidPhys
    front := front
    reserved := tree.reservations
    stop := stop
    middle := middle
    tokens := tokens
    slack := slack
    spare := spare
    strings := strings
    ranges := reserves.sizes
    supported := supported
    room := by omega
    small := small }
  have offReserved : image.offReserved = (fdtOffMemRsvmap m fdt).toNat := lFront
  have offStruct : image.offStruct = (fdtOffDtStruct m fdt).toNat := by
    rw [Image.offStruct, offReserved]
    exact lMiddle
  have sizeStruct : image.sizeStruct = struct := lSlack
  have offStrings : image.offStrings = (fdtOffDtStrings m fdt).toNat := by
    rw [Image.offStrings, offStruct, sizeStruct]
    exact lSpare
  refine ⟨image, header, lies, rfl, rfl, rfl, rfl, ?_⟩
  have magic : header.magic = flatMagic := lies.magic.symm.trans readable.magic
  unfold Image.header
  rw [offReserved, offStruct, offStrings, sizeStruct, UInt32.ofNat_toNat, UInt32.ofNat_toNat,
    UInt32.ofNat_toNat, lies.offMemRsvmap, lies.offDtStruct, lies.offDtStrings, ← magic]
  have size : UInt32.ofNat image.strings.length = header.sizeDtStrings := by
    rw [← lies.sizeDtStrings, ← UInt32.ofNat_toNat (x := fdtSizeDtStrings m fdt), readable.size]
  rw [size]

/-- What opening a tree gives: the same tree in the buffer, with all of its room and no more than some
of it taken. -/
structure Opened (m : Memory) (buf : UInt64) (bufsize used : Nat) (tokens : List Token)
    (strings : List UInt8) (tree : Tree) (m' : Memory) (image : Image) : Prop where
  /-- The tree. -/
  carries : Carries m' buf image tree
  /-- Its nodes keep their offsets. -/
  tokens : image.tokens = tokens
  /-- Its names keep their offsets. -/
  strings : image.strings = strings
  /-- The room. -/
  totalsize : image.totalsize.toNat = bufsize
  /-- What it takes of the room. -/
  takes : image.size ≤ used
  /-- Nothing else has changed. -/
  changed : ChangedIn (window buf bufsize) m m'

section Buffer

variable {bufsize used : Nat} (original : Original m fdt tokens strings tree struct)
  (small : bufsize < 2 ^ 31 - 1)

include original small

/-- The part that keeps the order of the blocks, where there is room. -/
theorem Original.openMoved (bufFits : buf.toNat + bufsize < 2 ^ 64) (aligned : buf &&& 7 = 0)
    (ordered : InOrder m fdt tree struct) (enough : (fdtTotalsize m fdt).toNat ≤ used)
    (inside : used ≤ bufsize) :
    Returns (openMoved fdt buf (Int32.ofNat bufsize) (Int32.ofNat struct)) m fun _ m' =>
      ∃ image, Opened m buf bufsize used tokens strings tree m' image := by
  have value : (UInt32.ofNat bufsize).toNat = bufsize := toNat_ofNat32 (by omega)
  have room := le_trans enough inside
  obtain ⟨image, header, lies, sameTokens, sameStrings, reserved, total, head⟩ :=
    original.exists_image ordered (by rwa [value]) (by rwa [value])
  have readable := original.presents.readable
  have fits := original.fits
  have within := lies.within
  have nonneg : ¬Int32.ofNat bufsize < 0 := not_ofNat_neg (by omega)
  have fewer : ¬fdtTotalsize m fdt > (Int32.ofNat bufsize).toUInt32 := by
    rw [gt_iff_lt, Int32.toUInt32_ofNat', UInt32.lt_iff_toNat_lt, value]
    omega
  have moved : memmove m buf fdt (fdtTotalsize m fdt).toUInt64 =
      (buf, ByteMemory.moved m buf fdt (fdtTotalsize m fdt).toNat) := by
    rw [memmove_eq, UInt32.toNat_toUInt64]
    · rw [UInt32.toNat_toUInt64]
      omega
    · rw [UInt32.toNat_toUInt64]
      omega
  unfold DragonStub.openMoved fdtMove
  refine Returns.bind (Returns.bind (Returns.get ?_))
  refine Returns.bind (returns_failIf (decide_eq_false nonneg) ?_)
  refine Returns.bind (returns_failIf (decide_eq_false readable.probe_nonneg) ?_)
  refine Returns.bind (returns_failIf (decide_eq_false fewer) ?_)
  rw [moved]
  have becomes : Becomes m buf bufsize header image.body
      (ByteMemory.moved m buf fdt (fdtTotalsize m fdt).toNat) := by
    refine ⟨⟨lies.held.moved_within ?_ (by omega), by omega, bufFits⟩, fun x outside => moved_outside ?_⟩
    · rw [List.length_append, Header.length_bytes]
      exact within
    · exact fun inside => outside (window_mono room inside)
  apply Returns.set
  refine Returns.bind ((becomes.setVersion rfl).mono fun _ m' becomes => ?_)
  refine Returns.bind ((becomes.setSizeDtStruct rfl).mono fun _ m' becomes => ?_)
  refine (becomes.setTotalsize rfl).mono fun _ m' becomes => ⟨image, ⟨?_, reserved, ?_⟩, sameTokens,
    sameStrings, ?_, ?_, becomes.changed⟩
  · rw [Int32.toUInt32_ofNat', Int32.toUInt32_ofNat'] at becomes
    exact becomes.editable aligned head rfl (by rw [total, value])
  · rw [sameTokens, sameStrings]
    exact original.presents.root
  · rw [total, value]
  · rw [← image.length_body]
    exact le_trans within enough

/-- Without room it changes nothing. -/
theorem Original.openMoved_full (full : bufsize < (fdtTotalsize m fdt).toNat) :
    (DragonStub.openMoved fdt buf (Int32.ofNat bufsize) (Int32.ofNat struct)).run.run m =
      (.error (-fdtErrNospace), m) := by
  have value : (UInt32.ofNat bufsize).toNat = bufsize := toNat_ofNat32 (by omega)
  have nonneg : ¬Int32.ofNat bufsize < 0 := not_ofNat_neg (by omega)
  have above : fdtTotalsize m fdt > (Int32.ofNat bufsize).toUInt32 := by
    rw [gt_iff_lt, Int32.toUInt32_ofNat', UInt32.lt_iff_toNat_lt, value]
    exact full
  unfold DragonStub.openMoved fdtMove
  simp only [run_bind, run_get, run_failIf, nonneg, original.presents.readable.probe_nonneg, above,
    decide_false, decide_true, Bool.false_eq_true, if_false, if_true]

end Buffer

end Ordered

end DragonStub

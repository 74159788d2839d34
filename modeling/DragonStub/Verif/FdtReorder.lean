import DragonStub.Verif.FdtOpen

/-!
# Opening a tree whose blocks are out of order

When the blocks of a device tree are not in the order that libfdt can change, `fdt_open_into` copies
them one by one, and puts the result into the buffer. While the original overlaps the buffer the blocks
are first copied behind it, so nothing of the original is lost before it has been read.
-/

namespace DragonStub

open ByteMemory DeviceTree FlatTree Stateful Word

variable {m m' start : Memory} {fdt buf tmp p : UInt64} {total : Nat} {header : Header}
  {front old back bytes a b c : List UInt8} {region : Set UInt64} {tokens : List Token}
  {strings : List UInt8} {tree : Tree} {struct bufsize used : Nat}

/-- A word that a change does not reach reads as before. -/
theorem fdt32Ld_kept (changed : ChangedIn region m m') (apart : Disjoint (window p 4) region) :
    fdt32Ld m' p = fdt32Ld m p := by
  have same {k : UInt64} (inside : k.toNat < 4) : m' (p + k) = m (p + k) := by
    refine changed _ (Set.disjoint_left.mp apart ?_)
    rw [mem_window, sub_add_self]
    exact inside
  have first : m' p = m p := by
    have zero := same (k := 0) (by decide)
    rwa [UInt64.add_zero] at zero
  rw [fdt32Ld, fdt32Ld, first, same (by decide), same (by decide), same (by decide)]

/-- The blocks of a device tree, wherever they are inside of it. -/
structure Blocks (m : Memory) (fdt : UInt64) (total : Nat) (a b c : List UInt8) : Prop where
  /-- The reserved ranges. -/
  reserved : Holds m (fdt + (fdtOffMemRsvmap m fdt).toUInt64) a
  /-- The structure block. -/
  struct : Holds m (fdt + (fdtOffDtStruct m fdt).toUInt64) b
  /-- The strings. -/
  strings : Holds m (fdt + (fdtOffDtStrings m fdt).toUInt64) c
  /-- Each of them is inside the tree. -/
  inside : (fdtOffMemRsvmap m fdt).toNat + a.length ≤ total ∧
    (fdtOffDtStruct m fdt).toNat + b.length ≤ total ∧ (fdtOffDtStrings m fdt).toNat + c.length ≤ total
  /-- The size of the strings. -/
  size : fdtSizeDtStrings m fdt = UInt32.ofNat c.length
  /-- The header is inside the tree. -/
  header : 36 ≤ total
  /-- The tree does not wrap. -/
  fits : fdt.toNat + total < 2 ^ 64

namespace Blocks

/-- A place inside of a tree, as a number. -/
theorem place (word : UInt32) : fdt + word.toUInt64 = fdt + UInt64.ofNat word.toNat := by
  rw [← UInt32.toNat_toUInt64, UInt64.ofNat_toNat]

/-- A change outside of the tree leaves its blocks. -/
theorem kept (blocks : Blocks m fdt total a b c) (changed : ChangedIn region m m')
    (apart : Disjoint (window fdt total) region) : Blocks m' fdt total a b c := by
  have fits := blocks.fits
  have header := blocks.header
  obtain ⟨reservedInside, structInside, stringsInside⟩ := blocks.inside
  have word (index : Nat) (low : index ≤ 8) :
      fdt32Ld m' (fdt + UInt64.ofNat (4 * index)) = fdt32Ld m (fdt + UInt64.ofNat (4 * index)) :=
    fdt32Ld_kept changed (apart.mono_left (window_part (by omega) (by omega)))
  have offReserved : fdtOffMemRsvmap m' fdt = fdtOffMemRsvmap m fdt := word 4 (by omega)
  have offStruct : fdtOffDtStruct m' fdt = fdtOffDtStruct m fdt := word 2 (by omega)
  have offStrings : fdtOffDtStrings m' fdt = fdtOffDtStrings m fdt := word 3 (by omega)
  have size : fdtSizeDtStrings m' fdt = fdtSizeDtStrings m fdt := word 8 (by omega)
  have block {off : UInt32} {block : List UInt8} (held : Holds m (fdt + off.toUInt64) block)
      (inside : off.toNat + block.length ≤ total) : Holds m' (fdt + off.toUInt64) block := by
    rw [place] at held ⊢
    exact held.of_changedIn changed (apart.mono_left (window_part inside (by omega))) (by omega)
  refine ⟨?_, ?_, ?_, ?_, ?_, header, fits⟩
  · rw [offReserved]
    exact block blocks.reserved reservedInside
  · rw [offStruct]
    exact block blocks.struct structInside
  · rw [offStrings]
    exact block blocks.strings stringsInside
  · rw [offReserved, offStruct, offStrings]
    exact blocks.inside
  · rw [size]
    exact blocks.size

end Blocks

/-- A block from elsewhere moves over a part of the body. -/
theorem Becomes.copyIn (becomes : Becomes start fdt total header (front ++ old ++ back) m)
    {dst src count : UInt64} (held : Holds m src bytes) (same : bytes.length = old.length)
    (target : dst = fdt + UInt64.ofNat (40 + front.length)) (size : count = UInt64.ofNat bytes.length)
    (fits : src.toNat + bytes.length < 2 ^ 64) :
    Becomes start fdt total header (front ++ bytes ++ back) (memmove m dst src count).2 := by
  have short := becomes.stands.short
  have ahead : (header.bytes ++ front).length = 40 + front.length := by simp
  obtain ⟨⟨there, within, room⟩, earlier⟩ := becomes
  simp only [← List.append_assoc] at there short
  have replaced := there.replace held same short
  simp only [List.length_append] at within
  have number : (UInt64.ofNat bytes.length).toNat = bytes.length := by
    rw [UInt64.toNat_ofNat', Nat.mod_eq_of_lt (by omega)]
  have bound := toNat_offset (show fdt.toNat + (40 + front.length) < 2 ^ 64 by omega)
  subst target size
  rw [memmove_eq (by omega) (by omega), number]
  rw [ahead] at replaced
  refine ⟨⟨?_, ?_, room⟩, earlier.trans fun x outside => moved_outside ?_⟩
  · simpa only [List.append_assoc] using replaced
  · simp only [List.length_append]
    omega
  · intro inside
    exact outside (window_part (by omega) (by omega) inside)

/-- Whatever a room holds is a header and three blocks. -/
theorem exists_lies (m : Memory) {i j k : Nat} (fits : tmp.toNat + (40 + i + j + k) < 2 ^ 64) :
    ∃ (header : Header) (x y z : List UInt8), x.length = i ∧ y.length = j ∧ z.length = k ∧
      Lies m tmp (40 + i + j + k) header (x ++ y ++ z) := by
  obtain ⟨header, held⟩ := Header.exists_bytes m tmp
  have body : Holds m (tmp + UInt64.ofNat 40) (load m (tmp + UInt64.ofNat 40) (i + j + k)) := holds_load
  refine ⟨header, (load m (tmp + UInt64.ofNat 40) (i + j + k)).take i,
    ((load m (tmp + UInt64.ofNat 40) (i + j + k)).drop i).take j,
    ((load m (tmp + UInt64.ofNat 40) (i + j + k)).drop i).drop j, by simp; omega, by simp; omega,
    by simp, ?_, ?_, fits⟩
  · rw [List.append_assoc, List.take_append_drop, List.take_append_drop]
    exact held.join body Header.length_bytes
  · rw [List.append_assoc, List.take_append_drop, List.take_append_drop, length_load]
    omega

/-- `fdt_packblocks_` into a place apart from the tree. -/
theorem Blocks.pack {x y z : List UInt8} (blocks : Blocks m fdt total a b c)
    (lies : Lies m tmp (40 + a.length + b.length + c.length) header (x ++ y ++ z))
    (sameA : x.length = a.length) (sameB : y.length = b.length) (sameC : z.length = c.length)
    (apart : Disjoint (window fdt total) (window tmp (40 + a.length + b.length + c.length)))
    (small : 40 + a.length + b.length + c.length < 2 ^ 31) :
    Returns (fdtPackblocks fdt tmp (Int32.ofNat a.length) (Int32.ofNat b.length)
      (Int32.ofNat c.length)) m fun _ =>
        Becomes m tmp (40 + a.length + b.length + c.length)
          (packedHeader header a.length b.length c.length) (a ++ b ++ c) := by
  have becomes := lies.becomes
  have fits := blocks.fits
  have forty : (40 : Int32) = Int32.ofNat 40 := rfl
  have source {m : Memory} (blocks : Blocks m fdt total a b c) :
      ((fdt + (fdtOffMemRsvmap m fdt).toUInt64).toNat + a.length < 2 ^ 64 ∧
        (fdt + (fdtOffDtStruct m fdt).toUInt64).toNat + b.length < 2 ^ 64) ∧
      (fdt + (fdtOffDtStrings m fdt).toUInt64).toNat + c.length < 2 ^ 64 := by
    obtain ⟨first, second, third⟩ := blocks.inside
    rw [Blocks.place, Blocks.place, Blocks.place, toNat_offset (by omega), toNat_offset (by omega),
      toNat_offset (by omega)]
    omega
  unfold fdtPackblocks
  dsimp only
  rw [forty, ← Int32.ofNat_add, ← Int32.ofNat_add]
  simp only [ofInt_ofNat (show 40 < 2 ^ 31 by omega), ofInt_ofNat (show 40 + a.length < 2 ^ 31 by omega),
    ofInt_ofNat (show 40 + a.length + b.length < 2 ^ 31 by omega),
    ofInt_ofNat (show a.length < 2 ^ 31 by omega), ofInt_ofNat (show b.length < 2 ^ 31 by omega),
    ofInt_ofNat (show c.length < 2 ^ 31 by omega), Int32.toUInt32_ofNat']
  -- The reserved ranges come behind the header.
  refine Returns.bind (Returns.modify ?_)
  have none : x ++ y ++ z = [] ++ x ++ (y ++ z) := by simp
  rw [none] at becomes
  have becomes := becomes.copyIn blocks.reserved sameA.symm rfl rfl (source blocks).1.1
  refine Returns.bind ((becomes.setOffMemRsvmap rfl).mono fun _ m' becomes => ?_)
  -- The structure block comes behind them.
  refine Returns.bind (Returns.modify ?_)
  have next : [] ++ a ++ (y ++ z) = a ++ y ++ z := by simp
  rw [next] at becomes
  have there := blocks.kept becomes.changed apart
  have becomes := becomes.copyIn there.struct sameB.symm rfl rfl (source there).1.2
  refine Returns.bind ((becomes.setOffDtStruct rfl).mono fun _ m' becomes => ?_)
  refine Returns.bind ((becomes.setSizeDtStruct rfl).mono fun _ m' becomes => ?_)
  -- The strings come behind it.
  refine Returns.bind (Returns.modify ?_)
  have last : a ++ b ++ z = (a ++ b) ++ z ++ [] := by simp
  rw [last] at becomes
  have there := blocks.kept becomes.changed apart
  have target : tmp + UInt64.ofNat (40 + a.length + b.length) =
      tmp + UInt64.ofNat (40 + (a ++ b).length) := by
    rw [List.length_append, Nat.add_assoc]
  have becomes := becomes.copyIn there.strings sameC.symm target rfl (source there).2
  refine Returns.bind ((becomes.setOffDtStrings rfl).mono fun _ m' becomes => ?_)
  have there := blocks.kept becomes.changed apart
  refine (becomes.setSizeDtStrings there.size).mono fun _ m' becomes => ?_
  rw [List.append_nil] at becomes
  exact becomes

/-- The blocks of a tree that can be opened, with the size of its structure block. -/
theorem Original.blocks (original : Original m fdt tokens strings tree struct) :
    ∃ stop slack, (blockOf tokens ++ slack).length = struct ∧
      Blocks m fdt (fdtTotalsize m fdt).toNat (rangesBytes (tree.reservations ++ [(stop, 0)]))
        (blockOf tokens ++ slack) strings := by
  obtain ⟨stop, reserves⟩ := original.presents.reserves
  have readable := original.presents.readable
  have covers := original.covers
  have inside := original.inside
  have fits := original.fits
  have cells : (blockOf tokens).length = extent tokens + 4 := Image.length_blockOf
  have loaded : Holds m (structAt m fdt) (load m (structAt m fdt) struct) := holds_load
  obtain ⟨slack, whole⟩ := readable.tokens.held.begins loaded (by rw [length_load]; omega)
  have length : (blockOf tokens ++ slack).length = struct := by rw [whole, length_load]
  rw [← whole] at loaded
  refine ⟨stop, slack, length, reserves.held, loaded, readable.held, ⟨?_, ?_, ?_⟩, ?_,
    original.header, fits⟩
  · rw [length_rangesBytes, List.length_append, List.length_singleton]
    have ranges := reserves.inside
    omega
  · rw [length]
    exact inside
  · have last := readable.inside
    have size := readable.size
    omega
  · rw [← readable.size, UInt32.ofNat_toNat]

/-- The size of the blocks of a tree one behind the other. -/
def reorderedSize (tree : Tree) (strings : List UInt8) (struct : Nat) : Nat :=
  40 + (16 * tree.reservations.length + 16) + struct + strings.length

/-- The blocks would be put together over bytes of the original. -/
def Overlaps (fdt buf : UInt64) (total size : Nat) : Prop :=
  fdt.toNat < buf.toNat + size ∧ buf.toNat < fdt.toNat + total

/-- Whether two rooms overlap can be computed. -/
instance {total size : Nat} : Decidable (Overlaps fdt buf total size) :=
  inferInstanceAs (Decidable (_ ∧ _))

/-- There is room to put the blocks into order: in the buffer, and behind the original when they would
be put over bytes of it. -/
def ReorderFits (fdt buf : UInt64) (total size bufsize : Nat) : Prop :=
  size ≤ bufsize ∧ (Overlaps fdt buf total size → fdt.toNat + total + size ≤ buf.toNat + bufsize)

/-- In a larger buffer there is room, too. -/
theorem ReorderFits.mono {size used : Nat} (fits : ReorderFits fdt buf total size used)
    (inside : used ≤ bufsize) : ReorderFits fdt buf total size bufsize :=
  ⟨le_trans fits.1 inside, fun shared => le_trans (fits.2 shared) (by omega)⟩

/-- Where the blocks are put together they reach no byte of the original, and none outside of the
buffer. -/
theorem ReorderFits.place {size : Nat} (fits : ReorderFits fdt buf total size bufsize)
    (fdtFits : fdt.toNat + total + bufsize < 2 ^ 64) (bufFits : buf.toNat + bufsize < 2 ^ 64)
    {tmp : UInt64} (chosen : tmp = if Overlaps fdt buf total size then fdt + UInt64.ofNat total else buf) :
    tmp.toNat + size < 2 ^ 64 ∧ Disjoint (window fdt total) (window tmp size) ∧
      window tmp size ⊆ window buf bufsize := by
  obtain ⟨room, behind⟩ := fits
  subst chosen
  by_cases shared : Overlaps fdt buf total size
  · have enough := behind shared
    have last := toNat_offset (show fdt.toNat + total < 2 ^ 64 by omega)
    have before := shared.2
    rw [if_pos shared]
    refine ⟨by omega, window_apart (by omega) (by omega), fun x inside => ?_⟩
    rw [mem_window_of_fits (by omega)] at inside ⊢
    omega
  · rw [if_neg shared]
    refine ⟨by omega, ?_, window_mono room⟩
    unfold Overlaps at shared
    obtain below | above : buf.toNat + size ≤ fdt.toNat ∨ fdt.toNat + total ≤ buf.toNat := by omega
    · exact (window_apart below (by omega)).symm
    · exact window_apart above (by omega)

/-- A header and what stands behind it move into a larger room around them. -/
theorem Becomes.moveInto {body : List UInt8} {size : Nat}
    (becomes : Becomes m tmp size header body m') (target : window tmp size ⊆ window buf bufsize)
    (room : size ≤ bufsize) (bufFits : buf.toNat + bufsize < 2 ^ 64) :
    Becomes m buf bufsize header body (memmove m' buf tmp (UInt64.ofNat size)).2 := by
  obtain ⟨⟨held, within, fits⟩, changed⟩ := becomes
  have number : (UInt64.ofNat size).toNat = size := by
    rw [UInt64.toNat_ofNat', Nat.mod_eq_of_lt (by omega)]
  rw [memmove_eq (by omega) (by omega), number]
  refine ⟨⟨held.moved_within ?_ (by omega), le_trans within room, bufFits⟩,
    (changed.mono target).trans fun x outside => moved_outside ?_⟩
  · rw [List.length_append, Header.length_bytes]
    exact within
  · exact fun inside => outside (window_mono room inside)

/-- Blocks that have been put together anywhere become an image in the buffer. -/
theorem Becomes.opened {slack : List UInt8} {stop : UInt64} {size : Nat}
    (becomes : Becomes m tmp size (packedHeader header (16 * tree.reservations.length + 16) struct
      strings.length) (rangesBytes (tree.reservations ++ [(stop, 0)]) ++ (blockOf tokens ++ slack) ++
        strings) m') (sizes : ∀ range ∈ tree.reservations, range.2 ≠ 0)
    (length : (blockOf tokens ++ slack).length = struct)
    (whole : size = reorderedSize tree strings struct) (enough : size ≤ used) (inside : used ≤ bufsize)
    (small : bufsize < 2 ^ 31 - 1) (bufFits : buf.toNat + bufsize < 2 ^ 64) (aligned : buf &&& 7 = 0)
    (target : window tmp size ⊆ window buf bufsize) (root : HasRoot strings tokens tree.root) :
    Returns (do
      modify fun m => (memmove m buf tmp (UInt64.ofNat size)).2
      fdtSetMagic buf fun _ => fdtMagicWord
      fdtSetTotalsize buf fun _ => UInt32.ofNat bufsize
      fdtSetVersion buf fun _ => 17
      fdtSetLastCompVersion buf fun _ => 16
      fdtSetBootCpuidPhys buf fun m => fdtBootCpuidPhys m fdt) m' fun _ m' =>
        ∃ image, Opened m buf bufsize used tokens strings tree m' image := by
  have room := le_trans enough inside
  have cells : (blockOf tokens).length = extent tokens + 4 := Image.length_blockOf
  have slackLength : extent tokens + 4 + slack.length = struct := by
    rw [← length, List.length_append, cells]
  refine Returns.bind (Returns.modify ?_)
  have becomes := becomes.moveInto target room bufFits
  refine Returns.bind ((becomes.setMagic rfl).mono fun _ m' becomes => ?_)
  refine Returns.bind ((becomes.setTotalsize rfl).mono fun _ m' becomes => ?_)
  refine Returns.bind ((becomes.setVersion rfl).mono fun _ m' becomes => ?_)
  refine Returns.bind ((becomes.setLastCompVersion rfl).mono fun _ m' becomes => ?_)
  refine (becomes.setBootCpuidPhys rfl).mono fun _ m'' becomes => ?_
  have value : (UInt32.ofNat bufsize).toNat = bufsize := toNat_ofNat32 (by omega)
  have sum := whole
  unfold reorderedSize at sum
  let image : Image := {
    totalsize := UInt32.ofNat bufsize
    lastCompVersion := 16
    bootCpuidPhys := fdtBootCpuidPhys m' fdt
    front := []
    reserved := tree.reservations
    stop := stop
    middle := []
    tokens := tokens
    slack := slack
    spare := []
    strings := strings
    ranges := sizes
    supported := by decide
    room := by
      rw [value, List.length_nil]
      omega
    small := by rwa [value] }
  have offStruct : image.offStruct = 40 + (16 * tree.reservations.length + 16) := by
    simp [image, Image.offStruct, Image.offReserved]
  have sizeStruct : image.sizeStruct = struct := slackLength
  have offStrings : image.offStrings = 40 + (16 * tree.reservations.length + 16) + struct := by
    rw [Image.offStrings, offStruct, sizeStruct]
    rfl
  have takes : image.size = reorderedSize tree strings struct := by
    rw [Image.size, offStrings, reorderedSize]
  refine ⟨image, ⟨becomes.editable aligned ?_ ?_ (le_of_eq value), rfl, root⟩, rfl, rfl, value, ?_,
    becomes.changed⟩
  · unfold Image.header packedHeader
    rw [offStruct, sizeStruct, offStrings]
    rfl
  · simp [image, Image.body, Image.ahead, Image.rear, Image.reservedBytes]
  · rwa [takes, ← whole]

section Open

variable (original : Original m fdt tokens strings tree struct)
  (whole : reorderedSize tree strings struct < 2 ^ 31) (small : bufsize < 2 ^ 31 - 1)
  (fdtFits : fdt.toNat + (fdtTotalsize m fdt).toNat + bufsize < 2 ^ 64)
  (bufFits : buf.toNat + bufsize < 2 ^ 64)

include original whole small fdtFits bufFits

/-- The numbers that `fdt_open_into` compares. -/
theorem Original.reorderChecks :
    ((40 : UInt32) + (Int32.ofNat (16 * tree.reservations.length + 16)).toUInt32 +
      (Int32.ofNat struct).toUInt32 + fdtSizeDtStrings m fdt).toInt32 =
      Int32.ofNat (reorderedSize tree strings struct) ∧
    (Int32.ofNat bufsize < Int32.ofNat (reorderedSize tree strings struct) ↔
      bufsize < reorderedSize tree strings struct) ∧
    (reorderedSize tree strings struct ≤ bufsize →
      (decide (buf + UInt64.ofNat (reorderedSize tree strings struct) > fdt) &&
        decide (buf < fdt + (fdtTotalsize m fdt).toUInt64)) =
        decide (Overlaps fdt buf (fdtTotalsize m fdt).toNat (reorderedSize tree strings struct)) ∧
      (fdt + (fdtTotalsize m fdt).toUInt64 + UInt64.ofNat (reorderedSize tree strings struct) >
          buf + UInt64.ofNat bufsize ↔
        buf.toNat + bufsize <
          fdt.toNat + (fdtTotalsize m fdt).toNat + reorderedSize tree strings struct)) := by
  have readable := original.presents.readable
  have sizeStrings : fdtSizeDtStrings m fdt = UInt32.ofNat strings.length := by
    rw [← readable.size, UInt32.ofNat_toNat]
  have place : fdt + (fdtTotalsize m fdt).toUInt64 = fdt + UInt64.ofNat (fdtTotalsize m fdt).toNat :=
    Blocks.place _
  refine ⟨?_, ofNat_lt_ofNat (by omega) (by omega), fun room => ⟨?_, ?_⟩⟩
  · have forty : (40 : UInt32) = UInt32.ofNat 40 := rfl
    rw [Int32.toUInt32_ofNat', Int32.toUInt32_ofNat', sizeStrings, forty, ← UInt32.ofNat_add,
      ← UInt32.ofNat_add, ← UInt32.ofNat_add, UInt32.toInt32_ofNat']
    rfl
  · rw [← Bool.decide_and, decide_eq_decide, place, gt_iff_lt, UInt64.lt_iff_toNat_lt,
      UInt64.lt_iff_toNat_lt, toNat_offset (by omega), toNat_offset (by omega)]
    rfl
  · rw [place, add_offsets, gt_iff_lt, UInt64.lt_iff_toNat_lt, toNat_offset (by omega),
      toNat_offset (by omega), ← Nat.add_assoc]

/-- The blocks are put into order where there is room. -/
theorem Original.openReordered (aligned : buf &&& 7 = 0) (fits : ReorderFits fdt buf
    (fdtTotalsize m fdt).toNat (reorderedSize tree strings struct) used) (inside : used ≤ bufsize) :
    Returns (DragonStub.openReordered fdt buf (fdt + (fdtTotalsize m fdt).toUInt64)
      (Int32.ofNat bufsize) (Int32.ofNat (16 * tree.reservations.length + 16)) (Int32.ofNat struct))
        m fun _ m' => ∃ image, Opened m buf bufsize used tokens strings tree m' image := by
  have wide := fits.mono inside
  obtain ⟨newsize, less, numbers⟩ := original.reorderChecks whole small fdtFits bufFits
  obtain ⟨overlaps, beyond⟩ := numbers wide.1
  obtain ⟨stop, slack, length, blocks⟩ := original.blocks
  obtain ⟨_, reserves⟩ := original.presents.reserves
  have ranges : (rangesBytes (tree.reservations ++ [(stop, 0)])).length =
      16 * tree.reservations.length + 16 := by
    rw [length_rangesBytes, List.length_append, List.length_singleton]
    omega
  have sizeStrings : (fdtSizeDtStrings m fdt).toInt32 = Int32.ofNat strings.length := by
    rw [blocks.size, UInt32.toInt32_ofNat']
  have sum : 40 + (rangesBytes (tree.reservations ++ [(stop, 0)])).length +
      (blockOf tokens ++ slack).length + strings.length = reorderedSize tree strings struct := by
    rw [ranges, length, reorderedSize]
  unfold DragonStub.openReordered
  refine Returns.bind (Returns.get ?_)
  simp only [newsize, ofInt_ofNat whole, ofInt_ofNat (show bufsize < 2 ^ 31 by omega), overlaps,
    decide_eq_true_eq, sizeStrings]
  refine Returns.bind (returns_failIf (decide_eq_false (less.not.mpr (Nat.not_lt.mpr wide.1))) ?_)
  refine Returns.bind (returns_failIf ?_ ?_)
  · by_cases shared : Overlaps fdt buf (fdtTotalsize m fdt).toNat (reorderedSize tree strings struct)
    · rw [if_pos shared, decide_eq_true shared, Bool.true_and]
      exact decide_eq_false (beyond.not.mpr (Nat.not_lt.mpr (wide.2 shared)))
    · rw [decide_eq_false shared, Bool.false_and]
  have placed : (if Overlaps fdt buf (fdtTotalsize m fdt).toNat (reorderedSize tree strings struct)
      then fdt + (fdtTotalsize m fdt).toUInt64 else buf) = if Overlaps fdt buf
        (fdtTotalsize m fdt).toNat (reorderedSize tree strings struct)
      then fdt + UInt64.ofNat (fdtTotalsize m fdt).toNat else buf := by
    rw [Blocks.place]
  generalize (if Overlaps fdt buf (fdtTotalsize m fdt).toNat (reorderedSize tree strings struct)
    then fdt + (fdtTotalsize m fdt).toUInt64 else buf) = tmp at placed ⊢
  obtain ⟨tmpFits, apart, target⟩ := wide.place fdtFits bufFits placed
  rw [← sum] at tmpFits apart
  obtain ⟨header, x, y, z, sameA, sameB, sameC, lies⟩ := exists_lies m tmpFits
  have packed := blocks.pack lies sameA sameB sameC apart (by omega)
  rw [sum, ranges, length] at packed
  refine Returns.bind (packed.mono fun _ m' becomes => ?_)
  rw [Int32.toUInt32_ofNat']
  exact becomes.opened reserves.sizes length rfl fits.1 inside small bufFits aligned target
    original.presents.root

/-- Without room they are left as they are. -/
theorem Original.openReordered_full (full : ¬ReorderFits fdt buf (fdtTotalsize m fdt).toNat
    (reorderedSize tree strings struct) bufsize) :
    (DragonStub.openReordered fdt buf (fdt + (fdtTotalsize m fdt).toUInt64) (Int32.ofNat bufsize)
      (Int32.ofNat (16 * tree.reservations.length + 16)) (Int32.ofNat struct)).run.run m =
        (.error (-fdtErrNospace), m) := by
  obtain ⟨newsize, less, numbers⟩ := original.reorderChecks whole small fdtFits bufFits
  unfold DragonStub.openReordered
  simp only [run_bind, run_get, newsize, run_failIf, less, ofInt_ofNat whole]
  by_cases room : bufsize < reorderedSize tree strings struct
  · simp only [room, decide_true, if_true]
  · obtain ⟨overlaps, beyond⟩ := numbers (Nat.le_of_not_lt room)
    have shared : Overlaps fdt buf (fdtTotalsize m fdt).toNat (reorderedSize tree strings struct) ∧
        buf.toNat + bufsize <
          fdt.toNat + (fdtTotalsize m fdt).toNat + reorderedSize tree strings struct := by
      unfold ReorderFits at full
      grind
    simp only [room, decide_false, Bool.false_eq_true, if_false, overlaps, shared.1, decide_true,
      Bool.true_and, if_true, ofInt_ofNat (show bufsize < 2 ^ 31 by omega), beyond, shared.2]

end Open

/-- A tree of less than half a gigabyte can be put into order. -/
theorem Original.small (original : Original m fdt tokens strings tree struct)
    (small : (fdtTotalsize m fdt).toNat < 2 ^ 29) : reorderedSize tree strings struct < 2 ^ 31 := by
  obtain ⟨stop, reserves⟩ := original.presents.reserves
  have ranges := reserves.inside
  have block := original.inside
  have names := original.presents.readable.inside
  unfold reorderedSize
  omega

/-- There is room to open a tree: for the whole of it when its blocks are in order, and else for the
blocks. -/
def OpenFits (m : Memory) (fdt buf : UInt64) (tree : Tree) (strings : List UInt8) (struct bufsize : Nat) :
    Prop :=
  (InOrder m fdt tree struct → (fdtTotalsize m fdt).toNat ≤ bufsize) ∧
    (¬InOrder m fdt tree struct →
      ReorderFits fdt buf (fdtTotalsize m fdt).toNat (reorderedSize tree strings struct) bufsize)

/-- There is room to open a carried tree where there is room for all of it. -/
theorem Carries.openFits {image : Image} (carries : Carries m fdt image tree)
    (room : image.totalsize.toNat ≤ used) :
    OpenFits m fdt buf tree image.strings image.sizeStruct used := by
  have ordered := carries.inOrder
  refine ⟨fun _ => ?_, fun misordered => absurd ordered misordered⟩
  rw [carries.editable.stands.totalsize]
  exact room

section OpenInto

variable (original : Original m fdt tokens strings tree struct)

include original

/-- What `fdt_open_into` does after its checks. -/
theorem Original.openInto_run : (fdtOpenInto fdt buf (Int32.ofNat bufsize)).run.run m =
    (if fdtBlocksMisordered m fdt (Int32.ofNat (16 * tree.reservations.length + 16))
        (Int32.ofNat struct) = false then
      DragonStub.openMoved fdt buf (Int32.ofNat bufsize) (Int32.ofNat struct)
    else DragonStub.openReordered fdt buf (fdt + (fdtTotalsize m fdt).toUInt64) (Int32.ofNat bufsize)
      (Int32.ofNat (16 * tree.reservations.length + 16)) (Int32.ofNat struct)).run.run m := by
  obtain ⟨_, reserves⟩ := original.presents.reserves
  unfold fdtOpenInto
  simp only [run_bind, run_get, run_failIf, original.presents.readable.probe_nonneg, decide_false,
    Bool.false_eq_true, if_false, original.size, reserves.memRsvSize]
  cases fdtBlocksMisordered m fdt (Int32.ofNat (16 * tree.reservations.length + 16))
    (Int32.ofNat struct) <;> rfl

variable (whole : InOrder m fdt tree struct ∨ reorderedSize tree strings struct < 2 ^ 31)
  (small : bufsize < 2 ^ 31 - 1)
  (fdtFits : fdt.toNat + (fdtTotalsize m fdt).toNat + bufsize < 2 ^ 64)
  (bufFits : buf.toNat + bufsize < 2 ^ 64)

include whole small fdtFits bufFits

/-- `fdt_open_into` opens a tree where there is room. -/
theorem Original.openInto (aligned : buf &&& 7 = 0)
    (fits : OpenFits m fdt buf tree strings struct used) (inside : used ≤ bufsize) :
    Returns (fdtOpenInto fdt buf (Int32.ofNat bufsize)) m fun _ m' =>
      ∃ image, Opened m buf bufsize used tokens strings tree m' image := by
  unfold Returns
  rw [original.openInto_run]
  by_cases ordered : InOrder m fdt tree struct
  · rw [if_pos (original.misordered.mpr ordered)]
    exact original.openMoved small bufFits aligned ordered (fits.1 ordered) inside
  · rw [if_neg fun sorted => ordered (original.misordered.mp sorted)]
    exact original.openReordered (whole.resolve_left ordered) small fdtFits bufFits aligned
      (fits.2 ordered) inside

/-- Without room it changes nothing. -/
theorem Original.openInto_full (full : ¬OpenFits m fdt buf tree strings struct bufsize) :
    (fdtOpenInto fdt buf (Int32.ofNat bufsize)).run.run m = (.error (-fdtErrNospace), m) := by
  rw [original.openInto_run]
  unfold OpenFits at full
  by_cases ordered : InOrder m fdt tree struct
  · rw [if_pos (original.misordered.mpr ordered)]
    exact original.openMoved_full small (by grind)
  · rw [if_neg fun sorted => ordered (original.misordered.mp sorted)]
    exact original.openReordered_full (whole.resolve_left ordered) small fdtFits bufFits (by grind)

end OpenInto

end DragonStub

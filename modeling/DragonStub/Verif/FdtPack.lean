import DragonStub.Verif.FdtTree

/-!
# Packing

`fdt_pack` moves the blocks of a device tree together and cuts the room for it down to them.
-/

namespace DragonStub

open ByteMemory DeviceTree FlatTree Stateful Word

variable {m start : Memory} {fdt : UInt64} {total : Nat} {header : Header}
  {image : Image} {tree : Tree} {front gap part back : List UInt8}

/-- A part of the body moves down over what stands before it. -/
theorem Becomes.moveDown (becomes : Becomes start fdt total header (front ++ gap ++ part ++ back) m)
    {dst src count : UInt64} (target : dst = fdt + UInt64.ofNat (40 + front.length))
    (source : src = fdt + UInt64.ofNat (40 + (front ++ gap).length))
    (size : count = UInt64.ofNat part.length) : ∃ rest, rest.length = gap.length ∧
      Becomes start fdt total header (front ++ part ++ rest ++ back) (memmove m dst src count).2 := by
  obtain ⟨⟨held, within, fits⟩, earlier⟩ := becomes
  have short : (header.bytes ++ front ++ gap ++ part ++ back).length ≤ 2 ^ 64 := by
    simp only [List.length_append, Header.length_bytes] at within ⊢
    omega
  have ahead : (header.bytes ++ front).length = 40 + front.length := by simp
  simp only [← List.append_assoc] at held
  obtain ⟨rest, length, held⟩ := held.moveDown short
  simp only [List.length_append] at within source
  have bound := toNat_offset (show fdt.toNat + (40 + front.length) < 2 ^ 64 by omega)
  have bound' := toNat_offset (by omega : fdt.toNat + (40 + (front.length + gap.length)) < 2 ^ 64)
  have number : (UInt64.ofNat part.length).toNat = part.length := by
    rw [UInt64.toNat_ofNat', Nat.mod_eq_of_lt (by omega)]
  subst target source size
  rw [memmove_eq (by omega) (by omega), number]
  rw [ahead, Nat.add_assoc] at held
  refine ⟨rest, length, ⟨?_, ?_, fits⟩, earlier.trans fun x outside => moved_outside ?_⟩
  · simpa only [List.append_assoc] using held
  · simp only [List.length_append]
    omega
  · intro inside
    exact outside (window_part (by omega) (by omega) inside)

/-- The header when the blocks stand one behind the other. -/
def packedHeader (header : Header) (reserved struct strings : Nat) : Header :=
  { header with
    offMemRsvmap := 40
    offDtStruct := UInt32.ofNat (40 + reserved)
    sizeDtStruct := UInt32.ofNat struct
    offDtStrings := UInt32.ofNat (40 + reserved + struct)
    sizeDtStrings := UInt32.ofNat strings }

/-- `fdt_packblocks_` inside a tree whose blocks are in order. -/
theorem Becomes.packblocks {a b c x y z w : List UInt8}
    (becomes : Becomes start fdt total header (x ++ a ++ (y ++ b ++ (z ++ c ++ w))) m)
    (reserved : header.offMemRsvmap.toNat = 40 + x.length)
    (struct : header.offDtStruct.toNat = 40 + (x ++ a ++ y).length)
    (strings : header.offDtStrings.toNat = 40 + (x ++ a ++ y ++ b ++ z).length)
    (size : header.sizeDtStrings = UInt32.ofNat c.length) (small : total < 2 ^ 31) :
    Returns (fdtPackblocks fdt fdt (Int32.ofNat a.length) (Int32.ofNat b.length)
      (Int32.ofNat c.length)) m fun _ m' => ∃ rest,
        Becomes start fdt total (packedHeader header a.length b.length c.length)
          (a ++ b ++ c ++ rest) m' := by
  have within := becomes.stands.within
  simp only [List.length_append] at within reserved struct strings
  have place {word : UInt32} {n : Nat} (value : word.toNat = n) : word.toUInt64 = UInt64.ofNat n := by
    rw [← value, ← UInt32.toNat_toUInt64, UInt64.ofNat_toNat]
  have forty : (40 : Int32) = Int32.ofNat 40 := rfl
  unfold fdtPackblocks
  dsimp only
  rw [forty, ← Int32.ofNat_add, ← Int32.ofNat_add]
  simp only [ofInt_ofNat (show 40 < 2 ^ 31 by omega), ofInt_ofNat (show 40 + a.length < 2 ^ 31 by omega),
    ofInt_ofNat (show 40 + a.length + b.length < 2 ^ 31 by omega),
    ofInt_ofNat (show a.length < 2 ^ 31 by omega), ofInt_ofNat (show b.length < 2 ^ 31 by omega),
    ofInt_ofNat (show c.length < 2 ^ 31 by omega), Int32.toUInt32_ofNat']
  -- The reserved ranges move behind the header.
  refine Returns.bind (Returns.modify ?_)
  have none : x ++ a ++ (y ++ b ++ (z ++ c ++ w)) = [] ++ x ++ a ++ (y ++ b ++ (z ++ c ++ w)) := rfl
  rw [none] at becomes
  have source : (fdtOffMemRsvmap m fdt).toNat = 40 + ([] ++ x).length := by
    rw [becomes.stands.offMemRsvmap, reserved, List.nil_append]
  obtain ⟨x', length, becomes⟩ := becomes.moveDown rfl (congrArg (fdt + ·) (place source)) rfl
  refine Returns.bind ((becomes.setOffMemRsvmap rfl).mono fun _ m' becomes => ?_)
  -- The structure block moves behind them.
  refine Returns.bind (Returns.modify ?_)
  have next : [] ++ a ++ x' ++ (y ++ b ++ (z ++ c ++ w)) = a ++ (x' ++ y) ++ b ++ (z ++ c ++ w) := by
    simp only [List.nil_append, List.append_assoc]
  rw [next] at becomes
  have source : (fdtOffDtStruct m' fdt).toNat = 40 + (a ++ (x' ++ y)).length := by
    rw [becomes.stands.offDtStruct, struct]
    simp only [List.length_append]
    omega
  obtain ⟨y', length', becomes⟩ := becomes.moveDown rfl (congrArg (fdt + ·) (place source)) rfl
  refine Returns.bind ((becomes.setOffDtStruct rfl).mono fun _ m' becomes => ?_)
  refine Returns.bind ((becomes.setSizeDtStruct rfl).mono fun _ left becomes => ?_)
  -- The strings move behind it.
  refine Returns.bind (Returns.modify ?_)
  have last : a ++ b ++ y' ++ (z ++ c ++ w) = a ++ b ++ (y' ++ z) ++ c ++ w := by
    simp only [List.append_assoc]
  rw [last] at becomes
  have target : fdt + UInt64.ofNat (40 + a.length + b.length) =
      fdt + UInt64.ofNat (40 + (a ++ b).length) := by
    rw [List.length_append, Nat.add_assoc]
  have source : (fdtOffDtStrings left fdt).toNat = 40 + (a ++ b ++ (y' ++ z)).length := by
    rw [becomes.stands.offDtStrings, strings]
    simp only [List.length_append] at length' ⊢
    omega
  obtain ⟨z', length'', becomes⟩ := becomes.moveDown target (congrArg (fdt + ·) (place source)) rfl
  refine Returns.bind ((becomes.setOffDtStrings rfl).mono fun _ m' becomes => ?_)
  have count := becomes.stands.sizeDtStrings
  refine (becomes.setSizeDtStrings (count.trans size)).mono fun _ m' becomes => ⟨z' ++ w, ?_⟩
  rw [List.append_assoc _ z' w] at becomes
  exact becomes

/-- The size of the reserved ranges, as it is computed. -/
theorem Editable.memRsvSize (editable : Editable m fdt image) :
    toInt (ofInt (fdtNumMemRsv m fdt + 1) * 16) = Int32.ofNat image.reservedBytes.length := by
  rw [Image.length_reservedBytes]
  exact editable.reserves.memRsvSize

/-- The sizes of the blocks of an image. -/
theorem Editable.blockSizes (editable : Editable m fdt image) :
    (fdtSizeDtStruct m fdt).toInt32 = Int32.ofNat (blockOf image.tokens ++ image.slack).length ∧
      (fdtSizeDtStrings m fdt).toInt32 = Int32.ofNat image.strings.length := by
  have struct : (blockOf image.tokens ++ image.slack).length = image.sizeStruct := by
    rw [List.length_append, Image.length_blockOf, Image.sizeStruct]
  rw [struct, editable.stands.sizeDtStruct, editable.stands.sizeDtStrings]
  exact ⟨UInt32.toInt32_ofNat', UInt32.toInt32_ofNat'⟩

/-- `fdt_pack` leaves no unused byte. -/
theorem Editable.pack (editable : Editable m fdt image) :
    Returns (fdtPack fdt) m fun _ m' =>
      Editable m' fdt image.packed ∧ ChangedIn (window fdt image.totalsize.toNat) m m' := by
  have becomes : Becomes m fdt image.totalsize.toNat image.header image.body m :=
    editable.stands.becomes
  obtain ⟨struct, strings⟩ := editable.blockSizes
  have small := image.small
  have parts : image.body = image.front ++ image.reservedBytes ++ (image.middle ++
      (blockOf image.tokens ++ image.slack) ++ (image.spare ++ image.strings ++ [])) := by
    simp [Image.body, Image.ahead, Image.rear]
  have size := image.length_body
  rw [parts] at becomes
  have offReserved : image.header.offMemRsvmap.toNat = 40 + image.front.length := by
    rw [image.header_offReserved, Image.offReserved]
  have offStruct : image.header.offDtStruct.toNat =
      40 + (image.front ++ image.reservedBytes ++ image.middle).length := by
    rw [image.header_offStruct, ← Image.length_ahead, Image.ahead, Nat.add_comm]
  have offStrings : image.header.offDtStrings.toNat = 40 + (image.front ++ image.reservedBytes ++
      image.middle ++ (blockOf image.tokens ++ image.slack) ++ image.spare).length := by
    rw [image.header_offStrings]
    rw [Image.size, parts] at size
    simp only [List.length_append, List.length_nil] at size ⊢
    omega
  unfold fdtPack
  refine Returns.bind (Returns.of_run editable.rwProbe ?_)
  refine Returns.bind (Returns.get ?_)
  rw [editable.memRsvSize, struct, strings]
  refine Returns.bind ((becomes.packblocks offReserved offStruct offStrings rfl (by omega)).mono ?_)
  rintro _ m' ⟨rest, becomes⟩
  have length : (blockOf image.tokens ++ image.slack).length = image.sizeStruct := by
    rw [List.length_append, Image.length_blockOf, Image.sizeStruct]
  rw [Image.length_reservedBytes, length] at becomes
  have data : fdtDataSize m' fdt = image.packed.totalsize := by
    rw [fdtDataSize, becomes.stands.offDtStrings, becomes.stands.sizeDtStrings]
    exact (UInt32.ofNat_add ..).symm
  refine (becomes.setTotalsize data).mono fun _ m' becomes => ⟨?_, becomes.changed⟩
  have shorter : image.packed.totalsize.toNat ≤ image.totalsize.toNat := by
    have within := image.size_le
    have less := image.size_packed_add
    rw [← Image.size_packed]
    omega
  exact becomes.shorten.editable editable.aligned rfl Image.body_packed.symm shorter

/-- `fdt_pack` keeps the tree and the offsets of its nodes. -/
theorem Carries.pack (carries : Carries m fdt image tree) :
    Returns (fdtPack fdt) m fun _ m' =>
      Carries m' fdt image.packed tree ∧ ChangedIn (window fdt image.totalsize.toNat) m m' :=
  carries.editable.pack.mono fun _ _ packed =>
    ⟨⟨packed.1, carries.reserved, carries.root⟩, packed.2⟩

end DragonStub

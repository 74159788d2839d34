import DragonStub.Verif.FdtFunctions
import DragonStub.Verif.FdtMemmap
import DragonStub.Verif.FdtRoom

/-!
# The new device tree in memory

`update_fdt` and `update_fdt_memmap` with the libfdt of bytes. The original only has to be a device
tree of version 16 or later, with its blocks in any order; the buffer gets the tree with the properties
of the handover, and no byte outside of the buffer changes. Where there is room `update_fdt` succeeds.
-/

namespace DragonStub

open ByteMemory DeviceTree FlatTree Interaction Stateful Word

variable {orig buffer left : FdtBlob} {tokens : List Token} {strings : List UInt8} {tree : Tree}
  {globals : Globals} {cmdline : Option (List UInt8)}

/-- The device tree that the buffer of `update_fdt` has come to carry, from a memory on. -/
noncomputable abbrev bufferTree (start : Memory) (address : UInt64) : FdtBlob → Option Tree :=
  treeIn start {address} (window address maxFdtSize.toNat)

/-- `update_fdt` starts from the original. -/
theorem openFdt_bytes (presents : Presents orig.memory orig.address tokens strings tree)
    (checked : fdtCheckHeader orig.memory orig.address = 0)
    (small : (fdtTotalsize orig.memory orig.address).toNat < 2 ^ 29) :
    Stateful.Ends (openFdt byteLibfdt (some orig)) buffer fun _ left =>
      bufferTree orig.memory buffer.address left = some tree := by
  have fits := orig.fits
  obtain ⟨struct, original⟩ := presents.original checked (by omega)
  refine ends_check fun done => treeIn_eq_some.mpr ?_
  exact carriedIn_openInto original (.inr (original.small small)) done

/-- `update_fdt` fills the buffer with the original, without reservations and with the properties of
the handover in `/chosen`. -/
theorem fillFdt_bytes (presents : Presents orig.memory orig.address tokens strings tree)
    (checked : fdtCheckHeader orig.memory orig.address = 0)
    (small : (fdtTotalsize orig.memory orig.address).toNat < 2 ^ 29) :
    Stateful.Ends (fillFdt byteLibfdt globals (some orig) cmdline) buffer fun _ left =>
      ∃ chosen base, WithChosen tree.unreserve chosen base ∧
        bufferTree orig.memory buffer.address left =
          some (base.edit chosen (putEfiProperties globals.st ∘ putBootargs cmdline)) := by
  rw [fillFdt_eq]
  refine Ends.bind ((openFdt_bytes presents checked small).mono fun _ opened holds => ?_)
  exact fillOpened_ends (documentedEdits_byteLibfdt _ _ _) holds cmdline

/-- After the handover any number of calls of `update_fdt_memmap` succeed, and the last one decides. -/
theorem memmapCalls_bytes {start : Memory} {address : UInt64} {chosen : Position} {base : Tree}
    (made : WithChosen tree.unreserve chosen base) (holds : bufferTree start address left =
      some (base.edit chosen (putEfiProperties globals.st ∘ putBootargs cmdline)))
    (calls : List (UInt64 × EfiBootMemmap)) (m : UInt64) (map : EfiBootMemmap) :
    (∀ status ∈ (memmapCalls byteLibfdt left (calls ++ [(m, map)])).1, status = efiSuccess) ∧
      ∃ final image, CarriedIn start {address} (window address maxFdtSize.toNat)
          (memmapCalls byteLibfdt left (calls ++ [(m, map)])).2 image final ∧
        HoldsMemmap m map chosen
          (base.edit chosen (putEfiProperties globals.st ∘ putBootargs cmdline)) final := by
  have prepared := prepared_handover made globals.st cmdline
  obtain ⟨succeed, last⟩ :=
    memmapCalls_prepared (documentedEdits_byteLibfdt _ _ _) calls m map prepared holds
  obtain ⟨image, carried⟩ := treeIn_eq_some.mp last
  exact ⟨succeed, _, image, carried, holdsMemmap_edit m map prepared⟩

section Update

variable {fdtAt : UInt64 → FdtBlob} {origFdt origFdtSize : UInt64} {events : List Event}

/-- On a checked and whole device tree `update_fdt` fills a buffer with room. -/
theorem updateFdt_room {struct used : Nat} (given : origFdt ≠ 0) (original :
      Original (fdtAt origFdt).memory (fdtAt origFdt).address tokens strings tree struct)
    (checked : fdtCheckHeader (fdtAt origFdt).memory (fdtAt origFdt).address = 0)
    (whole : origFdtSize = 0 ∨
      (fdtTotalsize (fdtAt origFdt).memory (fdtAt origFdt).address).toUInt64 ≤ origFdtSize)
    (fits : OpenFits (fdtAt origFdt).memory (fdtAt origFdt).address buffer.address tree strings struct
      used)
    (room : used + handoverRoom cmdline ≤ maxFdtSize.toNat) :
    ∃ left, Exec (updateFdt byteLibfdt globals fdtAt origFdt origFdtSize buffer cmdline) []
        (some (efiSuccess, left)) ∧
      ∃ chosen base, WithChosen tree.unreserve chosen base ∧
        bufferTree (fdtAt origFdt).memory buffer.address left =
          some (base.edit chosen (putEfiProperties globals.st ∘ putBootargs cmdline)) := by
  have there : originalAt fdtAt origFdt = some (fdtAt origFdt) := if_neg given
  have opens : Returns (openFdt byteLibfdt _) buffer _ := openFdt_spares original fits room
  rw [← there] at opens
  have fills : Returns (fillFdt byteLibfdt globals _ cmdline) buffer _ := fillFdt_spares opens
  obtain ⟨_, left, filled, made⟩ := fills
  refine ⟨left, updateFdt_succeeds ?_ ?_ filled, made⟩
  · rw [there]
    rintro _ ⟨⟩
    exact checked
  · rw [there]
    rintro _ ⟨⟩
    exact whole

/-- The small device tree is all that memory holds. -/
def smallAt (_ : UInt64) : FdtBlob where
  memory := smallMemory
  address := 0x1000
  aligned := by decide
  fits := by decide

/-- A buffer behind it. -/
def smallBuffer : FdtBlob where
  memory := smallMemory
  address := 0x200000
  aligned := by decide
  fits := by decide

/-- The small device tree is the original, and the command line is `ro`. -/
def smallUpdate : Stub (EfiStatus × FdtBlob) :=
  updateFdt byteLibfdt ⟨false, false, 0, 0x7000, 0⟩ smallAt 0x1000 256 smallBuffer (some [0x72, 0x6F])

/-- The small device tree is there. -/
theorem smallAt_presents : Presents (smallAt 0x1000).memory (smallAt 0x1000).address smallImage.tokens
    smallImage.strings smallTree := smallMemory_carries.presents

/-- Its total size. -/
theorem smallAt_totalsize : fdtTotalsize (smallAt 0x1000).memory (smallAt 0x1000).address = 256 :=
  smallMemory_carries.editable.stands.totalsize

/-- It is small. -/
theorem smallAt_small :
    (fdtTotalsize (smallAt 0x1000).memory (smallAt 0x1000).address).toNat < 2 ^ 29 := by
  rw [smallAt_totalsize]
  decide

/-- It is whole. -/
theorem smallAt_whole : (256 : UInt64) = 0 ∨
    (fdtTotalsize (smallAt 0x1000).memory (smallAt 0x1000).address).toUInt64 ≤ 256 := by
  rw [smallAt_totalsize]
  decide

/-- The update of the small device tree succeeds. -/
theorem smallUpdate_exec : ∃ left, Exec smallUpdate [] (some (efiSuccess, left)) := by
  have filled : ∃ left, Exec smallUpdate [] (some (efiSuccess, left)) ∧ _ :=
    updateFdt_room (by decide) smallMemory_carries.original smallMemory_carries.editable.checkHeader
      smallAt_whole (smallMemory_carries.openFits le_rfl) (by decide)
  obtain ⟨left, run, -⟩ := filled
  exact ⟨left, run⟩

/-- When `update_fdt` succeeds on a device tree in memory, the buffer carries that tree without
reservations and with the properties of the handover in its node `/chosen`, and nothing else in memory
has changed. -/
theorem update_fdt_bytes (given : origFdt ≠ 0)
    (presents : Presents (fdtAt origFdt).memory (fdtAt origFdt).address tokens strings tree)
    (small : (fdtTotalsize (fdtAt origFdt).memory (fdtAt origFdt).address).toNat < 2 ^ 29)
    (run : Exec (updateFdt byteLibfdt globals fdtAt origFdt origFdtSize buffer cmdline) events
      (some (efiSuccess, left))) :
    ∃ chosen base updated image, WithChosen tree.unreserve chosen base ∧
      Updated globals.st cmdline chosen base updated ∧
      CarriedIn (fdtAt origFdt).memory {buffer.address} (window buffer.address maxFdtSize.toNat) left
        image updated := by
  have original : originalAt fdtAt origFdt = some (fdtAt origFdt) := if_neg given
  obtain ⟨valid, filled⟩ := updateFdt_filled run
  rw [original] at filled
  obtain ⟨chosen, base, made, holds⟩ :=
    fillFdt_bytes presents (valid _ original) small () left filled
  obtain ⟨image, carried⟩ := treeIn_eq_some.mp holds
  exact ⟨chosen, base, _, image, made, updated_edit made.unreserved made.found, carried⟩

/-- The small device tree is updated. -/
theorem update_fdt_bytes_small : ∃ left chosen base updated image,
    WithChosen smallTree.unreserve chosen base ∧ Updated 0x7000 (some [0x72, 0x6F]) chosen base updated ∧
      CarriedIn smallMemory {0x200000} (window 0x200000 maxFdtSize.toNat) left image updated := by
  obtain ⟨left, run⟩ := smallUpdate_exec
  exact ⟨left, update_fdt_bytes (by decide) smallAt_presents smallAt_small run⟩

/-- Then every later call of `update_fdt_memmap` succeeds, and the last of them decides what the tree in
the buffer holds of the map. -/
theorem update_fdt_memmap_bytes (given : origFdt ≠ 0)
    (presents : Presents (fdtAt origFdt).memory (fdtAt origFdt).address tokens strings tree)
    (small : (fdtTotalsize (fdtAt origFdt).memory (fdtAt origFdt).address).toNat < 2 ^ 29)
    (run : Exec (updateFdt byteLibfdt globals fdtAt origFdt origFdtSize buffer cmdline) events
      (some (efiSuccess, left))) :
    ∃ updated chosen, bufferTree (fdtAt origFdt).memory buffer.address left = some updated ∧
      updated.subnode [] "chosen" = some chosen ∧
      ∀ calls m map, (∀ status ∈ (memmapCalls byteLibfdt left (calls ++ [(m, map)])).1,
          status = efiSuccess) ∧
        ∃ final image, CarriedIn (fdtAt origFdt).memory {buffer.address}
            (window buffer.address maxFdtSize.toNat)
            (memmapCalls byteLibfdt left (calls ++ [(m, map)])).2 image final ∧
          HoldsMemmap m map chosen updated final := by
  have original : originalAt fdtAt origFdt = some (fdtAt origFdt) := if_neg given
  obtain ⟨valid, filled⟩ := updateFdt_filled run
  rw [original] at filled
  obtain ⟨chosen, base, made, holds⟩ :=
    fillFdt_bytes presents (valid _ original) small () left filled
  exact ⟨_, chosen, holds, (prepared_handover made globals.st cmdline).found,
    memmapCalls_bytes made holds⟩

/-- The small device tree is updated and given any number of maps. -/
theorem update_fdt_memmap_bytes_small : ∃ left updated chosen,
    bufferTree smallMemory 0x200000 left = some updated ∧ updated.subnode [] "chosen" = some chosen ∧
    ∀ calls m map, (∀ status ∈ (memmapCalls byteLibfdt left (calls ++ [(m, map)])).1,
        status = efiSuccess) ∧
      ∃ final image, CarriedIn smallMemory {0x200000} (window 0x200000 maxFdtSize.toNat)
          (memmapCalls byteLibfdt left (calls ++ [(m, map)])).2 image final ∧
        HoldsMemmap m map chosen updated final := by
  obtain ⟨left, run⟩ := smallUpdate_exec
  exact ⟨left, update_fdt_memmap_bytes (by decide) smallAt_presents smallAt_small run⟩

/-- On a checked and whole device tree `update_fdt` succeeds when the buffer has room for the tree and
the handover. -/
theorem update_fdt_has_room {struct used : Nat} (given : origFdt ≠ 0) (original :
      Original (fdtAt origFdt).memory (fdtAt origFdt).address tokens strings tree struct)
    (checked : fdtCheckHeader (fdtAt origFdt).memory (fdtAt origFdt).address = 0)
    (whole : origFdtSize = 0 ∨
      (fdtTotalsize (fdtAt origFdt).memory (fdtAt origFdt).address).toUInt64 ≤ origFdtSize)
    (fits : OpenFits (fdtAt origFdt).memory (fdtAt origFdt).address buffer.address tree strings struct
      used)
    (room : used + handoverRoom cmdline ≤ maxFdtSize.toNat) :
    ∃ left, Exec (updateFdt byteLibfdt globals fdtAt origFdt origFdtSize buffer cmdline) []
        (some (efiSuccess, left)) ∧
      ∃ chosen base updated image, WithChosen tree.unreserve chosen base ∧
        Updated globals.st cmdline chosen base updated ∧
        CarriedIn (fdtAt origFdt).memory {buffer.address} (window buffer.address maxFdtSize.toNat) left
          image updated := by
  obtain ⟨left, run, chosen, base, made, holds⟩ :=
    updateFdt_room given original checked whole fits room
  obtain ⟨image, carried⟩ := treeIn_eq_some.mp holds
  exact ⟨left, run, chosen, base, _, image, made, updated_edit made.unreserved made.found, carried⟩

/-- The buffer has room for the small device tree. -/
theorem update_fdt_has_room_small : ∃ left, Exec smallUpdate [] (some (efiSuccess, left)) ∧
    ∃ chosen base updated image, WithChosen smallTree.unreserve chosen base ∧
      Updated 0x7000 (some [0x72, 0x6F]) chosen base updated ∧
      CarriedIn smallMemory {0x200000} (window 0x200000 maxFdtSize.toNat) left image updated :=
  update_fdt_has_room (by decide) smallMemory_carries.original
    smallMemory_carries.editable.checkHeader smallAt_whole (smallMemory_carries.openFits le_rfl)
    (by decide)

/-- Without a device tree `update_fdt` makes one and succeeds for every command line that the buffer has
room for, and every later call of `update_fdt_memmap` succeeds, too. -/
theorem update_fdt_creates (room : 139 + handoverRoom cmdline ≤ maxFdtSize.toNat) :
    ∃ left, Exec (updateFdt byteLibfdt globals fdtAt 0 origFdtSize buffer cmdline) []
        (some (efiSuccess, left)) ∧
      ∃ chosen base updated, WithChosen cellTree chosen base ∧
        Updated globals.st cmdline chosen base updated ∧
        bufferTree buffer.memory buffer.address left = some updated ∧
        ∀ calls m map, (∀ status ∈ (memmapCalls byteLibfdt left (calls ++ [(m, map)])).1,
            status = efiSuccess) ∧
          ∃ final image, CarriedIn buffer.memory {buffer.address}
              (window buffer.address maxFdtSize.toNat)
              (memmapCalls byteLibfdt left (calls ++ [(m, map)])).2 image final ∧
            HoldsMemmap m map chosen updated final := by
  have fills : Returns (fillFdt byteLibfdt globals (originalAt fdtAt 0) cmdline) buffer _ :=
    fillFdt_spares (openFdt_spares_none room)
  obtain ⟨_, left, filled, chosen, base, made, holds⟩ := fills
  exact ⟨left, updateFdt_succeeds nofun nofun filled, chosen, base, _, made,
    updated_edit made.unreserved made.found, holds, memmapCalls_bytes made holds⟩

/-- A tree is made for the command line `ro`. -/
theorem update_fdt_creates_small : ∃ left, Exec (updateFdt byteLibfdt ⟨false, false, 0, 0x7000, 0⟩
      smallAt 0 0 smallBuffer (some [0x72, 0x6F])) [] (some (efiSuccess, left)) ∧
    ∃ chosen base updated, WithChosen cellTree chosen base ∧
      Updated 0x7000 (some [0x72, 0x6F]) chosen base updated ∧
      bufferTree smallMemory 0x200000 left = some updated ∧
      ∀ calls m map, (∀ status ∈ (memmapCalls byteLibfdt left (calls ++ [(m, map)])).1,
          status = efiSuccess) ∧
        ∃ final image, CarriedIn smallMemory {0x200000} (window 0x200000 maxFdtSize.toNat)
            (memmapCalls byteLibfdt left (calls ++ [(m, map)])).2 image final ∧
          HoldsMemmap m map chosen updated final :=
  update_fdt_creates (by decide)

end Update

end DragonStub

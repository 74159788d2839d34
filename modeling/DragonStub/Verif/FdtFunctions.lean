import DragonStub.Verif.FdtBlobs

/-!
# What the functions of libfdt do

Each function that the stub calls, on a device tree in memory: its result for every tree, and the tree
it leaves. Where there is no room the tree is left as it was, and no byte outside of the room changes.
-/

namespace DragonStub

open ByteMemory DeviceTree FlatTree Stateful Word

variable {m : Memory} {fdt buf : UInt64} {tokens : List Token} {strings : List UInt8} {image : Image}
  {tree : Tree} {key value path : List UInt8} {position : Position} {offset : Int32}

/-- An image that is written into memory is there. -/
theorem carries_storeAll {root : Node} (fits : fdt.toNat + image.totalsize.toNat < 2 ^ 64)
    (aligned : fdt &&& 7 = 0) (hasRoot : HasRoot image.strings image.tokens root) :
    Carries (storeAll m fdt (image.header.bytes ++ image.body)) fdt image ⟨image.reserved, root⟩ := by
  have length := image.length_body
  have within := image.size_le
  refine ⟨⟨⟨holds_storeAll ?_, ?_, fits⟩, aligned⟩, rfl, hasRoot⟩
  · rw [List.length_append, Header.length_bytes]
    omega
  · change 40 + image.body.length ≤ image.totalsize.toNat
    omega

/-- The name of the node `/chosen`. -/
def chosenName : Name where
  bytes := [0x63, 0x68, 0x6f, 0x73, 0x65, 0x6e]
  pad := [0]
  noNul := by decide
  fills := rfl

/-- The tokens of a root with the property `id` and the child `chosen`. -/
def smallTokens : List Token :=
  [.beginNode rootName, .prop ⟨0, [1, 2], [0, 0], rfl⟩, .beginNode chosenName, .endNode, .endNode]

/-- A small device tree with a reserved range, in a room of 256 bytes. -/
def smallImage : Image where
  totalsize := 256
  lastCompVersion := 16
  bootCpuidPhys := 0
  front := []
  reserved := [(0x80000000, 0x1000)]
  stop := 0
  middle := []
  tokens := smallTokens
  slack := []
  spare := []
  strings := [0x69, 0x64, 0]
  ranges := List.forall_mem_singleton.mpr (by decide)
  supported := lastCompVersion_supported
  room := by decide
  small := by decide

/-- What it stands for. -/
def smallTree : Tree where
  reservations := [(0x80000000, 0x1000)]
  root := .node (text []) (put (text [0x69, 0x64]) [1, 2] fun _ => none)
    [.node (text [0x63, 0x68, 0x6f, 0x73, 0x65, 0x6e]) (fun _ => none) []]

/-- The small device tree at an address. -/
def smallMemory : Memory := storeAll (fun _ => 0) 0x1000 (smallImage.header.bytes ++ smallImage.body)

/-- That memory carries the small tree. -/
theorem smallMemory_carries : Carries smallMemory 0x1000 smallImage smallTree := by
  refine carries_storeAll (by decide) (by decide) ⟨?_, nofun⟩
  exact .node rootName (.prop (by decide) .nil) (.node chosenName .nil .nil .nil) .nil

/-- The root of the small tree is at offset zero. -/
theorem smallMemory_root : IsNode smallImage.strings smallImage.tokens smallTree 0 [] :=
  isNode_root smallMemory_carries.root

/-- `fdt_subnode_offset` finds the first child with the sought name, or none. -/
theorem fdt_subnode_offset_finds (presents : Presents m fdt tokens strings tree)
    (node : IsNode strings tokens tree offset position) (short : key.length < 2 ^ 31) :
    match tree.subnode position (text key) with
    | some child => 0 ≤ fdtSubnodeOffset m fdt offset key ∧
        IsNode strings tokens tree (fdtSubnodeOffset m fdt offset key) child
    | none => fdtSubnodeOffset m fdt offset key = -fdtErrNotfound := by
  cases found : tree.subnode position (text key) with
  | some child => exact presents.subnodeOffset_some node short found
  | none => exact presents.subnodeOffset_none node short found

/-- The child of the small tree is found. -/
theorem fdt_subnode_offset_finds_small :
    0 ≤ fdtSubnodeOffset smallMemory 0x1000 0 chosenName.bytes ∧
      IsNode smallImage.strings smallImage.tokens smallTree
        (fdtSubnodeOffset smallMemory 0x1000 0 chosenName.bytes) [0] := by
  have found : smallTree.subnode [] (text chosenName.bytes) = some [0] := by decide
  have short : chosenName.bytes.length < 2 ^ 31 := by decide
  have finds := fdt_subnode_offset_finds smallMemory_carries.presents smallMemory_root short
  rw [found] at finds
  exact finds

/-- `fdt_getprop` finds the value of a property and its length, or none. -/
theorem fdt_getprop_finds (presents : Presents m fdt tokens strings tree)
    (node : IsNode strings tokens tree offset position) (short : key.length < 2 ^ 31) :
    match tree.property position (text key) with
    | some value => ∃ p, fdtGetprop m fdt offset key = .ok (p, Int32.ofNat value.length) ∧ Holds m p value
    | none => fdtGetprop m fdt offset key = .error (-fdtErrNotfound) := by
  cases found : tree.property position (text key) with
  | some value => exact presents.getprop_some node short found
  | none => exact presents.getprop_none node short found

/-- The property of the root of the small tree is found. -/
theorem fdt_getprop_finds_small : ∃ p,
    fdtGetprop smallMemory 0x1000 0 [0x69, 0x64] = .ok (p, 2) ∧ Holds smallMemory p [1, 2] := by
  have found : smallTree.property [] (text [0x69, 0x64]) = some [1, 2] := by decide
  have short : ([0x69, 0x64] : List UInt8).length < 2 ^ 31 := by decide
  have finds := fdt_getprop_finds smallMemory_carries.presents smallMemory_root short
  rw [found] at finds
  exact finds

/-- `fdt_path_offset` follows an absolute path from the root, name by name. -/
theorem fdt_path_offset_follows (presents : Presents m fdt tokens strings tree)
    (short : path.length < 2 ^ 31 - 1) :
    match tree.follow [] ((pathNames path).map text) with
    | some target => 0 ≤ fdtPathOffset m fdt ('/'.toUInt8 :: path) ∧
        IsNode strings tokens tree (fdtPathOffset m fdt ('/'.toUInt8 :: path)) target
    | none => fdtPathOffset m fdt ('/'.toUInt8 :: path) = -fdtErrNotfound := by
  have longer : ('/'.toUInt8 :: path).length < 2 ^ 31 := by
    rw [List.length_cons]
    omega
  rw [← pathNames_slash]
  cases found : tree.follow [] ((pathNames ('/'.toUInt8 :: path)).map text) with
  | some target => exact presents.pathOffset_some longer found
  | none => exact presents.pathOffset_none longer found

/-- The path to the child of the small tree is followed. -/
theorem fdt_path_offset_follows_small :
    0 ≤ fdtPathOffset smallMemory 0x1000 ('/'.toUInt8 :: chosenName.bytes) ∧
      IsNode smallImage.strings smallImage.tokens smallTree
        (fdtPathOffset smallMemory 0x1000 ('/'.toUInt8 :: chosenName.bytes)) [0] := by
  have found : smallTree.follow [] ((pathNames chosenName.bytes).map text) = some [0] := by
    decide +kernel
  have short : chosenName.bytes.length < 2 ^ 31 - 1 := by decide
  have follows := fdt_path_offset_follows smallMemory_carries.presents short
  rw [found] at follows
  exact follows

/-- `fdt_num_mem_rsv` counts the reserved ranges, and `fdt_get_mem_rsv` reads each of them. -/
theorem fdt_mem_rsv_reads (presents : Presents m fdt tokens strings tree) :
    fdtNumMemRsv m fdt = Int32.ofNat tree.reservations.length ∧
      ∀ index (inside : index < tree.reservations.length),
        fdtGetMemRsv m fdt (Int32.ofNat index) = .ok tree.reservations[index] := by
  obtain ⟨stop, reserves⟩ := presents.reserves
  exact ⟨reserves.numMemRsv, fun index => reserves.getMemRsv presents.readable.probe_nonneg⟩

/-- The reserved range of the small tree is read. -/
theorem fdt_mem_rsv_reads_small : fdtNumMemRsv smallMemory 0x1000 = 1 ∧
    fdtGetMemRsv smallMemory 0x1000 0 = .ok (0x80000000, 0x1000) := by
  obtain ⟨count, ranges⟩ := fdt_mem_rsv_reads smallMemory_carries.presents
  exact ⟨count, ranges 0 (by decide)⟩

/-- `fdt_setprop` creates or replaces a property where there is room, and else leaves the tree. -/
theorem fdt_setprop_sets (carries : Carries m fdt image tree)
    (node : IsNode image.strings image.tokens tree offset position) (noNul : 0 ∉ key)
    (shortKey : key.length < 2 ^ 31 - 16) (short : value.length < 2 ^ 31 - 16) :
    (SetpropFits image key value (tree.property position (text key)) →
      Returns (fdtSetprop fdt offset key value) m fun _ m' => ∃ image',
        Edited m fdt image (propCost key value) m' image' (tree.edit position (put (text key) value)) ∧
        IsNode image'.strings image'.tokens (tree.edit position (put (text key) value)) offset
          position) ∧
    (¬SetpropFits image key value (tree.property position (text key)) →
      Aborts (fdtSetprop fdt offset key value) m (-fdtErrNospace) fun m' =>
        Edited m fdt image 0 m' image tree) :=
  ⟨carries.setprop node noNul shortKey short, carries.setprop_full node noNul shortKey short⟩

/-- A property is set on the root of the small tree. -/
theorem fdt_setprop_sets_small : Returns (fdtSetprop 0x1000 0 [0x69] [7]) smallMemory fun _ m' =>
    ∃ image', Edited smallMemory 0x1000 smallImage 18 m' image'
        (smallTree.edit [] (put (text [0x69]) [7])) ∧
      IsNode image'.strings image'.tokens (smallTree.edit [] (put (text [0x69]) [7])) 0 [] := by
  have absent : smallTree.property [] (text [0x69]) = none := by decide
  refine (fdt_setprop_sets smallMemory_carries smallMemory_root (by decide) (by decide)
    (by decide)).1 ?_
  rw [absent]
  change _ ≤ _
  decide

/-- `fdt_setprop_inplace` replaces a value of the same length, and else leaves memory. -/
theorem fdt_setprop_inplace_replaces (carries : Carries m fdt image tree)
    (node : IsNode image.strings image.tokens tree offset position)
    (shortKey : key.length < 2 ^ 31) (short : value.length < 2 ^ 31) :
    match tree.property position (text key) with
    | some old =>
      (old.length = value.length →
        Returns (fdtSetpropInplace fdt offset key value) m fun _ m' => ∃ image',
          Edited m fdt image 0 m' image' (tree.edit position (put (text key) value)) ∧
          IsNode image'.strings image'.tokens (tree.edit position (put (text key) value)) offset
            position) ∧
      (old.length ≠ value.length →
        (fdtSetpropInplace fdt offset key value).run.run m = (.error (-fdtErrNospace), m))
    | none => (fdtSetpropInplace fdt offset key value).run.run m = (.error (-fdtErrNotfound), m) := by
  cases found : tree.property position (text key) with
  | some old =>
    have small := node.value_small found
    exact ⟨carries.setpropInplace node shortKey found, fun other =>
      carries.setpropInplace_other node shortKey found other (by omega) short⟩
  | none => exact carries.setpropInplace_missing node shortKey found

/-- The property of the root of the small tree is replaced. -/
theorem fdt_setprop_inplace_replaces_small :
    Returns (fdtSetpropInplace 0x1000 0 [0x69, 0x64] [3, 4]) smallMemory fun _ m' => ∃ image',
      Edited smallMemory 0x1000 smallImage 0 m' image'
        (smallTree.edit [] (put (text [0x69, 0x64]) [3, 4])) ∧
      IsNode image'.strings image'.tokens (smallTree.edit [] (put (text [0x69, 0x64]) [3, 4])) 0
        [] := by
  have found : smallTree.property [] (text [0x69, 0x64]) = some [1, 2] := by decide
  have shortKey : ([0x69, 0x64] : List UInt8).length < 2 ^ 31 := by decide
  have short : ([3, 4] : List UInt8).length < 2 ^ 31 := by decide
  have replaces := fdt_setprop_inplace_replaces smallMemory_carries smallMemory_root shortKey short
  rw [found] at replaces
  exact replaces.1 rfl

/-- `fdt_add_subnode` adds a bare node in front of the children where there is room and none of them
has its name, and else leaves the tree. -/
theorem fdt_add_subnode_adds (carries : Carries m fdt image tree)
    (node : IsNode image.strings image.tokens tree offset position) (noNul : 0 ∉ key)
    (short : key.length < 2 ^ 31 - 16) :
    match tree.subnode position (text key) with
    | some _ => (fdtAddSubnode fdt offset key).run.run m = (.error (-fdtErrExists), m)
    | none =>
      (image.size + (8 + nameCells key) ≤ image.totalsize.toNat →
        Returns (fdtAddSubnode fdt offset key) m fun place m' => ∃ image',
          Edited m fdt image (8 + nameCells key) m' image' (tree.insertChild position 0 (text key)) ∧
          IsNode image'.strings image'.tokens (tree.insertChild position 0 (text key)) place
            (position ++ [0]) ∧
          IsNode image'.strings image'.tokens (tree.insertChild position 0 (text key)) offset
            position) ∧
      (image.totalsize.toNat < image.size + (8 + nameCells key) →
        Aborts (fdtAddSubnode fdt offset key) m (-fdtErrNospace) fun m' =>
          Edited m fdt image 0 m' image tree) := by
  cases found : tree.subnode position (text key) with
  | some child => exact carries.addSubnode_exists node short found
  | none =>
    exact ⟨carries.addSubnode node noNul short found, carries.addSubnode_full node short found⟩

/-- A child is added to the root of the small tree. -/
theorem fdt_add_subnode_adds_small :
    Returns (fdtAddSubnode 0x1000 0 [0x63]) smallMemory fun place m' => ∃ image',
      Edited smallMemory 0x1000 smallImage 12 m' image' (smallTree.insertChild [] 0 (text [0x63])) ∧
      IsNode image'.strings image'.tokens (smallTree.insertChild [] 0 (text [0x63])) place [0] ∧
      IsNode image'.strings image'.tokens (smallTree.insertChild [] 0 (text [0x63])) 0 [] := by
  have absent : smallTree.subnode [] (text [0x63]) = none := by decide
  have noNul : 0 ∉ ([0x63] : List UInt8) := by decide
  have short : ([0x63] : List UInt8).length < 2 ^ 31 - 16 := by decide
  have adds := fdt_add_subnode_adds smallMemory_carries smallMemory_root noNul short
  rw [absent] at adds
  exact adds.1 (by decide)

/-- `fdt_add_mem_rsv` adds a reserved range behind the others where there is room, and else leaves the
tree. A range without a size ends the others, so that it is none. -/
theorem fdt_add_mem_rsv_adds (carries : Carries m fdt image tree) (address size : UInt64) :
    (image.size + 16 ≤ image.totalsize.toNat →
      Returns (fdtAddMemRsv fdt address size) m fun _ m' => ∃ image',
        Edited m fdt image 16 m' image'
          { tree with reservations := addRange tree.reservations address size }) ∧
    (image.totalsize.toNat < image.size + 16 →
      Aborts (fdtAddMemRsv fdt address size) m (-fdtErrNospace) fun m' =>
        Edited m fdt image 0 m' image tree) :=
  ⟨carries.addMemRsv, carries.addMemRsv_full⟩

/-- A range is added to the small tree. -/
theorem fdt_add_mem_rsv_adds_small :
    Returns (fdtAddMemRsv 0x1000 0x90000000 0x2000) smallMemory fun _ m' => ∃ image',
      Edited smallMemory 0x1000 smallImage 16 m' image' { smallTree with
        reservations := [(0x80000000, 0x1000), (0x90000000, 0x2000)] } :=
  (fdt_add_mem_rsv_adds smallMemory_carries 0x90000000 0x2000).1 (by decide)

/-- `fdt_pack` keeps the tree and leaves no byte of its room unused. -/
theorem fdt_pack_packs (carries : Carries m fdt image tree) :
    Returns (fdtPack fdt) m fun _ m' => ∃ image', Carries m' fdt image' tree ∧
      image'.size = image'.totalsize.toNat ∧ image'.tokens = image.tokens ∧
      image'.totalsize.toNat ≤ image.totalsize.toNat ∧
      ChangedIn (window fdt image.totalsize.toNat) m m' := by
  refine carries.pack.mono ?_
  rintro _ m' ⟨packed, changed⟩
  have within := image.size_le
  have less := image.size_packed_add
  refine ⟨image.packed, packed, Image.size_packed, rfl, ?_, changed⟩
  rw [← Image.size_packed]
  omega

/-- The small tree is packed. -/
theorem fdt_pack_packs_small : Returns (fdtPack 0x1000) smallMemory fun _ m' =>
    ∃ image', Carries m' 0x1000 image' smallTree ∧ image'.size = image'.totalsize.toNat ∧
      image'.tokens = smallTokens ∧ image'.totalsize.toNat ≤ 256 ∧
      ChangedIn (window 0x1000 256) smallMemory m' :=
  fdt_pack_packs smallMemory_carries

/-- `fdt_open_into` opens a device tree of version 16 or later in a buffer where there is room, with its
blocks in any order and with the buffer anywhere, and else leaves memory. -/
theorem fdt_open_into_opens {bufsize used struct : Nat}
    (original : Original m fdt tokens strings tree struct)
    (size : (fdtTotalsize m fdt).toNat < 2 ^ 29) (small : bufsize < 2 ^ 31 - 1)
    (fdtFits : fdt.toNat + (fdtTotalsize m fdt).toNat + bufsize < 2 ^ 64)
    (bufFits : buf.toNat + bufsize < 2 ^ 64) (aligned : buf &&& 7 = 0) (inside : used ≤ bufsize) :
    (OpenFits m fdt buf tree strings struct used →
      Returns (fdtOpenInto fdt buf (Int32.ofNat bufsize)) m fun _ m' =>
        ∃ image, Opened m buf bufsize used tokens strings tree m' image) ∧
    (¬OpenFits m fdt buf tree strings struct bufsize →
      (fdtOpenInto fdt buf (Int32.ofNat bufsize)).run.run m = (.error (-fdtErrNospace), m)) := by
  have whole := original.small size
  exact ⟨fun fits => original.openInto (.inr whole) small fdtFits bufFits aligned fits inside,
    original.openInto_full (.inr whole) small fdtFits bufFits⟩

/-- The small tree is opened into a larger buffer. -/
theorem fdt_open_into_opens_small : Returns (fdtOpenInto 0x1000 0x2000 512) smallMemory fun _ m' =>
    ∃ image, Opened smallMemory 0x2000 512 256 smallTokens [0x69, 0x64, 0] smallTree m' image := by
  have total : (fdtTotalsize smallMemory 0x1000).toNat = 256 := by
    rw [smallMemory_carries.editable.stands.totalsize]
    rfl
  exact (fdt_open_into_opens smallMemory_carries.original (by rw [total]; decide) (by decide)
    (by rw [total]; decide) (by decide) (by decide) (by decide)).1
      (smallMemory_carries.openFits le_rfl)

/-- `fdt_create_empty_tree` makes a bare root in a buffer of at least 80 bytes, and else stops, with no
change outside of the buffer. -/
theorem fdt_create_empty_tree_creates {bufsize : Nat} (small : bufsize < 2 ^ 31 - 1)
    (fits : buf.toNat + 80 + bufsize < 2 ^ 64) (aligned : buf &&& 7 = 0) :
    (80 ≤ bufsize → Returns (fdtCreateEmptyTree buf (Int32.ofNat bufsize)) m fun _ m' =>
      ∃ image, Opened m buf bufsize 80 bareTokens [] emptyTree m' image) ∧
    (bufsize < 80 → Aborts (fdtCreateEmptyTree buf (Int32.ofNat bufsize)) m (-fdtErrNospace)
      (ChangedIn (window buf bufsize) m)) :=
  ⟨fun room => fdtCreateEmptyTree_returns room small fits aligned,
    fun full => fdtCreateEmptyTree_full full (by omega)⟩

/-- An empty tree fits in eighty bytes. -/
theorem fdt_create_empty_tree_creates_small :
    Returns (fdtCreateEmptyTree 0x2000 80) smallMemory fun _ m' =>
      ∃ image, Opened smallMemory 0x2000 80 80 bareTokens [] emptyTree m' image :=
  (fdt_create_empty_tree_creates (by decide) (by decide) (by decide)).1 (by decide)

end DragonStub

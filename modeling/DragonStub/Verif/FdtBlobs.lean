import DragonStub.Verif.FdtCreate
import DragonStub.Verif.FdtLaws
import DragonStub.Verif.FdtPath
import DragonStub.Verif.FdtSubnode

/-!
# The libfdt of bytes

The functions of libfdt on device trees in memory are a libfdt, which keeps to the documentation: what
holds of the stub for every documented libfdt holds of it with this one.
-/

namespace DragonStub

open ByteMemory DeviceTree FlatTree Stateful Word

/-- A place for a device tree: memory, and an aligned address that no tree or buffer behind it makes
wrap. -/
structure FdtBlob where
  /-- The memory. -/
  memory : Memory
  /-- The address. -/
  address : UInt64
  /-- It is aligned. -/
  aligned : address &&& 7 = 0
  /-- Nothing behind it wraps. -/
  fits : address.toNat + 2 ^ 32 ≤ 2 ^ 64

namespace FdtBlob

/-- Change the memory and hand on a status. -/
def call {α : Type} (blob : FdtBlob) (status : α → Int32) (change : Edit Memory α) : Int32 × FdtBlob :=
  match change.run.run blob.memory with
  | (.ok value, m) => (status value, { blob with memory := m })
  | (.error failure, m) => (failure, { blob with memory := m })

/-- The bytes of a name whose characters are of one byte each and which is no longer than a name can
be. -/
def nameBytes (name : String) : Option (List UInt8) :=
  let bytes := name.toList.map fun c => UInt8.ofNat c.toNat
  if text bytes = name ∧ 0 ∉ bytes ∧ bytes.length < 2 ^ 31 - 16 then some bytes else none

/-- Look for a name. A name without bytes is not found. -/
def seek (name : String) (offset : List UInt8 → Int32) : Int32 :=
  match nameBytes name with
  | some key => offset key
  | none => -fdtErrNotfound

/-- Change the memory at a name. A name without bytes is not found, and too long a value has no
room. -/
def write {α : Type} (blob : FdtBlob) (name : String) (value : List UInt8) (status : α → Int32)
    (change : List UInt8 → Edit Memory α) : Int32 × FdtBlob :=
  match nameBytes name with
  | some key =>
    if value.length < 2 ^ 31 - 16 then blob.call status (change key) else (-fdtErrNospace, blob)
  | none => (-fdtErrNotfound, blob)

/-- Change a buffer whose size is one that `fdt_ro_probe_` lets through. -/
def sized (buffer : FdtBlob) (size : Int32) (change : Int32 × FdtBlob) : Int32 × FdtBlob :=
  if 0 ≤ size.toInt ∧ size.toInt < 2 ^ 31 - 1 then change else (-fdtErrNospace, buffer)

end FdtBlob

/-- The libfdt of bytes. The buffer for a tree is in the memory of the tree. -/
def byteLibfdt : Libfdt FdtBlob where
  checkHeader blob := fdtCheckHeader blob.memory blob.address
  totalsize blob := fdtTotalsize blob.memory blob.address
  openInto orig buffer size := buffer.sized size (({ buffer with memory := orig.memory }).call
    (fun _ => 0) (fdtOpenInto orig.address buffer.address size))
  createEmptyTree buffer size := buffer.sized size
    (buffer.call (fun _ => 0) (fdtCreateEmptyTree buffer.address size))
  pathOffset blob path := FdtBlob.seek path (fdtPathOffset blob.memory blob.address)
  subnodeOffset blob offset name := FdtBlob.seek name (fdtSubnodeOffset blob.memory blob.address offset)
  addSubnode blob offset name := blob.write name [] id (fdtAddSubnode blob.address offset)
  setprop blob offset name value := blob.write name value (fun _ => 0)
    fun key => fdtSetprop blob.address offset key value
  setpropInplace blob offset name value := blob.write name value (fun _ => 0)
    fun key => fdtSetpropInplace blob.address offset key value
  numMemRsv blob := fdtNumMemRsv blob.memory blob.address
  delMemRsv blob n := blob.call (fun _ => 0) (fdtDelMemRsv blob.address n)
  pack blob := blob.call (fun _ => 0) (fdtPack blob.address)

namespace FdtBlob

variable {name : String} {key : List UInt8} {α : Type} {change : Edit Memory α}

/-- What comes through hands on its status. -/
theorem call_returns (blob : FdtBlob) (status : α → Int32) {post : α → Memory → Prop}
    (returns : Returns change blob.memory post) :
    ∃ value m, blob.call status change = (status value, { blob with memory := m }) ∧ post value m := by
  obtain ⟨value, m, run, holds⟩ := returns
  refine ⟨value, m, ?_, holds⟩
  rw [call, run]

/-- What stops hands on the error. -/
theorem call_aborts (blob : FdtBlob) (status : α → Int32) {failure : Int32} {post : Memory → Prop}
    (aborts : Aborts change blob.memory failure post) :
    ∃ m, blob.call status change = (failure, { blob with memory := m }) ∧ post m := by
  obtain ⟨m, run, holds⟩ := aborts
  refine ⟨m, ?_, holds⟩
  rw [call, run]

/-- What changes nothing leaves the blob. -/
theorem call_error (blob : FdtBlob) (status : α → Int32) {failure : Int32}
    (run : change.run.run blob.memory = (.error failure, blob.memory)) :
    blob.call status change = (failure, blob) := by
  rw [call, run]

/-- A name of bytes is their text, and short. -/
theorem nameBytes_eq_some (found : nameBytes name = some key) :
    name = text key ∧ 0 ∉ key ∧ key.length < 2 ^ 31 - 16 := by
  unfold nameBytes at found
  dsimp only at found
  split_ifs at found with representable
  obtain rfl := Option.some.inj found
  exact ⟨representable.1.symm, representable.2⟩

/-- The bytes of a text are what it was made of. -/
theorem nameBytes_text (noNul : 0 ∉ key) (short : key.length < 2 ^ 31 - 16) :
    nameBytes (text key) = some key := by
  have bytes : (text key).toList.map (fun c => UInt8.ofNat c.toNat) = key := by
    have back : (fun c : Char => UInt8.ofNat c.toNat) ∘ Char.ofUInt8 = id := by
      funext c
      exact UInt8.ofNat_toNat
    rw [toList_text, List.map_map, back, List.map_id]
  unfold nameBytes
  simp only [bytes]
  rw [if_pos ⟨trivial, noNul, short⟩]

end FdtBlob

variable {start : Memory} {home region : Set UInt64} {blob : FdtBlob} {image : Image} {tree : Tree}
  {offset : Int32} {position child : Position} {name : String} {key value : List UInt8}

/-- A blob carries a tree at one of some addresses and within a region, and nothing has changed outside
of the region. -/
structure CarriedIn (start : Memory) (home region : Set UInt64) (blob : FdtBlob) (image : Image)
    (tree : Tree) : Prop where
  /-- The tree. -/
  carries : Carries blob.memory blob.address image tree
  /-- The address. -/
  address : blob.address ∈ home
  /-- The room for it. -/
  within : window blob.address image.totalsize.toNat ⊆ region
  /-- What has changed. -/
  changed : ChangedIn region start blob.memory

open Classical in
/-- The tree that a blob carries. -/
noncomputable def treeIn (start : Memory) (home region : Set UInt64) (blob : FdtBlob) : Option Tree :=
  if shown : ∃ tree image, CarriedIn start home region blob image tree then some shown.choose else none

/-- The tree of a blob is the one that it carries. -/
theorem treeIn_eq_some : treeIn start home region blob = some tree ↔
    ∃ image, CarriedIn start home region blob image tree := by
  unfold treeIn
  constructor
  · intro found
    split_ifs at found with shown
    rw [← Option.some.inj found]
    exact shown.choose_spec
  · rintro ⟨image, carried⟩
    have shown : ∃ tree image, CarriedIn start home region blob image tree := ⟨tree, image, carried⟩
    obtain ⟨other, chosen⟩ := shown.choose_spec
    rw [dif_pos shown, (chosen.carries.presents.unique carried.carries.presents).2.2]

open Classical in
/-- The position of the node at an offset of a blob. -/
noncomputable def placeIn (blob : FdtBlob) (offset : Int32) : Option Position :=
  if shown : ∃ position image tree, Carries blob.memory blob.address image tree ∧
      IsNode image.strings image.tokens tree offset position then some shown.choose else none

/-- The place of an offset is that of the node there. -/
theorem placeIn_eq_some (carries : Carries blob.memory blob.address image tree) :
    placeIn blob offset = some position ↔
      IsNode image.strings image.tokens tree offset position := by
  unfold placeIn
  constructor
  · intro found
    split_ifs at found with shown
    obtain ⟨image', tree', carries', node⟩ := shown.choose_spec
    obtain ⟨tokens, strings, rfl⟩ := carries'.presents.unique carries.presents
    rw [tokens, strings, Option.some.inj found] at node
    exact node
  · intro node
    have shown : ∃ position image tree, Carries blob.memory blob.address image tree ∧
        IsNode image.strings image.tokens tree offset position := ⟨position, image, tree, carries, node⟩
    obtain ⟨image', tree', carries', node'⟩ := shown.choose_spec
    obtain ⟨tokens, strings, rfl⟩ := carries'.presents.unique carries.presents
    rw [tokens, strings] at node'
    rw [dif_pos shown, node'.unique carries.presents.readable.tokens node]

/-- An edit in its room keeps a tree in the region. -/
theorem CarriedIn.edited {m : Memory} {image' : Image} {tree' : Tree} {more : Nat}
    (carried : CarriedIn start home region blob image tree)
    (edited : Edited blob.memory blob.address image more m image' tree') :
    CarriedIn start home region { blob with memory := m } image' tree' := by
  refine ⟨edited.carries, carried.address, ?_, carried.changed.trans (edited.changed.mono carried.within)⟩
  rw [edited.totalsize]
  exact carried.within

section Names

variable (node : IsNode image.strings image.tokens tree offset position)

include node

/-- The name of a property that is there has bytes. -/
theorem nameBytes_property (found : tree.property position name = some value) :
    ∃ key, FdtBlob.nameBytes name = some key := by
  obtain ⟨parts, properties, children, whole, rfl, isAt⟩ := node
  rw [property_isAt isAt] at found
  obtain ⟨key, rfl, noNul, short⟩ := isAt.props.name_some found
  have small := image.size_lt
  have before := image.offStruct_le
  have block := image.offReserved_le
  rw [Image.size] at small
  rw [Image.offReserved] at block
  exact ⟨key, FdtBlob.nameBytes_text noNul (by omega)⟩

/-- A name that a child has has bytes. -/
theorem nameBytes_subnode (found : tree.subnode position name = some child) :
    ∃ key, FdtBlob.nameBytes name = some key := by
  obtain ⟨parts, properties, children, whole, rfl, isAt⟩ := node
  rw [subnode_isAt isAt, Option.map_eq_some_iff] at found
  obtain ⟨index, first, rfl⟩ := found
  obtain ⟨inside, fits, -⟩ := List.findIdx?_eq_some_iff_getElem.mp first
  obtain ⟨full, same, noNul, short⟩ := isAt.inside.name_mem (List.getElem_mem inside)
  rw [same] at fits
  obtain ⟨key, rfl, front⟩ := text_of_matchesName fits
  have small := image.size_lt
  have before := image.offStruct_le
  have block := image.offReserved_le
  have length := front.length_le
  have extents := congrArg extent whole
  rw [Image.size] at small
  rw [Image.offReserved] at block
  rw [Image.sizeStruct] at before
  simp only [Parts.all, extent_append, extent_cons] at extents
  exact ⟨key, FdtBlob.nameBytes_text (fun member => noNul (front.subset member)) (by omega)⟩

end Names

section Edits

variable (carried : CarriedIn start home region blob image tree)

include carried

/-- `fdt_subnode_offset` finds the first child of the root with the name. -/
theorem CarriedIn.subnodeOffset_some (found : tree.subnode [] name = some child) :
    0 ≤ byteLibfdt.subnodeOffset blob 0 name ∧
      IsNode image.strings image.tokens tree (byteLibfdt.subnodeOffset blob 0 name) child := by
  have root := isNode_root carried.carries.root
  obtain ⟨key, bytes⟩ := nameBytes_subnode root found
  obtain ⟨rfl, -, short⟩ := FdtBlob.nameBytes_eq_some bytes
  change 0 ≤ FdtBlob.seek _ _ ∧ IsNode _ _ _ (FdtBlob.seek _ _) _
  rw [FdtBlob.seek, bytes]
  exact carried.carries.presents.subnodeOffset_some root (by omega) found

/-- Its result is negative when there is none. -/
theorem CarriedIn.subnodeOffset_none (missing : tree.subnode [] name = none) :
    byteLibfdt.subnodeOffset blob 0 name = -fdtErrNotfound := by
  have root := isNode_root carried.carries.root
  change FdtBlob.seek _ _ = _
  unfold FdtBlob.seek
  cases bytes : FdtBlob.nameBytes name with
  | none => rfl
  | some key =>
    obtain ⟨rfl, -, short⟩ := FdtBlob.nameBytes_eq_some bytes
    exact carried.carries.presents.subnodeOffset_none root (by omega) missing

/-- `fdt_add_subnode` adds a child, or its result is negative. -/
theorem CarriedIn.addSubnode (added : 0 ≤ (byteLibfdt.addSubnode blob 0 name).1) :
    ∃ image', CarriedIn start home region (byteLibfdt.addSubnode blob 0 name).2 image'
        (tree.insertChild [] 0 name) ∧
      IsNode image'.strings image'.tokens (tree.insertChild [] 0 name)
        (byteLibfdt.addSubnode blob 0 name).1 [0] := by
  have root := isNode_root carried.carries.root
  have negative : ¬0 ≤ -fdtErrNotfound ∧ ¬0 ≤ -fdtErrNospace ∧ ¬0 ≤ -fdtErrExists := by decide
  have none : ([] : List UInt8).length < 2 ^ 31 - 16 := by decide
  change 0 ≤ (FdtBlob.write _ _ _ _ _).1 at added
  change ∃ image', CarriedIn start home region (FdtBlob.write _ _ _ _ _).2 image' _ ∧
    IsNode _ _ _ (FdtBlob.write _ _ _ _ _).1 _
  unfold FdtBlob.write at added ⊢
  cases bytes : FdtBlob.nameBytes name with
  | none =>
    rw [bytes] at added
    exact absurd added negative.1
  | some key =>
    obtain ⟨rfl, noNul, short⟩ := FdtBlob.nameBytes_eq_some bytes
    simp only [bytes, if_pos none] at added ⊢
    cases there : tree.subnode [] (text key) with
    | some child =>
      have run := carried.carries.addSubnode_exists root short there
      rw [FdtBlob.call_error blob _ run] at added
      exact absurd added negative.2.2
    | none =>
      by_cases room : image.size + (8 + nameCells key) ≤ image.totalsize.toNat
      · obtain ⟨place, m, run, image', edited, node, -⟩ := FdtBlob.call_returns blob _
          (carried.carries.addSubnode root noNul short there room)
        rw [run]
        exact ⟨image', carried.edited edited, node⟩
      · obtain ⟨m, run, -⟩ := FdtBlob.call_aborts blob _
          (carried.carries.addSubnode_full root short there (Nat.lt_of_not_le room))
        rw [run] at added
        exact absurd added negative.2.1

variable (node : IsNode image.strings image.tokens tree offset position)

include node

/-- `fdt_setprop` creates or replaces a property, or it fails and leaves the tree. -/
theorem CarriedIn.setprop : (byteLibfdt.setprop blob offset name value).1 = 0 ∧
      (∃ image', CarriedIn start home region (byteLibfdt.setprop blob offset name value).2 image'
          (tree.edit position (put name value)) ∧
        IsNode image'.strings image'.tokens (tree.edit position (put name value)) offset position) ∨
    (byteLibfdt.setprop blob offset name value).1 ≠ 0 ∧
      ∃ image', CarriedIn start home region (byteLibfdt.setprop blob offset name value).2 image' tree := by
  have failed : -fdtErrNotfound ≠ 0 ∧ -fdtErrNospace ≠ 0 := by decide
  change (FdtBlob.write _ _ _ _ _).1 = 0 ∧ (∃ image', CarriedIn start home region
    (FdtBlob.write _ _ _ _ _).2 image' _ ∧ _) ∨ (FdtBlob.write _ _ _ _ _).1 ≠ 0 ∧
      ∃ image', CarriedIn start home region (FdtBlob.write _ _ _ _ _).2 image' tree
  unfold FdtBlob.write
  cases bytes : FdtBlob.nameBytes name with
  | none => exact .inr ⟨failed.1, image, carried⟩
  | some key =>
    obtain ⟨rfl, noNul, shortKey⟩ := FdtBlob.nameBytes_eq_some bytes
    by_cases short : value.length < 2 ^ 31 - 16
    · simp only [if_pos short]
      by_cases fits : SetpropFits image key value (tree.property position (text key))
      · obtain ⟨_, m, run, image', edited, kept⟩ := FdtBlob.call_returns blob _
          (carried.carries.setprop node noNul shortKey short fits)
        rw [run]
        exact .inl ⟨rfl, image', carried.edited edited, kept⟩
      · obtain ⟨m, run, edited⟩ := FdtBlob.call_aborts blob _
          (carried.carries.setprop_full node noNul shortKey short fits)
        rw [run]
        exact .inr ⟨failed.2, image, carried.edited edited⟩
    · simp only [if_neg short]
      exact .inr ⟨failed.2, image, carried⟩

/-- `fdt_setprop_inplace` replaces a value of the same length, or it fails. -/
theorem CarriedIn.setpropInplace : (byteLibfdt.setpropInplace blob offset name value).1 = 0 ∧
      (∃ old, tree.property position name = some old ∧ old.length = value.length) ∧
      (∃ image', CarriedIn start home region (byteLibfdt.setpropInplace blob offset name value).2 image'
          (tree.edit position (put name value)) ∧
        IsNode image'.strings image'.tokens (tree.edit position (put name value)) offset position) ∨
    (byteLibfdt.setpropInplace blob offset name value).1 ≠ 0 ∧
      ¬∃ old, tree.property position name = some old ∧ old.length = value.length := by
  have failed : -fdtErrNotfound ≠ 0 ∧ -fdtErrNospace ≠ 0 := by decide
  change (FdtBlob.write _ _ _ _ _).1 = 0 ∧ _ ∧ (∃ image', CarriedIn start home region
    (FdtBlob.write _ _ _ _ _).2 image' _ ∧ _) ∨ (FdtBlob.write _ _ _ _ _).1 ≠ 0 ∧ _
  unfold FdtBlob.write
  cases bytes : FdtBlob.nameBytes name with
  | none =>
    refine .inr ⟨failed.1, ?_⟩
    rintro ⟨old, found, -⟩
    obtain ⟨key, some⟩ := nameBytes_property node found
    exact absurd (bytes.symm.trans some) nofun
  | some key =>
    obtain ⟨rfl, noNul, shortKey⟩ := FdtBlob.nameBytes_eq_some bytes
    by_cases short : value.length < 2 ^ 31 - 16
    · simp only [if_pos short]
      cases found : tree.property position (text key) with
      | none =>
        rw [FdtBlob.call_error blob _ (carried.carries.setpropInplace_missing node (by omega) found)]
        exact .inr ⟨failed.1, nofun⟩
      | some old =>
        by_cases same : old.length = value.length
        · obtain ⟨_, m, run, image', edited, kept⟩ := FdtBlob.call_returns blob _
            (carried.carries.setpropInplace node (by omega) found same)
          rw [run]
          exact .inl ⟨rfl, ⟨old, rfl, same⟩, image', carried.edited edited, kept⟩
        · have small := node.value_small found
          have run := carried.carries.setpropInplace_other node (by omega) found same (by omega) (by omega)
          rw [FdtBlob.call_error blob _ run]
          refine .inr ⟨failed.2, ?_⟩
          rintro ⟨_, ⟨⟩, equal⟩
          exact same equal
    · simp only [if_neg short]
      refine .inr ⟨failed.2, ?_⟩
      rintro ⟨old, found, same⟩
      have small := node.value_small found
      omega

omit node in
/-- `fdt_del_mem_rsv` deletes one reservation. -/
theorem CarriedIn.delMemRsv {index : Nat} (inside : index < tree.reservations.length) :
    ∃ image', CarriedIn start home region (byteLibfdt.delMemRsv blob (Int32.ofNat index)).2 image'
      { tree with reservations := tree.reservations.eraseIdx index } := by
  obtain ⟨_, m, run, image', edited⟩ :=
    FdtBlob.call_returns blob (fun _ => 0) (carried.carries.delMemRsv inside)
  change ∃ image', CarriedIn start home region (FdtBlob.call _ _ _).2 image' _
  rw [run]
  exact ⟨image', carried.edited edited⟩

omit node in
/-- `fdt_pack` keeps the tree. -/
theorem CarriedIn.pack : ∃ image', CarriedIn start home region (byteLibfdt.pack blob).2 image' tree := by
  obtain ⟨_, m, run, carries, changed⟩ :=
    FdtBlob.call_returns blob (fun _ => 0) carried.carries.pack
  have within := image.size_le
  have less := image.size_packed_add
  have room : image.packed.totalsize.toNat ≤ image.totalsize.toNat := by
    rw [← Image.size_packed]
    omega
  change ∃ image', CarriedIn start home region (FdtBlob.call _ _ _).2 image' _
  rw [run]
  exact ⟨image.packed, carries, carried.address, (window_mono room).trans carried.within,
    carried.changed.trans (changed.mono carried.within)⟩

end Edits

section Buffer

variable {orig buffer : FdtBlob} {size : Int32} {change : Int32 × FdtBlob} {tokens : List Token}
  {strings : List UInt8} {struct : Nat}

/-- A buffer that has been changed has a size that is an `int`. -/
theorem FdtBlob.sized_done (done : (buffer.sized size change).1 = 0) :
    ∃ n : Nat, size = Int32.ofNat n ∧ n < 2 ^ 31 - 1 := by
  have failed : -fdtErrNospace ≠ 0 := by decide
  unfold sized at done
  by_cases bounds : 0 ≤ size.toInt ∧ size.toInt < 2 ^ 31 - 1
  · refine ⟨size.toInt.toNat, ?_, by omega⟩
    rw [← Int32.toInt_inj, Int32.toInt_ofNat_of_lt (by omega)]
    omega
  · rw [if_neg bounds] at done
    exact absurd done failed

/-- A buffer of such a size is changed. -/
theorem FdtBlob.sized_ofNat {n : Nat} (small : n < 2 ^ 31 - 1) :
    buffer.sized (Int32.ofNat n) change = change := by
  unfold sized
  rw [toInt_ofNat (by omega), if_pos (by omega)]

/-- `fdt_open_into` copies a tree into a buffer with room for it. -/
theorem openInto_fits (buffer : FdtBlob) {used n : Nat} (small : n < 2 ^ 31 - 1)
    (original : Original orig.memory orig.address tokens strings tree struct)
    (whole : InOrder orig.memory orig.address tree struct ∨ reorderedSize tree strings struct < 2 ^ 31)
    (fits : OpenFits orig.memory orig.address buffer.address tree strings struct used)
    (inside : used ≤ n) :
    (byteLibfdt.openInto orig buffer (Int32.ofNat n)).1 = 0 ∧ ∃ image,
      CarriedIn orig.memory {buffer.address} (window buffer.address n)
        (byteLibfdt.openInto orig buffer (Int32.ofNat n)).2 image tree ∧
      image.size ≤ used ∧ image.totalsize.toNat = n := by
  have room := And.intro orig.fits buffer.fits
  have total := original.presents.readable.tokens.bound.2
  have opens := original.openInto whole small (by omega) (by omega) buffer.aligned fits inside
  obtain ⟨_, m, run, image, opened⟩ := FdtBlob.call_returns
    { buffer with memory := orig.memory } (fun _ => 0) opens
  have done : byteLibfdt.openInto orig buffer (Int32.ofNat n) = (0, { buffer with memory := m }) :=
    (FdtBlob.sized_ofNat small).trans run
  rw [done]
  exact ⟨rfl, image, ⟨opened.carries, rfl, by rw [opened.totalsize], opened.changed⟩, opened.takes,
    opened.totalsize⟩

/-- `fdt_open_into` copies a tree into the buffer, and changes nothing else. -/
theorem carriedIn_openInto
    (original : Original orig.memory orig.address tokens strings tree struct)
    (whole : InOrder orig.memory orig.address tree struct ∨ reorderedSize tree strings struct < 2 ^ 31)
    (done : (byteLibfdt.openInto orig buffer size).1 = 0) :
    ∃ image, CarriedIn orig.memory {buffer.address} (window buffer.address size.toInt.toNat)
      (byteLibfdt.openInto orig buffer size).2 image tree := by
  change (FdtBlob.sized _ _ _).1 = 0 at done
  obtain ⟨n, rfl, small⟩ := FdtBlob.sized_done done
  have failed : -fdtErrNospace ≠ 0 := by decide
  have room := And.intro orig.fits buffer.fits
  have total := original.presents.readable.tokens.bound.2
  rw [toInt_ofNat (by omega), Int.toNat_natCast]
  by_cases fits : OpenFits orig.memory orig.address buffer.address tree strings struct n
  · obtain ⟨-, image, carried, -⟩ := openInto_fits buffer small original whole fits le_rfl
    exact ⟨image, carried⟩
  · rw [FdtBlob.sized_ofNat small] at done
    have stops := original.openInto_full whole small (by omega) (by omega) fits
    rw [FdtBlob.call_error { buffer with memory := orig.memory } _ stops] at done
    exact absurd done failed

/-- `fdt_create_empty_tree` makes a bare root in a buffer of at least 80 bytes. -/
theorem createEmptyTree_fits (buffer : FdtBlob) {n : Nat} (small : n < 2 ^ 31 - 1) (fits : 80 ≤ n) :
    (byteLibfdt.createEmptyTree buffer (Int32.ofNat n)).1 = 0 ∧ ∃ image,
      CarriedIn buffer.memory {buffer.address} (window buffer.address n)
        (byteLibfdt.createEmptyTree buffer (Int32.ofNat n)).2 image emptyTree ∧
      image.size ≤ 80 ∧ image.totalsize.toNat = n := by
  have room := buffer.fits
  obtain ⟨_, m, run, image, opened⟩ := FdtBlob.call_returns buffer (fun _ => 0)
    (fdtCreateEmptyTree_returns (m := buffer.memory) fits small (by omega) buffer.aligned)
  have done : byteLibfdt.createEmptyTree buffer (Int32.ofNat n) = (0, { buffer with memory := m }) :=
    (FdtBlob.sized_ofNat small).trans run
  rw [done]
  exact ⟨rfl, image, ⟨opened.carries, rfl, by rw [opened.totalsize], opened.changed⟩, opened.takes,
    opened.totalsize⟩

end Buffer

/-- The libfdt of bytes keeps to the documentation where it changes a tree. -/
theorem documentedEdits_byteLibfdt (start : Memory) (home region : Set UInt64) :
    DocumentedEdits byteLibfdt (treeIn start home region) placeIn where
  root holds := by
    obtain ⟨image, carried⟩ := treeIn_eq_some.mp holds
    exact (placeIn_eq_some carried.carries).mpr (isNode_root carried.carries.root)
  pathRoot holds := by
    obtain ⟨image, carried⟩ := treeIn_eq_some.mp holds
    exact carried.carries.presents.pathOffset_root
  pathChosen holds := by
    obtain ⟨image, carried⟩ := treeIn_eq_some.mp holds
    exact carried.carries.presents.pathOffset_child (by decide) (by decide)
  subnodeFound holds found := by
    obtain ⟨image, carried⟩ := treeIn_eq_some.mp holds
    obtain ⟨nonneg, node⟩ := carried.subnodeOffset_some found
    exact ⟨nonneg, (placeIn_eq_some carried.carries).mpr node⟩
  subnodeMissing holds missing := by
    obtain ⟨image, carried⟩ := treeIn_eq_some.mp holds
    rw [carried.subnodeOffset_none missing]
    decide
  addSubnode name holds added := by
    obtain ⟨image, carried⟩ := treeIn_eq_some.mp holds
    obtain ⟨image', carried', node⟩ := carried.addSubnode added
    exact ⟨0, Nat.zero_le _, treeIn_eq_some.mpr ⟨image', carried'⟩,
      (placeIn_eq_some carried'.carries).mpr node⟩
  setprop name value holds placed done := by
    obtain ⟨image, carried⟩ := treeIn_eq_some.mp holds
    have node := (placeIn_eq_some carried.carries).mp placed
    rcases carried.setprop node with ⟨-, image', carried', kept⟩ | ⟨failed, -⟩
    · exact ⟨treeIn_eq_some.mpr ⟨image', carried'⟩, (placeIn_eq_some carried'.carries).mpr kept⟩
    · exact absurd done failed
  setpropFails name value holds placed failed := by
    obtain ⟨image, carried⟩ := treeIn_eq_some.mp holds
    have node := (placeIn_eq_some carried.carries).mp placed
    rcases carried.setprop node with ⟨done, -⟩ | ⟨-, image', carried'⟩
    · exact absurd done failed
    · exact treeIn_eq_some.mpr ⟨image', carried'⟩
  setpropInplaceOk name value holds placed := by
    obtain ⟨image, carried⟩ := treeIn_eq_some.mp holds
    have node := (placeIn_eq_some carried.carries).mp placed
    rcases carried.setpropInplace node with ⟨done, there, -⟩ | ⟨failed, missing⟩
    · exact iff_of_true done there
    · exact iff_of_false failed missing
  setpropInplace name value holds placed done := by
    obtain ⟨image, carried⟩ := treeIn_eq_some.mp holds
    have node := (placeIn_eq_some carried.carries).mp placed
    rcases carried.setpropInplace node with ⟨-, -, image', carried', kept⟩ | ⟨failed, -⟩
    · exact ⟨treeIn_eq_some.mpr ⟨image', carried'⟩, (placeIn_eq_some carried'.carries).mpr kept⟩
    · exact absurd done failed
  numMemRsv holds := by
    obtain ⟨image, carried⟩ := treeIn_eq_some.mp holds
    obtain ⟨stop, reserves⟩ := carried.carries.presents.reserves
    have count := reserves.count
    change (fdtNumMemRsv _ _).toInt = _
    rw [reserves.numMemRsv, toInt_ofNat (by omega)]
  delMemRsv index holds inside := by
    obtain ⟨image, carried⟩ := treeIn_eq_some.mp holds
    exact treeIn_eq_some.mpr (carried.delMemRsv inside)
  pack holds := by
    obtain ⟨image, carried⟩ := treeIn_eq_some.mp holds
    exact treeIn_eq_some.mpr carried.pack

end DragonStub

import DragonStub.Verif.FdtEdits

/-!
# The map in the device tree

`update_fdt_memmap` runs when nothing can be allocated any more: it replaces the placeholders that
`update_fdt` left in `/chosen`, as often as it is called.
-/

namespace DragonStub

open Interaction DeviceTree Stateful Word

/-- `cpu_to_fdt32` gives the four bytes of a number. -/
theorem cpuToFdt32_eq (x : UInt32) : cpuToFdt32 x = bigEndian 4 x.toNat := by
  simp only [bigEndian, cpuToFdt32, List.nil_append, List.cons_append, List.cons.injEq, and_true]
  refine ⟨?_, ?_, ?_, ?_⟩ <;> apply UInt8.toNat_inj.mp <;>
    simp [Nat.shiftRight_eq_div_pow, Nat.div_div_eq_div_mul]

/-- `cpu_to_fdt64` gives the eight bytes of a number. -/
theorem cpuToFdt64_eq (x : UInt64) : cpuToFdt64 x = bigEndian 8 x.toNat := by
  have high : (x >>> 32).toUInt32.toNat = x.toNat / 256 ^ 4 := by
    have bound := x.toNat_lt
    have shift : (32 : UInt64).toNat % 64 = 32 := rfl
    rw [UInt64.toNat_toUInt32, UInt64.toNat_shiftRight, shift, Nat.shiftRight_eq_div_pow]
    omega
  have low : x.toUInt32.toNat = x.toNat % 256 ^ 4 := UInt64.toNat_toUInt32 x
  rw [cpuToFdt64, cpuToFdt32_eq, cpuToFdt32_eq, high, low, bigEndian_mod]
  exact bigEndian_append.symm

/-- The low 32 bits of a word, as `cpu_to_fdt32` gives them. -/
theorem cpuToFdt32_low (x : UInt64) : cpuToFdt32 x.toUInt32 = bigEndian 4 x.toNat := by
  rw [cpuToFdt32_eq, UInt64.toNat_toUInt32]
  exact bigEndian_mod

/-- The properties of the map in `/chosen`, with the lengths of their values. -/
def mmapSlots : List (String × Nat) :=
  [("linux,uefi-mmap-start", 8), ("linux,uefi-mmap-size", 4), ("linux,uefi-mmap-desc-size", 4),
    ("linux,uefi-mmap-desc-ver", 4)]

/-- Every property of the map is there, with its length. -/
def HasSlots (properties : Properties) : Prop :=
  ∀ slot ∈ mmapSlots, ∃ old, properties slot.1 = some old ∧ old.length = slot.2

/-- The placeholders of `update_fdt` are such properties. -/
theorem hasSlots_efi (st : UInt64) (properties : Properties) :
    HasSlots (putEfiProperties st properties) := by
  intro slot member
  simp only [mmapSlots, List.mem_cons, List.not_mem_nil, or_false] at member
  rcases member with rfl | rfl | rfl | rfl
  · exact ⟨cpuToFdt64 (-1), rfl, rfl⟩
  · exact ⟨cpuToFdt32 (-1), rfl, rfl⟩
  · exact ⟨cpuToFdt32 (-1), rfl, rfl⟩
  · exact ⟨cpuToFdt32 (-1), rfl, rfl⟩

/-- A value of the right length keeps the properties there. -/
theorem HasSlots.put {properties : Properties} (slots : HasSlots properties) {name : String}
    {value : List UInt8} (fits : (name, value.length) ∈ mmapSlots) :
    HasSlots (put name value properties) := by
  have unique : ∀ one ∈ mmapSlots, ∀ two ∈ mmapSlots, one.1 = two.1 → one.2 = two.2 := by decide
  intro slot member
  by_cases same : slot.1 = name
  · refine ⟨value, ?_, (unique slot member _ fits same).symm⟩
    rw [same, put_same]
  · obtain ⟨old, there, length⟩ := slots slot member
    exact ⟨old, by rw [put_other same, there], length⟩

/-- What `update_fdt_memmap` does to the properties of `/chosen`. -/
def putMemmap (m : UInt64) (map : EfiBootMemmap) (properties : Properties) : Properties :=
  properties |> put "linux,uefi-mmap-start" (cpuToFdt64 (m + efiBootMemmapSize))
    |> put "linux,uefi-mmap-size" (cpuToFdt32 map.mapSize.toUInt32)
    |> put "linux,uefi-mmap-desc-size" (cpuToFdt32 map.descSize.toUInt32)
    |> put "linux,uefi-mmap-desc-ver" (cpuToFdt32 map.descVer)

/-- Writing the map keeps its slots. -/
theorem hasSlots_memmap {m : UInt64} {map : EfiBootMemmap} {properties : Properties}
    (slots : HasSlots properties) : HasSlots (putMemmap m map properties) := by
  refine HasSlots.put (HasSlots.put (HasSlots.put (HasSlots.put slots ?_) ?_) ?_) ?_
  · simp [mmapSlots, cpuToFdt64, cpuToFdt32]
  · simp [mmapSlots, cpuToFdt32]
  · simp [mmapSlots, cpuToFdt32]
  · simp [mmapSlots, cpuToFdt32]

/-- The last map replaces the one before. -/
theorem putMemmap_putMemmap {m m' : UInt64} {map map' : EfiBootMemmap} {properties : Properties} :
    putMemmap m' map' (putMemmap m map properties) = putMemmap m' map' properties := by
  funext name
  simp only [putMemmap, put, Function.update_apply]
  split_ifs <;> rfl

/-- Other properties stay. -/
theorem putMemmap_other {m : UInt64} {map : EfiBootMemmap} {properties : Properties} {name : String}
    (other : name ∉ mmapSlots.map Prod.fst) : putMemmap m map properties name = properties name := by
  simp only [mmapSlots, List.map_cons, List.map_nil, List.mem_cons, List.not_mem_nil, or_false,
    not_or] at other
  simp [putMemmap, put_other, other]

section Update

variable {Blob : Type} {lib : Libfdt Blob} {view : Blob → Option Tree}
  {place : Blob → Int32 → Option Position} {fdt : Blob} {tree : Tree} {chosen : Position}

/-- The tree has a node `/chosen` with the properties of the map. -/
structure Prepared (tree : Tree) (chosen : Position) : Prop where
  /-- The node is found. -/
  found : tree.subnode [] "chosen" = some chosen
  /-- The properties are there. -/
  slots : HasSlots (tree.property chosen)

/-- A prepared tree stays so under a change that keeps the slots. -/
theorem Prepared.edit {change : Properties → Properties} (prepared : Prepared tree chosen)
    (slots : HasSlots (change (tree.property chosen))) : Prepared (tree.edit chosen change) chosen := by
  constructor
  · rw [Tree.subnode_edit, prepared.found]
  · rw [Tree.property_edit (Tree.find_subnode prepared.found)]
    exact slots

/-- A value of the right length replaces a property of the map. -/
theorem returns_inplace (laws : DocumentedEdits lib view place) (prepared : Prepared tree chosen)
    (holds : view fdt = some tree) {node : Int32} (placed : place fdt node = some chosen)
    {name : String} {value : List UInt8} (fits : (name, value.length) ∈ mmapSlots) :
    Returns (Edit.check (lib.setpropInplace · node name value)) fdt fun _ left =>
      view left = some (tree.edit chosen (put name value)) ∧ place left node = some chosen ∧
        Prepared (tree.edit chosen (put name value)) chosen := by
  have done := (laws.setpropInplaceOk name value holds placed).mpr (prepared.slots _ fits)
  obtain ⟨replaced, same⟩ := laws.setpropInplace name value holds placed done
  exact returns_check done ⟨replaced, same, prepared.edit (prepared.slots.put fits)⟩

/-- `update_fdt_memmap` succeeds on a prepared tree and sets the properties of the map. -/
theorem updateFdtMemmap_prepared (laws : DocumentedEdits lib view place)
    (prepared : Prepared tree chosen) (holds : view fdt = some tree) (m : UInt64)
    (map : EfiBootMemmap) : ∃ left, updateFdtMemmap lib fdt m map = (efiSuccess, left) ∧
      view left = some (tree.edit chosen (putMemmap m map)) := by
  have node := laws.pathChosen holds
  obtain ⟨found, placed⟩ := laws.subnodeFound holds prepared.found
  rw [← node] at found placed
  have filled : Returns (fillMemmap lib (lib.pathOffset fdt "/chosen") (m + efiBootMemmapSize) map)
      fdt fun _ left => view left = some (tree.edit chosen (putMemmap m map)) := by
    refine Returns.bind ((returns_inplace laws prepared holds placed (by
      simp [mmapSlots, cpuToFdt64, cpuToFdt32])).mono fun _ _ => ?_)
    rintro ⟨holds, placed, prepared⟩
    refine Returns.bind ((returns_inplace laws prepared holds placed (by
      simp [mmapSlots, cpuToFdt32])).mono fun _ _ => ?_)
    rintro ⟨holds, placed, prepared⟩
    refine Returns.bind ((returns_inplace laws prepared holds placed (by
      simp [mmapSlots, cpuToFdt32])).mono fun _ _ => ?_)
    rintro ⟨holds, placed, prepared⟩
    refine (returns_inplace laws prepared holds placed (by
      simp [mmapSlots, cpuToFdt32])).mono fun _ _ => ?_
    rintro ⟨holds, -, -⟩
    rw [holds]
    simp only [Tree.edit_edit]
    rfl
  obtain ⟨_, left, run, holds⟩ := filled
  refine ⟨left, ?_, holds⟩
  unfold updateFdtMemmap
  simp only [if_neg (Int32.not_lt.mpr found), run]

/-- One call of `update_fdt_memmap` after another: their statuses, and the tree they leave. -/
def memmapCalls (lib : Libfdt Blob) : Blob → List (UInt64 × EfiBootMemmap) → List EfiStatus × Blob
  | fdt, [] => ([], fdt)
  | fdt, (m, map) :: rest =>
    let (status, fdt) := updateFdtMemmap lib fdt m map
    let (statuses, fdt) := memmapCalls lib fdt rest
    (status :: statuses, fdt)

/-- Any number of calls succeed, and the last one decides. -/
theorem memmapCalls_prepared (laws : DocumentedEdits lib view place)
    (calls : List (UInt64 × EfiBootMemmap)) (m : UInt64) (map : EfiBootMemmap)
    (prepared : Prepared tree chosen) (holds : view fdt = some tree) :
    (∀ status ∈ (memmapCalls lib fdt (calls ++ [(m, map)])).1, status = efiSuccess) ∧
      view (memmapCalls lib fdt (calls ++ [(m, map)])).2 =
        some (tree.edit chosen (putMemmap m map)) := by
  induction calls generalizing fdt tree with
  | nil =>
    obtain ⟨left, call, updated⟩ := updateFdtMemmap_prepared laws prepared holds m map
    simp only [List.nil_append, memmapCalls, call]
    exact ⟨by simp, updated⟩
  | cons first rest ih =>
    obtain ⟨m', map'⟩ := first
    obtain ⟨left, call, updated⟩ := updateFdtMemmap_prepared laws prepared holds m' map'
    have again : Prepared (tree.edit chosen (putMemmap m' map')) chosen :=
      prepared.edit (hasSlots_memmap prepared.slots)
    obtain ⟨succeed, last⟩ := ih again updated
    simp only [List.cons_append, memmapCalls, call]
    constructor
    · intro status member
      rcases List.mem_cons.mp member with rfl | member
      · rfl
      · exact succeed status member
    · have overwritten : putMemmap m map ∘ putMemmap m' map' = putMemmap m map := by
        funext properties
        exact putMemmap_putMemmap
      rw [last, Tree.edit_edit, overwritten]

/-- The tree `final` is `tree` but for the properties of the map in its node `/chosen`, which hold
the address and the size of the map, and the size and version of its descriptors. -/
structure HoldsMemmap (m : UInt64) (map : EfiBootMemmap) (chosen : Position) (tree final : Tree) :
    Prop where
  /-- Only the properties of one node differ. -/
  edited : final = tree.edit chosen (putMemmap m map)
  /-- The node is `/chosen`. -/
  found : final.subnode [] "chosen" = some chosen
  /-- The address of the descriptors. -/
  start : final.property chosen "linux,uefi-mmap-start" =
    some (bigEndian 8 (m + efiBootMemmapSize).toNat)
  /-- The low 32 bits of the size of the map. -/
  size : final.property chosen "linux,uefi-mmap-size" = some (bigEndian 4 map.mapSize.toNat)
  /-- The low 32 bits of the size of a descriptor. -/
  descSize : final.property chosen "linux,uefi-mmap-desc-size" =
    some (bigEndian 4 map.descSize.toNat)
  /-- The version of the descriptors. -/
  descVer : final.property chosen "linux,uefi-mmap-desc-ver" = some (bigEndian 4 map.descVer.toNat)
  /-- Every other property of the node is as it was. -/
  others : ∀ name, name ∉ mmapSlots.map Prod.fst →
    final.property chosen name = tree.property chosen name
  /-- So are those of every other node. -/
  elsewhere : ∀ other, other ≠ chosen → ∀ name, final.property other name = tree.property other name

/-- A prepared tree that is edited holds the map. -/
theorem holdsMemmap_edit (m : UInt64) (map : EfiBootMemmap) (prepared : Prepared tree chosen) :
    HoldsMemmap m map chosen tree (tree.edit chosen (putMemmap m map)) := by
  have properties : (tree.edit chosen (putMemmap m map)).property chosen =
      putMemmap m map (tree.property chosen) := Tree.property_edit (Tree.find_subnode prepared.found)
  refine ⟨rfl, by rw [Tree.subnode_edit, prepared.found], ?_, ?_, ?_, ?_, ?_, ?_⟩
  · rw [properties, ← cpuToFdt64_eq]
    rfl
  · rw [properties, ← cpuToFdt32_low]
    rfl
  · rw [properties, ← cpuToFdt32_low]
    rfl
  · rw [properties, ← cpuToFdt32_eq]
    rfl
  · intro name other
    rw [properties, putMemmap_other other]
  · intro other different name
    exact Tree.property_edit_of_ne different

/-- The tree that `update_fdt` leaves is prepared for the map. -/
theorem prepared_handover {base : Tree} (made : WithChosen tree.unreserve chosen base) (st : UInt64)
    (cmdline : Option (List UInt8)) :
    Prepared (base.edit chosen (putEfiProperties st ∘ putBootargs cmdline)) chosen := by
  constructor
  · rw [Tree.subnode_edit, made.found]
  · rw [Tree.property_edit (Tree.find_subnode made.found)]
    exact hasSlots_efi st _

/-- When `update_fdt` has succeeded, with an original tree or without one, every later call of
`update_fdt_memmap` succeeds, and the last of them decides what the tree holds of the map. -/
theorem update_fdt_memmap_always (laws : Documented lib view place) {globals : Globals}
    {fdtAt : UInt64 → Blob} {origFdt origFdtSize : UInt64} {left : Blob}
    {cmdline : Option (List UInt8)} {events : List Event}
    (valid : ∀ blob, originalAt fdtAt origFdt = some blob → ∃ tree, view blob = some tree)
    (run : Exec (updateFdt lib globals fdtAt origFdt origFdtSize fdt cmdline) events
      (some (efiSuccess, left))) :
    ∃ tree chosen, view left = some tree ∧ tree.subnode [] "chosen" = some chosen ∧
      ∀ calls m map, (∀ status ∈ (memmapCalls lib left (calls ++ [(m, map)])).1,
          status = efiSuccess) ∧
        ∃ final, view (memmapCalls lib left (calls ++ [(m, map)])).2 = some final ∧
          HoldsMemmap m map chosen tree final := by
  obtain ⟨original, chosen, base, -, made, holds⟩ :=
    fillFdt_ends laws valid cmdline () left (updateFdt_filled run).2
  have prepared := prepared_handover made globals.st cmdline
  refine ⟨_, chosen, holds, prepared.found, fun calls m map => ?_⟩
  obtain ⟨succeed, last⟩ := memmapCalls_prepared laws.toDocumentedEdits calls m map prepared holds
  exact ⟨succeed, _, last, holdsMemmap_edit m map prepared⟩

end Update

/-- The board's tree, updated and given two maps. -/
theorem update_fdt_memmap_always_board : ∃ left tree chosen, some left.tree = some tree ∧
    tree.subnode [] "chosen" = some chosen ∧
    ∀ calls m map, (∀ status ∈ (memmapCalls treeLibfdt left (calls ++ [(m, map)])).1,
        status = efiSuccess) ∧
      ∃ final, some (memmapCalls treeLibfdt left (calls ++ [(m, map)])).2.tree = some final ∧
        HoldsMemmap m map chosen tree final := by
  obtain ⟨left, run⟩ := boardUpdate_exec
  have valid : ∀ blob, originalAt boardMemory 0x1000 = some blob →
      ∃ tree, some blob.tree = some tree := fun blob _ => ⟨blob.tree, rfl⟩
  exact ⟨left, update_fdt_memmap_always documented_treeLibfdt valid run⟩

end DragonStub

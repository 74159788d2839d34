import DragonStub.Verif.FdtBlobs
import DragonStub.Verif.FdtEdits

/-!
# Room for the handover

A buffer with room for the handover is filled: each function of libfdt that `update_fdt` calls comes
through and takes no more than its part of the room.
-/

namespace DragonStub

open ByteMemory DeviceTree FlatTree Stateful Word

variable {start : Memory} {home region : Set UInt64} {blob : FdtBlob} {image : Image} {tree : Tree}
  {offset : Int32} {position : Position} {name : String} {value : List UInt8} {spare : Nat}

/-- A blob carries a tree that leaves some bytes of its room. -/
def Spares (start : Memory) (home region : Set UInt64) (blob : FdtBlob) (tree : Tree) (spare : Nat) :
    Prop :=
  ∃ image, CarriedIn start home region blob image tree ∧ image.size + spare ≤ image.totalsize.toNat

/-- The tree of a blob is one that leaves room. -/
theorem Spares.treeIn (spares : Spares start home region blob tree spare) :
    treeIn start home region blob = some tree := by
  obtain ⟨image, carried, -⟩ := spares
  exact treeIn_eq_some.mpr ⟨image, carried⟩

/-- What leaves some bytes leaves fewer. -/
theorem Spares.mono {less : Nat} (spares : Spares start home region blob tree spare)
    (fewer : less ≤ spare) : Spares start home region blob tree less := by
  obtain ⟨image, carried, room⟩ := spares
  exact ⟨image, carried, by omega⟩

/-- An edit takes from the room what it costs. -/
theorem CarriedIn.spares {m : Memory} {image' : Image} {tree' : Tree} {cost : Nat}
    (carried : CarriedIn start home region blob image tree)
    (edited : Edited blob.memory blob.address image cost m image' tree')
    (room : image.size + (cost + spare) ≤ image.totalsize.toNat) :
    Spares start home region { blob with memory := m } tree' spare := by
  refine ⟨image', carried.edited edited, ?_⟩
  have grows := edited.grows
  rw [edited.totalsize]
  omega

/-- The most that setting a property takes. -/
def putCost (name : String) (value : List UInt8) : Nat := name.length + 1 + (12 + cellsOf value)

/-- It is what the bytes of the name take. -/
theorem putCost_eq {key : List UInt8} (bytes : FdtBlob.nameBytes name = some key) :
    putCost name value = propCost key value := by
  obtain ⟨rfl, -, -⟩ := FdtBlob.nameBytes_eq_some bytes
  rw [putCost, propCost, ← String.length_toList, toList_text, List.length_map]

/-- `fdt_setprop` gives the node the property where there is room. -/
theorem Spares.setprop (spares : Spares start home region blob tree (putCost name value + spare))
    (placed : placeIn blob offset = some position) (bytes : (FdtBlob.nameBytes name).isSome) :
    (byteLibfdt.setprop blob offset name value).1 = 0 ∧
      Spares start home region (byteLibfdt.setprop blob offset name value).2
        (tree.edit position (put name value)) spare ∧
      placeIn (byteLibfdt.setprop blob offset name value).2 offset = some position := by
  obtain ⟨image, carried, room⟩ := spares
  obtain ⟨key, bytes⟩ := Option.isSome_iff_exists.mp bytes
  rw [putCost_eq bytes] at room
  obtain ⟨rfl, noNul, shortKey⟩ := FdtBlob.nameBytes_eq_some bytes
  have short : value.length < 2 ^ 31 - 16 := by
    have small := image.small
    have header := image.length_body
    unfold propCost cellsOf at room
    omega
  have node := (placeIn_eq_some carried.carries).mp placed
  obtain ⟨_, m, run, image', edited, kept⟩ := FdtBlob.call_returns blob (fun _ => 0)
    (carried.carries.setprop node noNul shortKey short (setpropFits_of_room (by omega) _))
  have written : byteLibfdt.setprop blob offset (text key) value =
      (0, { blob with memory := m }) := by
    change FdtBlob.write _ _ _ _ _ = _
    unfold FdtBlob.write
    simp only [bytes, if_pos short, run]
  rw [written]
  exact ⟨rfl, carried.spares edited room, (placeIn_eq_some edited.carries).mpr kept⟩

/-- Setting a property comes through where there is room. -/
theorem Spares.check_setprop (spares : Spares start home region blob tree (putCost name value + spare))
    (placed : placeIn blob offset = some position) (bytes : (FdtBlob.nameBytes name).isSome) :
    Returns (Edit.check (byteLibfdt.setprop · offset name value)) blob fun _ left =>
      Spares start home region left (tree.edit position (put name value)) spare ∧
        placeIn left offset = some position := by
  obtain ⟨done, holds⟩ := spares.setprop placed bytes
  exact returns_check done holds

/-- `fdt_del_mem_rsv` takes nothing from the room. -/
theorem Spares.delMemRsv {index : Nat} (spares : Spares start home region blob tree spare)
    (inside : index < tree.reservations.length) :
    Spares start home region (byteLibfdt.delMemRsv blob (Int32.ofNat index)).2
      { tree with reservations := tree.reservations.eraseIdx index } spare := by
  obtain ⟨image, carried, room⟩ := spares
  obtain ⟨_, m, run, image', edited⟩ :=
    FdtBlob.call_returns blob (fun _ => 0) (carried.carries.delMemRsv inside)
  change Spares start home region (FdtBlob.call _ _ _).2 _ _
  rw [run]
  exact carried.spares edited (by omega)

/-- `fdt_add_subnode` adds a child to the root where there is room. -/
theorem Spares.addSubnode {key : List UInt8} (spares : Spares start home region blob tree
      (8 + nameCells key + spare)) (missing : tree.subnode [] name = none)
    (bytes : FdtBlob.nameBytes name = some key) :
    ¬(byteLibfdt.addSubnode blob 0 name).1 < 0 ∧
      Spares start home region (byteLibfdt.addSubnode blob 0 name).2 (tree.insertChild [] 0 name)
        spare ∧
      placeIn (byteLibfdt.addSubnode blob 0 name).2 (byteLibfdt.addSubnode blob 0 name).1 =
        some [0] := by
  obtain ⟨image, carried, room⟩ := spares
  obtain ⟨rfl, noNul, short⟩ := FdtBlob.nameBytes_eq_some bytes
  have none : ([] : List UInt8).length < 2 ^ 31 - 16 := by decide
  obtain ⟨place, m, run, image', edited, node, -⟩ := FdtBlob.call_returns blob id
    (carried.carries.addSubnode (isNode_root carried.carries.root) noNul short missing (by omega))
  have written : byteLibfdt.addSubnode blob 0 (text key) = (place, { blob with memory := m }) := by
    change FdtBlob.write _ _ _ _ _ = _
    unfold FdtBlob.write
    simp only [bytes, if_pos none, run, id]
  rw [written]
  have nonneg := node.nonneg edited.carries.editable.readable.tokens
  exact ⟨Int32.not_lt.mpr nonneg, carried.spares edited room, (placeIn_eq_some edited.carries).mpr node⟩

/-- Deleting every reservation takes nothing from the room. -/
theorem delMemRsvs_spares {count : Nat} (spares : Spares start home region blob tree spare)
    (all : tree.reservations.length = count) :
    Returns (delMemRsvs byteLibfdt count) blob fun _ left =>
      Spares start home region left tree.unreserve spare := by
  induction count generalizing blob tree with
  | zero =>
    have none : tree.unreserve = tree := by
      rw [Tree.unreserve, ← List.length_eq_zero_iff.mp all]
    apply Returns.pure
    rw [none]
    exact spares
  | succ count ih =>
    have last : count < tree.reservations.length := by omega
    have fewer : (tree.reservations.eraseIdx count).length = count := by
      rw [List.length_eraseIdx_of_lt last, all]
      rfl
    have later := ih (spares.delMemRsv last) fewer
    exact Returns.bind (returns_attempt later)

/-- The node `/chosen` is found or added where there is room for it. -/
theorem chosenNode_spares (spares : Spares start home region blob tree (16 + spare)) :
    Returns (chosenNode byteLibfdt) blob fun node left => ∃ chosen base, WithChosen tree chosen base ∧
      Spares start home region left base spare ∧ placeIn left node = some chosen := by
  have laws := documentedEdits_byteLibfdt start home region
  refine Returns.bind (Returns.get ?_)
  cases search : tree.subnode [] "chosen" with
  | some chosen =>
    obtain ⟨found, placed⟩ := laws.subnodeFound spares.treeIn search
    rw [if_neg (Int32.not_lt.mpr found)]
    exact Returns.pure ⟨chosen, tree, .inl ⟨search, rfl⟩, spares.mono (by omega), placed⟩
  | none =>
    rw [if_pos (laws.subnodeMissing spares.treeIn search)]
    have bytes : FdtBlob.nameBytes "chosen" = some [0x63, 0x68, 0x6f, 0x73, 0x65, 0x6e] := by decide
    obtain ⟨added, spares, placed⟩ := Spares.addSubnode spares search bytes
    refine Returns.bind (returns_attempt ?_)
    rw [if_neg added]
    exact Returns.pure ⟨[0], _, .inr ⟨search, 0, Nat.zero_le _, rfl, rfl⟩, spares, placed⟩

/-- The command line is set where there is room for it. -/
theorem setBootargs_spares {cmdline : Option (List UInt8)} {node : Int32} {chosen : Position}
    (spares : Spares start home region blob tree (25 + (cmdline.getD []).length + spare))
    (placed : placeIn blob node = some chosen) :
    Returns (setBootargs byteLibfdt node cmdline) blob fun _ left =>
      Spares start home region left (tree.edit chosen (putBootargs cmdline)) spare := by
  have same : tree.edit chosen id = tree := Tree.edit_id
  cases cmdline with
  | none =>
    apply Returns.pure
    rw [putBootargs, same]
    exact spares.mono (by omega)
  | some text =>
    cases text with
    | nil =>
      apply Returns.pure
      change Spares start home region blob (tree.edit chosen id) spare
      rw [same]
      exact spares.mono (by omega)
    | cons head rest =>
      have cost : putCost "bootargs" (head :: rest ++ [0]) ≤ 25 + (head :: rest).length := by
        have pads := padding_lt (head :: rest ++ [0]).length
        rw [putCost, cellsOf, List.length_append, List.length_singleton] at *
        have name : "bootargs".length = 8 := by decide
        omega
      have enough := spares.mono (Nat.add_le_add_right cost spare)
      exact (Spares.check_setprop enough placed (by decide)).mono fun _ _ set => set.1

/-- The properties of the firmware are set where there is room for them. -/
theorem setEfiProperties_spares {globals : Globals} {node : Int32} {chosen : Position}
    (spares : Spares start home region blob tree (206 + spare))
    (placed : placeIn blob node = some chosen) :
    Returns (setEfiProperties byteLibfdt globals node) blob fun _ left =>
      Spares start home region left (tree.edit chosen (putEfiProperties globals.st)) spare := by
  have costs : putCost "linux,uefi-system-table" (cpuToFdt64 globals.st) +
      (putCost "linux,uefi-mmap-start" (cpuToFdt64 (-1)) +
        (putCost "linux,uefi-mmap-size" (cpuToFdt32 (-1)) +
          (putCost "linux,uefi-mmap-desc-size" (cpuToFdt32 (-1)) +
            (putCost "linux,uefi-mmap-desc-ver" (cpuToFdt32 (-1)) + spare)))) ≤ 206 + spare := by
    have table : putCost "linux,uefi-system-table" (cpuToFdt64 globals.st) = 44 := by
      have length : (cpuToFdt64 globals.st).length = 8 := rfl
      rw [putCost, cellsOf, length]
      decide
    have first : putCost "linux,uefi-mmap-start" (cpuToFdt64 (-1)) = 42 := rfl
    have size : putCost "linux,uefi-mmap-size" (cpuToFdt32 (-1)) = 37 := rfl
    have descSize : putCost "linux,uefi-mmap-desc-size" (cpuToFdt32 (-1)) = 42 := rfl
    have descVer : putCost "linux,uefi-mmap-desc-ver" (cpuToFdt32 (-1)) = 41 := rfl
    omega
  have enough := spares.mono costs
  refine Returns.bind ((enough.check_setprop placed (by decide)).mono fun _ _ set => ?_)
  refine Returns.bind ((set.1.check_setprop set.2 (by decide)).mono fun _ _ set => ?_)
  refine Returns.bind ((set.1.check_setprop set.2 (by decide)).mono fun _ _ set => ?_)
  refine Returns.bind ((set.1.check_setprop set.2 (by decide)).mono fun _ _ set => ?_)
  refine (set.1.check_setprop set.2 (by decide)).mono fun _ _ set => ?_
  have whole := set.1
  simp only [Tree.edit_edit] at whole
  exact whole

/-- The room that the handover takes: that of the node, of the command line and of the properties of
the firmware. -/
def handoverRoom (cmdline : Option (List UInt8)) : Nat := 16 + (25 + (cmdline.getD []).length + 206)

/-- The tree that has been opened is filled where there is room for the handover. -/
theorem fillOpened_spares {globals : Globals} {cmdline : Option (List UInt8)}
    (spares : Spares start home region blob tree (handoverRoom cmdline)) :
    Returns (fillOpened byteLibfdt globals cmdline) blob fun _ left => ∃ chosen base,
      WithChosen tree.unreserve chosen base ∧ treeIn start home region left =
        some (base.edit chosen (putEfiProperties globals.st ∘ putBootargs cmdline)) := by
  have laws := documentedEdits_byteLibfdt start home region
  refine Returns.bind (Returns.get (Returns.bind ?_))
  rw [laws.numMemRsv spares.treeIn, Int.toNat_natCast]
  refine (delMemRsvs_spares spares rfl).mono fun _ emptied spares => ?_
  refine Returns.bind ((chosenNode_spares spares).mono fun node named => ?_)
  rintro ⟨chosen, base, made, spares, placed⟩
  refine Returns.bind ((setBootargs_spares spares placed).mono fun _ booted spares => ?_)
  have found : (base.edit chosen (putBootargs cmdline)).subnode [] "chosen" = some chosen := by
    rw [Tree.subnode_edit, made.found]
  have again := (laws.subnodeFound spares.treeIn found).2
  refine Returns.bind (Returns.get (Returns.bind ?_))
  have enough : Spares start home region booted (base.edit chosen (putBootargs cmdline)) (206 + 0) :=
    spares
  refine (setEfiProperties_spares enough again).mono fun _ named spares => ?_
  refine Returns.bind (returns_attempt (Returns.pure ⟨chosen, base, made, ?_⟩))
  rw [laws.pack spares.treeIn, Tree.edit_edit]

/-- The buffer is filled where the tree to start from leaves room for the handover. -/
theorem fillFdt_spares {globals : Globals} {cmdline : Option (List UInt8)} {orig : Option FdtBlob}
    (opens : Returns (openFdt byteLibfdt orig) blob fun _ left =>
      Spares start home region left tree (handoverRoom cmdline)) :
    Returns (fillFdt byteLibfdt globals orig cmdline) blob fun _ left => ∃ chosen base,
      WithChosen tree.unreserve chosen base ∧ treeIn start home region left =
        some (base.edit chosen (putEfiProperties globals.st ∘ putBootargs cmdline)) := by
  rw [fillFdt_eq]
  exact Returns.bind (opens.mono fun _ _ spares => fillOpened_spares spares)

section Open

variable {orig buffer : FdtBlob} {tokens : List Token} {strings : List UInt8} {struct used : Nat}

/-- The buffer of `update_fdt` has a size that is an `int`. -/
theorem toInt_maxFdtSize : toInt maxFdtSize = Int32.ofNat maxFdtSize.toNat := by decide

/-- The original is opened into a buffer with room for it. -/
theorem openFdt_spares (original : Original orig.memory orig.address tokens strings tree struct)
    (fits : OpenFits orig.memory orig.address buffer.address tree strings struct used)
    (room : used + spare ≤ maxFdtSize.toNat) :
    Returns (openFdt byteLibfdt (some orig)) buffer fun _ left => Spares orig.memory {buffer.address}
      (window buffer.address maxFdtSize.toNat) left tree spare := by
  have whole : InOrder orig.memory orig.address tree struct ∨
      reorderedSize tree strings struct < 2 ^ 31 := by
    have most : maxFdtSize.toNat = 2097152 := rfl
    refine (Classical.em _).imp id fun misordered => ?_
    have enough := (fits.2 misordered).1
    omega
  obtain ⟨done, image, carried, takes, total⟩ := openInto_fits buffer (n := maxFdtSize.toNat)
    (by decide) original whole fits (by omega)
  rw [← toInt_maxFdtSize] at done carried
  exact returns_check done ⟨image, carried, by omega⟩

/-- The tree to start from when there is none. -/
def cellTree : Tree :=
  (emptyTree.edit [] (put "#address-cells" (cpuToFdt32 2))).edit [] (put "#size-cells" (cpuToFdt32 2))

/-- The tree to start from is made in a buffer with room for it. -/
theorem openFdt_spares_none (room : 139 + spare ≤ maxFdtSize.toNat) :
    Returns (openFdt byteLibfdt none) buffer fun _ left => Spares buffer.memory {buffer.address}
      (window buffer.address maxFdtSize.toNat) left cellTree spare := by
  obtain ⟨done, image, carried, takes, total⟩ := createEmptyTree_fits buffer (n := maxFdtSize.toNat)
    (by decide) (by omega)
  rw [← toInt_maxFdtSize] at done carried
  have costs : putCost "#address-cells" (cpuToFdt32 2) +
      (putCost "#size-cells" (cpuToFdt32 2) + spare) = 59 + spare := by
    have address : putCost "#address-cells" (cpuToFdt32 2) = 31 := rfl
    have size : putCost "#size-cells" (cpuToFdt32 2) = 28 := rfl
    omega
  have bare : Spares buffer.memory {buffer.address} (window buffer.address maxFdtSize.toNat) _ emptyTree
      (putCost "#address-cells" (cpuToFdt32 2) + (putCost "#size-cells" (cpuToFdt32 2) + spare)) :=
    ⟨image, carried, by omega⟩
  have laws := documentedEdits_byteLibfdt buffer.memory {buffer.address}
    (window buffer.address maxFdtSize.toNat)
  refine Returns.bind (returns_check done (Returns.bind (Returns.get ?_)))
  rw [laws.pathRoot bare.treeIn]
  obtain ⟨-, first, placed⟩ := bare.setprop (laws.root bare.treeIn) (by decide)
  obtain ⟨-, second, -⟩ := first.setprop placed (by decide)
  exact Returns.bind (returns_attempt (Returns.bind (returns_attempt (Returns.pure second))))

end Open

end DragonStub

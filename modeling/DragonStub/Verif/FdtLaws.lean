import DragonStub.Base.DeviceTree
import DragonStub.Boot.Fdt

/-!
# What libfdt is documented to do

The functions of libfdt as edits of an abstract device tree, and a libfdt that keeps to it.
-/

namespace DragonStub

open DeviceTree

/-- The documented effect of the functions of libfdt on a tree that can be changed. A blob that holds a
tree shows it in `view`, and `place` gives the position of the node at an offset. -/
structure DocumentedEdits {Blob : Type} (lib : Libfdt Blob) (view : Blob → Option Tree)
    (place : Blob → Int32 → Option Position) : Prop where
  /-- The root is at offset zero. -/
  root : ∀ {fdt tree}, view fdt = some tree → place fdt 0 = some []
  /-- `fdt_path_offset` finds the root. -/
  pathRoot : ∀ {fdt tree}, view fdt = some tree → lib.pathOffset fdt "/" = 0
  /-- `fdt_path_offset` and `fdt_subnode_offset` name the same `/chosen` node. -/
  pathChosen : ∀ {fdt tree}, view fdt = some tree →
    lib.pathOffset fdt "/chosen" = lib.subnodeOffset fdt 0 "chosen"
  /-- `fdt_subnode_offset` finds the first child of the root with the name. -/
  subnodeFound : ∀ {fdt tree child name}, view fdt = some tree →
    tree.subnode [] name = some child → 0 ≤ lib.subnodeOffset fdt 0 name ∧
      place fdt (lib.subnodeOffset fdt 0 name) = some child
  /-- Its result is negative when there is none. -/
  subnodeMissing : ∀ {fdt tree name}, view fdt = some tree → tree.subnode [] name = none →
    lib.subnodeOffset fdt 0 name < 0
  /-- `fdt_add_subnode` adds a bare child, unless its result is negative. -/
  addSubnode : ∀ {fdt tree} name, view fdt = some tree → 0 ≤ (lib.addSubnode fdt 0 name).1 →
    ∃ index ≤ tree.root.children.length,
      view (lib.addSubnode fdt 0 name).2 = some (tree.insertChild [] index name) ∧
      place (lib.addSubnode fdt 0 name).2 (lib.addSubnode fdt 0 name).1 = some [index]
  /-- `fdt_setprop` creates or replaces one property, and keeps the offset of its node. -/
  setprop : ∀ {fdt tree offset position} name value, view fdt = some tree →
    place fdt offset = some position → (lib.setprop fdt offset name value).1 = 0 →
      view (lib.setprop fdt offset name value).2 = some (tree.edit position (put name value)) ∧
        place (lib.setprop fdt offset name value).2 offset = some position
  /-- When it fails it leaves the tree. -/
  setpropFails : ∀ {fdt tree offset position} name value, view fdt = some tree →
    place fdt offset = some position → (lib.setprop fdt offset name value).1 ≠ 0 →
      view (lib.setprop fdt offset name value).2 = some tree
  /-- `fdt_setprop_inplace` succeeds when the property exists with the same length. -/
  setpropInplaceOk : ∀ {fdt tree offset position} name value, view fdt = some tree →
    place fdt offset = some position → ((lib.setpropInplace fdt offset name value).1 = 0 ↔
      ∃ old, tree.property position name = some old ∧ old.length = value.length)
  /-- Then it replaces the property, and keeps the offset of its node. -/
  setpropInplace : ∀ {fdt tree offset position} name value, view fdt = some tree →
    place fdt offset = some position → (lib.setpropInplace fdt offset name value).1 = 0 →
      view (lib.setpropInplace fdt offset name value).2 =
          some (tree.edit position (put name value)) ∧
        place (lib.setpropInplace fdt offset name value).2 offset = some position
  /-- `fdt_num_mem_rsv` counts the reservations. -/
  numMemRsv : ∀ {fdt tree}, view fdt = some tree →
    (lib.numMemRsv fdt).toInt = tree.reservations.length
  /-- `fdt_del_mem_rsv` deletes one reservation. -/
  delMemRsv : ∀ {fdt tree} index, view fdt = some tree → index < tree.reservations.length →
    view (lib.delMemRsv fdt (Int32.ofNat index)).2 =
      some { tree with reservations := tree.reservations.eraseIdx index }
  /-- `fdt_pack` preserves content. -/
  pack : ∀ {fdt tree}, view fdt = some tree → view (lib.pack fdt).2 = some tree

/-- The documented effect of the functions of libfdt: those that change a tree, and those that put one
into a buffer. -/
structure Documented {Blob : Type} (lib : Libfdt Blob) (view : Blob → Option Tree)
    (place : Blob → Int32 → Option Position) : Prop extends DocumentedEdits lib view place where
  /-- `fdt_open_into` copies the tree into the buffer. -/
  openInto : ∀ {orig tree} buffer size, view orig = some tree →
    (lib.openInto orig buffer size).1 = 0 → view (lib.openInto orig buffer size).2 = some tree
  /-- `fdt_create_empty_tree` makes a bare root. -/
  createEmptyTree : ∀ buffer size, (lib.createEmptyTree buffer size).1 = 0 →
    view (lib.createEmptyTree buffer size).2 = some emptyTree

/-- A tree whose root has no more children and reservations than an `int` counts. -/
structure CountedTree where
  /-- The tree. -/
  tree : Tree
  /-- The children can be counted. -/
  children : tree.root.children.length < 2 ^ 30
  /-- The reservations can be counted. -/
  reservations : tree.reservations.length < 2 ^ 30

namespace CountedTree

/-- The root is at offset zero, its children follow in order. -/
def place (blob : CountedTree) (offset : Int32) : Option Position :=
  if offset = 0 then some []
  else if 0 < offset.toInt ∧ offset.toInt.toNat ≤ blob.tree.root.children.length then
    some [offset.toInt.toNat - 1]
  else none

/-- The number of children is that of their names. -/
theorem children_edit (tree : Tree) (position : Position) (change : Properties → Properties) :
    (tree.edit position change).root.children.length = tree.root.children.length := by
  have same : (Node.find [] (Node.modifyAt (Node.changeProperties change) position
      tree.root)).map Node.names = (Node.find [] tree.root).map Node.names :=
    Node.find_changeProperties
  have names := congrArg (fun names => names.2.length) (Option.some.inj same)
  rw [Node.names, Node.names, List.length_map, List.length_map] at names
  exact names

/-- Adding a child to the root adds one to its children. -/
theorem children_insertChild (tree : Tree) (name : String) :
    (tree.insertChild [] 0 name).root.children.length = tree.root.children.length + 1 := by
  cases h : tree.root
  simp [Tree.insertChild, h, Node.modifyAt, Node.insertChild, Node.children]

/-- Change the properties of a node. -/
def edit (blob : CountedTree) (position : Position) (change : Properties → Properties) :
    CountedTree where
  tree := blob.tree.edit position change
  children := by
    rw [children_edit]
    exact blob.children
  reservations := blob.reservations

/-- The offset of the first child of the root with a name. -/
def childOffset (blob : CountedTree) (name : String) : Int32 :=
  match blob.tree.root.childIndex name with
  | some index => Int32.ofNat (index + 1)
  | none => -1

/-- Add a child in front of the others. -/
def addChild (blob : CountedTree) (name : String) : Int32 × CountedTree :=
  if room : blob.tree.root.children.length + 1 < 2 ^ 30 then
    (1, { tree := blob.tree.insertChild [] 0 name
          children := by
            rw [children_insertChild]
            exact room
          reservations := blob.reservations })
  else (-fdtErrNospace, blob)

/-- Delete one reservation. -/
def delete (blob : CountedTree) (index : Int32) : Int32 × CountedTree :=
  (0, { tree := { blob.tree with
          reservations := blob.tree.reservations.eraseIdx index.toInt.toNat }
        children := blob.children
        reservations := Nat.lt_of_le_of_lt (List.length_eraseIdx_le _ _) blob.reservations })

end CountedTree

/-- The empty tree. -/
def emptyCounted : CountedTree := ⟨emptyTree, by decide, by decide⟩

/-- A libfdt whose blobs are the trees themselves. -/
def treeLibfdt : Libfdt CountedTree where
  checkHeader _ := 0
  totalsize _ := 4096
  openInto orig _ _ := (0, orig)
  createEmptyTree _ _ := (0, emptyCounted)
  pathOffset blob path := if path = "/" then 0 else blob.childOffset (String.ofList path.toList.tail)
  subnodeOffset blob _ name := blob.childOffset name
  addSubnode blob _ name := blob.addChild name
  setprop blob offset name value :=
    match blob.place offset with
    | some position => (0, blob.edit position (put name value))
    | none => (-4, blob)
  setpropInplace blob offset name value :=
    match blob.place offset with
    | some position =>
      if (blob.tree.property position name).map List.length = some value.length then
        (0, blob.edit position (put name value))
      else (-fdtErrNospace, blob)
    | none => (-4, blob)
  numMemRsv blob := Int32.ofNat blob.tree.reservations.length
  delMemRsv blob index := blob.delete index
  pack blob := (0, blob)

/-- A number that an `int` counts is its value. -/
theorem toInt_ofNat {count : Nat} (small : count < 2 ^ 31) : (Int32.ofNat count).toInt = count :=
  Int32.toInt_ofNat_of_lt small

/-- Editing properties moves no node. -/
theorem CountedTree.place_edit {blob : CountedTree} {position : Position}
    {change : Properties → Properties} {offset : Int32} :
    (blob.edit position change).place offset = blob.place offset := by
  unfold place edit
  rw [children_edit]

variable {blob : CountedTree} {offset : Int32} {position : Position} {name : String}
  {value : List UInt8}

/-- A property is set on the node at an offset. -/
theorem treeLibfdt_setprop (placed : blob.place offset = some position) :
    treeLibfdt.setprop blob offset name value = (0, blob.edit position (put name value)) := by
  simp only [treeLibfdt, placed]

/-- A property is replaced in place when the new value is as long as the old one. -/
theorem treeLibfdt_setpropInplace (placed : blob.place offset = some position) :
    treeLibfdt.setpropInplace blob offset name value =
      if (blob.tree.property position name).map List.length = some value.length then
        (0, blob.edit position (put name value))
      else (-fdtErrNospace, blob) := by
  simp only [treeLibfdt, placed]

/-- The offset of a child that is found. -/
theorem CountedTree.childOffset_found {index : Nat}
    (first : blob.tree.root.childIndex name = some index) :
    0 ≤ blob.childOffset name ∧ blob.place (blob.childOffset name) = some [index] := by
  obtain ⟨inside, -⟩ := List.findIdx?_eq_some_iff_getElem.mp first
  have few := blob.children
  have value : (Int32.ofNat (index + 1)).toInt = (index + 1 : Nat) := toInt_ofNat (by omega)
  have zero : (0 : Int32).toInt = 0 := rfl
  have nonzero : Int32.ofNat (index + 1) ≠ 0 := by
    intro same
    rw [same, zero] at value
    omega
  rw [childOffset, first]
  constructor
  · rw [Int32.le_iff_toInt_le, value, zero]
    omega
  · rw [place, if_neg nonzero, value, if_pos (by omega)]
    simp

/-- The offset of a child that is missing. -/
theorem CountedTree.childOffset_missing (missing : blob.tree.root.childIndex name = none) :
    blob.childOffset name < 0 := by
  rw [childOffset, missing]
  decide

/-- A child that has been added is in front of the others. -/
theorem CountedTree.addChild_added (added : 0 ≤ (blob.addChild name).1) :
    (blob.addChild name).2.tree = blob.tree.insertChild [] 0 name ∧
      (blob.addChild name).2.place (blob.addChild name).1 = some [0] := by
  unfold addChild at added ⊢
  by_cases room : blob.tree.root.children.length + 1 < 2 ^ 30
  · rw [dif_pos room]
    refine ⟨rfl, ?_⟩
    have one : (1 : Int32).toInt = 1 := rfl
    have nonzero : (1 : Int32) ≠ 0 := by decide
    change place _ 1 = _
    rw [place, if_neg nonzero, one, children_insertChild, if_pos (by omega)]
    rfl
  · have negative : ¬(0 : Int32) ≤ -fdtErrNospace := by decide
    rw [dif_neg room] at added
    exact absurd added negative

/-- A value is replaced where it has the same length. -/
theorem treeLibfdt_setpropInplace_ok (placed : blob.place offset = some position) :
    (treeLibfdt.setpropInplace blob offset name value).1 = 0 ↔
      (blob.tree.property position name).map List.length = some value.length := by
  have failed : (-fdtErrNospace : Int32) ≠ 0 := by decide
  rw [treeLibfdt_setpropInplace placed]
  by_cases exact_length : (blob.tree.property position name).map List.length = some value.length
  · simp only [exact_length, if_true]
  · simp only [exact_length, if_false, failed]

/-- A reservation that is there is deleted. -/
theorem CountedTree.delete_tree {index : Nat} (inside : index < blob.tree.reservations.length) :
    (blob.delete (Int32.ofNat index)).2.tree =
      { blob.tree with reservations := blob.tree.reservations.eraseIdx index } := by
  have few := blob.reservations
  have value : (Int32.ofNat index).toInt = index := toInt_ofNat (by omega)
  change { blob.tree with
    reservations := blob.tree.reservations.eraseIdx (Int32.ofNat index).toInt.toNat } = _
  rw [value, Int.toNat_natCast]

/-- The libfdt of trees keeps to the documentation. -/
theorem documented_treeLibfdt :
    Documented treeLibfdt (fun blob => some blob.tree) CountedTree.place where
  openInto _ _ holds _ := holds
  createEmptyTree _ _ _ := rfl
  root _ := if_pos rfl
  pathRoot _ := rfl
  pathChosen _ := rfl
  subnodeFound := by
    rintro blob _ child name ⟨⟩ found
    obtain ⟨index, first, rfl⟩ := Option.map_eq_some_iff.mp found
    exact CountedTree.childOffset_found first
  subnodeMissing := by
    rintro blob _ name ⟨⟩ missing
    exact CountedTree.childOffset_missing (Option.map_eq_none_iff.mp missing)
  addSubnode := by
    rintro blob _ name ⟨⟩ added
    obtain ⟨tree, placed⟩ := CountedTree.addChild_added added
    exact ⟨0, Nat.zero_le _, congrArg some tree, placed⟩
  setprop := by
    rintro blob _ offset position name value ⟨⟩ placed -
    rw [treeLibfdt_setprop placed]
    exact ⟨rfl, CountedTree.place_edit.trans placed⟩
  setpropFails := by
    rintro blob _ offset position name value ⟨⟩ placed failed
    rw [treeLibfdt_setprop placed] at failed
    exact absurd rfl failed
  setpropInplaceOk := by
    rintro blob _ offset position name value ⟨⟩ placed
    rw [← Option.map_eq_some_iff]
    exact treeLibfdt_setpropInplace_ok placed
  setpropInplace := by
    rintro blob _ offset position name value ⟨⟩ placed done
    rw [treeLibfdt_setpropInplace placed, if_pos ((treeLibfdt_setpropInplace_ok placed).mp done)]
    exact ⟨rfl, CountedTree.place_edit.trans placed⟩
  numMemRsv := by
    rintro blob _ ⟨⟩
    have few := blob.reservations
    exact toInt_ofNat (by omega)
  delMemRsv := by
    rintro blob _ index ⟨⟩ inside
    exact congrArg some (CountedTree.delete_tree inside)
  pack holds := holds

end DragonStub

import DragonStub.Verif.FdtInplace
import DragonStub.Verif.FdtReserve

/-!
# Device trees in memory and what they stand for

Memory presents a device tree when its tokens, strings and reserved ranges are those of the tree, in
whatever order the blocks are, and it carries the tree when it has an image of it, which can be
changed. An edit by libfdt is an edit of the tree, at the position of the node whose offset it is
given.
-/

namespace DragonStub

open ByteMemory DeviceTree FlatTree Stateful Word

variable {m m' : Memory} {fdt : UInt64} {tokens : List Token} {strings : List UInt8}
  {image image' : Image} {tree : Tree} {key value : List UInt8} {position : Position} {offset : Int32}

/-- Memory has the tokens, the strings and the reserved ranges of a tree. -/
structure Presents (m : Memory) (fdt : UInt64) (tokens : List Token) (strings : List UInt8)
    (tree : Tree) : Prop where
  /-- It can be read. -/
  readable : Readable m fdt tokens strings
  /-- The tokens are the nodes of the tree. -/
  root : HasRoot strings tokens tree.root
  /-- The ranges are the reservations of the tree. -/
  reserves : ∃ stop, Reserves m fdt tree.reservations stop

/-- Memory has an image that stands for a tree. -/
structure Carries (m : Memory) (fdt : UInt64) (image : Image) (tree : Tree) : Prop where
  /-- The image. -/
  editable : Editable m fdt image
  /-- It has the reservations of the tree. -/
  reserved : image.reserved = tree.reservations
  /-- Its tokens are the nodes of the tree. -/
  root : HasRoot image.strings image.tokens tree.root

/-- A carried tree can be read. -/
theorem Carries.presents (carries : Carries m fdt image tree) :
    Presents m fdt image.tokens image.strings tree := by
  refine ⟨carries.editable.readable, carries.root, image.stop, ?_⟩
  rw [← carries.reserved]
  exact carries.editable.reserves

/-- Memory has come to carry a tree in the same room, of which it takes no more than some bytes more,
and nothing else has changed. -/
structure Edited (m : Memory) (fdt : UInt64) (image : Image) (more : Nat) (m' : Memory)
    (image' : Image) (tree : Tree) : Prop where
  /-- The tree. -/
  carries : Carries m' fdt image' tree
  /-- The room for it. -/
  totalsize : image'.totalsize = image.totalsize
  /-- What it takes of the room. -/
  grows : image'.size ≤ image.size + more
  /-- What has changed. -/
  changed : ChangedIn (window fdt image.totalsize.toNat) m m'

/-- An offset is that of the node at a position. -/
def IsNode (strings : List UInt8) (tokens : List Token) (tree : Tree) (offset : Int32)
    (position : Position) : Prop :=
  ∃ (parts : Parts) (properties : Properties) (children : List Node), parts.all = tokens ∧
    offset = Int32.ofNat (extent parts.before) ∧
      IsAt strings parts [tree.root] 0 position properties children

/-- Every node has an offset. -/
theorem exists_isNode (root : HasRoot strings tokens tree.root) {found : Node}
    (there : tree.root.find position = some found) :
    ∃ offset, IsNode strings tokens tree offset position := by
  have first : [tree.root][0]?.bind (Node.find position) = some found := there
  obtain ⟨parts, properties, children, whole, isAt⟩ := root.nodes.locate first
  exact ⟨_, parts, properties, children, whole, rfl, isAt⟩

/-- An offset of a node is not negative. -/
theorem IsNode.nonneg (node : IsNode strings tokens tree offset position)
    (has : HasTokens m fdt tokens) : 0 ≤ offset := by
  obtain ⟨parts, properties, children, rfl, rfl, isAt⟩ := node
  rw [Parts.all] at has
  exact Int32.zero_le_ofNat_of_lt has.offset_small.1

/-- The root is at offset zero. -/
theorem isNode_root (root : HasRoot strings tokens tree.root) : IsNode strings tokens tree 0 [] := by
  obtain ⟨⟨before, name, props, inside, after⟩, properties, children, whole, none, isAt⟩ :=
    root.nodes.here Nat.zero_lt_one
  have head := root.first
  rw [← whole] at head
  rw [List.take_zero] at none
  cases none with
  | nil => exact ⟨_, properties, children, whole, rfl, isAt⟩
  | nop _ => exact absurd rfl head

/-- The node at a position is there. -/
theorem IsNode.exists_find (node : IsNode strings tokens tree offset position) :
    (tree.root.find position).isSome = true := by
  obtain ⟨parts, properties, children, -, -, isAt⟩ := node
  have found : tree.root.find position = _ := isAt.found
  rw [found]
  rfl

/-- The properties of a node. -/
theorem property_isAt {parts : Parts} {properties : Properties} {children : List Node}
    (isAt : IsAt strings parts [tree.root] 0 position properties children) (name : String) :
    tree.property position name = properties name := by
  have found : tree.root.find position = _ := isAt.found
  rw [Tree.property, found]
  rfl

/-- The children of a node. -/
theorem subnode_isAt {parts : Parts} {properties : Properties} {children : List Node}
    (isAt : IsAt strings parts [tree.root] 0 position properties children) (sought : String) :
    tree.subnode position sought = (children.findIdx? fun child =>
      Node.matchesName sought child.name).map fun index => position ++ [index] := by
  have found : tree.root.find position = _ := isAt.found
  rw [Tree.subnode, found]
  rfl

section Read

variable (presents : Presents m fdt tokens strings tree) (node : IsNode strings tokens tree offset position)
  (short : key.length < 2 ^ 31)

include presents node short

/-- `fdt_subnode_offset` finds the first child with the sought name. -/
theorem Presents.subnodeOffset_some {child : Position}
    (found : tree.subnode position (text key) = some child) :
    0 ≤ fdtSubnodeOffset m fdt offset key ∧
      IsNode strings tokens tree (fdtSubnodeOffset m fdt offset key) child := by
  obtain ⟨parts, properties, children, rfl, rfl, isAt⟩ := node
  rw [subnode_isAt isAt, Option.map_eq_some_iff] at found
  obtain ⟨index, first, rfl⟩ := found
  obtain ⟨inner, properties', children', whole, isAt', offset⟩ :=
    presents.readable.subnodeOffset_some isAt short first
  have there : IsNode strings parts.all tree (fdtSubnodeOffset m fdt (Int32.ofNat (extent parts.before))
      key) (position ++ [index]) := ⟨inner, properties', children', whole, offset, isAt'⟩
  exact ⟨there.nonneg presents.readable.tokens, there⟩

/-- Without such a child it returns `-FDT_ERR_NOTFOUND`. -/
theorem Presents.subnodeOffset_none (missing : tree.subnode position (text key) = none) :
    fdtSubnodeOffset m fdt offset key = -fdtErrNotfound := by
  obtain ⟨parts, properties, children, rfl, rfl, isAt⟩ := node
  rw [subnode_isAt isAt, Option.map_eq_none_iff] at missing
  exact presents.readable.subnodeOffset_none isAt short missing

/-- `fdt_getprop` finds a value that is there, with its length. -/
theorem Presents.getprop_some (found : tree.property position (text key) = some value) :
    ∃ p, fdtGetprop m fdt offset key = .ok (p, Int32.ofNat value.length) ∧ Holds m p value := by
  obtain ⟨parts, properties, children, rfl, rfl, isAt⟩ := node
  rw [property_isAt isAt] at found
  exact presents.readable.getprop_some isAt short found

/-- Without one it returns `-FDT_ERR_NOTFOUND`. -/
theorem Presents.getprop_none (missing : tree.property position (text key) = none) :
    fdtGetprop m fdt offset key = .error (-fdtErrNotfound) := by
  obtain ⟨parts, properties, children, rfl, rfl, isAt⟩ := node
  rw [property_isAt isAt] at missing
  exact presents.readable.getprop_none isAt short missing

end Read

section Exchange

variable {parts : Parts} {properties properties' : Properties} {children children' : List Node}
  {props inside : List Token} {more : List UInt8} {changed : Node → Node}

/-- Other tokens at a node stand for a tree that is another one there. -/
theorem exchange_root {strings : List UInt8} {root : Node} (hasRoot : HasRoot strings parts.all root)
    (isAt : IsAt strings parts [root] 0 position properties children)
    (hasProps : HasProps (strings ++ more) props properties')
    (hasInside : HasNodes (strings ++ more) inside children')
    (here : changed (.node (text parts.name.bytes) properties children) =
      .node (text parts.name.bytes) properties' children') :
    HasRoot (strings ++ more) (parts.exchange props inside).all (root.modifyAt changed position) ∧
    IsAt (strings ++ more) (parts.exchange props inside) [root.modifyAt changed position] 0 position
      properties' children' := by
  have node : root.find position = _ := isAt.found
  have point : Node.modifyAt changed position root = Node.modifyAt
      (fun _ => changed (.node (text parts.name.bytes) properties children)) position root :=
    Node.modifyAt_of_find node
  rw [here] at point
  have same : [root].modify 0 (Node.modifyAt (fun _ => .node (text parts.name.bytes) properties'
      children') position) = [root.modifyAt changed position] :=
    congrArg (fun root => [root]) point.symm
  refine ⟨⟨?_, ?_⟩, ?_⟩
  · rw [← same]
    exact isAt.exchange hasProps hasInside
  · rw [Parts.head_exchange]
    exact hasRoot.first
  · rw [← same]
    exact isAt.exchanged hasProps hasInside

/-- Memory with such tokens carries that tree. -/
theorem Carries.exchange (carries : Carries m fdt image tree) (whole : parts.all = image.tokens)
    (isAt : IsAt image.strings parts [tree.root] 0 position properties children)
    (hasProps : HasProps (image.strings ++ more) props properties')
    (hasInside : HasNodes (image.strings ++ more) inside children')
    (here : changed (.node (text parts.name.bytes) properties children) =
      .node (text parts.name.bytes) properties' children')
    (editable : Editable m' fdt image') (strings : image'.strings = image.strings ++ more)
    (tokens : image'.tokens = (parts.exchange props inside).all)
    (reserved : image'.reserved = image.reserved) :
    Carries m' fdt image' { tree with root := tree.root.modifyAt changed position } ∧
    IsNode image'.strings image'.tokens { tree with root := tree.root.modifyAt changed position }
      (Int32.ofNat (extent parts.before)) position := by
  have hasRoot := carries.root
  rw [← whole] at hasRoot
  obtain ⟨root, node⟩ := exchange_root hasRoot isAt hasProps hasInside here
  refine ⟨⟨editable, reserved.trans carries.reserved, ?_⟩, ?_⟩
  · rw [strings, tokens]
    exact root
  · refine ⟨parts.exchange props inside, properties', children', tokens.symm, rfl, ?_⟩
    rw [strings]
    exact node

end Exchange

/-- There is room to set a property: for the new value in place of the old one, or for its token and
its name. -/
def SetpropFits (image : Image) (key value : List UInt8) : Option (List UInt8) → Prop
  | some old => image.size + cellsOf value ≤ image.totalsize.toNat + cellsOf old
  | none => image.size + nameCost image.strings key + (12 + cellsOf value) ≤ image.totalsize.toNat

/-- The most that setting a property takes: its name, its token and its value in whole cells. -/
def propCost (key value : List UInt8) : Nat := key.length + 1 + (12 + cellsOf value)

/-- A name costs its bytes and a zero byte at most. -/
theorem nameCost_le (strings key : List UInt8) : nameCost strings key ≤ key.length + 1 := by
  unfold nameCost
  split
  · exact Nat.zero_le _
  · exact le_rfl

/-- Where there is room for all of a property, there is room to set it. -/
theorem setpropFits_of_room (room : image.size + propCost key value ≤ image.totalsize.toNat)
    (old : Option (List UInt8)) : SetpropFits image key value old := by
  have named := nameCost_le image.strings key
  rw [propCost] at room
  cases old with
  | some old =>
    change image.size + cellsOf value ≤ image.totalsize.toNat + cellsOf old
    omega
  | none =>
    change image.size + nameCost image.strings key + (12 + cellsOf value) ≤ image.totalsize.toNat
    omega

/-- A value in place of another one takes no more than its property. -/
theorem size_setFound {before behind : List Token} {property property' : Property}
    {admits : image.Admits (before ++ ([Token.prop property'] ++ behind))}
    (split : image.tokens = before ++ .prop property :: behind) :
    (image.withTokens (before ++ ([Token.prop property'] ++ behind)) admits).size ≤
      image.size + propCost key property'.value := by
  have split' : image.tokens = before ++ ([Token.prop property] ++ behind) := split
  have sizes : (image.withTokens _ admits).size + _ = _ := Image.size_exchange split'
  rw [extent_cons, extent_cons, size_prop, size_prop] at sizes
  rw [propCost]
  omega

/-- A new property takes no more than its name and itself. -/
theorem size_setMissing {before behind : List Token} {name : Name} {more : List UInt8}
    {hasRoom : image.HasRoom more} {property : Property}
    {admits : (image.withStrings more hasRoom).Admits
      ((before ++ [Token.beginNode name]) ++ ([Token.prop property] ++ behind))}
    (split : image.tokens = before ++ .beginNode name :: behind)
    (cost : more.length = nameCost image.strings key) :
    ((image.withStrings more hasRoom).withTokens
      ((before ++ [Token.beginNode name]) ++ ([Token.prop property] ++ behind)) admits).size ≤
        image.size + propCost key property.value := by
  have none : (image.withStrings more hasRoom).tokens =
      before ++ [Token.beginNode name] ++ ([] ++ behind) := strings_split split hasRoom
  have sizes : ((image.withStrings more hasRoom).withTokens _ admits).size + _ = _ :=
    Image.size_exchange none
  have longer : (image.withStrings more hasRoom).size = _ := Image.size_withStrings
  have named := nameCost_le image.strings key
  rw [extent_nil, extent_cons, extent_nil, size_prop] at sizes
  rw [propCost]
  omega

section Setprop

variable (carries : Carries m fdt image tree) (node : IsNode image.strings image.tokens tree offset position)
  (noNul : 0 ∉ key) (shortKey : key.length < 2 ^ 31 - 16) (short : value.length < 2 ^ 31 - 16)

include carries node noNul shortKey short

/-- `fdt_setprop` gives the node the property where there is room. -/
theorem Carries.setprop (fits : SetpropFits image key value (tree.property position (text key))) :
    Returns (fdtSetprop fdt offset key value) m fun _ m' => ∃ image',
      Edited m fdt image (propCost key value) m' image'
        (tree.edit position (put (text key) value)) ∧
      IsNode image'.strings image'.tokens (tree.edit position (put (text key) value)) offset position := by
  obtain ⟨parts, properties, children, whole, rfl, isAt⟩ := node
  have readable := carries.editable.readable
  rw [← whole] at readable
  rw [property_isAt isAt] at fits
  cases present : properties (text key) with
  | some old =>
    rw [present] at fits
    obtain ⟨before, behind, property, split, rfl, seek, replace⟩ := isAt.props.seekProp_some present
    have tokens : image.tokens = (parts.before ++ .beginNode parts.name :: before) ++
        .prop property :: (behind ++ (parts.inside ++ .endNode :: parts.after)) := by
      rw [← whole, Parts.all, split]
      simp
    refine (carries.editable.setprop_found tokens (readable.getProperty_some isAt (by omega) seek)
      short fits).mono ?_
    rintro _ m' ⟨property', admits, name, rfl, editable, changed⟩
    have hasProps : HasProps (image.strings ++ []) (before ++ .prop property' :: behind) _ :=
      (replace property' name).append_strings
    have here : Node.changeProperties (put (text key) property'.value)
        (.node (text parts.name.bytes) properties children) = .node (text parts.name.bytes)
          (put (text key) property'.value properties) children := rfl
    obtain ⟨carries, node⟩ := carries.exchange whole isAt hasProps isAt.inside.append_strings here
      editable (List.append_nil _).symm (by simp [Parts.all, Parts.exchange, Image.withTokens]) rfl
    exact ⟨_, ⟨carries, rfl, size_setFound tokens, changed⟩, node⟩
  | none =>
    rw [present] at fits
    have tokens : image.tokens = parts.before ++ .beginNode parts.name ::
        (parts.props ++ (parts.inside ++ .endNode :: parts.after)) := whole.symm
    refine (carries.editable.setprop_missing tokens noNul shortKey short
      (readable.getProperty_missing isAt (by omega) present) fits).mono ?_
    rintro _ m' ⟨more, hasRoom, property, admits, cost, named, rfl, editable, changed⟩
    have hasProps : HasProps (image.strings ++ more) (.prop property :: parts.props)
        (put (text key) property.value properties) := .prop named isAt.props.append_strings
    have here : Node.changeProperties (put (text key) property.value)
        (.node (text parts.name.bytes) properties children) = .node (text parts.name.bytes)
          (put (text key) property.value properties) children := rfl
    obtain ⟨carries, node⟩ := carries.exchange whole isAt hasProps isAt.inside.append_strings here
      editable rfl (by simp [Parts.all, Parts.exchange, Image.withTokens]) rfl
    exact ⟨_, ⟨carries, rfl, size_setMissing tokens cost, changed⟩, node⟩

/-- Without room it leaves the tree. -/
theorem Carries.setprop_full
    (full : ¬SetpropFits image key value (tree.property position (text key))) :
    Aborts (fdtSetprop fdt offset key value) m (-fdtErrNospace) fun m' =>
      Edited m fdt image 0 m' image tree := by
  obtain ⟨parts, properties, children, whole, rfl, isAt⟩ := node
  have readable := carries.editable.readable
  rw [← whole] at readable
  rw [property_isAt isAt] at full
  cases present : properties (text key) with
  | some old =>
    rw [present] at full
    obtain ⟨before, behind, property, split, rfl, seek, -⟩ := isAt.props.seekProp_some present
    have tokens : image.tokens = (parts.before ++ .beginNode parts.name :: before) ++
        .prop property :: (behind ++ (parts.inside ++ .endNode :: parts.after)) := by
      rw [← whole, Parts.all, split]
      simp
    refine (carries.editable.setprop_full tokens (readable.getProperty_some isAt (by omega) seek)
      short (Nat.lt_of_not_le full)).mono ?_
    rintro m' ⟨editable, changed⟩
    exact ⟨⟨editable, carries.reserved, carries.root⟩, rfl, le_rfl, changed⟩
  | none =>
    rw [present] at full
    have tokens : image.tokens = parts.before ++ .beginNode parts.name ::
        (parts.props ++ (parts.inside ++ .endNode :: parts.after)) := whole.symm
    refine (carries.editable.setprop_missing_full tokens noNul shortKey short
      (readable.getProperty_missing isAt (by omega) present) (Nat.lt_of_not_le full)).mono ?_
    rintro m' ⟨editable, changed⟩
    exact ⟨⟨editable, carries.reserved, carries.root⟩, rfl, le_rfl, changed⟩

end Setprop

section Inplace

variable {old : List UInt8} {idx : UInt32} (carries : Carries m fdt image tree)
  (node : IsNode image.strings image.tokens tree offset position) (shortKey : key.length < 2 ^ 31)

include carries node shortKey

/-- `fdt_setprop_inplace_namelen_partial` writes inside the value of a property. -/
theorem Carries.setpropInplacePartial (found : tree.property position (text key) = some old)
    (inside : idx.toNat + value.length ≤ old.length) :
    Returns (fdtSetpropInplaceNamelenPartial fdt offset key idx value) m fun _ m' => ∃ image',
      Edited m fdt image 0 m' image'
        (tree.edit position (put (text key) (patch old idx.toNat value))) ∧
      IsNode image'.strings image'.tokens
        (tree.edit position (put (text key) (patch old idx.toNat value))) offset position := by
  obtain ⟨parts, properties, children, whole, rfl, isAt⟩ := node
  have readable := carries.editable.readable
  rw [← whole] at readable
  rw [property_isAt isAt] at found
  obtain ⟨before, behind, property, split, rfl, seek, replace⟩ := isAt.props.seekProp_some found
  have tokens : image.tokens = (parts.before ++ .beginNode parts.name :: before) ++
      .prop property :: (behind ++ (parts.inside ++ .endNode :: parts.after)) := by
    rw [← whole, Parts.all, split]
    simp
  refine (carries.editable.setpropInplacePartial tokens (readable.getprop_at isAt shortKey seek)
    inside).mono ?_
  rintro _ m' ⟨editable, changed⟩
  have hasProps : HasProps (image.strings ++ [])
      (before ++ .prop (patched property idx.toNat value inside) :: behind)
      (put (text key) (patch property.value idx.toNat value) properties) :=
    (replace (patched property idx.toNat value inside) rfl).append_strings
  have here : Node.changeProperties (put (text key) (patch property.value idx.toNat value))
      (.node (text parts.name.bytes) properties children) = .node (text parts.name.bytes)
        (put (text key) (patch property.value idx.toNat value) properties) children := rfl
  obtain ⟨carries, node⟩ := carries.exchange whole isAt hasProps isAt.inside.append_strings here
    editable (List.append_nil _).symm (by simp [Parts.all, Parts.exchange, Image.withTokens]) rfl
  exact ⟨_, ⟨carries, rfl, (size_patched tokens inside).le, changed⟩, node⟩

/-- `fdt_setprop_inplace` replaces a value of the same length. -/
theorem Carries.setpropInplace (found : tree.property position (text key) = some old)
    (same : old.length = value.length) :
    Returns (fdtSetpropInplace fdt offset key value) m fun _ m' => ∃ image',
      Edited m fdt image 0 m' image' (tree.edit position (put (text key) value)) ∧
      IsNode image'.strings image'.tokens (tree.edit position (put (text key) value)) offset
        position := by
  obtain ⟨p, run, -⟩ := carries.presents.getprop_some node shortKey found
  have equal : (Int32.ofNat old.length != Int32.ofNat value.length) = false := by
    rw [same]
    exact bne_self_eq_false _
  have inside : (0 : UInt32).toNat + value.length ≤ old.length := by
    rw [UInt32.toNat_zero]
    omega
  have written := carries.setpropInplacePartial node shortKey found inside
  rw [UInt32.toNat_zero, patch_all same] at written
  unfold fdtSetpropInplace
  refine Returns.bind (Returns.get ?_)
  rw [run]
  exact Returns.bind (returns_failIf equal written)

/-- It replaces no value of another length. -/
theorem Carries.setpropInplace_other (found : tree.property position (text key) = some old)
    (other : old.length ≠ value.length) (small : old.length < 2 ^ 31) (short : value.length < 2 ^ 31) :
    (fdtSetpropInplace fdt offset key value).run.run m = (.error (-fdtErrNospace), m) := by
  obtain ⟨p, run, -⟩ := carries.presents.getprop_some node shortKey found
  have unequal : (Int32.ofNat old.length != Int32.ofNat value.length) = true := by
    rw [bne_iff_ne, ne_eq, ofNat_eq_ofNat small short]
    exact other
  unfold fdtSetpropInplace
  simp only [run_bind, run_get, run, run_failIf, unequal, if_true]

/-- It creates no property. -/
theorem Carries.setpropInplace_missing (missing : tree.property position (text key) = none) :
    (fdtSetpropInplace fdt offset key value).run.run m = (.error (-fdtErrNotfound), m) := by
  unfold fdtSetpropInplace
  simp only [run_bind, run_get, carries.presents.getprop_none node shortKey missing]
  rfl

omit carries shortKey in
/-- The values of a tree fit an `int`. -/
theorem IsNode.value_small (found : tree.property position (text key) = some old) :
    old.length < 2 ^ 31 - 16 := by
  obtain ⟨parts, properties, children, whole, rfl, isAt⟩ := node
  rw [property_isAt isAt] at found
  obtain ⟨before, behind, property, split, rfl, -, -⟩ := isAt.props.seekProp_some found
  have tokens : image.tokens = (parts.before ++ .beginNode parts.name :: before) ++
      .prop property :: (behind ++ (parts.inside ++ .endNode :: parts.after)) := by
    rw [← whole, Parts.all, split]
    simp
  have around := size_around tokens
  have small := image.size_lt
  rw [cellsOf] at around
  omega

end Inplace

section Reserve

variable (carries : Carries m fdt image tree)

include carries

/-- With other ranges it is the tree with other reservations. -/
theorem Carries.withRanges {ranges : List (UInt64 × UInt64)} {more : Nat}
    (editable : Editable m' fdt image') (reserved : image'.reserved = ranges)
    (tokens : image'.tokens = image.tokens) (strings : image'.strings = image.strings)
    (total : image'.totalsize = image.totalsize) (grows : image'.size ≤ image.size + more)
    (changed : ChangedIn (window fdt image.totalsize.toNat) m m') :
    Edited m fdt image more m' image' { tree with reservations := ranges } := by
  refine ⟨⟨editable, reserved, ?_⟩, total, grows, changed⟩
  rw [tokens, strings]
  exact carries.root

/-- `fdt_add_mem_rsv` adds a reservation where there is room. -/
theorem Carries.addMemRsv {address size : UInt64} (room : image.size + 16 ≤ image.totalsize.toNat) :
    Returns (fdtAddMemRsv fdt address size) m fun _ m' => ∃ image', Edited m fdt image 16 m' image'
      { tree with reservations := addRange tree.reservations address size } := by
  refine (carries.editable.addMemRsv room).mono ?_
  rintro _ m' ⟨image', editable, reserved, tokens, strings, total, grows, changed⟩
  rw [carries.reserved] at reserved
  exact ⟨image', carries.withRanges editable reserved tokens strings total (le_of_eq grows) changed⟩

/-- Without room it leaves the tree. -/
theorem Carries.addMemRsv_full {address size : UInt64} (full : image.totalsize.toNat < image.size + 16) :
    Aborts (fdtAddMemRsv fdt address size) m (-fdtErrNospace) fun m' =>
      Edited m fdt image 0 m' image tree := by
  refine (carries.editable.addMemRsv_full full).mono ?_
  rintro m' ⟨editable, changed⟩
  exact ⟨⟨editable, carries.reserved, carries.root⟩, rfl, le_rfl, changed⟩

/-- `fdt_del_mem_rsv` deletes a reservation that is there. -/
theorem Carries.delMemRsv {index : Nat} (inside : index < tree.reservations.length) :
    Returns (fdtDelMemRsv fdt (Int32.ofNat index)) m fun _ m' => ∃ image', Edited m fdt image 0 m' image'
      { tree with reservations := tree.reservations.eraseIdx index } := by
  rw [← carries.reserved] at inside ⊢
  refine (carries.editable.delMemRsv inside).mono ?_
  rintro _ m' ⟨image', editable, reserved, tokens, strings, total, size, changed⟩
  exact ⟨image', carries.withRanges editable reserved tokens strings total (by omega) changed⟩

end Reserve

section Unique

variable {tokens' : List Token} {strings' : List UInt8} {tree' : Tree}

/-- What memory presents is determined. -/
theorem Presents.unique (presents : Presents m fdt tokens strings tree)
    (too : Presents m fdt tokens' strings' tree') : tokens = tokens' ∧ strings = strings' ∧ tree = tree' := by
  have bounds := And.intro presents.readable.tokens.bound too.readable.tokens.bound
  have sameStrings : strings = strings' := presents.readable.held.eq too.readable.held
    (presents.readable.size.symm.trans too.readable.size)
  have sameTokens : tokens = tokens' := by
    have block := presents.readable.tokens.held
    have other := too.readable.tokens.held
    rcases Nat.le_total (blockOf tokens).length (blockOf tokens').length with shorter | shorter
    · obtain ⟨behind, same⟩ := block.begins other shorter
      rw [← List.append_nil (blockOf tokens')] at same
      exact tokens_eq (by omega) (by omega) same
    · obtain ⟨behind, same⟩ := other.begins block shorter
      rw [← List.append_nil (blockOf tokens)] at same
      exact (tokens_eq (by omega) (by omega) same).symm
  subst sameStrings sameTokens
  refine ⟨rfl, rfl, ?_⟩
  have root := presents.root.unique too.root
  obtain ⟨stop, reserves⟩ := presents.reserves
  obtain ⟨stop', reserves'⟩ := too.reserves
  have counts := And.intro reserves.count reserves'.count
  have sameCount : tree.reservations.length = tree'.reservations.length :=
    (ofNat_eq_ofNat (by omega) (by omega)).mp (reserves.numMemRsv.symm.trans reserves'.numMemRsv)
  have sameRanges : tree.reservations = tree'.reservations := by
    refine List.ext_getElem sameCount fun index inside inside' => ?_
    have entry := reserves.getMemRsv presents.readable.probe_nonneg inside
    rw [reserves'.getMemRsv presents.readable.probe_nonneg inside'] at entry
    exact (Except.ok.inj entry).symm
  obtain ⟨reservations, root⟩ := tree
  obtain ⟨reservations', root'⟩ := tree'
  dsimp only at root sameRanges
  rw [root, sameRanges]

/-- The position of the node at an offset is determined. -/
theorem IsNode.unique {other : Position} (has : HasTokens m fdt tokens)
    (node : IsNode strings tokens tree offset position)
    (too : IsNode strings tokens tree offset other) : position = other := by
  obtain ⟨parts, properties, children, whole, rfl, isAt⟩ := node
  obtain ⟨parts', properties', children', whole', same, isAt'⟩ := too
  have here := has
  rw [← whole, Parts.all] at here
  rw [← whole', Parts.all] at has
  have offsets := (ofNat_eq_ofNat here.offset_small.1 has.offset_small.1).mp same
  have before : parts.before = parts'.before := before_eq (whole.trans whole'.symm) offsets
  rw [← isAt.positionAfter, before, isAt'.positionAfter]

end Unique

end DragonStub

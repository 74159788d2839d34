import Mathlib.Logic.Function.Basic
import Mathlib.Tactic.Ring

/-!
# Device trees

The value a flattened device tree stands for: reserved ranges of memory, and nodes with properties.
A node is found by its position, the way down from the root, so an edit at one position leaves every
other one alone.
-/

namespace DeviceTree

/-- The properties of a node, each value under its name. -/
abbrev Properties := String → Option (List UInt8)

/-- Create or replace one property. -/
def put (name : String) (value : List UInt8) (properties : Properties) : Properties :=
  Function.update properties name (some value)

/-- A property that is put is found. -/
theorem put_same {name : String} {value : List UInt8} {properties : Properties} :
    put name value properties name = some value :=
  Function.update_self ..

/-- Putting a property leaves every other one. -/
theorem put_other {name other : String} {value : List UInt8} {properties : Properties}
    (different : other ≠ name) : put name value properties other = properties other :=
  Function.update_of_ne different ..

/-- A number as bytes, the highest first. -/
def bigEndian : Nat → Nat → List UInt8
  | 0, _ => []
  | bytes + 1, value => bigEndian bytes (value / 256) ++ [UInt8.ofNat value]

/-- The bytes of a number are those of its high part and those of its low part. -/
theorem bigEndian_append {high low value : Nat} : bigEndian (high + low) value =
    bigEndian high (value / 256 ^ low) ++ bigEndian low value := by
  induction low generalizing value with
  | zero => simp [bigEndian]
  | succ low ih =>
    rw [← Nat.add_assoc, bigEndian, ih, Nat.div_div_eq_div_mul, ← Nat.pow_succ', List.append_assoc]
    rfl

/-- What lies above the bytes does not matter. -/
theorem bigEndian_mod {bytes value : Nat} :
    bigEndian bytes (value % 256 ^ bytes) = bigEndian bytes value := by
  induction bytes generalizing value with
  | zero => rfl
  | succ bytes ih =>
    have high : value % 256 ^ (bytes + 1) / 256 = value / 256 % 256 ^ bytes := by
      rw [Nat.pow_succ', Nat.mod_mul_right_div_self]
    have low : UInt8.ofNat (value % 256 ^ (bytes + 1)) = UInt8.ofNat value := by
      apply UInt8.toNat_inj.mp
      rw [UInt8.toNat_ofNat', UInt8.toNat_ofNat', Nat.pow_succ']
      exact Nat.mod_mul_right_mod value 256 (256 ^ bytes)
    rw [bigEndian, bigEndian, high, low, ih]

/-- A node with its name, properties and children in order. -/
inductive Node where
  | node (name : String) (properties : Properties) (children : List Node)

/-- The way to a node: the index of a child at each step down from the root. -/
abbrev Position := List Nat

namespace Node

/-- The name of a node, with its unit address. -/
def name : Node → String
  | node name _ _ => name

/-- The properties of a node. -/
def properties : Node → Properties
  | node _ properties _ => properties

/-- The children of a node. -/
def children : Node → List Node
  | node _ _ children => children

/-- The name of a node and those of its children. -/
def names (start : Node) : String × List String := (start.name, start.children.map name)

/-- The node at a position below a node. -/
def find : Position → Node → Option Node
  | [], start => some start
  | index :: rest, start => start.children[index]?.bind (find rest)

/-- Change the node at a position below a node, if there is one. -/
def modifyAt (change : Node → Node) : Position → Node → Node
  | [], start => change start
  | index :: rest, node name properties children =>
    node name properties (children.modify index (modifyAt change rest))

/-- Change the properties of a node. -/
def changeProperties (change : Properties → Properties) : Node → Node
  | node name properties children => node name (change properties) children

/-- Insert a child without properties before the child with the given index. -/
def insertChild (index : Nat) (child : String) : Node → Node
  | node name properties children =>
    node name properties (children.insertIdx index (node child (fun _ => none) []))

/-- Whether a sought name is that of a node: its whole name, or, when the sought name has no unit
address, its name up to the address. -/
def matchesName (sought full : String) : Bool :=
  full = sought || !sought.toList.contains '@' && (sought.toList ++ ['@']).isPrefixOf full.toList

/-- The index of the first child with the sought name. -/
def childIndex (sought : String) (start : Node) : Option Nat :=
  start.children.findIdx? fun child => matchesName sought child.name

variable {start : Node} {change later : Properties → Properties} {position other : Position}
  {sought : String}

/-- Two changes of properties are their composition. -/
theorem changeProperties_changeProperties :
    (start.changeProperties change).changeProperties later =
      start.changeProperties (later ∘ change) := by
  cases start
  rfl

/-- No change of properties leaves the node. -/
theorem changeProperties_id : changeProperties id = id := by
  funext start
  cases start
  rfl

/-- To change nothing anywhere leaves the node. -/
theorem modifyAt_id : modifyAt id position = id := by
  induction position with
  | nil => rfl
  | cons index rest ih =>
    funext start
    cases start
    rw [modifyAt, ih, List.modify_id]
    rfl

/-- Two changes of one node are one change. -/
theorem modifyAt_modifyAt {first second : Node → Node} :
    modifyAt second position (modifyAt first position start) =
      modifyAt (second ∘ first) position start := by
  induction position generalizing start with
  | nil => rfl
  | cons index rest ih =>
    cases start with
    | node name properties children =>
      simp only [modifyAt, List.modify_modify_eq]
      congr 2
      funext child
      exact ih

/-- A change at a longer position is a change below the node at its front. -/
theorem modifyAt_append {changed : Node → Node} : modifyAt changed (position ++ other) start =
    modifyAt (modifyAt changed other) position start := by
  induction position generalizing start with
  | nil => rfl
  | cons index rest ih =>
    cases start
    rw [List.cons_append, modifyAt, modifyAt]
    congr 2
    funext child
    exact ih

/-- A change of one element of a list only matters there. -/
theorem modify_congr {nodes : List Node} {index : Nat} {first second : Node → Node}
    (here : nodes[index]? = some start) (same : first start = second start) :
    nodes.modify index first = nodes.modify index second := by
  apply List.ext_getElem?
  intro place
  rw [List.getElem?_modify, List.getElem?_modify]
  by_cases there : index = place
  · simp [← there, here, same]
  · simp [there]

/-- A change only sees the node at the position. -/
theorem modifyAt_of_find {found : Node} {changed : Node → Node}
    (there : find position start = some found) :
    modifyAt changed position start = modifyAt (fun _ => changed found) position start := by
  induction position generalizing start with
  | nil =>
    obtain rfl := Option.some.inj there
    rfl
  | cons index rest ih =>
    cases start with
    | node name properties children =>
      obtain ⟨child, here, there⟩ := Option.bind_eq_some_iff.mp there
      exact congrArg (node name properties) (modify_congr here (ih there))

/-- The node at a position, after a change there. -/
theorem find_modifyAt {changed : Node → Node} :
    find position (modifyAt changed position start) = (find position start).map changed := by
  induction position generalizing start with
  | nil => rfl
  | cons index rest ih =>
    cases start with
    | node name properties children =>
      simp only [find, modifyAt, Node.children, List.getElem?_modify_eq]
      cases children[index]? with
      | none => rfl
      | some child => exact ih

/-- A change of properties at another position leaves those of a node. -/
theorem find_changeProperties_of_ne (different : other ≠ position) :
    (find other (modifyAt (changeProperties change) position start)).map properties =
      (find other start).map properties := by
  induction position generalizing start other with
  | nil =>
    cases start
    cases other with
    | nil => exact absurd rfl different
    | cons => rfl
  | cons index rest ih =>
    cases start with
    | node name properties children =>
      cases other with
      | nil => rfl
      | cons place below =>
        change Option.map Node.properties (((children.modify index _)[place]?).bind (find below)) =
          Option.map Node.properties ((children[place]?).bind (find below))
        rw [List.getElem?_modify]
        cases children[place]? with
        | none => rfl
        | some found =>
          change Option.map Node.properties (find below (if index = place then
            modifyAt (changeProperties change) rest found else found)) = _
          by_cases here : index = place
          · rw [if_pos here]
            refine ih fun same => different ?_
            rw [here, same]
          · rw [if_neg here]
            rfl

/-- The way to a node leads over the nodes above it. -/
theorem find_append : find (position ++ other) start = (find position start).bind (find other) := by
  induction position generalizing start with
  | nil => rfl
  | cons index rest ih =>
    change (start.children[index]?).bind _ = ((start.children[index]?).bind _).bind _
    rw [Option.bind_assoc]
    congr 1
    funext child
    exact ih

/-- A change of properties leaves the names of every node and of its children. -/
theorem find_changeProperties :
    (find other (modifyAt (changeProperties change) position start)).map names =
      (find other start).map names := by
  induction position generalizing start other with
  | nil =>
    cases start
    cases other <;> rfl
  | cons index rest ih =>
    cases start with
    | node name properties children =>
      cases other with
      | nil =>
        have same : (children.modify index (modifyAt (changeProperties change) rest)).map Node.name =
            children.map Node.name := by
          apply List.ext_getElem?
          intro place
          have below (start : Node) : (find [] (modifyAt (changeProperties change) rest start)).map
              names = (find [] start).map names := ih
          have child (start : Node) :
              (modifyAt (changeProperties change) rest start).name = start.name :=
            congrArg Prod.fst (Option.some.inj (below start))
          rw [List.getElem?_map, List.getElem?_map, List.getElem?_modify]
          cases children[place]? with
          | none => rfl
          | some found => by_cases here : index = place <;> simp [here, child]
        exact congrArg (fun children => some (name, children)) same
      | cons place below =>
        change Option.map names (((children.modify index _)[place]?).bind (find below)) =
          Option.map names ((children[place]?).bind (find below))
        rw [List.getElem?_modify]
        cases children[place]? with
        | none => rfl
        | some found =>
          change Option.map names (find below (if index = place then
            modifyAt (changeProperties change) rest found else found)) = _
          by_cases here : index = place
          · rw [if_pos here]
            exact ih
          · rw [if_neg here]
            rfl

/-- The search for a child only looks at names. -/
theorem childIndex_eq : childIndex sought start =
    start.names.2.findIdx? (matchesName sought) := by
  rw [names, List.findIdx?_map]
  rfl

/-- A child that is inserted where there was none with its name is the one that is found. -/
theorem childIndex_insertChild {index : Nat} (none : childIndex sought start = none)
    (inside : index ≤ start.children.length) :
    childIndex sought (start.insertChild index sought) = some index := by
  cases start with
  | node name properties children =>
    have unmatched : ∀ child ∈ children, matchesName sought child.name = false :=
      List.findIdx?_eq_none_iff.mp none
    change (children.insertIdx index _).findIdx? _ = _
    rw [List.findIdx?_eq_some_iff_getElem]
    have longer := List.length_insertIdx_of_le_length inside (node sought (fun _ => .none) [])
    refine ⟨Nat.lt_of_lt_of_eq (Nat.lt_succ_of_le inside) longer.symm, ?_, ?_⟩
    · simp [List.getElem_insertIdx_self, matchesName, Node.name]
    · intro before earlier
      rw [List.getElem_insertIdx_of_lt earlier]
      exact Bool.not_eq_true _ |>.mpr (unmatched _ (List.getElem_mem _))

end Node

/-- A device tree. -/
structure Tree where
  /-- Addresses and sizes of reserved memory. -/
  reservations : List (UInt64 × UInt64)
  /-- The root node. -/
  root : Node

/-- The tree without reservations and with a bare root. -/
def emptyTree : Tree := ⟨[], .node "" (fun _ => none) []⟩

namespace Tree

/-- The value of a property of the node at a position. -/
def property (tree : Tree) (position : Position) (name : String) : Option (List UInt8) :=
  (tree.root.find position).bind fun found => found.properties name

/-- The first child of the node at a position that has the sought name. -/
def subnode (tree : Tree) (position : Position) (sought : String) : Option Position :=
  (tree.root.find position).bind fun parent =>
    (parent.childIndex sought).map fun index => position ++ [index]

/-- The node that names lead to from the one at a position, each below the one before. -/
def follow (tree : Tree) (position : Position) (names : List String) : Option Position :=
  names.foldlM tree.subnode position

/-- Change the properties of the node at a position. -/
def edit (tree : Tree) (position : Position) (change : Properties → Properties) : Tree :=
  { tree with root := tree.root.modifyAt (Node.changeProperties change) position }

/-- Insert a child without properties below the node at a position. -/
def insertChild (tree : Tree) (position : Position) (index : Nat) (child : String) : Tree :=
  { tree with root := tree.root.modifyAt (Node.insertChild index child) position }

/-- Leave no memory reserved. -/
def unreserve (tree : Tree) : Tree := { tree with reservations := [] }

variable {tree : Tree} {position other : Position} {change later : Properties → Properties}
  {sought name : String}

/-- Two edits of one node are one edit. -/
theorem edit_edit : (tree.edit position change).edit position later =
    tree.edit position (later ∘ change) := by
  unfold edit
  rw [Node.modifyAt_modifyAt]
  congr 2
  funext start
  exact Node.changeProperties_changeProperties

/-- No change leaves the tree. -/
theorem edit_id : tree.edit position id = tree := by
  rw [edit, Node.changeProperties_id, Node.modifyAt_id]
  rfl

/-- The properties of an edited node. -/
theorem property_edit (there : (tree.root.find position).isSome = true) :
    (tree.edit position change).property position = change (tree.property position) := by
  obtain ⟨found, here⟩ := Option.isSome_iff_exists.mp there
  have before : tree.property position = found.properties := by
    funext name
    rw [property, here]
    rfl
  cases found
  funext name
  rw [before]
  unfold property edit
  rw [Node.find_modifyAt, here]
  rfl

/-- The properties of another node. -/
theorem property_edit_of_ne (different : other ≠ position) :
    (tree.edit position change).property other name = tree.property other name := by
  have same : (Node.find other (Node.modifyAt (Node.changeProperties change) position
      tree.root)).map Node.properties = (Node.find other tree.root).map Node.properties :=
    Node.find_changeProperties_of_ne different
  have value (found : Option Node) : (found.bind fun found => found.properties name) =
      (found.map Node.properties).bind fun properties => properties name := by
    cases found <;> rfl
  unfold property edit
  rw [value, value, same]

/-- Edits do not change which child is found. -/
theorem subnode_edit : (tree.edit position change).subnode other sought =
    tree.subnode other sought := by
  have same : (Node.find other (Node.modifyAt (Node.changeProperties change) position
      tree.root)).map Node.names = (Node.find other tree.root).map Node.names :=
    Node.find_changeProperties
  unfold subnode edit
  cases before : tree.root.find other with
  | none =>
    rw [before, Option.map_none, Option.map_eq_none_iff] at same
    rw [same]
  | some parent =>
    rw [before, Option.map_some, Option.map_eq_some_iff] at same
    obtain ⟨found, after, names⟩ := same
    rw [after]
    simp only [Option.bind_some, Node.childIndex_eq, names]

/-- A child that is found is there. -/
theorem find_subnode {child : Position} (found : tree.subnode position sought = some child) :
    (tree.root.find child).isSome = true := by
  obtain ⟨parent, there, found⟩ := Option.bind_eq_some_iff.mp found
  obtain ⟨index, first, rfl⟩ := Option.map_eq_some_iff.mp found
  obtain ⟨inside, -⟩ := List.findIdx?_eq_some_iff_getElem.mp first
  rw [Node.find_append, there, Option.bind_some]
  change (parent.children[index]?.bind (Node.find [])).isSome = true
  rw [List.getElem?_eq_getElem inside]
  rfl

/-- A child that was inserted is found. -/
theorem subnode_insertChild {index : Nat} {parent : Node}
    (none : tree.subnode position sought = none) (there : tree.root.find position = some parent)
    (inside : index ≤ parent.children.length) :
    (tree.insertChild position index sought).subnode position sought =
      some (position ++ [index]) := by
  unfold subnode at none
  rw [there, Option.bind_some, Option.map_eq_none_iff] at none
  unfold subnode insertChild
  rw [Node.find_modifyAt, there, Option.map_some, Option.bind_some,
    Node.childIndex_insertChild none inside]
  rfl

end Tree

end DeviceTree

import DragonStub.Verif.FdtTree

/-!
# Adding nodes

`fdt_add_subnode` puts a bare node in front of the children of a node, behind its properties, and
returns the offset of the new node.
-/

namespace DragonStub

open ByteMemory DeviceTree FlatTree Stateful Word

variable {m : Memory} {fdt : UInt64} {tokens props before behind after : List Token}
  {strings key : List UInt8} {image : Image} {tree : Tree} {position : Position} {offset : Int32}
  {properties : Properties} {token : Token}

/-- The loop over properties goes on behind a token without a level. -/
theorem behindProps_flat (has : HasTokens m fdt (before ++ token :: after))
    (flat : token.tag = 3 ∨ token.tag = 4) {turns : Nat} :
    behindProps m fdt (turns + 1) (Int32.ofNat (extent before)) =
      behindProps m fdt turns (Int32.ofNat (extent (before ++ [token]))) := by
  have next : extent (before ++ [token]) = extent before + token.size := by simp
  rw [behindProps, has.nextTag, next]
  cases token with
  | beginNode _ => exact absurd flat (by simp [Token.tag])
  | endNode => exact absurd flat (by simp [Token.tag])
  | prop _ => rfl
  | nop => rfl

/-- It stops at the first node or at the end. -/
theorem behindProps_eq (has : HasProps strings props properties)
    (tokens : HasTokens m fdt (before ++ (props ++ token :: after)))
    (stop : token.tag = 1 ∨ token.tag = 2) {turns : Nat} (enough : props.length < turns) :
    behindProps m fdt turns (Int32.ofNat (extent before)) = Int32.ofNat (extent (before ++ props)) := by
  induction has generalizing before turns with
  | nil =>
    obtain ⟨turns, rfl⟩ : ∃ less, turns = less + 1 := ⟨turns - 1, by simp at enough; omega⟩
    rw [List.nil_append] at tokens
    rw [behindProps, tokens.nextTag, List.append_nil]
    cases token with
    | beginNode _ => rfl
    | endNode => rfl
    | prop _ => exact absurd stop (by simp [Token.tag])
    | nop => exact absurd stop (by simp [Token.tag])
  | @nop props properties _ ih =>
    obtain ⟨turns, rfl⟩ : ∃ less, turns = less + 1 := ⟨turns - 1, by simp at enough; omega⟩
    rw [List.length_cons] at enough
    rw [List.cons_append] at tokens
    have shift : before ++ Token.nop :: props = (before ++ [Token.nop]) ++ props := List.append_cons ..
    have later : HasTokens m fdt ((before ++ [Token.nop]) ++ (props ++ token :: after)) := by
      rwa [List.append_assoc, List.singleton_append]
    rw [behindProps_flat tokens (.inr rfl), shift]
    exact ih later (by omega)
  | @prop props properties name property named _ ih =>
    obtain ⟨turns, rfl⟩ : ∃ less, turns = less + 1 := ⟨turns - 1, by simp at enough; omega⟩
    rw [List.length_cons] at enough
    rw [List.cons_append] at tokens
    have shift : before ++ Token.prop property :: props = (before ++ [Token.prop property]) ++ props :=
      List.append_cons ..
    have later : HasTokens m fdt ((before ++ [Token.prop property]) ++ (props ++ token :: after)) := by
      rwa [List.append_assoc, List.singleton_append]
    rw [behindProps_flat tokens (.inl rfl), shift]
    exact ih later (by omega)

/-- The name of a node as `fdt_add_subnode` writes it, with zeros behind it. -/
def zeroPadded (key : List UInt8) (noNul : 0 ∉ key) : Name where
  bytes := key
  pad := List.replicate (padding (key.length + 1)) 0
  noNul := noNul
  fills := List.length_replicate

/-- The size of the name of a node in whole cells. -/
def nameCells (key : List UInt8) : Nat := key.length + 1 + padding (key.length + 1)

/-- The bytes of a bare node. -/
theorem bytes_bare {noNul : 0 ∉ key} : bytesOf [.beginNode (zeroPadded key noNul), .endNode] =
    bigEndian 4 1 ++ key ++ List.replicate (1 + padding (key.length + 1)) 0 ++ bigEndian 4 2 := by
  have zeros : (0 : UInt8) :: List.replicate (padding (key.length + 1)) 0 =
      List.replicate (1 + padding (key.length + 1)) 0 := by
    rw [Nat.add_comm 1, List.replicate_succ]
  simp only [bytesOf_cons, bytesOf_nil, Token.bytes, Token.body, Token.tag, zeroPadded, zeros,
    List.append_assoc, List.append_nil]

/-- A bare node takes eight bytes and the cells of its name. -/
theorem extent_bare {noNul : 0 ∉ key} :
    extent [.beginNode (zeroPadded key noNul), .endNode] = 8 + nameCells key := by
  rw [extent, bytes_bare, nameCells]
  simp only [List.length_append, length_bigEndian, List.length_replicate]
  omega

/-- A gap for a bare node in parts. -/
theorem exists_node_parts {gap : List UInt8} {n : Nat} (length : gap.length = 8 + n) :
    ∃ a b c : List UInt8, gap = a ++ b ++ c ∧ a.length = 4 ∧ b.length = n ∧ c.length = 4 := by
  refine ⟨gap.take 4, (gap.drop 4).take n, gap.drop (4 + n), ?_, ?_, ?_, ?_⟩
  · rw [List.append_assoc, ← eq_parts]
  all_goals
    simp only [List.length_take, List.length_drop]
    omega

/-- The cells of a short name fit an `int`. -/
theorem nameCells_lt (short : key.length < 2 ^ 31 - 16) : nameCells key < 2 ^ 31 - 8 := by
  have pads := padding_lt (key.length + 1)
  rw [nameCells]
  omega

/-- The alignment of a name. -/
theorem fdtTagalign_name (short : key.length < 2 ^ 31 - 16) :
    fdtTagalign (UInt64.ofNat (key.length + 1)) = UInt64.ofNat (nameCells key) :=
  fdtTagalign_ofNat (by omega)

/-- The length that `fdt_add_subnode` computes. -/
theorem nodelen_eq (short : key.length < 2 ^ 31 - 16) :
    toInt (4 + fdtTagalign (UInt64.ofNat (key.length + 1)) + 4) =
      Int32.ofNat (4 + nameCells key + 4) := by
  rw [fdtTagalign_name short, ← toInt_ofNat64, UInt64.ofNat_add, UInt64.ofNat_add]
  rfl

/-- Where the room is enough for a bare node, it may be put in. -/
theorem admits_bare (split : image.tokens = before ++ behind) (noNul : 0 ∉ key)
    (room : image.size + (8 + nameCells key) ≤ image.totalsize.toNat) :
    image.Admits (before ++ ([Token.beginNode (zeroPadded key noNul), Token.endNode] ++ behind)) := by
  have extents := congrArg extent split
  rw [extent_append] at extents
  rw [Image.Admits, extent_append, extent_append, extent_bare]
  omega

/-- The image grows by the bare node. -/
theorem size_bare (split : image.tokens = before ++ behind) {noNul : 0 ∉ key}
    {admits : image.Admits
      (before ++ ([Token.beginNode (zeroPadded key noNul), Token.endNode] ++ behind))} :
    (image.withTokens _ admits).size = image.size + (8 + nameCells key) := by
  have none : image.tokens = before ++ ([] ++ behind) := split
  have sizes : (image.withTokens _ admits).size + _ = _ := Image.size_exchange none
  rwa [extent_nil, Nat.add_zero, extent_bare] at sizes

/-- The address of the token that ends a bare node. -/
theorem bareEnd_address (short : key.length < 2 ^ 31 - 16) (front : Nat) :
    fdt + UInt64.ofNat (40 + front) + ofInt (Int32.ofNat (4 + nameCells key + 4)) - 4 =
      fdt + UInt64.ofNat (40 + (front + (4 + nameCells key))) := by
  have few := nameCells_lt short
  have four : UInt64.ofNat (4 + nameCells key + 4) = UInt64.ofNat (4 + nameCells key) + 4 :=
    UInt64.ofNat_add ..
  rw [ofInt_ofNat (by omega), four, ← UInt64.add_assoc, UInt64.add_sub_cancel, add_offsets,
    Nat.add_assoc]

section Write

variable {start : Memory} {total : Nat} {header : Header} {front old back : List UInt8} {p last : UInt64}
  {place : Int32}

/-- The name of a new node is written over zeros. -/
theorem Becomes.writeName (becomes : Becomes start fdt total header (front ++ old ++ back) m)
    (cells : old.length = nameCells key) (address : p = fdt + UInt64.ofNat (40 + front.length))
    {α : Type} {next : Edit Memory α} {post : α → Memory → Prop}
    (rest : ∀ m', Becomes start fdt total header
      (front ++ key ++ List.replicate (1 + padding (key.length + 1)) 0 ++ back) m' →
        Returns next m' post) :
    Returns (do
      Edit.write p fun _ => List.replicate (nameCells key) 0
      Edit.write p fun _ => key
      next) m post := by
  have zeros : List.replicate (nameCells key) (0 : UInt8) =
      List.replicate key.length 0 ++ List.replicate (1 + padding (key.length + 1)) 0 := by
    rw [List.replicate_append_replicate, nameCells, Nat.add_assoc]
  have parts : front ++ List.replicate (nameCells key) 0 ++ back = front ++
      List.replicate key.length 0 ++ (List.replicate (1 + padding (key.length + 1)) 0 ++ back) := by
    rw [zeros]
    simp only [List.append_assoc]
  refine Returns.bind ((becomes.writeAt rfl (by rw [List.length_replicate, cells]) address).mono
    fun _ m' becomes => ?_)
  refine Returns.bind ((becomes.writeAt parts List.length_replicate.symm address).mono
    fun _ m' becomes => rest m' ?_)
  simpa only [List.append_assoc] using becomes

/-- A bare node is written into a gap. -/
theorem Becomes.writeNode (becomes : Becomes start fdt total header (front ++ old ++ back) m)
    (length : old.length = 8 + nameCells key) (noNul : 0 ∉ key)
    (address : p = fdt + UInt64.ofNat (40 + front.length))
    (behind : last = fdt + UInt64.ofNat (40 + (front.length + (4 + nameCells key)))) :
    Returns (do
      Edit.write p fun _ => bigEndian 4 1
      Edit.write (p + 4) fun _ => List.replicate (nameCells key) 0
      Edit.write (p + 4) fun _ => key
      Edit.write last fun _ => bigEndian 4 2
      return place) m fun place' m' => place' = place ∧ Becomes start fdt total header
        (front ++ bytesOf [.beginNode (zeroPadded key noNul), .endNode] ++ back) m' := by
  obtain ⟨a, b, c, rfl, la, lb, lc⟩ := exists_node_parts length
  have first : front ++ (a ++ b ++ c) ++ back = front ++ a ++ (b ++ c ++ back) := by
    simp only [List.append_assoc]
  have second : front ++ bigEndian 4 1 ++ (b ++ c ++ back) =
      front ++ bigEndian 4 1 ++ b ++ (c ++ back) := by
    simp only [List.append_assoc]
  have third : front ++ bigEndian 4 1 ++ key ++ List.replicate (1 + padding (key.length + 1)) 0 ++
      (c ++ back) = front ++ bigEndian 4 1 ++ key ++
        List.replicate (1 + padding (key.length + 1)) 0 ++ c ++ back := by
    simp only [List.append_assoc]
  have nameAt : p + 4 = fdt + UInt64.ofNat (40 + (front ++ bigEndian 4 1).length) := by
    rw [address, List.length_append, length_bigEndian, ← Nat.add_assoc]
    exact add_offsets ..
  have endAt : last = fdt + UInt64.ofNat (40 + (front ++ bigEndian 4 1 ++ key ++
      List.replicate (1 + padding (key.length + 1)) 0).length) := by
    rw [behind]
    congr 2
    simp only [List.length_append, length_bigEndian, List.length_replicate, nameCells]
    omega
  refine Returns.bind ((becomes.writeAt first (by rw [length_bigEndian, la]) address).mono
    fun _ m' becomes => ?_)
  rw [second] at becomes
  refine becomes.writeName lb nameAt fun m' becomes => ?_
  refine Returns.bind ((becomes.writeAt third (by rw [length_bigEndian, lc]) endAt).mono
    fun _ m' becomes => Returns.pure ⟨rfl, ?_⟩)
  rw [bytes_bare]
  simpa only [List.append_assoc] using becomes

end Write

section Insert

variable (editable : Editable m fdt image) (split : image.tokens = before ++ behind) (noNul : 0 ∉ key)
  (short : key.length < 2 ^ 31 - 16)

include editable split noNul short

/-- The part of `fdt_add_subnode` that writes the node, where there is room. -/
theorem Editable.insertNode (room : image.size + (8 + nameCells key) ≤ image.totalsize.toNat) :
    Returns (writeSubnode fdt (Int32.ofNat (extent before)) key) m fun place m' =>
      place = Int32.ofNat (extent before) ∧
        ∃ admits : image.Admits
          (before ++ ([Token.beginNode (zeroPadded key noNul), Token.endNode] ++ behind)),
          Editable m' fdt (image.withTokens
            (before ++ ([Token.beginNode (zeroPadded key noNul), Token.endNode] ++ behind)) admits) ∧
          ChangedIn (window fdt image.totalsize.toNat) m m' := by
  have becomes : Becomes m fdt image.totalsize.toNat image.header image.body m :=
    editable.stands.becomes
  have size := size_gap split
  have total := image.size_lt
  have few := nameCells_lt short
  have count : (UInt64.ofNat (nameCells key)).toNat = nameCells key := by
    rw [UInt64.toNat_ofNat', Nat.mod_eq_of_lt (by omega)]
  have none : image.tokens = before ++ ([] ++ behind) := split
  have tag : cpuToFdt32 fdtBeginNode = bigEndian 4 1 := cpuToFdt32_eq fdtBeginNode
  have finish : cpuToFdt32 fdtEndNode = bigEndian 4 2 := cpuToFdt32_eq fdtEndNode
  have room' : 40 + (image.upTo before).length + (4 + nameCells key + 4) +
      (image.downFrom behind).length ≤ image.totalsize.toNat := by omega
  have long : 4 + nameCells key + 4 < 2 ^ 31 := by omega
  unfold writeSubnode
  refine Returns.bind (Returns.get ?_)
  dsimp only
  rw [editable.offsetPtr split, nodelen_eq short, fdtTagalign_name short, count,
    bareEnd_address short, tag, finish]
  refine Returns.bind ((becomes.spliceStruct (body_gap split) rfl sized_image long room').mono ?_)
  rintro _ m' ⟨gap, length, becomes⟩
  refine (becomes.writeNode (show gap.length = 8 + nameCells key by omega) noNul rfl rfl).mono ?_
  rintro _ m' ⟨rfl, becomes⟩
  have admits := admits_bare split noNul room
  refine ⟨rfl, admits, becomes.exchanged none ?_ editable.aligned admits le_rfl, becomes.changed⟩
  rw [extent_nil, extent_bare, List.length_nil]
  omega

omit noNul in
/-- Where there is none it changes nothing. -/
theorem Editable.insertNode_full
    (full : image.totalsize.toNat < image.size + (8 + nameCells key)) :
    Aborts (writeSubnode fdt (Int32.ofNat (extent before)) key) m (-fdtErrNospace)
      (Becomes m fdt image.totalsize.toNat image.header image.body) := by
  have becomes : Becomes m fdt image.totalsize.toNat image.header image.body m :=
    editable.stands.becomes
  have size := size_gap split
  have few := nameCells_lt short
  have long : 4 + nameCells key + 4 < 2 ^ 31 := by omega
  have full' : image.totalsize.toNat < 40 + (image.upTo before).length + (4 + nameCells key + 4) +
      (image.downFrom behind).length := by omega
  unfold writeSubnode
  refine Returns.aborts (Returns.get ?_)
  dsimp only
  rw [editable.offsetPtr split, nodelen_eq short]
  exact Aborts.bind (becomes.spliceStruct_full (body_gap split) rfl sized_image long full')

end Insert

section Add

variable (carries : Carries m fdt image tree)
  (node : IsNode image.strings image.tokens tree offset position) (noNul : 0 ∉ key)
  (short : key.length < 2 ^ 31 - 16)

include carries node noNul short

omit noNul in
/-- `fdt_add_subnode` adds no second node of a name. -/
theorem Carries.addSubnode_exists {child : Position}
    (found : tree.subnode position (text key) = some child) :
    (fdtAddSubnode fdt offset key).run.run m = (.error (-fdtErrExists), m) := by
  have there := (carries.presents.subnodeOffset_some node (by omega) found).1
  unfold fdtSubnodeOffset at there
  unfold fdtAddSubnode fdtAddSubnodeNamelen
  simp only [run_bind, run_get, carries.editable.rwProbe, run_failIf, ge_iff_le, there, decide_true,
    if_true]

omit noNul in
/-- `fdt_add_subnode` up to the place of the new node, behind the properties of the parent and before
its children. -/
theorem Carries.addSubnode_place (missing : tree.subnode position (text key) = none) :
    ∃ (parts : Parts) (properties : Properties) (children : List Node) (nops : Nat)
      (rest : List Token), parts.all = image.tokens ∧ offset = Int32.ofNat (extent parts.before) ∧
        IsAt image.strings parts [tree.root] 0 position properties children ∧
        parts.inside = List.replicate nops .nop ++ rest ∧ HasNodes image.strings rest children ∧
        (fdtAddSubnode fdt offset key).run.run m = (writeSubnode fdt (Int32.ofNat (extent
          (parts.before ++ .beginNode parts.name :: (parts.props ++ List.replicate nops .nop))))
            key).run.run m := by
  have absent := carries.presents.subnodeOffset_none node (by omega) missing
  obtain ⟨parts, properties, children, whole, rfl, isAt⟩ := node
  obtain ⟨nops, rest, inside, nodes, next⟩ := isAt.inside.leading_nops
  obtain ⟨token, behind, stop, first⟩ := next parts.after
  refine ⟨parts, properties, children, nops, rest, whole, rfl, isAt, inside, nodes, ?_⟩
  have tokens : HasTokens m fdt (parts.before ++ .beginNode parts.name ::
      ((parts.props ++ List.replicate nops .nop) ++ token :: behind)) := by
    have tokens := carries.editable.readable.tokens
    rw [← whole, Parts.all, inside, List.append_assoc, first, ← List.append_assoc parts.props] at tokens
    exact tokens
  have later : HasTokens m fdt ((parts.before ++ [Token.beginNode parts.name]) ++
      ((parts.props ++ List.replicate nops .nop) ++ token :: behind)) := by
    rwa [List.append_assoc, List.singleton_append]
  have turns := later.turns
  rw [List.length_append] at turns
  have enough : (parts.props ++ List.replicate nops Token.nop).length < fdtTurns m fdt := by omega
  have place := behindProps_eq (isAt.props.append_nops nops) later stop enough
  have start : extent parts.before + Token.size (.beginNode parts.name) =
      extent (parts.before ++ [Token.beginNode parts.name]) := by simp
  have shift : parts.before ++ [Token.beginNode parts.name] ++
      (parts.props ++ List.replicate nops Token.nop) = parts.before ++ .beginNode parts.name ::
        (parts.props ++ List.replicate nops Token.nop) := List.append_assoc ..
  unfold fdtSubnodeOffset at absent
  rw [shift] at place
  have below : ¬(0 : Int32) ≤ -fdtErrNotfound := by decide
  have tag : (tagOf (.beginNode parts.name) != fdtBeginNode) = false := rfl
  unfold fdtAddSubnode fdtAddSubnodeNamelen
  simp only [run_bind, run_get, carries.editable.rwProbe, run_failIf, absent, ge_iff_le, below,
    decide_false, Bool.false_eq_true, if_false, bne_self_eq_false, tokens.nextTag, tag, start, place]

/-- `fdt_add_subnode` adds a bare node in front of the children, where there is room. -/
theorem Carries.addSubnode (missing : tree.subnode position (text key) = none)
    (room : image.size + (8 + nameCells key) ≤ image.totalsize.toNat) :
    Returns (fdtAddSubnode fdt offset key) m fun place m' => ∃ image',
      Edited m fdt image (8 + nameCells key) m' image' (tree.insertChild position 0 (text key)) ∧
      IsNode image'.strings image'.tokens (tree.insertChild position 0 (text key)) place
        (position ++ [0]) ∧
      IsNode image'.strings image'.tokens (tree.insertChild position 0 (text key)) offset position := by
  obtain ⟨parts, properties, children, nops, rest, whole, rfl, isAt, inside, nodes, run⟩ :=
    carries.addSubnode_place node short missing
  have split : image.tokens = (parts.before ++ .beginNode parts.name ::
      (parts.props ++ List.replicate nops .nop)) ++ (rest ++ .endNode :: parts.after) := by
    rw [← whole, Parts.all, inside]
    simp
  obtain ⟨place, m', wrote, rfl, admits, editable, changed⟩ :=
    carries.editable.insertNode split noNul short room
  refine ⟨_, m', run.trans wrote, ?_⟩
  -- The new node is the first of the children, behind what has no meaning.
  let inside' := List.replicate nops Token.nop ++ Token.beginNode (zeroPadded key noNul) ::
    ([] ++ ([] ++ Token.endNode :: rest))
  let bare : Node := .node (text key) (fun _ => none) []
  have hasInside : HasNodes image.strings inside' (bare :: children) :=
    HasNodes.prepend_nops (.node (zeroPadded key noNul) .nil .nil nodes) nops
  have onlyNops : HasNodes image.strings (List.replicate nops .nop) [] := by
    have bare : HasNodes image.strings [] [] := .nil
    simpa using bare.prepend_nops nops
  have first : IsAt image.strings ⟨List.replicate nops .nop, zeroPadded key noNul, [], [], rest⟩
      (bare :: children) 0 [] (fun _ => none) [] :=
    isAt_between (zeroPadded key noNul) onlyNops .nil .nil nodes
  have here : Node.insertChild 0 (text key) (.node (text parts.name.bytes) properties children) =
      .node (text parts.name.bytes) properties (bare :: children) := rfl
  have all : (parts.before ++ Token.beginNode parts.name ::
      (parts.props ++ List.replicate nops .nop)) ++ ([Token.beginNode (zeroPadded key noNul),
        Token.endNode] ++ (rest ++ .endNode :: parts.after)) =
          (parts.exchange parts.props inside').all := by
    simp [Parts.all, Parts.exchange, inside']
  have hasRoot := carries.root
  rw [← whole] at hasRoot
  have strings : image.strings ++ [] = image.strings := List.append_nil _
  have hasProps : HasProps (image.strings ++ []) parts.props properties := isAt.props.append_strings
  have hasInside' : HasNodes (image.strings ++ []) inside' (bare :: children) :=
    hasInside.append_strings
  obtain ⟨-, parent⟩ := exchange_root hasRoot isAt hasProps hasInside' here
  obtain ⟨carries, node⟩ := carries.exchange whole isAt hasProps hasInside' here editable strings.symm
    all rfl
  rw [strings] at parent
  refine ⟨_, ⟨carries, rfl, (size_bare split).le, changed⟩, ?_, node⟩
  refine ⟨_, _, _, Parts.all_inner ?_ |>.trans all.symm, ?_, parent.inner first⟩
  · rfl
  · simp [Parts.inner, Parts.exchange]

omit noNul in
/-- Without room it leaves the tree. -/
theorem Carries.addSubnode_full (missing : tree.subnode position (text key) = none)
    (full : image.totalsize.toNat < image.size + (8 + nameCells key)) :
    Aborts (fdtAddSubnode fdt offset key) m (-fdtErrNospace) fun m' =>
      Edited m fdt image 0 m' image tree := by
  obtain ⟨parts, properties, children, nops, rest, whole, rfl, isAt, inside, nodes, run⟩ :=
    carries.addSubnode_place node short missing
  have split : image.tokens = (parts.before ++ .beginNode parts.name ::
      (parts.props ++ List.replicate nops .nop)) ++ (rest ++ .endNode :: parts.after) := by
    rw [← whole, Parts.all, inside]
    simp
  obtain ⟨m', wrote, becomes⟩ := carries.editable.insertNode_full split short full
  have editable := becomes.editable carries.editable.aligned rfl rfl le_rfl
  exact ⟨m', run.trans wrote, ⟨editable, carries.reserved, carries.root⟩, rfl, le_rfl,
    becomes.changed⟩

end Add

end DragonStub

import DragonStub.Base.DeviceTree
import Mathlib.Data.List.TakeWhile

/-!
# Flattened trees

The structure block of a flattened device tree is a list of tokens, each of a whole number of 32-bit
cells: a node is its name, its properties, its children and an end, and tokens without meaning may
stand between them. The names of properties are offsets into a block of strings. A list of tokens
stands for one tree at most, and a node of the tree has one place in the list: what is exchanged there
is exchanged in the tree, and nothing else is.
-/

namespace FlatTree

open DeviceTree

/-- A big-endian value takes as many bytes as it is written in. -/
@[simp] theorem length_bigEndian {bytes value : Nat} : (bigEndian bytes value).length = bytes := by
  induction bytes generalizing value with
  | zero => rfl
  | succ bytes ih => simp [bigEndian, ih]

/-- The bytes of a number give it back, as far as they go. -/
theorem bigEndian_inj {bytes value other : Nat}
    (same : bigEndian bytes value = bigEndian bytes other) :
    value % 256 ^ bytes = other % 256 ^ bytes := by
  induction bytes generalizing value other with
  | zero => simp [Nat.mod_one]
  | succ bytes ih =>
    rw [bigEndian, bigEndian] at same
    obtain ⟨high, low⟩ := List.append_inj' same rfl
    have digit := congrArg UInt8.toNat (List.cons.inj low).1
    rw [UInt8.toNat_ofNat', UInt8.toNat_ofNat'] at digit
    rw [Nat.pow_succ', Nat.mod_mul, Nat.mod_mul, ih high]
    omega

/-- The bytes that are missing to a whole number of cells. -/
def padding (n : Nat) : Nat := (4 - n % 4) % 4

/-- The name of a node and the bytes that fill its last cell. -/
structure Name where
  /-- The bytes of the name. -/
  bytes : List UInt8
  /-- The bytes behind its NUL. -/
  pad : List UInt8
  /-- The name ends at its NUL. -/
  noNul : 0 ∉ bytes
  /-- The last cell is full. -/
  fills : pad.length = padding (bytes.length + 1)

/-- A property: where its name is, its value, and the bytes that fill the last cell. -/
structure Property where
  /-- The offset of the name among the strings. -/
  nameoff : UInt32
  /-- The value. -/
  value : List UInt8
  /-- The bytes behind the value. -/
  pad : List UInt8
  /-- The last cell is full. -/
  fills : pad.length = padding value.length

/-- A token of the structure block. -/
inductive Token where
  | beginNode (name : Name)
  | endNode
  | prop (property : Property)
  | nop

namespace Token

/-- The first cell of a token. -/
def tag : Token → Nat
  | beginNode _ => 1
  | endNode => 2
  | prop _ => 3
  | nop => 4

/-- The other cells of a token. -/
def body : Token → List UInt8
  | beginNode name => name.bytes ++ 0 :: name.pad
  | prop property =>
    bigEndian 4 property.value.length ++ bigEndian 4 property.nameoff.toNat ++ property.value ++
      property.pad
  | endNode => []
  | nop => []

/-- The bytes of a token. -/
def bytes (token : Token) : List UInt8 := bigEndian 4 token.tag ++ token.body

/-- The size of a token. -/
def size (token : Token) : Nat := token.bytes.length

/-- A token is its tag and its body. -/
theorem size_eq (token : Token) : token.size = 4 + token.body.length := by
  simp [size, bytes]

/-- No token is shorter than its tag. -/
theorem four_le_size (token : Token) : 4 ≤ token.size := by
  rw [size_eq]
  omega

/-- A token is a whole number of cells. -/
theorem size_whole (token : Token) : token.size % 4 = 0 := by
  rw [size_eq]
  cases token with
  | beginNode name =>
    have fills := name.fills
    simp only [padding] at fills
    simp only [body, List.length_append, List.length_cons]
    omega
  | prop property =>
    have fills := property.fills
    simp only [padding] at fills
    simp only [body, List.length_append, length_bigEndian]
    omega
  | endNode => rfl
  | nop => rfl

/-- No token begins as the last cell of the block does. -/
theorem tag_lt (token : Token) : token.tag < 5 := by
  cases token <;> simp [tag]

end Token

/-- The bytes of tokens. -/
def bytesOf (tokens : List Token) : List UInt8 := tokens.flatMap Token.bytes

/-- The size of tokens. -/
def extent (tokens : List Token) : Nat := (bytesOf tokens).length

/-- The structure block: tokens and the cell that ends it. -/
def blockOf (tokens : List Token) : List UInt8 := bytesOf tokens ++ bigEndian 4 9

variable {tokens other before front back : List Token} {token : Token}

/-- No tokens have no bytes. -/
@[simp] theorem bytesOf_nil : bytesOf [] = [] := rfl

/-- The bytes of a token come before those of the tokens behind it. -/
@[simp] theorem bytesOf_cons : bytesOf (token :: tokens) = token.bytes ++ bytesOf tokens := rfl

/-- The bytes of two runs of tokens come one behind the other. -/
@[simp] theorem bytesOf_append : bytesOf (front ++ back) = bytesOf front ++ bytesOf back :=
  List.flatMap_append

/-- No tokens take no room. -/
@[simp] theorem extent_nil : extent [] = 0 := rfl

/-- The room of a token is added to that of the tokens behind it. -/
@[simp] theorem extent_cons : extent (token :: tokens) = token.size + extent tokens := by
  simp [extent, Token.size]

/-- The room of two runs of tokens is added. -/
@[simp] theorem extent_append : extent (front ++ back) = extent front + extent back := by
  simp [extent]

/-- Every run of tokens ends at a multiple of four bytes. -/
theorem extent_whole (tokens : List Token) : extent tokens % 4 = 0 := by
  induction tokens with
  | nil => rfl
  | cons token rest ih =>
    have first := token.size_whole
    rw [extent_cons]
    omega

/-- There are not more tokens than cells. -/
theorem length_le_extent (tokens : List Token) : tokens.length ≤ extent tokens := by
  induction tokens with
  | nil => rfl
  | cons token rest ih =>
    have first := token.four_le_size
    rw [extent_cons, List.length_cons]
    omega

/-- The tokens before an offset are determined by it. -/
theorem before_eq {before' behind behind' : List Token} (same : before ++ behind = before' ++ behind')
    (offset : extent before = extent before') : before = before' := by
  induction before generalizing before' with
  | nil =>
    cases before' with
    | nil => rfl
    | cons first rest =>
      have some := first.four_le_size
      rw [extent_nil, extent_cons] at offset
      omega
  | cons token rest ih =>
    cases before' with
    | nil =>
      have some := token.four_le_size
      rw [extent_nil, extent_cons] at offset
      omega
    | cons first rest' =>
      rw [List.cons_append, List.cons_append, List.cons.injEq] at same
      obtain ⟨rfl, same⟩ := same
      rw [extent_cons, extent_cons] at offset
      rw [ih same (by omega)]

/-- Up to its NUL a text is determined. -/
theorem text_eq {text text' behind behind' : List UInt8} (noNul : 0 ∉ text) (noNul' : 0 ∉ text')
    (same : text ++ 0 :: behind = text' ++ 0 :: behind') : text = text' ∧ behind = behind' := by
  induction text generalizing text' with
  | nil =>
    cases text' with
    | nil => exact ⟨rfl, (List.cons.inj same).2⟩
    | cons c rest =>
      rw [List.nil_append, List.cons_append, List.cons.injEq] at same
      exact absurd (List.mem_cons.mpr (.inl same.1)) noNul'
  | cons c rest ih =>
    cases text' with
    | nil =>
      rw [List.nil_append, List.cons_append, List.cons.injEq] at same
      exact absurd (List.mem_cons.mpr (.inl same.1.symm)) noNul
    | cons d rest' =>
      rw [List.cons_append, List.cons_append, List.cons.injEq] at same
      obtain ⟨rfl, same⟩ := same
      rw [List.mem_cons, not_or] at noNul noNul'
      obtain ⟨rfl, rfl⟩ := ih noNul.2 noNul'.2 same
      exact ⟨rfl, rfl⟩

/-- A list in two parts, the first of a known length. -/
theorem parts_eq {front front' behind behind' : List UInt8} (length : front.length = front'.length)
    (same : front ++ behind = front' ++ behind') : front = front' ∧ behind = behind' :=
  List.append_inj same length

/-- The bytes of a token tell which one it is and where it ends. -/
theorem Token.eq_of_bytes {token token' : Token} {behind behind' : List UInt8}
    (small : token.size < 2 ^ 32) (small' : token'.size < 2 ^ 32)
    (same : token.bytes ++ behind = token'.bytes ++ behind') : token = token' ∧ behind = behind' := by
  rw [bytes, bytes, List.append_assoc, List.append_assoc] at same
  obtain ⟨tags, same⟩ := parts_eq (by simp) same
  have tags := bigEndian_inj tags
  have low := token.tag_lt
  have low' := token'.tag_lt
  rw [Nat.mod_eq_of_lt (by omega), Nat.mod_eq_of_lt (by omega)] at tags
  rw [size_eq] at small small'
  match token, token' with
  | beginNode name, beginNode name' =>
    simp only [body, List.append_assoc, List.cons_append] at same
    obtain ⟨texts, same⟩ := text_eq name.noNul name'.noNul same
    obtain ⟨pads, rest⟩ := parts_eq (by rw [name.fills, name'.fills, texts]) same
    obtain ⟨text, pad, noNul, fills⟩ := name
    obtain ⟨text', pad', noNul', fills'⟩ := name'
    dsimp only at texts pads
    subst texts pads
    exact ⟨rfl, rest⟩
  | prop property, prop property' =>
    simp only [body, List.length_append, length_bigEndian] at small small'
    simp only [body, List.append_assoc] at same
    obtain ⟨lengths, same⟩ := parts_eq (by simp) same
    obtain ⟨offsets, same⟩ := parts_eq (by simp) same
    have lengths := bigEndian_inj lengths
    rw [Nat.mod_eq_of_lt (by omega), Nat.mod_eq_of_lt (by omega)] at lengths
    have offsets := bigEndian_inj offsets
    have bounds := And.intro property.nameoff.toNat_lt property'.nameoff.toNat_lt
    rw [Nat.mod_eq_of_lt (by omega), Nat.mod_eq_of_lt (by omega), UInt32.toNat_inj] at offsets
    obtain ⟨values, same⟩ := parts_eq lengths same
    obtain ⟨pads, rest⟩ := parts_eq (by rw [property.fills, property'.fills, lengths]) same
    obtain ⟨offset, value, pad, fills⟩ := property
    obtain ⟨offset', value', pad', fills'⟩ := property'
    dsimp only at offsets values pads
    subst offsets values pads
    exact ⟨rfl, rest⟩
  | endNode, endNode => exact ⟨rfl, same⟩
  | nop, nop => exact ⟨rfl, same⟩
  | beginNode _, endNode | beginNode _, prop _ | beginNode _, nop | endNode, beginNode _
  | endNode, prop _ | endNode, nop | prop _, beginNode _ | prop _, endNode | prop _, nop
  | nop, beginNode _ | nop, endNode | nop, prop _ => exact absurd tags (by simp [tag])

/-- A structure block has one list of tokens. -/
theorem tokens_eq {behind behind' : List UInt8} (small : extent tokens < 2 ^ 32)
    (small' : extent other < 2 ^ 32) (same : blockOf tokens ++ behind = blockOf other ++ behind') :
    tokens = other := by
  unfold blockOf at same
  have last (token : Token) {rest behind behind' : List UInt8} :
      bigEndian 4 9 ++ behind ≠ token.bytes ++ rest ++ behind' := by
    intro same
    rw [Token.bytes, List.append_assoc, List.append_assoc] at same
    have tags := bigEndian_inj (parts_eq (by simp) same).1
    have low := token.tag_lt
    rw [Nat.mod_eq_of_lt (by omega), Nat.mod_eq_of_lt (by omega)] at tags
    omega
  induction tokens generalizing other with
  | nil =>
    cases other with
    | nil => rfl
    | cons token rest =>
      rw [bytesOf_nil, List.nil_append, bytesOf_cons, List.append_assoc token.bytes] at same
      exact absurd same (last token)
  | cons token rest ih =>
    cases other with
    | nil =>
      rw [bytesOf_nil, List.nil_append, bytesOf_cons, List.append_assoc token.bytes] at same
      exact absurd same.symm (last token)
    | cons token' rest' =>
      rw [extent_cons] at small small'
      simp only [bytesOf_cons, List.append_assoc] at same
      obtain ⟨rfl, remaining⟩ := Token.eq_of_bytes (by omega) (by omega) same
      have rests : rest = rest' :=
        ih (by omega) (by omega) (by simpa only [List.append_assoc] using remaining)
      rw [rests]

/-- The text of bytes that stand for one character each. -/
def text (bytes : List UInt8) : String := String.ofList (bytes.map Char.ofUInt8)

/-- The characters of a text are its bytes. -/
theorem toList_text {bytes : List UInt8} : (text bytes).toList = bytes.map Char.ofUInt8 :=
  String.toList_ofList

/-- Two bytes that give one character are equal. -/
theorem ofUInt8_inj {c d : UInt8} : Char.ofUInt8 c = Char.ofUInt8 d ↔ c = d := by
  constructor
  · intro same
    have value := congrArg Char.toNat same
    exact UInt8.toNat_inj.mp value
  · rintro rfl
    rfl

/-- Two texts are equal when their bytes are. -/
@[simp] theorem text_inj {bytes bytes' : List UInt8} : text bytes = text bytes' ↔ bytes = bytes' := by
  constructor
  · intro same
    have lists := congrArg String.toList same
    rw [toList_text, toList_text] at lists
    exact (List.map_inj_right fun _ _ => ofUInt8_inj.mp).mp lists
  · rintro rfl
    rfl

/-- A sought text fits a name as their bytes tell. -/
theorem matchesName_text {sought full : List UInt8} :
    Node.matchesName (text sought) (text full) = true ↔
      full = sought ∨ 64 ∉ sought ∧ sought ++ [64] <+: full := by
  have mark : '@' = Char.ofUInt8 64 := rfl
  have inj {c d : UInt8} (same : Char.ofUInt8 c = Char.ofUInt8 d) : c = d := ofUInt8_inj.mp same
  have contains : (text sought).toList.contains '@' = true ↔ 64 ∈ sought := by
    rw [toList_text, mark, List.contains_iff_mem, List.mem_map]
    constructor
    · rintro ⟨c, member, same⟩
      rwa [← inj same]
    · intro member
      exact ⟨64, member, rfl⟩
  have start : ((text sought).toList ++ ['@']).isPrefixOf (text full).toList = true ↔
      sought ++ [64] <+: full := by
    rw [List.isPrefixOf_iff_prefix, toList_text, toList_text, mark, ← List.map_singleton,
      ← List.map_append, List.prefix_map_iff_of_injective fun _ _ => inj]
  rw [Node.matchesName, Bool.or_eq_true, Bool.and_eq_true, Bool.not_eq_true', decide_eq_true_eq,
    text_inj, start, ← Bool.not_eq_true, contains]

/-- The name at an offset of the strings, if it ends there. -/
def nameAt (strings : List UInt8) (offset : Nat) : Option (List UInt8) :=
  if 0 ∈ strings.drop offset then some ((strings.drop offset).takeWhile (· ≠ 0)) else none

variable {strings strings' name : List UInt8} {offset : Nat}

/-- A name is found at an offset when the strings there go on with it and a zero byte. -/
theorem nameAt_eq_some : nameAt strings offset = some name ↔
    0 ∉ name ∧ ∃ behind, strings.drop offset = name ++ 0 :: behind := by
  unfold nameAt
  generalize strings.drop offset = rest
  constructor
  · intro found
    split_ifs at found with ends
    obtain rfl := Option.some.inj found
    refine ⟨fun member => ?_, ?_⟩
    · have nonzero := List.mem_takeWhile_imp member
      simp at nonzero
    · induction rest with
      | nil => simp at ends
      | cons c rest ih =>
        by_cases nul : c = 0
        · exact ⟨rest, by simp [nul]⟩
        · have later : 0 ∈ rest := by
            rcases List.mem_cons.mp ends with same | member
            · exact absurd same.symm nul
            · exact member
          obtain ⟨behind, split⟩ := ih later rfl
          refine ⟨behind, ?_⟩
          rw [List.takeWhile_cons_of_pos (by simpa using nul), List.cons_append, ← split]
  · rintro ⟨noNul, behind, rfl⟩
    rw [if_pos (by simp), List.takeWhile_append_of_pos]
    · simp
    · intro c member
      simp only [ne_eq, decide_eq_true_eq]
      rintro rfl
      exact noNul member

/-- Strings behind the others leave the names that are there. -/
theorem nameAt_append (found : nameAt strings offset = some name) :
    nameAt (strings ++ strings') offset = some name := by
  obtain ⟨noNul, behind, split⟩ := nameAt_eq_some.mp found
  refine nameAt_eq_some.mpr ⟨noNul, behind ++ strings', ?_⟩
  have inside : offset ≤ strings.length := by
    by_contra beyond
    rw [List.drop_eq_nil_of_le (by omega)] at split
    simp at split
  rw [List.drop_append_of_le_length inside, split, List.append_assoc, List.cons_append]

/-- Tokens that are properties, the first of a name counting. -/
inductive HasProps (strings : List UInt8) : List Token → Properties → Prop where
  | nil : HasProps strings [] fun _ => none
  | nop {tokens properties} : HasProps strings tokens properties →
      HasProps strings (.nop :: tokens) properties
  | prop {tokens properties name} {property : Property} :
      nameAt strings property.nameoff.toNat = some name → HasProps strings tokens properties →
      HasProps strings (.prop property :: tokens) (put (text name) property.value properties)

/-- Tokens that are nodes. -/
inductive HasNodes (strings : List UInt8) : List Token → List Node → Prop where
  | nil : HasNodes strings [] []
  | nop {tokens nodes} : HasNodes strings tokens nodes → HasNodes strings (.nop :: tokens) nodes
  | node {props inside after properties children nodes} (name : Name) :
      HasProps strings props properties → HasNodes strings inside children →
      HasNodes strings after nodes →
      HasNodes strings (.beginNode name :: (props ++ (inside ++ .endNode :: after)))
        (.node (text name.bytes) properties children :: nodes)

/-- Tokens that are one node, which begins with the first of them. -/
structure HasRoot (strings : List UInt8) (tokens : List Token) (root : Node) : Prop where
  /-- There is one node. -/
  nodes : HasNodes strings tokens [root]
  /-- It begins at once. -/
  first : tokens.head? ≠ some .nop

variable {properties : Properties} {nodes children : List Node}

/-- Strings behind the others leave what tokens stand for. -/
theorem HasProps.append_strings (has : HasProps strings tokens properties) :
    HasProps (strings ++ strings') tokens properties := by
  induction has with
  | nil => exact .nil
  | nop _ ih => exact .nop ih
  | prop named _ ih => exact .prop (nameAt_append named) ih

/-- Nodes keep their reading when strings are added behind those they name. -/
theorem HasNodes.append_strings (has : HasNodes strings tokens nodes) :
    HasNodes (strings ++ strings') tokens nodes := by
  induction has with
  | nil => exact .nil
  | nop _ ih => exact .nop ih
  | node name props _ _ children rest => exact .node name props.append_strings children rest

/-- Nodes behind nodes. -/
theorem HasNodes.append {nodes' : List Node} (has : HasNodes strings front nodes)
    (behind : HasNodes strings back nodes') : HasNodes strings (front ++ back) (nodes ++ nodes') := by
  induction has with
  | nil => exact behind
  | nop _ ih => exact .nop ih
  | node name props inside _ _ rest =>
    simp only [List.cons_append, List.append_assoc]
    exact .node name props inside rest

/-- A node that has begun: its name, its properties and its children so far. -/
abbrev Open := String × Properties × List Node

/-- Read one token: the nodes that have begun, the innermost first. -/
def readToken (strings : List UInt8) (stack : List Open) (token : Token) : List Open :=
  match token, stack with
  | .beginNode name, _ => (text name.bytes, fun _ => none, []) :: stack
  | .endNode, (name, properties, children) :: (outer, more, before) :: rest =>
    (outer, more, before ++ [.node name properties children]) :: rest
  | .prop property, (name, properties, children) :: rest =>
    match nameAt strings property.nameoff.toNat with
    | some key => (name, fun sought => (properties sought).or
        (if sought = text key then some property.value else none), children) :: rest
    | none => stack
  | _, _ => stack

/-- Read tokens one after the other. -/
def readTokens (strings : List UInt8) (tokens : List Token) (stack : List Open) : List Open :=
  tokens.foldl (readToken strings) stack

/-- A run of tokens is read from its first token on. -/
theorem readTokens_cons {stack : List Open} : readTokens strings (token :: tokens) stack =
    readTokens strings tokens (readToken strings stack token) := rfl

/-- Two runs of tokens are read one after the other. -/
theorem readTokens_append {stack : List Open} : readTokens strings (front ++ back) stack =
    readTokens strings back (readTokens strings front stack) := List.foldl_append

/-- Reading the tokens of properties adds them to the node that is open. -/
theorem HasProps.read (has : HasProps strings tokens properties) (name : String)
    (before : Properties) (rest : List Open) :
    readTokens strings tokens ((name, before, []) :: rest) =
      (name, (fun sought => (before sought).or (properties sought)), []) :: rest := by
  induction has generalizing before with
  | nil => simp [readTokens]
  | nop _ ih => exact ih before
  | @prop _ _ key _ named _ ih =>
    rw [readTokens_cons, readToken, named]
    simp only [ih]
    congr 3
    funext sought
    rw [Option.or_assoc]
    congr 1
    by_cases same : sought = text key
    · simp [same, put_same]
    · simp [same, put_other]

/-- Reading the tokens of nodes adds them to the children of the node that is open. -/
theorem HasNodes.read (has : HasNodes strings tokens nodes) (name : String)
    (before : Properties) (earlier : List Node) (rest : List Open) :
    readTokens strings tokens ((name, before, earlier) :: rest) =
      (name, before, earlier ++ nodes) :: rest := by
  induction has generalizing name before earlier rest with
  | nil => simp [readTokens]
  | nop _ ih => exact ih name before earlier rest
  | node head props inside after insideRead afterRead =>
    rw [readTokens_cons, readToken, readTokens_append, props.read, readTokens_append, insideRead,
      readTokens_cons, readToken, afterRead, List.append_assoc]
    simp

/-- Tokens stand for one tree at most. -/
theorem HasNodes.unique {nodes' : List Node} (has : HasNodes strings tokens nodes)
    (too : HasNodes strings tokens nodes') : nodes = nodes' := by
  have read := has.read "" (fun _ => none) [] []
  rw [too.read] at read
  simpa using read.symm

/-- The tokens of a tree have one root. -/
theorem HasRoot.unique {root root' : Node} (has : HasRoot strings tokens root)
    (too : HasRoot strings tokens root') : root = root' :=
  List.singleton_inj.mp (has.nodes.unique too.nodes)

/-- Count nodes token by token: how many have ended at each level, the innermost first. -/
def countToken : List Nat → Token → List Nat
  | stack, .beginNode _ => 0 :: stack
  | _ :: count :: rest, .endNode => (count + 1) :: rest
  | stack, _ => stack

/-- The counts behind tokens. -/
def counters (tokens : List Token) (stack : List Nat) : List Nat := tokens.foldl countToken stack

/-- Two runs of tokens are counted one after the other. -/
theorem counters_append {stack : List Nat} :
    counters (front ++ back) stack = counters back (counters front stack) := List.foldl_append

/-- A run of tokens is counted from its first token on. -/
theorem counters_cons {stack : List Nat} :
    counters (token :: tokens) stack = counters tokens (countToken stack token) := rfl

/-- The tokens of properties change no counter. -/
theorem HasProps.counters (has : HasProps strings tokens properties) (stack : List Nat) :
    counters tokens stack = stack := by
  induction has with
  | nil => rfl
  | nop _ ih => exact ih
  | prop _ _ ih => exact ih

/-- The tokens of nodes add their number to the counter of the open node. -/
theorem HasNodes.counters (has : HasNodes strings tokens nodes) (count : Nat) (stack : List Nat) :
    counters tokens (count :: stack) = (count + nodes.length) :: stack := by
  induction has generalizing count stack with
  | nil => rfl
  | nop _ ih => exact ih count stack
  | node name props _ _ inside after =>
    rw [counters_cons, counters_append, countToken, props.counters, counters_append, inside,
      counters_cons, countToken, after, List.length_cons]
    congr 1
    omega

/-- The position of the node that begins behind tokens, below the first of all nodes. -/
def positionAfter (tokens : List Token) : Position := (counters tokens [0]).reverse.tail

/-- Tokens around a node: those before it, its name, its properties, its children, and those behind
it. -/
structure Parts where
  /-- The tokens before the node. -/
  before : List Token
  /-- Its name. -/
  name : Name
  /-- Its properties. -/
  props : List Token
  /-- Its children. -/
  inside : List Token
  /-- The tokens behind it. -/
  after : List Token

namespace Parts

/-- All the tokens. -/
def all (parts : Parts) : List Token :=
  parts.before ++ .beginNode parts.name :: (parts.props ++ (parts.inside ++ .endNode :: parts.after))

/-- Other properties and children at the node. -/
def exchange (parts : Parts) (props inside : List Token) : Parts :=
  { parts with props := props, inside := inside }

/-- The parts at a node among the children. -/
def inner (outer child : Parts) : Parts where
  before := outer.before ++ .beginNode outer.name :: (outer.props ++ child.before)
  name := child.name
  props := child.props
  inside := child.inside
  after := child.after ++ .endNode :: outer.after

/-- A child of a child stands in the same tokens. -/
theorem all_inner {outer child : Parts} (inside : child.all = outer.inside) :
    (outer.inner child).all = outer.all := by
  simp [all, inner, ← inside]

/-- An exchange in a child of a child is one in the outer child. -/
theorem exchange_inner {outer child : Parts} {props inside : List Token} :
    ((outer.inner child).exchange props inside).all =
      (outer.exchange outer.props (child.exchange props inside).all).all := by
  simp [all, inner, exchange]

end Parts

/-- The parts of a list of nodes at one of them, or at a node below. -/
structure IsAt (strings : List UInt8) (parts : Parts) (nodes : List Node) (index : Nat)
    (position : Position) (properties : Properties) (children : List Node) : Prop where
  /-- The properties of the node. -/
  props : HasProps strings parts.props properties
  /-- Its children. -/
  inside : HasNodes strings parts.inside children
  /-- It is the node at that position. -/
  found : nodes[index]?.bind (Node.find position) =
    some (.node (text parts.name.bytes) properties children)
  /-- What stands before it tells its position. -/
  counted : ∀ count stack, counters parts.before (count :: stack) =
    ((index + count) :: position).reverse ++ stack
  /-- With other properties and children there, only that node is another one. -/
  exchange : ∀ {more props inside properties children}, HasProps (strings ++ more) props properties →
    HasNodes (strings ++ more) inside children →
    HasNodes (strings ++ more) (parts.exchange props inside).all
      (nodes.modify index (Node.modifyAt
        (fun _ => .node (text parts.name.bytes) properties children) position))

/-- An exchange leaves the first token. -/
theorem Parts.head_exchange {parts : Parts} {props inside : List Token} :
    (parts.exchange props inside).all.head? = parts.all.head? := by
  obtain ⟨before, name, props', inside', after⟩ := parts
  cases before <;> rfl

/-- What is exchanged at a node is at the node. -/
theorem IsAt.exchanged {parts : Parts} {index : Nat} {position : Position} {more : List UInt8}
    {props inside : List Token} {properties' : Properties} {children' : List Node}
    (isAt : IsAt strings parts nodes index position properties children)
    (hasProps : HasProps (strings ++ more) props properties')
    (hasInside : HasNodes (strings ++ more) inside children') :
    IsAt (strings ++ more) (parts.exchange props inside) (nodes.modify index (Node.modifyAt
      (fun _ => .node (text parts.name.bytes) properties' children') position)) index position
        properties' children' := by
  obtain ⟨start, here, there⟩ := Option.bind_eq_some_iff.mp isAt.found
  refine ⟨hasProps, hasInside, ?_, isAt.counted, ?_⟩
  · rw [List.getElem?_modify_eq, here]
    change Node.find position (Node.modifyAt _ position start) = _
    rw [Node.find_modifyAt, there]
    rfl
  · intro more' props' inside' properties'' children'' hasProps' hasInside'
    rw [List.append_assoc] at hasProps' hasInside' ⊢
    have exchanged := isAt.exchange hasProps' hasInside'
    have same : Node.modifyAt (fun _ => .node (text parts.name.bytes) properties'' children'') position ∘
        Node.modifyAt (fun _ => .node (text parts.name.bytes) properties' children') position =
          Node.modifyAt (fun _ => .node (text parts.name.bytes) properties'' children'') position := by
      funext start
      exact Node.modifyAt_modifyAt
    rw [← same, ← List.modify_modify_eq] at exchanged
    exact exchanged

/-- Nodes fall into those before one of them, that one, and those behind it. -/
theorem HasNodes.split (has : HasNodes strings tokens nodes) {index : Nat}
    (inside : index < nodes.length) : ∃ (parts : Parts) (properties : Properties)
      (children : List Node), parts.all = tokens ∧
        HasNodes strings parts.before (nodes.take index) ∧
        HasProps strings parts.props properties ∧ HasNodes strings parts.inside children ∧
        HasNodes strings parts.after (nodes.drop (index + 1)) ∧
        nodes[index] = .node (text parts.name.bytes) properties children := by
  induction has generalizing index with
  | nil => exact absurd inside (Nat.not_lt_zero _)
  | nop _ ih =>
    obtain ⟨parts, properties, children, rfl, before, rest⟩ := ih inside
    exact ⟨{ parts with before := .nop :: parts.before }, properties, children, rfl, .nop before, rest⟩
  | @node props inside' after properties children nodes name hasProps hasInside hasAfter _ ih =>
    cases index with
    | zero =>
      exact ⟨⟨[], name, props, inside', after⟩, properties, children, rfl, .nil, hasProps, hasInside,
        hasAfter, rfl⟩
    | succ index =>
      obtain ⟨parts, properties', children', rfl, before, rest⟩ := ih (Nat.lt_of_succ_lt_succ inside)
      refine ⟨{ parts with before := .beginNode name :: (props ++ (inside' ++ .endNode ::
        parts.before)) }, properties', children', ?_, .node name hasProps hasInside before, rest⟩
      simp [Parts.all]

/-- The parts at a node between others. -/
theorem isAt_between {before props inside after : List Token} {front back : List Node}
    {properties : Properties} {children : List Node} (name : Name)
    (hasBefore : HasNodes strings before front) (hasProps : HasProps strings props properties)
    (hasInside : HasNodes strings inside children) (hasAfter : HasNodes strings after back) :
    IsAt strings ⟨before, name, props, inside, after⟩
      (front ++ .node (text name.bytes) properties children :: back) front.length [] properties
        children := by
  refine ⟨hasProps, hasInside, ?_, ?_, ?_⟩
  · rw [List.getElem?_append_right le_rfl, Nat.sub_self]
    rfl
  · intro count stack
    rw [hasBefore.counters, Nat.add_comm]
    rfl
  · intro more props' inside' properties' children' hasProps' hasInside'
    rw [List.modify_eq_take_cons_drop (by simp), List.take_left, List.drop_append,
      List.drop_of_length_le (by omega), Nat.add_sub_cancel_left]
    exact hasBefore.append_strings.append (.node name hasProps' hasInside' hasAfter.append_strings)

/-- The parts at one of the nodes. -/
theorem HasNodes.here (has : HasNodes strings tokens nodes) {index : Nat}
    (inside : index < nodes.length) : ∃ (parts : Parts) (properties : Properties)
      (children : List Node), parts.all = tokens ∧
        HasNodes strings parts.before (nodes.take index) ∧
        IsAt strings parts nodes index [] properties children := by
  obtain ⟨parts, properties, children, whole, before, props, below, after, here⟩ := has.split inside
  have isAt := isAt_between parts.name before props below after
  rw [← here, List.length_take, Nat.min_eq_left inside.le, List.getElem_cons_drop,
    List.take_append_drop] at isAt
  exact ⟨parts, properties, children, whole, before, isAt⟩

/-- The parts at a node among the children of a node. -/
theorem IsAt.inner {outer child : Parts} {index below : Nat} {position rest : Position}
    {properties' : Properties} {children' : List Node}
    (out : IsAt strings outer nodes index position properties children)
    (isIn : IsAt strings child children below rest properties' children') :
    IsAt strings (outer.inner child) nodes index (position ++ below :: rest) properties' children' := by
  obtain ⟨start, here, there⟩ := Option.bind_eq_some_iff.mp out.found
  refine ⟨isIn.props, isIn.inside, ?_, ?_, ?_⟩
  · rw [here, Option.bind_some, Node.find_append, there, Option.bind_some]
    exact isIn.found
  · intro count stack
    rw [Parts.inner, counters_append, out.counted, counters_cons, counters_append, countToken,
      out.props.counters, isIn.counted]
    simp
  · intro more props inside properties'' children'' hasProps hasInside
    have exchanged := out.exchange out.props.append_strings (isIn.exchange hasProps hasInside)
    rw [Parts.exchange_inner]
    convert exchanged using 1
    apply Node.modify_congr here
    rw [Node.modifyAt_append, Node.modifyAt_of_find there]
    rfl

/-- Every node has parts. -/
theorem HasNodes.locate (has : HasNodes strings tokens nodes) {index : Nat} {position : Position}
    {found : Node} (there : nodes[index]?.bind (Node.find position) = some found) :
    ∃ (parts : Parts) (properties : Properties) (children : List Node), parts.all = tokens ∧
      IsAt strings parts nodes index position properties children := by
  induction position generalizing tokens nodes index with
  | nil =>
    obtain ⟨start, here, -⟩ := Option.bind_eq_some_iff.mp there
    obtain ⟨inside, -⟩ := List.getElem?_eq_some_iff.mp here
    obtain ⟨parts, properties, children, whole, -, isAt⟩ := has.here inside
    exact ⟨parts, properties, children, whole, isAt⟩
  | cons below rest ih =>
    obtain ⟨start, here, there⟩ := Option.bind_eq_some_iff.mp there
    obtain ⟨inside, rfl⟩ := List.getElem?_eq_some_iff.mp here
    obtain ⟨outer, properties, children, rfl, -, isAt⟩ := has.here inside
    have node := isAt.found
    rw [here] at node
    have node : nodes[index] = _ := Option.some.inj node
    rw [node] at there
    obtain ⟨child, properties', children', whole, isIn⟩ := ih isAt.inside there
    exact ⟨_, properties', children', Parts.all_inner whole, isAt.inner isIn⟩

/-- What stands before a node tells its position. -/
theorem IsAt.positionAfter {parts : Parts} {position : Position}
    (isAt : IsAt strings parts nodes 0 position properties children) :
    positionAfter parts.before = position := by
  rw [FlatTree.positionAfter, isAt.counted]
  simp

/-- The distance to the first child with the sought name; the depth counts the nodes below the parent
that have begun. -/
def seekChild (sought : String) : Nat → List Token → Option Nat
  | _, [] => none
  | depth, .beginNode name :: rest =>
    if depth = 0 ∧ Node.matchesName sought (text name.bytes) then some 0
    else (seekChild sought (depth + 1) rest).map (Token.size (.beginNode name) + ·)
  | 0, .endNode :: _ => none
  | depth + 1, .endNode :: rest => (seekChild sought depth rest).map (Token.size .endNode + ·)
  | depth, .prop property :: rest => (seekChild sought depth rest).map (Token.size (.prop property) + ·)
  | depth, .nop :: rest => (seekChild sought depth rest).map (Token.size .nop + ·)

variable {sought : String} {depth : Nat} {tail : List Token}

/-- A search for a child passes over properties. -/
theorem HasProps.seekChild (has : HasProps strings tokens properties) :
    seekChild sought depth (tokens ++ tail) =
      (seekChild sought depth tail).map (extent tokens + ·) := by
  induction has with
  | nil => simp
  | nop _ ih =>
    rw [List.cons_append, FlatTree.seekChild, ih, Option.map_map, extent_cons]
    congr 1
    funext distance
    exact (Nat.add_assoc ..).symm
  | prop _ _ ih =>
    rw [List.cons_append, FlatTree.seekChild, ih, Option.map_map, extent_cons]
    congr 1
    funext distance
    exact (Nat.add_assoc ..).symm

/-- The search passes over nodes below a child, and over children with another name. -/
theorem HasNodes.seekChild (has : HasNodes strings tokens nodes)
    (other : depth = 0 → ∀ node ∈ nodes, Node.matchesName sought node.name = false) :
    seekChild sought depth (tokens ++ tail) =
      (seekChild sought depth tail).map (extent tokens + ·) := by
  induction has generalizing depth tail with
  | nil => simp
  | nop _ ih =>
    rw [List.cons_append, FlatTree.seekChild, ih other, Option.map_map, extent_cons]
    congr 1
    funext distance
    exact (Nat.add_assoc ..).symm
  | node name props _ _ inside after =>
    have unmatched : ¬(depth = 0 ∧ Node.matchesName sought (text name.bytes)) := by
      rintro ⟨here, matched⟩
      have unlike := other here _ List.mem_cons_self
      exact Bool.false_ne_true (unlike.symm.trans matched)
    simp only [List.cons_append, List.append_assoc]
    rw [FlatTree.seekChild, if_neg unmatched, props.seekChild,
      inside fun absent => absurd absent (Nat.succ_ne_zero depth), FlatTree.seekChild,
      after fun here node member => other here node (List.mem_cons_of_mem _ member)]
    simp only [Option.map_map, extent_cons, extent_append]
    congr 1
    funext distance
    simp only [Function.comp_apply]
    omega

/-- Where the end of the parent is reached there is no such child. -/
theorem HasNodes.seekChild_none (has : HasNodes strings tokens nodes)
    (other : ∀ node ∈ nodes, Node.matchesName sought node.name = false) :
    FlatTree.seekChild sought 0 (tokens ++ .endNode :: tail) = none := by
  rw [has.seekChild fun _ => other, FlatTree.seekChild]
  rfl

/-- The search finds the first child with the sought name, where its parts are. -/
theorem HasNodes.seekChild_some (has : HasNodes strings tokens nodes) {index : Nat}
    (first : nodes.findIdx? (fun node => Node.matchesName sought node.name) = some index) :
    ∃ (parts : Parts) (properties : Properties) (children : List Node), parts.all = tokens ∧
      IsAt strings parts nodes index [] properties children ∧
      ∀ tail, FlatTree.seekChild sought 0 (tokens ++ tail) = some (extent parts.before) := by
  obtain ⟨inside, matched, earlier⟩ := List.findIdx?_eq_some_iff_getElem.mp first
  obtain ⟨parts, properties, children, rfl, before, isAt⟩ := has.here inside
  refine ⟨parts, properties, children, rfl, isAt, fun tail => ?_⟩
  have others : ∀ node ∈ nodes.take index, Node.matchesName sought node.name = false := by
    intro node member
    obtain ⟨place, low, rfl⟩ := List.getElem_of_mem member
    rw [List.length_take] at low
    rw [List.getElem_take]
    exact Bool.not_eq_true _ |>.mp (earlier place (by omega))
  have name : nodes[index].name = text parts.name.bytes := by
    have node := isAt.found
    rw [List.getElem?_eq_getElem inside] at node
    rw [Option.some.inj node]
    rfl
  rw [name] at matched
  rw [Parts.all, List.append_assoc, before.seekChild fun _ => others, List.cons_append,
    FlatTree.seekChild, if_pos ⟨rfl, matched⟩]
  rfl

/-- The distance to the first property with a name, among the properties of a node. -/
def seekProp (strings key : List UInt8) : List Token → Option (Nat × Property)
  | .nop :: rest => (seekProp strings key rest).map fun found => (Token.size .nop + found.1, found.2)
  | .prop property :: rest =>
    if nameAt strings property.nameoff.toNat = some key then some (0, property)
    else (seekProp strings key rest).map fun found =>
      (Token.size (.prop property) + found.1, found.2)
  | _ => none

variable {key : List UInt8}

/-- Without the property the search goes on behind the others. -/
theorem HasProps.seekProp_none (has : HasProps strings tokens properties)
    (missing : properties (text key) = none) : seekProp strings key (tokens ++ tail) =
      (seekProp strings key tail).map fun found => (extent tokens + found.1, found.2) := by
  induction has with
  | nil => simp
  | nop _ ih =>
    rw [List.cons_append, seekProp, ih missing, Option.map_map, extent_cons]
    congr 1
    funext found
    simp [Nat.add_assoc]
  | @prop _ _ name property named _ ih =>
    have other : text key ≠ text name := by
      intro same
      rw [same, put_same] at missing
      exact absurd missing (by simp)
    rw [put_other other] at missing
    have unlike : nameAt strings property.nameoff.toNat ≠ some key := by
      rw [named, ne_eq, Option.some.injEq]
      rintro rfl
      exact other rfl
    rw [List.cons_append, seekProp, if_neg unlike, ih missing, Option.map_map, extent_cons]
    congr 1
    funext found
    simp [Nat.add_assoc]

/-- The search finds the property that counts; to replace its value there is to replace it in the
node. -/
theorem HasProps.seekProp_some (has : HasProps strings tokens properties) {value : List UInt8}
    (found : properties (text key) = some value) :
    ∃ (before behind : List Token) (property : Property),
      tokens = before ++ .prop property :: behind ∧ property.value = value ∧
      (∀ tail, seekProp strings key (tokens ++ tail) = some (extent before, property)) ∧
      ∀ property' : Property, property'.nameoff = property.nameoff →
        HasProps strings (before ++ .prop property' :: behind)
          (put (text key) property'.value properties) := by
  induction has with
  | nil => simp at found
  | nop _ ih =>
    obtain ⟨before, behind, property, rfl, same, seek, replace⟩ := ih found
    refine ⟨.nop :: before, behind, property, rfl, same, fun tail => ?_, fun property' there => ?_⟩
    · rw [List.cons_append, seekProp, seek, Option.map_some, extent_cons]
    · exact .nop (replace property' there)
  | @prop tokens properties name property named has ih =>
    by_cases here : key = name
    · subst here
      rw [put_same, Option.some.injEq] at found
      refine ⟨[], tokens, property, rfl, found, fun tail => ?_, fun property' there => ?_⟩
      · rw [List.cons_append, seekProp, if_pos named]
        rfl
      · have again : put (text key) property'.value (put (text key) property.value properties) =
            put (text key) property'.value properties := Function.update_idem ..
        rw [again]
        exact .prop (there ▸ named) has
    · have other : text key ≠ text name := fun same => here (text_inj.mp same)
      have unlike : nameAt strings property.nameoff.toNat ≠ some key := by
        rw [named, ne_eq, Option.some.injEq]
        exact fun same => here same.symm
      rw [put_other other] at found
      obtain ⟨before, behind, property', rfl, same, seek, replace⟩ := ih found
      refine ⟨.prop property :: before, behind, property', rfl, same, fun tail => ?_,
        fun property'' there => ?_⟩
      · rw [List.cons_append, seekProp, if_neg unlike, seek, Option.map_some, extent_cons]
      · have swap : put (text key) property''.value (put (text name) property.value properties) =
            put (text name) property.value (put (text key) property''.value properties) :=
          Function.update_comm other.symm ..
        rw [swap]
        exact .prop named (replace property'' there)

/-- The tokens without meaning before nodes, and what follows them: the first of the nodes, or the end
of their parent. -/
theorem HasNodes.leading_nops (has : HasNodes strings tokens nodes) :
    ∃ (nops : Nat) (rest : List Token), tokens = List.replicate nops .nop ++ rest ∧
      HasNodes strings rest nodes ∧ ∀ after, ∃ (token : Token) (behind : List Token),
        (token.tag = 1 ∨ token.tag = 2) ∧ rest ++ .endNode :: after = token :: behind := by
  induction has with
  | nil => exact ⟨0, [], rfl, .nil, fun after => ⟨.endNode, after, .inr rfl, rfl⟩⟩
  | nop _ ih =>
    obtain ⟨nops, rest, split, nodes, next⟩ := ih
    exact ⟨nops + 1, rest, by rw [split]; rfl, nodes, next⟩
  | node name props inside after _ _ =>
    exact ⟨0, _, rfl, .node name props inside after, fun _ => ⟨.beginNode name, _, .inl rfl, rfl⟩⟩

/-- Behind any nops the tokens of nodes start or end a node. -/
theorem HasNodes.skip_nops (has : HasNodes strings tokens nodes)
    (after : List Token) : ∃ (nops : Nat) (token : Token) (behind : List Token),
      (token.tag = 1 ∨ token.tag = 2) ∧
      tokens ++ .endNode :: after = List.replicate nops .nop ++ token :: behind := by
  obtain ⟨nops, rest, rfl, -, next⟩ := has.leading_nops
  obtain ⟨token, behind, stop, first⟩ := next after
  exact ⟨nops, token, behind, stop, by rw [List.append_assoc, first]⟩

/-- Nops in front of nodes are read as nothing. -/
theorem HasNodes.prepend_nops (has : HasNodes strings tokens nodes) (nops : Nat) :
    HasNodes strings (List.replicate nops .nop ++ tokens) nodes := by
  induction nops with
  | zero => exact has
  | succ nops ih => exact .nop ih

/-- Nops behind properties are read as nothing. -/
theorem HasProps.append_nops (has : HasProps strings tokens properties) (nops : Nat) :
    HasProps strings (tokens ++ List.replicate nops .nop) properties := by
  induction has with
  | nil =>
    induction nops with
    | zero => exact .nil
    | succ nops ih => exact .nop ih
  | nop _ ih => exact .nop ih
  | prop named _ ih => exact .prop named ih

/-- Nothing stands where the properties end. -/
theorem HasNodes.seekProp_end (has : HasNodes strings tokens nodes) (after : List Token) :
    seekProp strings key (tokens ++ .endNode :: after) = none := by
  obtain ⟨nops, token, behind, stop, split⟩ := has.skip_nops after
  rw [split]
  clear split
  induction nops with
  | zero =>
    cases token with
    | beginNode _ => rfl
    | endNode => rfl
    | prop _ => exact absurd stop (by simp [Token.tag])
    | nop => exact absurd stop (by simp [Token.tag])
  | succ nops ih =>
    rw [List.replicate_succ, List.cons_append, seekProp, ih]
    rfl

/-- A name among the strings is shorter than they are. -/
theorem length_nameAt (found : nameAt strings offset = some name) : name.length < strings.length := by
  obtain ⟨-, behind, split⟩ := nameAt_eq_some.mp found
  have sizes := congrArg List.length split
  rw [List.length_drop, List.length_append, List.length_cons] at sizes
  omega

/-- The names of properties are among the strings. -/
theorem HasProps.name_some (has : HasProps strings tokens properties) {sought : String}
    {value : List UInt8} (found : properties sought = some value) :
    ∃ key, sought = text key ∧ 0 ∉ key ∧ key.length < strings.length := by
  induction has with
  | nil => exact absurd found nofun
  | nop _ ih => exact ih found
  | @prop _ _ key _ named _ ih =>
    by_cases same : sought = text key
    · exact ⟨key, same, (nameAt_eq_some.mp named).1, length_nameAt named⟩
    · rw [put_other same] at found
      exact ih found

/-- The names of nodes are among the tokens. -/
theorem HasNodes.name_mem (has : HasNodes strings tokens nodes) {node : Node} (inside : node ∈ nodes) :
    ∃ key, node.name = text key ∧ 0 ∉ key ∧ key.length < extent tokens := by
  induction has with
  | nil => simp at inside
  | nop _ ih =>
    obtain ⟨key, same, noNul, short⟩ := ih inside
    exact ⟨key, same, noNul, by rw [extent_cons]; omega⟩
  | node name _ _ _ _ later =>
    rcases List.mem_cons.mp inside with rfl | behind
    · refine ⟨name.bytes, rfl, name.noNul, ?_⟩
      simp only [extent_cons, Token.size_eq, Token.body, List.length_append, List.length_cons]
      omega
    · obtain ⟨key, same, noNul, short⟩ := later behind
      refine ⟨key, same, noNul, ?_⟩
      simp only [extent_cons, extent_append]
      omega

/-- A sought name that fits a text is a text. -/
theorem text_of_matchesName {sought : String} {full : List UInt8}
    (fits : Node.matchesName sought (text full) = true) : ∃ key, sought = text key ∧ key <+: full := by
  rw [Node.matchesName, Bool.or_eq_true, Bool.and_eq_true, decide_eq_true_eq,
    List.isPrefixOf_iff_prefix] at fits
  rcases fits with same | ⟨-, front⟩
  · exact ⟨full, same.symm, List.prefix_rfl⟩
  · have front := (List.prefix_append sought.toList ['@']).trans front
    rw [toList_text, List.prefix_map_iff] at front
    obtain ⟨key, front, same⟩ := front
    exact ⟨key, String.toList_inj.mp (same.trans toList_text.symm), front⟩

end FlatTree

import DragonStub.Verif.FdtTokens

/-!
# Finding nodes

`fdt_subnode_offset` walks over the tokens behind the beginning of a node and finds the first of its
children with the sought name, wherever the tree stands and in whatever order its blocks are.
-/

namespace DragonStub

open ByteMemory DeviceTree FlatTree Word

variable {m : Memory} {fdt : UInt64} {strings : List UInt8} {tokens before after rest : List Token}
  {token : Token}

/-- Memory has these tokens and strings at a place where a device tree may stand. -/
structure Readable (m : Memory) (fdt : UInt64) (tokens : List Token) (strings : List UInt8) :
    Prop where
  /-- The tokens. -/
  tokens : HasTokens m fdt tokens
  /-- The tree is aligned. -/
  aligned : fdt &&& 7 = 0
  /-- It is complete. -/
  magic : fdtMagic m fdt = fdtMagicWord
  /-- Its version is supported. -/
  lastComp : fdtLastCompVersion m fdt ≤ fdtLastSupportedVersion
  /-- Its size is supported. -/
  total : fdtTotalsize m fdt < 0x7fffffff
  /-- The strings. -/
  held : Holds m (fdt + (fdtOffDtStrings m fdt).toUInt64) strings
  /-- Their size. -/
  size : (fdtSizeDtStrings m fdt).toNat = strings.length
  /-- They are inside the tree. -/
  inside : (fdtOffDtStrings m fdt).toNat + strings.length ≤ (fdtTotalsize m fdt).toNat

/-- A tree that can be read passes `fdt_ro_probe_`. -/
theorem Readable.probe (readable : Readable m fdt tokens strings) :
    fdtRoProbe m fdt = Int32.ofNat (fdtTotalsize m fdt).toNat := by
  have version : ¬fdtVersion m fdt < fdtFirstSupportedVersion := by
    have recent := UInt32.le_iff_toNat_le.mp readable.tokens.version
    rw [UInt32.lt_iff_toNat_lt]
    change ¬(fdtVersion m fdt).toNat < 2
    change 16 ≤ (fdtVersion m fdt).toNat at recent
    omega
  have supported : ¬fdtLastCompVersion m fdt > fdtLastSupportedVersion :=
    UInt32.not_lt.mpr readable.lastComp
  unfold fdtRoProbe
  simp only [readable.aligned, readable.magic, version, supported, readable.total,
    bne_self_eq_false, beq_self_eq_true, Bool.false_eq_true, if_false, if_true]
  rw [← UInt32.toInt32_ofNat', UInt32.ofNat_toNat]

/-- A readable tree passes the check of its header. -/
theorem Readable.probe_nonneg (readable : Readable m fdt tokens strings) :
    ¬fdtRoProbe m fdt < 0 := by
  rw [readable.probe]
  exact not_ofNat_neg readable.tokens.reaches.small

/-- The offset of a token fits an `int`. -/
theorem HasTokens.offset_small (has : HasTokens m fdt (before ++ rest)) :
    extent before < 2 ^ 31 ∧ extent before + extent rest + 4 ≤ (fdtTotalsize m fdt).toNat := by
  have bound := has.bound
  rw [extent_append] at bound
  omega

/-- There are more turns than tokens. -/
theorem HasTokens.turns (has : HasTokens m fdt (before ++ rest)) : rest.length < fdtTurns m fdt := by
  have bound := has.offset_small.2
  have few := length_le_extent rest
  rw [fdtTurns]
  omega

/-- The beginning of a node passes its check. -/
theorem HasTokens.checkNode {name : Name} (has : HasTokens m fdt (before ++ .beginNode name :: after)) :
    fdtCheckNodeOffset m fdt (Int32.ofNat (extent before)) =
      Int32.ofNat (extent before + Token.size (.beginNode name)) := by
  have small := has.offset_small.1
  have whole : (Int32.ofNat (extent before)).toUInt32 % 4 = 0 := by
    apply UInt32.toNat_inj.mp
    have four : (4 : UInt32).toNat = 4 := rfl
    have zero : (0 : UInt32).toNat = 0 := rfl
    rw [Int32.toUInt32_ofNat', UInt32.toNat_mod, toNat_ofNat32 (by omega), four, zero]
    exact extent_whole before
  have tag : tagOf (.beginNode name) = fdtBeginNode := rfl
  unfold fdtCheckNodeOffset
  simp only [not_ofNat_neg small, whole, has.nextTag, tag, bne_self_eq_false, decide_false,
    Bool.or_self, Bool.false_eq_true, if_false]

section Steps

variable {turns d : Nat} {depth : Option Int32}

/-- The walk stops where a node begins, one level deeper. -/
theorem nextNodeLoop_begin {name : Name}
    (has : HasTokens m fdt (before ++ .beginNode name :: after)) :
    nextNodeLoop m fdt (turns + 1) (Int32.ofNat (extent before)) depth =
      (Int32.ofNat (extent before), depth.map (· + 1)) := by
  rw [nextNodeLoop, has.nextTag]
  rfl

/-- The walk goes on behind a token without a level. -/
theorem nextNodeLoop_flat (has : HasTokens m fdt (before ++ token :: after))
    (flat : token.tag = 3 ∨ token.tag = 4) :
    nextNodeLoop m fdt (turns + 1) (Int32.ofNat (extent before)) depth =
      nextNodeLoop m fdt turns (Int32.ofNat (extent before + token.size)) depth := by
  rw [nextNodeLoop, has.nextTag]
  cases token with
  | beginNode _ => exact absurd flat (by simp [Token.tag])
  | endNode => exact absurd flat (by simp [Token.tag])
  | prop _ => rfl
  | nop => rfl

/-- The walk goes on behind the end of a node below, one level higher. -/
theorem nextNodeLoop_end (has : HasTokens m fdt (before ++ .endNode :: after))
    (small : d + 1 < 2 ^ 31) :
    nextNodeLoop m fdt (turns + 1) (Int32.ofNat (extent before)) (some (Int32.ofNat (d + 1))) =
      nextNodeLoop m fdt turns (Int32.ofNat (extent before + Token.size .endNode))
        (some (Int32.ofNat d)) := by
  have one : Int32.ofNat (d + 1) - 1 = Int32.ofNat d := by
    have step : Int32.ofNat (d + 1 - 1) = Int32.ofNat (d + 1) - Int32.ofNat 1 :=
      Int32.ofNat_sub _ _ (by omega)
    exact step.symm
  have other : ¬tagOf .endNode == fdtBeginNode := by decide
  have same : tagOf .endNode == fdtEndNode := rfl
  rw [nextNodeLoop, has.nextTag]
  simp only [other, same, one, Option.map_some, Option.any_some,
    decide_eq_false (not_ofNat_neg (show d < 2 ^ 31 by omega)), Bool.false_eq_true, if_false, if_true]

/-- The walk leaves the parent at its end. -/
theorem nextNodeLoop_out (has : HasTokens m fdt (before ++ .endNode :: after)) :
    nextNodeLoop m fdt (turns + 1) (Int32.ofNat (extent before)) (some 0) =
      (Int32.ofNat (extent before + Token.size .endNode), some (-1)) := by
  rw [nextNodeLoop, has.nextTag]
  rfl

/-- The walk ends with the block. -/
theorem nextNodeLoop_finish (has : HasTokens m fdt tokens) :
    nextNodeLoop m fdt (turns + 1) (Int32.ofNat (extent tokens)) depth =
      (-fdtErrNotfound, depth) := by
  have bound := has.bound
  have nonneg : 0 ≤ Int32.ofNat (extent tokens + 4) := Int32.zero_le_ofNat_of_lt (by omega)
  have first : ¬fdtEnd == fdtBeginNode := by decide
  have second : ¬fdtEnd == fdtEndNode := by decide
  rw [nextNodeLoop, has.nextTag_end]
  simp only [first, second, beq_self_eq_true, ge_iff_le, nonneg, decide_true, Bool.true_or,
    Bool.false_eq_true, if_false, if_true]

/-- `fdt_next_node` walks on behind the beginning of the node. -/
theorem fdtNextNode_begin {name : Name}
    (has : HasTokens m fdt (before ++ .beginNode name :: after)) :
    fdtNextNode m fdt (Int32.ofNat (extent before)) depth =
      nextNodeLoop m fdt (fdtTurns m fdt)
        (Int32.ofNat (extent (before ++ [.beginNode name]))) depth := by
  have small := has.offset_small.1
  have later : HasTokens m fdt ((before ++ [.beginNode name]) ++ after) := by
    rwa [List.append_assoc, List.singleton_append]
  have small' := later.offset_small.1
  have nonneg : 0 ≤ Int32.ofNat (extent before) := Int32.zero_le_ofNat_of_lt small
  have next : extent before + Token.size (.beginNode name) = extent (before ++ [.beginNode name]) := by
    simp
  unfold fdtNextNode
  simp only [ge_iff_le, nonneg, has.checkNode, next, not_ofNat_neg small', if_true, if_false]

end Steps

/-- The first of a kind of byte is where the bytes before it are other ones. -/
theorem findByte_eq {c : UInt8} {text : List UInt8} {p : UInt64} {count : Nat}
    (held : Holds m p (text ++ [c])) (other : c ∉ text) (enough : text.length < count) :
    findByte m c count p = some text.length := by
  induction text generalizing p count with
  | nil =>
    obtain ⟨count, rfl⟩ : ∃ rest, count = rest + 1 := ⟨count - 1, by simp at enough; omega⟩
    have here : m p = c := held.1
    simp [findByte, here]
  | cons d rest ih =>
    obtain ⟨count, rfl⟩ : ∃ rest, count = rest + 1 := ⟨count - 1, by simp at enough; omega⟩
    rw [List.length_cons] at enough
    rw [List.mem_cons, not_or] at other
    have here : m p = d := held.1
    have unlike : ¬(d == c) = true := by simpa using Ne.symm other.1
    rw [findByte, here, if_neg unlike, ih held.2 other.2 (by omega)]
    rfl

/-- `memcmp` compares with the bytes in memory. -/
theorem memcmp_eq_zero {p : UInt64} {bytes : List UInt8} : memcmp m p bytes = 0 ↔ Holds m p bytes := by
  induction bytes generalizing p with
  | nil => simp [memcmp]
  | cons c rest ih =>
    rw [memcmp, holds_cons]
    by_cases same : m p = c
    · simp [same, ih]
    · simp only [same, beq_iff_eq, if_false, false_and, iff_false]
      intro zero
      apply same
      have value : (m p).toUInt32.toInt32 = c.toUInt32.toInt32 := by
        rwa [Int32.sub_eq_iff_eq_add, Int32.zero_add] at zero
      have words := congrArg Int32.toUInt32 value
      rw [UInt32.toUInt32_toInt32, UInt32.toUInt32_toInt32] at words
      have bytes := congrArg UInt32.toNat words
      rw [UInt8.toNat_toUInt32, UInt8.toNat_toUInt32] at bytes
      exact UInt8.toNat_inj.mp bytes

section Names

variable {name : Name}

/-- The name of a node, with its NUL. -/
theorem HasTokens.nameHeld (has : HasTokens m fdt (before ++ .beginNode name :: after)) :
    Holds m (structAt m fdt + UInt64.ofNat (extent before + 4)) (name.bytes ++ [0]) := by
  have here := has.here
  rw [Token.bytes] at here
  have body := here.behind
  rw [length_bigEndian, add_offsets, Token.body, ← List.singleton_append, ← List.append_assoc] at body
  exact body.before

/-- `fdt_get_name` finds the name. -/
theorem Readable.getName (readable : Readable m fdt (before ++ .beginNode name :: after) strings) :
    fdtGetName m fdt (Int32.ofNat (extent before)) =
      .ok (structAt m fdt + UInt64.ofNat (extent before + 4), Int32.ofNat name.bytes.length) := by
  have has := readable.tokens
  have small := has.offset_small
  have total := has.reaches.small
  have size : name.bytes.length + 5 ≤ Token.size (.beginNode name) := by
    rw [Token.size_eq, Token.body, List.length_append, List.length_cons]
    omega
  rw [extent_cons] at small
  have check := not_ofNat_neg (show extent before + Token.size (.beginNode name) < 2 ^ 31 by omega)
  have recent : ¬fdtVersion m fdt < 0x10 := UInt32.not_lt.mpr has.version
  have start : fdtOffsetPtr_ m fdt (Int32.ofNat (extent before)) + 4 =
      structAt m fdt + UInt64.ofNat (extent before + 4) := by
    rw [fdtOffsetPtr_at small.1, ← add_offsets]
    rfl
  have length : findByte m 0 (fdtTurns m fdt) (structAt m fdt + UInt64.ofNat (extent before + 4)) =
      some name.bytes.length := by
    apply findByte_eq has.nameHeld name.noNul
    rw [fdtTurns]
    omega
  unfold fdtGetName
  simp only [readable.probe_nonneg, has.checkNode, check, recent, start, length, if_false,
    Option.getD_some]

/-- `fdt_nodename_eq_` compares names as device trees do. -/
theorem Readable.nodenameEq (readable : Readable m fdt (before ++ .beginNode name :: after) strings)
    {s : List UInt8} (short : s.length < 2 ^ 31) :
    fdtNodenameEq m fdt (Int32.ofNat (extent before)) s =
      Node.matchesName (text s) (text name.bytes) := by
  have held := readable.tokens.nameHeld
  have size := readable.tokens.size_le
  have total := readable.tokens.reaches.small
  rw [Token.size_eq, Token.body, List.length_append] at size
  unfold fdtNodenameEq
  simp only [readable.getName, ofNat_lt_ofNat (show name.bytes.length < 2 ^ 31 by omega) short]
  rw [Bool.eq_iff_iff, matchesName_text]
  generalize structAt m fdt + UInt64.ofNat (extent before + 4) = p at held ⊢
  by_cases shorter : name.bytes.length < s.length
  · -- The sought name is too long.
    rw [if_pos shorter]
    have other : ¬(name.bytes = s ∨ 64 ∉ s ∧ s ++ [64] <+: name.bytes) := by
      rintro (same | ⟨-, start⟩)
      · rw [same] at shorter
        omega
      · have longer := start.length_le
        rw [List.length_append] at longer
        omega
    simp only [other, Bool.false_eq_true]
  rw [if_neg shorter]
  by_cases start : s <+: name.bytes
  · obtain ⟨rest, split⟩ := start
    rw [← split, List.append_assoc] at held
    have zero : memcmp m p s = 0 := memcmp_eq_zero.mpr held.before
    have behind := held.behind
    rw [← split]
    cases rest with
    | nil =>
      have nul : m (p + UInt64.ofNat s.length) = 0 := behind.1
      simp [zero, nul]
    | cons c rest =>
      have next : m (p + UInt64.ofNat s.length) = c := behind.1
      have nonzero : c ≠ 0 := by
        rintro rfl
        apply name.noNul
        rw [← split]
        simp
      have mark : '@'.toUInt8 = 64 := rfl
      have prefixes : s ++ [64] <+: s ++ c :: rest ↔ c = 64 := by
        rw [List.prefix_append_right_inj, List.cons_prefix_cons]
        simp [eq_comm]
      simp [zero, next, nonzero, mark, prefixes]
  · have unlike : ¬memcmp m p s = 0 := by
      intro zero
      exact start ((memcmp_eq_zero.mp zero).begins held.before (by omega))
    have other : ¬(name.bytes = s ∨ 64 ∉ s ∧ s ++ [64] <+: name.bytes) := by
      rintro (same | ⟨-, longer⟩)
      · exact start (same ▸ List.prefix_rfl)
      · exact start ((List.prefix_append s [64]).trans longer)
    simp [unlike, other]

end Names

section Search

variable {sought : List UInt8} {root : Node} {parts : Parts} {position : Position}
  {properties : Properties} {children : List Node}

/-- What `fdt_subnode_offset` returns when the search for a child ends like this. -/
def searchResult (start : Nat) : Option Nat → Int32
  | some distance => Int32.ofNat (start + distance)
  | none => -fdtErrNotfound

/-- A search that starts later has its result later. -/
theorem searchResult_map {start size : Nat} {found : Option Nat} :
    searchResult start (found.map (size + ·)) = searchResult (start + size) found := by
  cases found with
  | none => rfl
  | some distance => simp only [Option.map_some, searchResult, Nat.add_assoc]

/-- The loop of `fdt_subnode_offset_namelen` is the search over the tokens that are left. -/
theorem subnodeLoop_eq (readable : Readable m fdt (before ++ rest) strings)
    (short : sought.length < 2 ^ 31) {turns turns' depth : Nat} (enough : rest.length < turns)
    (enough' : rest.length < turns') (shallow : depth + rest.length + 1 < 2 ^ 31) :
    subnodeLoop m fdt sought turns
        (nextNodeLoop m fdt turns' (Int32.ofNat (extent before)) (some (Int32.ofNat depth))) =
      searchResult (extent before) (seekChild (text sought) depth rest) := by
  induction rest generalizing before turns turns' depth with
  | nil =>
    obtain ⟨turns, rfl⟩ : ∃ less, turns = less + 1 := ⟨turns - 1, by omega⟩
    obtain ⟨turns', rfl⟩ : ∃ less, turns' = less + 1 := ⟨turns' - 1, by omega⟩
    rw [List.append_nil] at readable
    have negative : ¬(-fdtErrNotfound : Int32) ≥ 0 := by decide
    have inside : ¬Int32.ofNat depth < 0 := not_ofNat_neg (by omega)
    rw [nextNodeLoop_finish readable.tokens, subnodeLoop]
    simp [negative, inside, seekChild, searchResult]
  | cons token rest ih =>
    obtain ⟨turns', rfl⟩ : ∃ less, turns' = less + 1 := ⟨turns' - 1, by omega⟩
    rw [List.length_cons] at enough enough' shallow
    have has := readable.tokens
    have later : Readable m fdt ((before ++ [token]) ++ rest) strings := by
      rwa [List.append_assoc, List.singleton_append]
    have next : extent (before ++ [token]) = extent before + token.size := by simp
    have more := later.tokens.turns
    -- Over every token but the beginning of a node the walk goes on by itself.
    have onward {depth' : Nat} (low : depth' ≤ depth) (seek : seekChild (text sought) depth
        (token :: rest) = (seekChild (text sought) depth' rest).map (token.size + ·)) :
        subnodeLoop m fdt sought turns (nextNodeLoop m fdt turns'
          (Int32.ofNat (extent before + token.size)) (some (Int32.ofNat depth'))) =
        searchResult (extent before) (seekChild (text sought) depth (token :: rest)) := by
      rw [seek, searchResult_map, ← next]
      exact ih later (by omega) (by omega) (by omega)
    cases token with
    | beginNode name =>
      obtain ⟨turns, rfl⟩ : ∃ less, turns = less + 1 := ⟨turns - 1, by omega⟩
      have small := has.offset_small.1
      have nonneg : 0 ≤ Int32.ofNat (extent before) := Int32.zero_le_ofNat_of_lt small
      have deeper : Int32.ofNat depth + 1 = Int32.ofNat (depth + 1) :=
        (Int32.ofNat_add depth 1).symm
      have inside : 0 ≤ Int32.ofNat (depth + 1) := Int32.zero_le_ofNat_of_lt (by omega)
      have first : Int32.ofNat (depth + 1) = 1 ↔ depth = 0 := by
        change Int32.ofNat (depth + 1) = Int32.ofNat 1 ↔ _
        rw [ofNat_eq_ofNat (by omega) (by omega)]
        omega
      rw [nextNodeLoop_begin has, subnodeLoop]
      simp only [Option.map_some, Option.any_some, deeper, ge_iff_le, nonneg, inside, decide_true,
        Bool.and_self, if_true, readable.nodenameEq short, Bool.and_eq_true, beq_iff_eq,
        Option.some.injEq, first]
      rw [seekChild]
      by_cases here : depth = 0 ∧ Node.matchesName (text sought) (text name.bytes) = true
      · rw [if_pos here, if_pos here]
        rfl
      · rw [if_neg here, if_neg here, searchResult_map, ← next, fdtNextNode_begin has]
        exact ih later (by omega) (by omega) (by omega)
    | endNode =>
      cases depth with
      | zero =>
        obtain ⟨turns, rfl⟩ : ∃ less, turns = less + 1 := ⟨turns - 1, by omega⟩
        have outside : (-1 : Int32) < 0 := by decide
        have start : some (Int32.ofNat 0) = some 0 := rfl
        have beyond : ¬(-1 : Int32) ≥ 0 := by decide
        rw [start, nextNodeLoop_out has, subnodeLoop]
        simp [outside, beyond, seekChild, searchResult]
      | succ depth =>
        rw [nextNodeLoop_end has (by omega)]
        exact onward (Nat.le_succ depth) rfl
    | prop property =>
      rw [nextNodeLoop_flat has (.inl rfl)]
      apply onward le_rfl
      cases depth <;> rfl
    | nop =>
      rw [nextNodeLoop_flat has (.inr rfl)]
      apply onward le_rfl
      cases depth <;> rfl

/-- `fdt_subnode_offset` searches the tokens behind the beginning of the parent. -/
theorem Readable.subnodeOffset_seek {name : Name}
    (readable : Readable m fdt (before ++ .beginNode name :: after) strings)
    (short : sought.length < 2 ^ 31) :
    fdtSubnodeOffset m fdt (Int32.ofNat (extent before)) sought =
      searchResult (extent (before ++ [.beginNode name])) (seekChild (text sought) 0 after) := by
  have has := readable.tokens
  have small := has.offset_small
  have nonneg : 0 ≤ Int32.ofNat (extent before) := Int32.zero_le_ofNat_of_lt small.1
  have later : Readable m fdt ((before ++ [.beginNode name]) ++ after) strings := by
    rwa [List.append_assoc, List.singleton_append]
  have turns := later.tokens.turns
  have few := length_le_extent after
  have bound := has.reaches.small
  rw [extent_cons] at small
  have zero : ¬((0 : Int32) = 1) := by decide
  have level : (0 : Int32) ≤ 0 := by decide
  have start : some (0 : Int32) = some (Int32.ofNat 0) := rfl
  unfold fdtSubnodeOffset fdtSubnodeOffsetNamelen
  simp only [readable.probe_nonneg, if_false, subnodeLoop, ge_iff_le, nonneg, level, decide_true,
    Option.any_some, Bool.and_self, if_true, Bool.and_eq_true, beq_iff_eq, Option.some.injEq, zero,
    false_and]
  rw [fdtNextNode_begin has, start]
  exact subnodeLoop_eq later short turns turns (by omega)

/-- `fdt_subnode_offset` finds the first child with the sought name, as the abstract tree does. -/
theorem Readable.subnodeOffset_some (readable : Readable m fdt parts.all strings)
    (isAt : IsAt strings parts [root] 0 position properties children)
    (short : sought.length < 2 ^ 31) {index : Nat}
    (first : children.findIdx? (fun node => Node.matchesName (text sought) node.name) = some index) :
    ∃ (child : Parts) (properties' : Properties) (children' : List Node),
      child.all = parts.all ∧
      IsAt strings child [root] 0 (position ++ [index]) properties' children' ∧
      fdtSubnodeOffset m fdt (Int32.ofNat (extent parts.before)) sought =
        Int32.ofNat (extent child.before) := by
  obtain ⟨child, properties', children', whole, isIn, seek⟩ := isAt.inside.seekChild_some first
  refine ⟨parts.inner child, properties', children', Parts.all_inner whole, isAt.inner isIn, ?_⟩
  rw [Readable.subnodeOffset_seek readable short, isAt.props.seekChild, seek, searchResult_map]
  simp only [searchResult, Parts.inner, extent_append, extent_cons, extent_nil]
  congr 1
  omega

/-- Without such a child it returns `-FDT_ERR_NOTFOUND`. -/
theorem Readable.subnodeOffset_none (readable : Readable m fdt parts.all strings)
    (isAt : IsAt strings parts [root] 0 position properties children)
    (short : sought.length < 2 ^ 31)
    (missing : children.findIdx? (fun node => Node.matchesName (text sought) node.name) = none) :
    fdtSubnodeOffset m fdt (Int32.ofNat (extent parts.before)) sought = -fdtErrNotfound := by
  have others : ∀ node ∈ children, Node.matchesName (text sought) node.name = false := by
    simpa using missing
  rw [Readable.subnodeOffset_seek readable short, isAt.props.seekChild,
    isAt.inside.seekChild_none others]
  rfl

end Search

end DragonStub

import DragonStub.Base.FlatTree
import DragonStub.Boot.Libfdt
import DragonStub.Verif.FdtMemmap

/-!
# Reading the structure block

Wherever a structure block stands in memory, `fdt_next_tag` steps from each of its tokens to the next
one, and the checks of `fdt_offset_ptr` never refuse what is inside the block.
-/

namespace DragonStub

open ByteMemory DeviceTree FlatTree Word

variable {m : Memory} {fdt p base : UInt64}

/-- A word reads back as it is stored. -/
theorem fdt32Ld_eq {x : UInt32} (held : Holds m p (cpuToFdt32 x)) : fdt32Ld m p = x := by
  obtain ⟨b0, b1, b2, b3, -⟩ := held
  have next (n : UInt64) : p + n + 1 = p + (n + 1) := UInt64.add_assoc ..
  simp only [next] at b2 b3
  change m (p + 2) = _ at b2
  change m (p + 3) = _ at b3
  rw [fdt32Ld, b0, b1, b2, b3]
  apply UInt32.toBitVec_inj.mp
  apply BitVec.eq_of_getLsbD_eq
  intro bit inside
  simp [-UInt32.toUInt32_toUInt8]
  grind

/-- A 64-bit value is read as it is held. -/
theorem fdt64Ld_eq {x : UInt64} (held : Holds m p (cpuToFdt64 x)) : fdt64Ld m p = x := by
  obtain ⟨b0, b1, b2, b3, b4, b5, b6, b7, -⟩ := held
  have next (n : UInt64) : p + n + 1 = p + (n + 1) := UInt64.add_assoc ..
  simp only [next] at b2 b3 b4 b5 b6 b7
  change m (p + 2) = _ at b2
  change m (p + 3) = _ at b3
  change m (p + 4) = _ at b4
  change m (p + 5) = _ at b5
  change m (p + 6) = _ at b6
  change m (p + 7) = _ at b7
  rw [fdt64Ld, b0, b1, b2, b3, b4, b5, b6, b7]
  apply UInt64.toBitVec_inj.mp
  apply BitVec.eq_of_getLsbD_eq
  intro bit inside
  simp [-UInt64.toUInt64_toUInt8, -UInt32.toUInt64_toUInt8]
  grind

/-- A number of four bytes. -/
theorem fdt32Ld_number {n : Nat} (held : Holds m p (bigEndian 4 n)) (small : n < 2 ^ 32) :
    fdt32Ld m p = UInt32.ofNat n := by
  apply fdt32Ld_eq
  rw [cpuToFdt32_eq, toNat_ofNat32 small]
  exact held

/-- The address of the structure block. -/
def structAt (m : Memory) (fdt : UInt64) : UInt64 := fdt + (fdtOffDtStruct m fdt).toUInt64

/-- So many bytes of the structure block are inside the tree. -/
structure Reaches (m : Memory) (fdt : UInt64) (size : Nat) : Prop where
  /-- They are within the size of the tree. -/
  total : (fdtOffDtStruct m fdt).toNat + size ≤ (fdtTotalsize m fdt).toNat
  /-- They are within the size of the block, where the header has one. -/
  latest : 17 ≤ fdtVersion m fdt → size ≤ (fdtSizeDtStruct m fdt).toNat
  /-- The size of the tree is an `int`. -/
  small : (fdtTotalsize m fdt).toNat < 2 ^ 31

/-- A small offset is that many bytes into the structure block. -/
theorem fdtOffsetPtr_at {offset : Nat} (small : offset < 2 ^ 31) :
    fdtOffsetPtr_ m fdt (Int32.ofNat offset) = structAt m fdt + UInt64.ofNat offset := by
  rw [fdtOffsetPtr_, ofInt_ofNat small, structAt]

/-- `fdt_offset_ptr` lets every offset inside the block through. -/
theorem Reaches.offsetPtr {size : Nat} (reaches : Reaches m fdt size) (offset len : Nat)
    (inside : offset + len ≤ size) : fdtOffsetPtr m fdt (Int32.ofNat offset) (UInt32.ofNat len) =
      some (structAt m fdt + UInt64.ofNat offset) := by
  have total := reaches.total
  have small := reaches.small
  have value {n : Nat} (low : n < 2 ^ 31) : (UInt32.ofNat n).toNat = n := toNat_ofNat32 (by omega)
  have start := value (show offset < 2 ^ 31 by omega)
  have length := value (show len < 2 ^ 31 by omega)
  have absolute : (UInt32.ofNat offset + fdtOffDtStruct m fdt).toNat =
      offset + (fdtOffDtStruct m fdt).toNat := by
    rw [UInt32.toNat_add, start, Nat.mod_eq_of_lt (by omega)]
  have last : (UInt32.ofNat offset + fdtOffDtStruct m fdt + UInt32.ofNat len).toNat =
      offset + (fdtOffDtStruct m fdt).toNat + len := by
    rw [UInt32.toNat_add, absolute, length, Nat.mod_eq_of_lt (by omega)]
  have behind : (UInt32.ofNat offset + UInt32.ofNat len).toNat = offset + len := by
    rw [UInt32.toNat_add, start, length, Nat.mod_eq_of_lt (by omega)]
  have fits : ¬(UInt32.ofNat offset + fdtOffDtStruct m fdt < UInt32.ofNat offset ∨
      UInt32.ofNat offset + fdtOffDtStruct m fdt + UInt32.ofNat len <
        UInt32.ofNat offset + fdtOffDtStruct m fdt ∨
      UInt32.ofNat offset + fdtOffDtStruct m fdt + UInt32.ofNat len > fdtTotalsize m fdt) := by
    simp only [gt_iff_lt, UInt32.lt_iff_toNat_lt, last, absolute, start]
    omega
  have within : ¬(fdtVersion m fdt ≥ 0x11 ∧
      (UInt32.ofNat offset + UInt32.ofNat len < UInt32.ofNat offset ∨
        UInt32.ofNat offset + UInt32.ofNat len > fdtSizeDtStruct m fdt)) := by
    rintro ⟨latest, beyond⟩
    have room := reaches.latest latest
    simp only [gt_iff_lt, UInt32.lt_iff_toNat_lt, behind, start] at beyond
    omega
  unfold fdtOffsetPtr
  simp only [Int32.toUInt32_ofNat', Bool.or_eq_true, Bool.and_eq_true, decide_eq_true_eq,
    or_assoc, if_neg (not_ofNat_neg (show offset < 2 ^ 31 by omega)), if_neg fits, if_neg within,
    fdtOffsetPtr_at (show offset < 2 ^ 31 by omega)]

/-- Memory has these tokens and the end of the block where the header says. -/
structure HasTokens (m : Memory) (fdt : UInt64) (tokens : List Token) : Prop where
  /-- The block is inside the tree. -/
  reaches : Reaches m fdt (extent tokens + 4)
  /-- Its bytes. -/
  held : Holds m (structAt m fdt) (blockOf tokens)
  /-- Names are no paths, and values are not aligned. -/
  version : 16 ≤ fdtVersion m fdt

/-- The tag of a token, as libfdt reads it. -/
def tagOf (token : Token) : UInt32 := UInt32.ofNat token.tag

/-- The alignment of tokens is that of cells. -/
theorem fdtTagalign_ofNat {n : Nat} (small : n < 2 ^ 31) :
    fdtTagalign (UInt64.ofNat n) = UInt64.ofNat (n + padding n) := by
  have pow : IsPow 4 2 := ⟨by decide, rfl⟩
  have three : (3 : UInt64).toNat = 3 := rfl
  have four : (4 : UInt64).toNat = 4 := rfl
  have mask : (3 : UInt64) = 4 - 1 := rfl
  have value : (UInt64.ofNat n + 3).toNat = n + 3 := by
    rw [UInt64.toNat_add, UInt64.toNat_ofNat', three]
    omega
  have down := pow.and_not_mask (x := UInt64.ofNat n + 3)
  rw [value, four, ← mask] at down
  apply UInt64.toNat_inj.mp
  rw [fdtTagalign, down, UInt64.toNat_ofNat', padding]
  omega

/-- The loop over a name ends behind its NUL. -/
theorem skipName_eq {size offset turns : Nat} {name : List UInt8} (reaches : Reaches m fdt size)
    (held : Holds m (structAt m fdt + UInt64.ofNat offset) (name ++ [0])) (noNul : 0 ∉ name)
    (inside : offset + name.length + 1 ≤ size) (enough : name.length < turns) :
    skipName m fdt turns (Int32.ofNat offset) = some (Int32.ofNat (offset + name.length + 1)) := by
  have one : (1 : UInt32) = UInt32.ofNat 1 := rfl
  have step (offset : Nat) : Int32.ofNat offset + 1 = Int32.ofNat (offset + 1) :=
    (Int32.ofNat_add offset 1).symm
  induction name generalizing offset turns with
  | nil =>
    obtain ⟨turns, rfl⟩ : ∃ rest, turns = rest + 1 := ⟨turns - 1, by simp at enough; omega⟩
    have ptr := reaches.offsetPtr offset 1 (by simpa using inside)
    have nul : m (structAt m fdt + UInt64.ofNat offset) = 0 := held.1
    rw [skipName, one, ptr, step]
    simp only [nul, bne_self_eq_false, Bool.false_eq_true, if_false, List.length_nil, Nat.add_zero]
  | cons c rest ih =>
    obtain ⟨turns, rfl⟩ : ∃ rest, turns = rest + 1 := ⟨turns - 1, by simp at enough; omega⟩
    rw [List.length_cons] at inside enough
    have ptr := reaches.offsetPtr offset 1 (by omega)
    rw [List.mem_cons, not_or] at noNul
    have first : m (structAt m fdt + UInt64.ofNat offset) = c := held.1
    have some : (c != 0) = true := by simpa using Ne.symm noNul.1
    have later : Holds m (structAt m fdt + UInt64.ofNat (offset + 1)) (rest ++ [0]) := by
      rw [← add_offsets]
      exact held.2
    have length : offset + (c :: rest).length + 1 = offset + 1 + rest.length + 1 := by
      rw [List.length_cons]
      omega
    have rest := ih later noNul.2 (by omega) (show rest.length < turns by omega)
    rw [skipName, one, ptr, length, ← rest, step]
    simp only [first, some, if_true]

/-- The step over a property ends behind its value. -/
theorem skipProp_eq {size offset : Nat} {property : Property} (reaches : Reaches m fdt size)
    (held : Holds m (structAt m fdt + UInt64.ofNat offset) (bigEndian 4 property.value.length))
    (inside : offset + 8 + property.value.length ≤ size) (version : 16 ≤ fdtVersion m fdt) :
    skipProp m fdt (Int32.ofNat offset) =
      some (Int32.ofNat (offset + 8 + property.value.length)) := by
  have total := reaches.total
  have small := reaches.small
  have four : (4 : UInt32) = UInt32.ofNat 4 := rfl
  have eight : (8 : UInt32) = UInt32.ofNat 8 := rfl
  have ptr := reaches.offsetPtr offset 4 (by omega)
  have length := fdt32Ld_number held (by omega)
  have sum : (UInt32.ofNat property.value.length + UInt32.ofNat offset).toNat =
      property.value.length + offset := by
    rw [← UInt32.ofNat_add, toNat_ofNat32 (by omega)]
  have fits : ¬((0x7fffffff : UInt32) ≤ UInt32.ofNat property.value.length + UInt32.ofNat offset ∨
      UInt32.ofNat property.value.length + UInt32.ofNat offset < UInt32.ofNat offset) := by
    have most : (0x7fffffff : UInt32).toNat = 0x7fffffff := rfl
    rw [UInt32.le_iff_toNat_le, UInt32.lt_iff_toNat_lt, sum, most, toNat_ofNat32 (by omega)]
    omega
  have recent : ¬fdtVersion m fdt < 0x10 := UInt32.not_lt.mpr version
  rw [skipProp, four, ptr]
  simp only [length, Int32.toUInt32_ofNat', Bool.or_eq_true, Bool.and_eq_true, decide_eq_true_eq,
    if_neg fits, recent, false_and, if_false]
  rw [eight, ← UInt32.ofNat_add, ← UInt32.ofNat_add, UInt32.toInt32_ofNat']

/-- The size of a token without what fills its last cell. -/
def plainSize : Token → Nat
  | .beginNode name => 4 + name.bytes.length + 1
  | .prop property => 12 + property.value.length
  | .endNode => 4
  | .nop => 4

/-- What fills the last cell is what alignment adds. -/
theorem size_eq_plain (token : Token) {offset : Nat} (whole : offset % 4 = 0) :
    offset + plainSize token + padding (offset + plainSize token) = offset + token.size := by
  rw [Token.size_eq]
  cases token with
  | beginNode name =>
    have fills := name.fills
    simp only [padding] at fills
    simp only [plainSize, Token.body, padding, List.length_append, List.length_cons]
    omega
  | prop property =>
    have fills := property.fills
    simp only [padding] at fills
    simp only [plainSize, Token.body, padding, List.length_append, length_bigEndian]
    omega
  | endNode =>
    simp only [plainSize, Token.body, padding, List.length_nil]
    omega
  | nop =>
    simp only [plainSize, Token.body, padding, List.length_nil]
    omega

section Tokens

variable {before after : List Token} {token : Token}

/-- The bytes of one of the tokens. -/
theorem HasTokens.here (has : HasTokens m fdt (before ++ token :: after)) :
    Holds m (structAt m fdt + UInt64.ofNat (extent before)) token.bytes := by
  have held := has.held
  rw [blockOf, bytesOf_append, bytesOf_cons, List.append_assoc] at held
  have behind := held.behind
  rw [List.append_assoc] at behind
  exact behind.before

/-- The end of the block. -/
theorem HasTokens.finish {tokens : List Token} (has : HasTokens m fdt tokens) :
    Holds m (structAt m fdt + UInt64.ofNat (extent tokens)) (bigEndian 4 9) :=
  has.held.behind

/-- All the tokens, and the end of the block, fit an `int`. -/
theorem HasTokens.bound {tokens : List Token} (has : HasTokens m fdt tokens) :
    extent tokens + 4 ≤ (fdtTotalsize m fdt).toNat ∧ (fdtTotalsize m fdt).toNat < 2 ^ 31 :=
  ⟨le_trans (Nat.le_add_left ..) has.reaches.total, has.reaches.small⟩

/-- A token that is there ends within the total size. -/
theorem HasTokens.size_le (has : HasTokens m fdt (before ++ token :: after)) :
    extent before + token.size + 4 ≤ (fdtTotalsize m fdt).toNat := by
  have bound := has.bound.1
  rw [extent_append, extent_cons] at bound
  omega

/-- The `switch` of `fdt_next_tag` skips what the token is made of. -/
theorem HasTokens.skipTag (has : HasTokens m fdt (before ++ token :: after)) :
    skipTag m fdt (tagOf token) (Int32.ofNat (extent before + 4)) =
      some (Int32.ofNat (extent before + plainSize token)) := by
  have here := has.here
  have inside := has.size_le
  have reaches := has.reaches
  rw [Token.bytes] at here
  have body := here.behind
  rw [length_bigEndian, add_offsets] at body
  rw [Token.size_eq] at inside
  rw [extent_append, extent_cons, Token.size_eq] at reaches
  cases token with
  | beginNode name =>
    have name_held : Holds m (structAt m fdt + UInt64.ofNat (extent before + 4))
        (name.bytes ++ [0]) := by
      rw [Token.body, ← List.singleton_append, ← List.append_assoc] at body
      exact body.before
    have within : extent before + 4 + name.bytes.length + 1 ≤
        extent before + (4 + (Token.beginNode name).body.length + extent after) + 4 := by
      simp only [Token.body, List.length_append, List.length_cons]
      omega
    have enough : name.bytes.length < fdtTurns m fdt := by
      simp only [Token.body, List.length_append, List.length_cons] at inside
      rw [fdtTurns]
      omega
    have skipped := skipName_eq reaches name_held name.noNul within enough
    change skipName m fdt (fdtTurns m fdt) (Int32.ofNat (extent before + 4)) = _
    rw [skipped, plainSize, Nat.add_assoc, Nat.add_assoc, ← Nat.add_assoc 4]
  | prop property =>
    have within : extent before + 4 + 8 + property.value.length ≤
        extent before + (4 + (Token.prop property).body.length + extent after) + 4 := by
      simp only [Token.body, List.length_append, length_bigEndian]
      omega
    rw [Token.body, List.append_assoc, List.append_assoc] at body
    have skipped := skipProp_eq reaches body.before within has.version
    change skipProp m fdt (Int32.ofNat (extent before + 4)) = _
    rw [skipped, plainSize, Nat.add_assoc, Nat.add_assoc, ← Nat.add_assoc 4]
  | endNode => rfl
  | nop => rfl

/-- `fdt_next_tag` reads a token and steps to the next one. -/
theorem HasTokens.nextTag (has : HasTokens m fdt (before ++ token :: after)) :
    fdtNextTag m fdt (Int32.ofNat (extent before)) =
      (tagOf token, Int32.ofNat (extent before + token.size)) := by
  have bound := has.bound
  have inside := has.size_le
  have reaches := has.reaches
  rw [extent_append, extent_cons] at reaches
  have least := token.four_le_size
  have aligned := size_eq_plain token (extent_whole before)
  have plain : plainSize token ≤ token.size := by omega
  have four : (4 : UInt32) = UInt32.ofNat 4 := rfl
  have tagp := reaches.offsetPtr (extent before) 4 (by omega)
  have span := reaches.offsetPtr (extent before) (plainSize token) (by omega)
  have here := has.here
  rw [Token.bytes] at here
  have tag : fdt32Ld m (structAt m fdt + UInt64.ofNat (extent before)) = tagOf token :=
    fdt32Ld_number here.before (by have := token.tag_lt; omega)
  have start : Int32.ofNat (extent before) + 4 = Int32.ofNat (extent before + 4) :=
    (Int32.ofNat_add _ 4).symm
  have length : (Int32.ofNat (extent before + plainSize token) -
      Int32.ofNat (extent before)).toUInt32 = UInt32.ofNat (plainSize token) := by
    rw [← Int32.ofNat_sub _ _ (Nat.le_add_right ..), Nat.add_sub_cancel_left, Int32.toUInt32_ofNat']
  rw [fdtNextTag, four, tagp]
  simp only [tag, start, has.skipTag, length, span, Option.isNone_some, Bool.false_eq_true, if_false]
  rw [ofInt_ofNat (by omega), fdtTagalign_ofNat (by omega), toInt_ofNat64, aligned]

/-- `fdt_next_tag` at the end of the block. -/
theorem HasTokens.nextTag_end {tokens : List Token} (has : HasTokens m fdt tokens) :
    fdtNextTag m fdt (Int32.ofNat (extent tokens)) =
      (fdtEnd, Int32.ofNat (extent tokens + 4)) := by
  have bound := has.bound
  have whole := extent_whole tokens
  have four : (4 : UInt32) = UInt32.ofNat 4 := rfl
  have tagp := has.reaches.offsetPtr (extent tokens) 4 le_rfl
  have tag : fdt32Ld m (structAt m fdt + UInt64.ofNat (extent tokens)) = fdtEnd :=
    fdt32Ld_number has.finish (by decide)
  have start : Int32.ofNat (extent tokens) + 4 = Int32.ofNat (extent tokens + 4) :=
    (Int32.ofNat_add _ 4).symm
  have skip : DragonStub.skipTag m fdt fdtEnd (Int32.ofNat (extent tokens + 4)) =
      some (Int32.ofNat (extent tokens + 4)) := rfl
  have length : (Int32.ofNat (extent tokens + 4) - Int32.ofNat (extent tokens)).toUInt32 =
      UInt32.ofNat 4 := by
    rw [← Int32.ofNat_sub _ _ (Nat.le_add_right ..), Nat.add_sub_cancel_left, Int32.toUInt32_ofNat']
  have aligned : padding (extent tokens + 4) = 0 := by
    rw [padding]
    omega
  rw [fdtNextTag, four, tagp]
  simp only [tag, start, skip, length, tagp, Option.isNone_some, Bool.false_eq_true, if_false]
  rw [ofInt_ofNat (by omega), fdtTagalign_ofNat (by omega), toInt_ofNat64, aligned, Nat.add_zero]

end Tokens

end DragonStub

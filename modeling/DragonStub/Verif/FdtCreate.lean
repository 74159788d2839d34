import DragonStub.Boot.LibfdtSw
import DragonStub.Verif.FdtReorder

/-!
# The empty tree

`fdt_create_empty_tree` writes a tree of one bare node, token after token, and opens it in place. It
comes through when the buffer has room for the header, an entry that ends the reserved ranges, and the
tokens, and else stops where the room ends.
-/

namespace DragonStub

open ByteMemory DeviceTree FlatTree Stateful Word

variable {m start : Memory} {buf : UInt64} {total n k : Nat} {header : Header} {body bytes : List UInt8}
  {offStruct size offStrings : UInt32}

/-- The header of a tree that is being written, in a buffer of a size. -/
def draftHeader (total : Nat) (offStruct size offStrings : UInt32) : Header where
  magic := fdtSwMagic
  totalsize := UInt32.ofNat total
  offDtStruct := offStruct
  offDtStrings := offStrings
  offMemRsvmap := 48
  version := 17
  lastCompVersion := 0
  bootCpuidPhys := 0
  sizeDtStrings := 0
  sizeDtStruct := size

/-- What stands behind the header: zeros up to the structure block, the tokens that have been written,
and zeros behind them. -/
def draftBody (total : Nat) (bytes : List UInt8) : List UInt8 :=
  List.replicate 24 0 ++ bytes ++ List.replicate (total - (64 + bytes.length)) 0

/-- Memory has come to hold the header, with a size of the structure block, and the tokens that have
been written. -/
abbrev Drafts (start : Memory) (buf : UInt64) (total size : Nat) (bytes : List UInt8) (m : Memory) :
    Prop :=
  Becomes start buf total (draftHeader total 64 (UInt32.ofNat size) (UInt32.ofNat total))
    (draftBody total bytes) m

/-- The bytes of a header of zeros. -/
theorem header_zero : (⟨0, 0, 0, 0, 0, 0, 0, 0, 0, 0⟩ : Header).bytes = List.replicate 40 0 := by
  decide

/-- The body of a tree without tokens. -/
theorem draftBody_nil (room : 64 ≤ total) : draftBody total [] = List.replicate (total - 40) 0 := by
  rw [draftBody, List.append_nil, List.length_nil, List.replicate_append_replicate]
  congr 1
  omega

/-- `fdt_create` begins a tree. -/
theorem fdtCreate_returns (room : 48 ≤ n) (small : n < 2 ^ 31) (fits : buf.toNat + n < 2 ^ 64) :
    Returns (fdtCreate buf (Int32.ofNat n)) m fun _ =>
      Becomes m buf n (draftHeader n 48 0 0) (List.replicate (n - 40) 0) := by
  have enough : ¬Int32.ofNat n < 48 := by
    have limit : (48 : Int32) = Int32.ofNat 48 := rfl
    rw [limit, ofNat_lt_ofNat small (by decide)]
    omega
  have filled : (Int32.ofNat n).toUInt32.toNat = n := by
    rw [Int32.toUInt32_ofNat', toNat_ofNat32 (by omega)]
  have zeros : Holds (fill m buf 0 n) buf (List.replicate n 0) := holds_fill (by omega)
  have split : List.replicate n (0 : UInt8) =
      (⟨0, 0, 0, 0, 0, 0, 0, 0, 0, 0⟩ : Header).bytes ++ List.replicate (n - 40) 0 := by
    rw [header_zero, List.replicate_append_replicate, Nat.add_sub_cancel' (by omega)]
  rw [split] at zeros
  have becomes : Becomes m buf n ⟨0, 0, 0, 0, 0, 0, 0, 0, 0, 0⟩ (List.replicate (n - 40) 0)
      (fill m buf 0 n) := by
    refine ⟨⟨zeros, ?_, fits⟩, fun x outside => fill_outside _ _ outside⟩
    rw [List.length_replicate]
    omega
  unfold fdtCreate fdtCreateWithFlags
  refine Returns.bind (returns_failIf (decide_eq_false enough) ?_)
  refine Returns.bind (returns_failIf rfl ?_)
  refine Returns.bind (Returns.modify ?_)
  rw [filled]
  refine Returns.bind ((becomes.setMagic rfl).mono fun _ m' becomes => ?_)
  refine Returns.bind ((becomes.setVersion rfl).mono fun _ m' becomes => ?_)
  refine Returns.bind ((becomes.setLastCompVersion rfl).mono fun _ m' becomes => ?_)
  refine Returns.bind ((becomes.setTotalsize rfl).mono fun _ m' becomes => ?_)
  refine Returns.bind ((becomes.setOffMemRsvmap rfl).mono fun _ m' becomes => ?_)
  refine Returns.bind ((becomes.setOffDtStruct becomes.stands.offMemRsvmap).mono
    fun _ m' becomes => ?_)
  refine (becomes.setOffDtStrings rfl).mono fun _ m' becomes => ?_
  simp only [Int32.toUInt32_ofNat'] at becomes
  exact becomes

/-- `fdt_sw_probe_` lets a tree that is being written pass. -/
theorem Lies.swProbe (lies : Lies m buf total (draftHeader total offStruct size offStrings) body) :
    (fdtSwProbe buf).run.run m = (.ok (), m) := by
  have magic : fdtMagic m buf = fdtSwMagic := lies.magic
  have other : (fdtSwMagic == fdtMagicWord) = false := by decide
  unfold fdtSwProbe
  simp only [run_bind, run_get, run_failIf, magic, other, bne_self_eq_false, Bool.false_eq_true,
    if_false]

/-- So does `fdt_sw_probe_struct_` behind the reserved ranges. -/
theorem Lies.swProbeStruct
    (lies : Lies m buf total (draftHeader total offStruct size (UInt32.ofNat total)) body) :
    (fdtSwProbeStruct buf).run.run m = (.ok (), m) := by
  have strings : fdtOffDtStrings m buf = fdtTotalsize m buf :=
    lies.offDtStrings.trans lies.totalsize.symm
  unfold fdtSwProbeStruct
  simp only [run_bind, lies.swProbe, run_get, run_failIf, strings, bne_self_eq_false,
    Bool.false_eq_true, if_false]

/-- The entry that ends the reserved ranges, where there is room for it. -/
theorem Becomes.finishReservemap
    (becomes : Becomes start buf total (draftHeader total 48 0 0) (List.replicate (total - 40) 0) m)
    (room : 64 ≤ total) (small : total < 2 ^ 31) : Returns (fdtFinishReservemap buf) m fun _ =>
      Drafts start buf total 0 [] := by
  have offset : ofInt (fdtOffDtStruct m buf).toInt32 = UInt64.ofNat 48 := by
    rw [becomes.stands.offDtStruct]
    rfl
  have full : fdtTotalsize m buf = UInt32.ofNat total := becomes.stands.totalsize
  have strings : (fdtOffDtStrings m buf != 0) = false := by
    rw [becomes.stands.offDtStrings]
    rfl
  have enough : ¬UInt64.ofNat 48 + 16 > (fdtTotalsize m buf).toUInt64 := by
    have limit : (UInt64.ofNat 48 + 16).toNat = 64 := rfl
    rw [full, toUInt64_ofNat (by omega), gt_iff_lt, UInt64.lt_iff_toNat_lt, limit,
      UInt64.toNat_ofNat', Nat.mod_eq_of_lt (by omega)]
    omega
  have zeros : cpuToFdt64 0 = List.replicate 8 0 := rfl
  have first : List.replicate (total - 40) (0 : UInt8) =
      List.replicate 8 0 ++ List.replicate 8 0 ++ List.replicate (total - 56) 0 := by
    rw [List.replicate_append_replicate, List.replicate_append_replicate]
    congr 1
    omega
  have second : List.replicate (total - 40) (0 : UInt8) =
      List.replicate 16 0 ++ List.replicate 8 0 ++ List.replicate (total - 64) 0 := by
    rw [List.replicate_append_replicate, List.replicate_append_replicate]
    congr 1
    omega
  unfold fdtFinishReservemap fdtAddReservemapEntry fdtSwProbeMemrsv
  refine Returns.bind (Returns.bind ?_)
  refine Returns.bind (Returns.of_run becomes.stands.swProbe (Returns.bind (Returns.get ?_)))
  refine returns_failIf strings (Returns.bind (Returns.get ?_))
  simp only [offset]
  refine Returns.bind (returns_failIf (decide_eq_false enough) ?_)
  refine Returns.bind ((becomes.writeAt first (by rfl) rfl).mono fun _ m' becomes => ?_)
  rw [zeros, ← first] at becomes
  have place : buf + UInt64.ofNat 48 + 8 = buf + UInt64.ofNat (40 + (List.replicate 16 (0 : UInt8)).length) :=
    add_offsets buf 48 8
  refine Returns.bind ((becomes.writeAt second (by rfl) place).mono fun _ m' becomes => ?_)
  rw [zeros, ← second] at becomes
  refine (becomes.setOffDtStruct rfl).mono fun _ m' becomes => ?_
  refine (becomes.setOffDtStrings becomes.stands.totalsize).mono fun _ m' becomes => ?_
  rw [← draftBody_nil room] at becomes
  exact becomes

/-- Else `fdt_finish_reservemap` stops. -/
theorem Becomes.finishReservemap_full
    (becomes : Becomes start buf total (draftHeader total 48 0 0) body m) (full : total < 64) :
    (fdtFinishReservemap buf).run.run m = (.error (-fdtErrNospace), m) := by
  have offset : ofInt (fdtOffDtStruct m buf).toInt32 = UInt64.ofNat 48 := by
    rw [becomes.stands.offDtStruct]
    rfl
  have room : fdtTotalsize m buf = UInt32.ofNat total := becomes.stands.totalsize
  have strings : (fdtOffDtStrings m buf != 0) = false := by
    rw [becomes.stands.offDtStrings]
    rfl
  have above : UInt64.ofNat 48 + 16 > (fdtTotalsize m buf).toUInt64 := by
    have limit : (UInt64.ofNat 48 + 16).toNat = 64 := rfl
    rw [room, toUInt64_ofNat (by omega), gt_iff_lt, UInt64.lt_iff_toNat_lt, limit,
      UInt64.toNat_ofNat', Nat.mod_eq_of_lt (by omega)]
    omega
  unfold fdtFinishReservemap fdtAddReservemapEntry fdtSwProbeMemrsv
  simp only [run_bind, becomes.stands.swProbe, run_get, run_failIf, strings, Bool.false_eq_true,
    if_false, offset, above, decide_true, if_true]

/-- The size of what has been written and of what is to come, as `fdt_grab_space_` computes it. -/
theorem Drafts.sizes (drafts : Drafts start buf total n bytes m) (within : 64 + n ≤ total)
    (small : total < 2 ^ 31) (bound : k < 2 ^ 31) :
    (fdtSizeDtStruct m buf).toUInt64 + UInt64.ofNat k = UInt64.ofNat (n + k) ∧
      (decide (UInt64.ofNat (n + k) < (fdtSizeDtStruct m buf).toUInt64) ||
        decide (UInt64.ofNat (n + k) > (fdtTotalsize m buf - fdtOffDtStruct m buf -
          fdtSizeDtStrings m buf).toUInt64)) = decide (total < 64 + n + k) := by
  have size : fdtSizeDtStruct m buf = UInt32.ofNat n := drafts.stands.sizeDtStruct
  have full : fdtTotalsize m buf = UInt32.ofNat total := drafts.stands.totalsize
  have struct : fdtOffDtStruct m buf = UInt32.ofNat 64 := drafts.stands.offDtStruct
  have strings : fdtSizeDtStrings m buf = 0 := drafts.stands.sizeDtStrings
  have value {a : Nat} (low : a < 2 ^ 33) : (UInt64.ofNat a).toNat = a := by
    rw [UInt64.toNat_ofNat', Nat.mod_eq_of_lt (by omega)]
  have above : ¬UInt64.ofNat (n + k) < UInt64.ofNat n := by
    rw [UInt64.lt_iff_toNat_lt, value (by omega), value (by omega)]
    omega
  rw [size, full, struct, strings, UInt32.sub_zero, ← UInt32.ofNat_sub (show 64 ≤ total by omega),
    toUInt64_ofNat (by omega), toUInt64_ofNat (by omega), ← UInt64.ofNat_add, decide_eq_false above,
    Bool.false_or]
  refine ⟨rfl, ?_⟩
  rw [decide_eq_decide, gt_iff_lt, UInt64.lt_iff_toNat_lt, value (by omega), value (by omega)]
  omega

/-- Where there is room `fdt_grab_space_` gives what follows the tokens. -/
theorem Drafts.grabSpace (drafts : Drafts start buf total n bytes m) (small : total < 2 ^ 31)
    (room : 64 + n + k ≤ total) : Returns (fdtGrabSpace buf (UInt64.ofNat k)) m fun p m' =>
      p = buf + UInt64.ofNat (64 + n) ∧ Drafts start buf total (n + k) bytes m' := by
  have bound : k < 2 ^ 31 := by omega
  obtain ⟨sum, fits⟩ := drafts.sizes (by omega) small bound
  have size : fdtSizeDtStruct m buf = UInt32.ofNat n := drafts.stands.sizeDtStruct
  unfold fdtGrabSpace
  refine Returns.bind (Returns.get ?_)
  simp only [sum]
  refine Returns.bind (returns_failIf (fits.trans (decide_eq_false (by omega))) ?_)
  refine Returns.bind ((drafts.setSizeDtStruct rfl).mono fun _ m' drafts => ?_)
  rw [UInt64.toUInt32_ofNat'] at drafts
  refine Returns.bind (Returns.get (Returns.pure ⟨?_, drafts⟩))
  have struct : fdtOffDtStruct m' buf = UInt32.ofNat 64 := drafts.stands.offDtStruct
  rw [size, UInt32.toInt32_ofNat', fdtOffsetPtr_at (by omega), structAt, struct,
    toUInt64_ofNat (by omega), add_offsets]

/-- Else it stops. -/
theorem Drafts.grabSpace_full (drafts : Drafts start buf total n bytes m) (small : total < 2 ^ 31)
    (within : 64 + n ≤ total) (bound : k < 2 ^ 31) (full : total < 64 + n + k) :
    (fdtGrabSpace buf (UInt64.ofNat k)).run.run m = (.error (-fdtErrNospace), m) := by
  obtain ⟨sum, fits⟩ := drafts.sizes within small bound
  unfold fdtGrabSpace
  simp only [run_bind, run_get, run_failIf, sum, fits, decide_eq_true full, if_true]

/-- Zeros behind the tokens are there already. -/
theorem draftBody_zeros (room : 64 + bytes.length + k ≤ total) :
    draftBody total (bytes ++ List.replicate k 0) = draftBody total bytes := by
  rw [draftBody, draftBody, List.length_append, List.length_replicate, List.append_assoc,
    List.append_assoc, List.append_assoc, List.replicate_append_replicate]
  congr 3
  omega

/-- Write behind the tokens. -/
theorem Drafts.append (drafts : Drafts start buf total n bytes m) {more : List UInt8} {address : UInt64}
    (place : address = buf + UInt64.ofNat (64 + bytes.length))
    (room : 64 + bytes.length + more.length ≤ total) :
    Returns (Edit.write address fun _ => more) m fun _ =>
      Drafts start buf total n (bytes ++ more) := by
  have split : draftBody total bytes = List.replicate 24 0 ++ bytes ++ List.replicate more.length 0 ++
      List.replicate (total - (64 + (bytes ++ more).length)) 0 := by
    rw [draftBody, List.append_assoc _ (List.replicate more.length 0), List.replicate_append_replicate,
      List.length_append]
    congr 2
    omega
  have ahead : 40 + (List.replicate 24 (0 : UInt8) ++ bytes).length = 64 + bytes.length := by
    rw [List.length_append, List.length_replicate]
    omega
  rw [← ahead] at place
  refine (drafts.writeAt split (List.length_replicate ..).symm place).mono fun _ m' drafts => ?_
  rw [List.append_assoc (List.replicate 24 0)] at drafts
  exact drafts

/-- The name of a bare root. -/
def rootName : Name where
  bytes := []
  pad := [0, 0, 0]
  noNul := List.not_mem_nil
  fills := rfl

/-- The tokens of a tree of one bare node. -/
def bareTokens : List Token := [.beginNode rootName, .endNode]

section Tokens

variable (drafts : Drafts start buf total bytes.length bytes m) (small : total < 2 ^ 31)

include drafts small

/-- `fdt_begin_node` writes the first token of a node without a name. -/
theorem Drafts.beginNode (room : 64 + bytes.length + 8 ≤ total) :
    Returns (fdtSwBeginNode buf []) m fun _ =>
      Drafts start buf total (bytes.length + 8) (bytes ++ (Token.beginNode rootName).bytes) := by
  have eight : 4 + fdtTagalign (ofInt (Int32.ofNat (([] : List UInt8).length + 1))) =
      UInt64.ofNat 8 := by decide
  have tag : (cpuToFdt32 fdtBeginNode).length = 4 := rfl
  have token : bytes ++ (Token.beginNode rootName).bytes =
      bytes ++ cpuToFdt32 fdtBeginNode ++ [0] ++ List.replicate 3 0 := by
    simp only [List.append_assoc]
    rfl
  unfold fdtSwBeginNode
  refine Returns.bind (Returns.of_run drafts.stands.swProbeStruct ?_)
  rw [eight]
  refine Returns.bind ((drafts.grabSpace small room).mono ?_)
  rintro _ m' ⟨rfl, drafts⟩
  refine Returns.bind ((drafts.append rfl (by omega)).mono fun _ m' drafts => ?_)
  have place : buf + UInt64.ofNat (64 + bytes.length) + 4 =
      buf + UInt64.ofNat (64 + (bytes ++ cpuToFdt32 fdtBeginNode).length) := by
    rw [List.length_append, tag, ← Nat.add_assoc]
    exact add_offsets buf _ 4
  refine (drafts.append place ?_).mono fun _ m' drafts => ?_
  · rw [List.length_append, tag, List.nil_append, List.length_singleton]
    omega
  · rw [List.nil_append] at drafts
    unfold Drafts
    rw [token, draftBody_zeros]
    · exact drafts
    · rw [List.length_append, List.length_append, tag, List.length_singleton]
      omega

/-- `fdt_end_node` writes the last one. -/
theorem Drafts.endNode (room : 64 + bytes.length + 4 ≤ total) :
    Returns (fdtSwEndNode buf) m fun _ =>
      Drafts start buf total (bytes.length + 4) (bytes ++ Token.endNode.bytes) := by
  unfold fdtSwEndNode
  refine Returns.bind (Returns.of_run drafts.stands.swProbeStruct ?_)
  refine Returns.bind ((drafts.grabSpace (k := 4) small room).mono ?_)
  rintro _ m' ⟨rfl, drafts⟩
  exact drafts.append rfl room

end Tokens

/-- The header of a tree that has been written. -/
def writtenHeader (tokens : List Token) (total : UInt32) : Header where
  magic := flatMagic
  totalsize := total
  offDtStruct := 64
  offDtStrings := UInt32.ofNat (68 + extent tokens)
  offMemRsvmap := 48
  version := 17
  lastCompVersion := 16
  bootCpuidPhys := 0
  sizeDtStrings := 0
  sizeDtStruct := UInt32.ofNat (extent tokens + 4)

/-- A tree that is being written has the tokens that end with the end of the block. -/
theorem Lies.draftTokens {tokens : List Token} (lies : Lies m buf total (draftHeader total 64
      (UInt32.ofNat (extent tokens + 4)) offStrings) (draftBody total (blockOf tokens)))
    (small : total < 2 ^ 31) (room : 68 + extent tokens ≤ total) : HasTokens m buf tokens := by
  have struct : fdtOffDtStruct m buf = UInt32.ofNat 64 := lies.offDtStruct
  have full : (fdtTotalsize m buf).toNat = total := by
    rw [lies.totalsize]
    exact toNat_ofNat32 (by omega)
  have size : (fdtSizeDtStruct m buf).toNat = extent tokens + 4 := by
    rw [lies.sizeDtStruct]
    exact toNat_ofNat32 (by omega)
  have held := lies.held
  rw [draftBody, List.append_assoc (List.replicate 24 0), ← List.append_assoc] at held
  have block := held.behind.before
  rw [List.length_append, Header.length_bytes, List.length_replicate] at block
  refine ⟨⟨?_, fun _ => size.ge, by omega⟩, ?_, ?_⟩
  · rw [struct, full, toNat_ofNat32 (by decide)]
    omega
  · rw [structAt, struct, toUInt64_ofNat (by decide)]
    exact block
  · rw [lies.version]
    exact (show (16 : UInt32) ≤ 17 by decide)

/-- The loop of `fdt_finish` over tokens without properties changes nothing. -/
theorem correctOffsets_returns {before rest : List Token} (has : HasTokens m buf (before ++ rest))
    (plain : ∀ token ∈ rest, token.tag ≠ 3) {turns : Nat} (enough : rest.length < turns) :
    (correctOffsets buf turns (Int32.ofNat (extent before))).run.run m =
      (.ok (Int32.ofNat (extent (before ++ rest) + 4)), m) := by
  induction rest generalizing before turns with
  | nil =>
    obtain ⟨turns, rfl⟩ : ∃ less, turns = less + 1 := ⟨turns - 1, by simp at enough; omega⟩
    rw [List.append_nil] at has ⊢
    rw [correctOffsets]
    simp only [run_bind, run_get, has.nextTag_end, beq_self_eq_true, if_true]
    rfl
  | cons token rest ih =>
    obtain ⟨turns, rfl⟩ : ∃ less, turns = less + 1 := ⟨turns - 1, by simp at enough; omega⟩
    have next : extent before + token.size = extent (before ++ [token]) := by simp
    have shift : before ++ token :: rest = (before ++ [token]) ++ rest := List.append_cons ..
    have goes : (tagOf token == fdtEnd) = false := by cases token <;> rfl
    have other : (tagOf token == fdtProp) = false := by
      have kind := plain token (List.mem_cons_self ..)
      cases token with
      | prop _ => exact absurd rfl kind
      | beginNode _ | endNode | nop => rfl
    rw [correctOffsets]
    simp only [run_bind, run_get, has.nextTag, goes, other, Bool.false_eq_true, if_false,
      next]
    rw [shift] at has ⊢
    exact ih has (fun token inside => plain token (List.mem_cons_of_mem _ inside))
      (by simp at enough; omega)

/-- `fdt_finish` makes a tree of tokens without properties. -/
theorem Drafts.finish {tokens : List Token}
    (drafts : Drafts start buf total (extent tokens) (bytesOf tokens) m)
    (plain : ∀ token ∈ tokens, token.tag ≠ 3) (small : total < 2 ^ 31)
    (room : 68 + extent tokens ≤ total) : Returns (fdtFinish buf) m fun _ =>
      Becomes start buf total (writtenHeader tokens (UInt32.ofNat (68 + extent tokens)))
        (draftBody total (blockOf tokens)) := by
  unfold fdtFinish
  refine Returns.bind (Returns.of_run drafts.stands.swProbeStruct ?_)
  refine Returns.bind ((drafts.grabSpace (k := 4) small (by omega)).mono ?_)
  rintro _ m' ⟨rfl, drafts⟩
  have last : (cpuToFdt32 fdtEnd).length = 4 := rfl
  refine Returns.bind ((drafts.append rfl ?_).mono fun _ m' drafts => ?_)
  · rw [last, ← extent]
    omega
  have size : fdtSizeDtStruct m' buf = UInt32.ofNat (extent tokens + 4) := drafts.stands.sizeDtStruct
  have struct : fdtOffDtStruct m' buf = UInt32.ofNat 64 := drafts.stands.offDtStruct
  have strings : fdtSizeDtStrings m' buf = 0 := drafts.stands.sizeDtStrings
  have offset : (fdtOffDtStruct m' buf + fdtSizeDtStruct m' buf).toInt32 =
      Int32.ofNat (68 + extent tokens) := by
    rw [size, struct, ← UInt32.ofNat_add, UInt32.toInt32_ofNat']
    congr 1
    omega
  have same (dst src : UInt64) : (memmove m' dst src (fdtSizeDtStrings m' buf).toUInt64).2 = m' := by
    rw [strings]
    rfl
  refine Returns.bind (Returns.get ?_)
  simp only [offset, same, Int32.toUInt32_ofNat']
  refine Returns.bind (Returns.set ?_)
  refine Returns.bind ((drafts.setOffDtStrings rfl).mono fun _ left becomes => ?_)
  have has : HasTokens left buf ([] ++ tokens) := becomes.stands.draftTokens small room
  have turns : fdtTurns left buf = fdtTurns m' buf := by
    rw [fdtTurns, fdtTurns, becomes.stands.totalsize, drafts.stands.totalsize]
  have enough := has.turns
  rw [turns] at enough
  refine Returns.bind (Returns.of_run (correctOffsets_returns has plain enough) ?_)
  refine Returns.bind (returns_failIf (decide_eq_false (not_ofNat_neg ?_)) ?_)
  · rw [List.nil_append]
    omega
  have count : UInt32.ofNat (68 + extent tokens) + fdtSizeDtStrings left buf =
      UInt32.ofNat (68 + extent tokens) := by
    have none : fdtSizeDtStrings left buf = 0 := becomes.stands.sizeDtStrings
    rw [none, UInt32.add_zero]
  refine Returns.bind ((becomes.setTotalsize count).mono fun _ m' becomes => ?_)
  refine Returns.bind ((becomes.setLastCompVersion rfl).mono fun _ m' becomes => ?_)
  refine (becomes.setMagic rfl).mono fun _ m' becomes => ?_
  exact becomes

section Full

variable (drafts : Drafts start buf total bytes.length bytes m) (small : total < 2 ^ 31)
  (within : 64 + bytes.length ≤ total)

include drafts small within

/-- Without room for the next bytes nothing is written. -/
theorem Drafts.stops (bound : k < 2 ^ 31) (full : total < 64 + bytes.length + k)
    (next : UInt64 → Edit Memory Unit) : (fdtSwProbeStruct buf >>= fun _ =>
      fdtGrabSpace buf (UInt64.ofNat k) >>= next).run.run m = (.error (-fdtErrNospace), m) := by
  simp only [run_bind, drafts.stands.swProbeStruct, drafts.grabSpace_full small within bound full]

/-- `fdt_begin_node` stops without room. -/
theorem Drafts.beginNode_full (full : total < 64 + bytes.length + 8) :
    (fdtSwBeginNode buf []).run.run m = (.error (-fdtErrNospace), m) := by
  have eight : 4 + fdtTagalign (ofInt (Int32.ofNat (([] : List UInt8).length + 1))) =
      UInt64.ofNat 8 := by decide
  unfold fdtSwBeginNode
  rw [eight]
  exact drafts.stops small within (by decide) full _

/-- So does `fdt_end_node`. -/
theorem Drafts.endNode_full (full : total < 64 + bytes.length + 4) :
    (fdtSwEndNode buf).run.run m = (.error (-fdtErrNospace), m) :=
  drafts.stops small within (k := 4) (by decide) full _

/-- So does `fdt_finish`. -/
theorem Drafts.finish_full (full : total < 64 + bytes.length + 4) :
    (fdtFinish buf).run.run m = (.error (-fdtErrNospace), m) :=
  drafts.stops small within (k := 4) (by decide) full _

end Full

/-- The oldest version that a written tree is compatible with is supported. -/
theorem lastCompVersion_supported : (16 : UInt32) ≤ 17 := by decide

/-- The image of a tree that has been written. -/
def writtenImage (tokens : List Token) (fits : 68 + extent tokens < 2 ^ 31 - 1) : Image where
  totalsize := UInt32.ofNat (68 + extent tokens)
  lastCompVersion := 16
  bootCpuidPhys := 0
  front := List.replicate 8 0
  reserved := []
  stop := 0
  middle := []
  tokens := tokens
  slack := []
  spare := []
  strings := []
  ranges := by simp
  supported := lastCompVersion_supported
  room := by
    rw [toNat_ofNat32 (by omega)]
    simp only [List.length_replicate, List.length_nil]
    omega
  small := by
    rw [toNat_ofNat32 (by omega)]
    exact fits

variable {tokens : List Token} {written : 68 + extent tokens < 2 ^ 31 - 1}

/-- The header of a written image is the one that is written. -/
theorem header_writtenImage : (writtenImage tokens written).header =
    writtenHeader tokens (UInt32.ofNat (68 + extent tokens)) := by
  have strings : (writtenImage tokens written).offStrings = 68 + extent tokens := by
    change 64 + (extent tokens + 4) = 68 + extent tokens
    omega
  unfold Image.header
  rw [strings]
  rfl

/-- The body of a written image is its empty reserve map and its tokens. -/
theorem body_writtenImage :
    (writtenImage tokens written).body = List.replicate 24 0 ++ blockOf tokens := by
  have none : rangesBytes [(0, 0)] = List.replicate 16 0 := by decide
  have ahead : (writtenImage tokens written).ahead = List.replicate 24 0 := by
    change List.replicate 8 0 ++ rangesBytes [(0, 0)] ++ [] = List.replicate 24 0
    rw [none]
    rfl
  have rear : (writtenImage tokens written).rear = [] := rfl
  rw [Image.body, ahead, rear, List.append_nil]
  rfl

/-- The tokens of a bare node are those of the empty tree. -/
theorem hasRoot_bare {strings : List UInt8} : HasRoot strings bareTokens emptyTree.root :=
  ⟨.node rootName .nil .nil .nil, by simp [bareTokens]⟩

/-- What has been written is the empty tree. -/
theorem Becomes.carries_empty (aligned : buf &&& 7 = 0) (room : 80 ≤ n)
    (becomes : Becomes start buf n (writtenHeader bareTokens (UInt32.ofNat (68 + extent bareTokens)))
      (draftBody n (blockOf bareTokens)) m) : ∃ image : Image, Carries m buf image emptyTree ∧
        image.tokens = bareTokens ∧ image.strings = [] ∧ image.totalsize.toNat = 80 := by
  refine ⟨writtenImage bareTokens (by decide), ⟨?_, rfl, hasRoot_bare⟩, rfl, rfl, rfl⟩
  exact becomes.shorten.editable aligned header_writtenImage.symm body_writtenImage.symm room

/-- A tree that has been written can be opened in place. -/
theorem Carries.openInPlace {image : Image} {tree : Tree} (carries : Carries m buf image tree)
    (room : image.totalsize.toNat ≤ n) (small : n < 2 ^ 31 - 1)
    (fits : buf.toNat + image.totalsize.toNat + n < 2 ^ 64) :
    Returns (fdtOpenInto buf buf (Int32.ofNat n)) m fun _ m' =>
      ∃ image', Opened m buf n image.totalsize.toNat image.tokens image.strings tree m' image' := by
  have ordered := carries.inOrder
  have total : (fdtTotalsize m buf).toNat = image.totalsize.toNat := by
    rw [carries.editable.stands.totalsize]
    rfl
  exact carries.original.openInto (.inl ordered) small (by rw [total]; exact fits) (by omega)
    carries.editable.aligned (carries.openFits le_rfl) room

/-- `fdt_create_empty_tree` makes a bare root where there is room. -/
theorem fdtCreateEmptyTree_returns (room : 80 ≤ n) (small : n < 2 ^ 31 - 1)
    (fits : buf.toNat + 80 + n < 2 ^ 64) (aligned : buf &&& 7 = 0) :
    Returns (fdtCreateEmptyTree buf (Int32.ofNat n)) m fun _ m' =>
      ∃ image, Opened m buf n 80 bareTokens [] emptyTree m' image := by
  have below : n < 2 ^ 31 := by omega
  have none : 64 + ([] : List UInt8).length + 8 ≤ n := by
    rw [List.length_nil]
    omega
  have one : 64 + (Token.beginNode rootName).bytes.length + 4 ≤ n := by
    have eight : (Token.beginNode rootName).bytes.length = 8 := rfl
    omega
  have plain : ∀ token ∈ bareTokens, token.tag ≠ 3 := by simp [bareTokens, Token.tag]
  unfold fdtCreateEmptyTree
  refine Returns.bind ((fdtCreate_returns (by omega) below (by omega)).mono fun _ m' becomes => ?_)
  refine Returns.bind ((becomes.finishReservemap (by omega) below).mono fun _ m' drafts => ?_)
  have drafts : Drafts m buf n ([] : List UInt8).length [] m' := drafts
  refine Returns.bind ((drafts.beginNode below none).mono fun _ m' drafts => ?_)
  have drafts : Drafts m buf n (Token.beginNode rootName).bytes.length
    (Token.beginNode rootName).bytes m' := drafts
  refine Returns.bind ((drafts.endNode below one).mono fun _ m' drafts => ?_)
  have drafts : Drafts m buf n (extent bareTokens) (bytesOf bareTokens) m' := drafts
  refine Returns.bind ((drafts.finish plain below room).mono fun _ m' becomes => ?_)
  obtain ⟨image, carries, tokens, strings, total⟩ := becomes.carries_empty aligned room
  refine (carries.openInPlace (by omega) small (by omega)).mono ?_
  rintro _ m'' ⟨image', opened⟩
  rw [tokens, strings, total] at opened
  exact ⟨image', { opened with changed := becomes.changed.trans opened.changed }⟩

/-- Without room it stops where the room ends. -/
theorem fdtCreateEmptyTree_full (full : n < 80) (fits : buf.toNat + n < 2 ^ 64) :
    Aborts (fdtCreateEmptyTree buf (Int32.ofNat n)) m (-fdtErrNospace)
      (ChangedIn (window buf n) m) := by
  have below : n < 2 ^ 31 := by omega
  unfold fdtCreateEmptyTree
  by_cases header : n < 48
  · refine Aborts.bind (Aborts.bind (aborts_failIf (decide_eq_true ?_) (ChangedIn.refl _ m)))
    exact (ofNat_lt_ofNat below (by decide)).mpr header
  refine Returns.aborts ((fdtCreate_returns (by omega) below fits).mono fun _ m' becomes => ?_)
  by_cases ranges : n < 64
  · exact Aborts.bind ⟨m', becomes.finishReservemap_full ranges, becomes.changed⟩
  refine Returns.aborts ((becomes.finishReservemap (by omega) below).mono fun _ m' drafts => ?_)
  have drafts : Drafts m buf n ([] : List UInt8).length [] m' := drafts
  have zero : ([] : List UInt8).length = 0 := rfl
  by_cases first : n < 64 + ([] : List UInt8).length + 8
  · exact Aborts.bind ⟨m', drafts.beginNode_full below (by omega) first, drafts.changed⟩
  refine Returns.aborts ((drafts.beginNode below (by omega)).mono fun _ m' drafts => ?_)
  have eight : (Token.beginNode rootName).bytes.length = 8 := rfl
  have drafts : Drafts m buf n (Token.beginNode rootName).bytes.length
    (Token.beginNode rootName).bytes m' := drafts
  by_cases second : n < 64 + (Token.beginNode rootName).bytes.length + 4
  · exact Aborts.bind ⟨m', drafts.endNode_full below (by omega) second, drafts.changed⟩
  refine Returns.aborts ((drafts.endNode below (by omega)).mono fun _ m' drafts => ?_)
  have drafts : Drafts m buf n (bytesOf bareTokens).length (bytesOf bareTokens) m' := drafts
  have twelve : (bytesOf bareTokens).length = 12 := rfl
  exact Aborts.bind ⟨m', drafts.finish_full below (by omega) (by omega), drafts.changed⟩

end DragonStub

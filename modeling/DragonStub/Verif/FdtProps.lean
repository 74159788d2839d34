import DragonStub.Verif.FdtNodes

/-!
# Finding properties

`fdt_getprop` compares the names of the properties of a node with the sought one, string by string,
and returns the value of the first that has it.
-/

namespace DragonStub

open ByteMemory DeviceTree FlatTree Word

variable {m : Memory} {fdt : UInt64} {strings name key : List UInt8}
  {tokens before after rest : List Token} {token : Token}

/-- The address of the strings. -/
def stringsAt (m : Memory) (fdt : UInt64) : UInt64 := fdt + (fdtOffDtStrings m fdt).toUInt64

/-- A name ends inside the strings. -/
theorem nameAt_inside {offset : Nat} (named : nameAt strings offset = some name) :
    offset + name.length + 1 ≤ strings.length := by
  obtain ⟨-, behind, split⟩ := nameAt_eq_some.mp named
  have length := congrArg List.length split
  rw [List.length_drop, List.length_append, List.length_cons] at length
  omega

/-- Memory has the name with its NUL. -/
theorem Readable.string (readable : Readable m fdt tokens strings) {offset : Nat}
    (named : nameAt strings offset = some name) :
    Holds m (stringsAt m fdt + UInt64.ofNat offset) (name ++ [0]) := by
  have inside := nameAt_inside named
  obtain ⟨-, behind, split⟩ := nameAt_eq_some.mp named
  have held := readable.held
  rw [← List.take_append_drop offset strings, split] at held
  have later := held.behind
  rw [List.length_take, Nat.min_eq_left (by omega), ← List.singleton_append, ← List.append_assoc]
    at later
  exact later.before

/-- `fdt_get_string` finds the name. -/
theorem Readable.getString (readable : Readable m fdt tokens strings) {offset : Nat}
    (named : nameAt strings offset = some name) : fdtGetString m fdt (Int32.ofNat offset) =
      .ok (stringsAt m fdt + UInt64.ofNat offset, Int32.ofNat name.length) := by
  have within := nameAt_inside named
  have noNul := (nameAt_eq_some.mp named).1
  have inside := readable.inside
  have small := readable.tokens.reaches.small
  have size := readable.size
  have start : (UInt32.ofNat offset).toNat = offset := toNat_ofNat32 (by omega)
  have absolute : (UInt32.ofNat offset + fdtOffDtStrings m fdt).toNat =
      offset + (fdtOffDtStrings m fdt).toNat := by
    rw [UInt32.toNat_add, start, Nat.mod_eq_of_lt (by omega)]
  have total : (Int32.ofNat (fdtTotalsize m fdt).toNat).toUInt32 = fdtTotalsize m fdt := by
    rw [Int32.toUInt32_ofNat', UInt32.ofNat_toNat]
  have low : ¬UInt32.ofNat offset + fdtOffDtStrings m fdt ≥ fdtTotalsize m fdt := by
    rw [ge_iff_le, UInt32.le_iff_toNat_le, absolute]
    omega
  have beyond : ¬UInt32.ofNat offset ≥ fdtSizeDtStrings m fdt := by
    rw [ge_iff_le, UInt32.le_iff_toNat_le, start]
    omega
  have whole : (fdtTotalsize m fdt - (UInt32.ofNat offset + fdtOffDtStrings m fdt)).toNat =
      (fdtTotalsize m fdt).toNat - (offset + (fdtOffDtStrings m fdt).toNat) := by
    rw [UInt32.toNat_sub_of_le _ _ (UInt32.le_iff_toNat_le.mpr (by omega)), absolute]
  have rest : (fdtSizeDtStrings m fdt - UInt32.ofNat offset).toNat = strings.length - offset := by
    rw [UInt32.toNat_sub_of_le _ _ (UInt32.le_iff_toNat_le.mpr (by omega)), start, size]
  have address : fdt + (UInt32.ofNat offset + fdtOffDtStrings m fdt).toUInt64 =
      stringsAt m fdt + UInt64.ofNat offset := by
    have sum : (UInt32.ofNat offset + fdtOffDtStrings m fdt).toUInt64 =
        (fdtOffDtStrings m fdt).toUInt64 + UInt64.ofNat offset := by
      apply UInt64.toNat_inj.mp
      rw [UInt32.toNat_toUInt64, absolute, UInt64.toNat_add, UInt32.toNat_toUInt64,
        UInt64.toNat_ofNat']
      omega
    rw [sum, stringsAt, UInt64.add_assoc]
  have found {count : Nat} (enough : name.length < count) :
      findByte m 0 count (stringsAt m fdt + UInt64.ofNat offset) = some name.length :=
    findByte_eq (readable.string named) noNul enough
  have enough : name.length <
      (fdtTotalsize m fdt - (UInt32.ofNat offset + fdtOffDtStrings m fdt)).toNat := by omega
  have enough' : name.length < (fdtSizeDtStrings m fdt - UInt32.ofNat offset).toNat := by omega
  unfold fdtGetString
  simp only [readable.probe, not_ofNat_neg small, total, Int32.toUInt32_ofNat', low, beyond,
    readable.magic, beq_self_eq_true, not_ofNat_neg (show offset < 2 ^ 31 by omega), if_false, if_true,
    address]
  by_cases latest : fdtVersion m fdt ≥ 17
  · rw [if_pos latest]
    by_cases shorter : fdtSizeDtStrings m fdt - UInt32.ofNat offset <
        fdtTotalsize m fdt - (UInt32.ofNat offset + fdtOffDtStrings m fdt)
    · rw [if_pos shorter]
      simp only [found enough']
    · rw [if_neg shorter]
      simp only [found enough]
  · rw [if_neg latest]
    simp only [found enough]

/-- `fdt_string_eq_` compares with the name. -/
theorem Readable.stringEq (readable : Readable m fdt tokens strings) {offset : Nat}
    (named : nameAt strings offset = some name) (short : key.length < 2 ^ 31) :
    fdtStringEq m fdt (Int32.ofNat offset) key = decide (nameAt strings offset = some key) := by
  have within := nameAt_inside named
  have inside := readable.inside
  have small := readable.tokens.reaches.small
  have held := (readable.string named).before
  have lengths : Int32.ofNat name.length = Int32.ofNat key.length ↔ name.length = key.length :=
    ofNat_eq_ofNat (by omega) short
  have same : name = key ↔ name.length = key.length ∧
      Holds m (stringsAt m fdt + UInt64.ofNat offset) key := by
    constructor
    · rintro rfl
      exact ⟨rfl, held⟩
    · rintro ⟨length, too⟩
      exact held.eq too length
  unfold fdtStringEq
  simp only [readable.getString named, named, Option.some.injEq]
  apply Bool.eq_iff_iff.mpr
  simp only [Bool.and_eq_true, beq_iff_eq, lengths, memcmp_eq_zero, decide_eq_true_eq, same]

/-- A name with its NUL at an offset is the name there. -/
theorem Readable.name_iff (readable : Readable m fdt tokens strings) (noNul : 0 ∉ key) {place : Nat}
    (inside : place + key.length < strings.length) :
    Holds m (stringsAt m fdt + UInt64.ofNat place) (key ++ [0]) ↔ nameAt strings place = some key := by
  constructor
  · intro held
    have whole := readable.held
    rw [← List.take_append_drop place strings] at whole
    have behind := whole.behind
    rw [List.length_take, Nat.min_eq_left (by omega)] at behind
    have shorter : (key ++ [0]).length ≤ (strings.drop place).length := by
      rw [List.length_append, List.length_singleton, List.length_drop]
      omega
    obtain ⟨rest, split⟩ := held.begins behind shorter
    refine nameAt_eq_some.mpr ⟨noNul, rest, ?_⟩
    rw [← split, List.append_assoc, List.singleton_append]
  · exact readable.string

/-- The size of the strings as an `int`. -/
theorem Readable.sizeInt (readable : Readable m fdt tokens strings) :
    (fdtSizeDtStrings m fdt).toInt32.toInt = strings.length := by
  have small := readable.tokens.reaches.small
  have inside := readable.inside
  have size : fdtSizeDtStrings m fdt = UInt32.ofNat strings.length := by
    rw [← readable.size, UInt32.ofNat_toNat]
  rw [size, UInt32.toInt32_ofNat', Int32.toInt_ofNat_of_lt (by omega)]

/-- What `fdt_find_string_` finds is the name. -/
theorem Readable.findString_some (readable : Readable m fdt tokens strings) (noNul : 0 ∉ key)
    {place : Nat} (found : fdtFindString m (stringsAt m fdt) (fdtSizeDtStrings m fdt).toInt32 key =
      some place) : nameAt strings place = some key := by
  have small := readable.tokens.reaches.small
  have inside := readable.inside
  have size := readable.sizeInt
  have within := List.mem_range.mp (List.mem_of_find?_eq_some found)
  have same := List.find?_some found
  rw [size] at within
  rw [beq_iff_eq, memcmp_eq_zero] at same
  exact (readable.name_iff noNul (by omega)).mp same

/-- Where it finds nothing the name is not there. -/
theorem Readable.findString_none (readable : Readable m fdt tokens strings) (noNul : 0 ∉ key)
    (missing : fdtFindString m (stringsAt m fdt) (fdtSizeDtStrings m fdt).toInt32 key = none)
    {place : Nat} : nameAt strings place ≠ some key := by
  have small := readable.tokens.reaches.small
  have inside := readable.inside
  have size := readable.sizeInt
  intro named
  have within := nameAt_inside named
  have tried := List.find?_eq_none.mp missing place (List.mem_range.mpr (by rw [size]; omega))
  rw [beq_iff_eq, memcmp_eq_zero] at tried
  exact tried ((readable.name_iff noNul (by omega)).mpr named)

section Property

variable {property : Property}

/-- The length of a property. -/
theorem HasTokens.propLen (has : HasTokens m fdt (before ++ .prop property :: after)) :
    fdt32Ld m (structAt m fdt + UInt64.ofNat (extent before) + 4) =
      UInt32.ofNat property.value.length := by
  have here := has.here
  have size := has.size_le
  have small := has.reaches.small
  rw [Token.size_eq, Token.body] at size
  simp only [List.length_append, length_bigEndian] at size
  rw [Token.bytes] at here
  have body := here.behind
  rw [length_bigEndian, Token.body, List.append_assoc, List.append_assoc] at body
  exact fdt32Ld_number body.before (by omega)

/-- The offset of its name. -/
theorem HasTokens.propNameoff (has : HasTokens m fdt (before ++ .prop property :: after)) :
    fdt32Ld m (structAt m fdt + UInt64.ofNat (extent before) + 8) = property.nameoff := by
  have here := has.here
  rw [Token.bytes, Token.body, List.append_assoc, List.append_assoc, ← List.append_assoc] at here
  have later := here.behind
  rw [List.length_append, length_bigEndian, length_bigEndian] at later
  have number := fdt32Ld_number later.before property.nameoff.toNat_lt
  rw [UInt32.ofNat_toNat] at number
  exact number

/-- Its value. -/
theorem HasTokens.propData (has : HasTokens m fdt (before ++ .prop property :: after)) :
    Holds m (structAt m fdt + UInt64.ofNat (extent before) + 12) property.value := by
  have here := has.here
  rw [Token.bytes, Token.body, List.append_assoc, ← List.append_assoc] at here
  have later := here.behind
  simp only [List.length_append, length_bigEndian] at later
  exact later.before

/-- The beginning of a property passes its check. -/
theorem HasTokens.checkProp (has : HasTokens m fdt (before ++ .prop property :: after)) :
    fdtCheckPropOffset m fdt (Int32.ofNat (extent before)) =
      Int32.ofNat (extent before + Token.size (.prop property)) := by
  have small := has.offset_small.1
  have whole : (Int32.ofNat (extent before)).toUInt32 % 4 = 0 := by
    apply UInt32.toNat_inj.mp
    have four : (4 : UInt32).toNat = 4 := rfl
    have zero : (0 : UInt32).toNat = 0 := rfl
    rw [Int32.toUInt32_ofNat', UInt32.toNat_mod, toNat_ofNat32 (by omega), four, zero]
    exact extent_whole before
  have tag : tagOf (.prop property) = fdtProp := rfl
  unfold fdtCheckPropOffset
  simp only [not_ofNat_neg small, whole, has.nextTag, tag, bne_self_eq_false, decide_false,
    Bool.or_self, Bool.false_eq_true, if_false]

/-- `fdt_get_property_by_offset_` finds it. -/
theorem HasTokens.propertyByOffset (has : HasTokens m fdt (before ++ .prop property :: after)) :
    fdtGetPropertyByOffset_ m fdt (Int32.ofNat (extent before)) =
      .ok (structAt m fdt + UInt64.ofNat (extent before), Int32.ofNat property.value.length) := by
  have later : HasTokens m fdt ((before ++ [.prop property]) ++ after) := by
    rwa [List.append_assoc, List.singleton_append]
  have small := has.offset_small.1
  have small' := later.offset_small.1
  rw [extent_append, extent_cons, extent_nil, Nat.add_zero] at small'
  unfold fdtGetPropertyByOffset_
  simp only [has.checkProp, not_ofNat_neg small', if_false, fdtOffsetPtr_at small, has.propLen,
    UInt32.toInt32_ofNat']

/-- `fdt_next_property_offset` goes on behind it. -/
theorem HasTokens.nextProperty (has : HasTokens m fdt (before ++ .prop property :: after)) :
    fdtNextPropertyOffset m fdt (Int32.ofNat (extent before)) =
      nextprop m fdt (fdtTurns m fdt) (Int32.ofNat (extent (before ++ [.prop property]))) := by
  have later : HasTokens m fdt ((before ++ [.prop property]) ++ after) := by
    rwa [List.append_assoc, List.singleton_append]
  have small' := later.offset_small.1
  have next : extent before + Token.size (.prop property) = extent (before ++ [.prop property]) := by
    simp
  unfold fdtNextPropertyOffset
  simp only [has.checkProp, next, not_ofNat_neg small', if_false]

end Property

/-- What `fdt_get_property_namelen_` returns when the search for a property ends like this. -/
def propertyResult (m : Memory) (fdt : UInt64) (start : Nat) :
    Option (Nat × Property) → Except Int32 (UInt64 × Int32 × Int32)
  | some (distance, property) => .ok (structAt m fdt + UInt64.ofNat (start + distance),
      Int32.ofNat property.value.length, Int32.ofNat (start + distance))
  | none => .error (-fdtErrNotfound)

/-- A property that is searched for later has its result later. -/
theorem propertyResult_map {start size : Nat} {found : Option (Nat × Property)} :
    propertyResult m fdt start (found.map fun found => (size + found.1, found.2)) =
      propertyResult m fdt (start + size) found := by
  cases found with
  | none => rfl
  | some found => simp only [Option.map_some, propertyResult, Nat.add_assoc]

/-- The loop of `fdt_get_property_namelen_` is the search over the properties that are left. -/
theorem getPropertyLoop_eq {props : List Token} {properties : Properties}
    (has : HasProps strings props properties)
    (readable : Readable m fdt (before ++ (props ++ token :: after)) strings)
    (stop : token.tag = 1 ∨ token.tag = 2) (short : key.length < 2 ^ 31) {turns turns' : Nat}
    (enough : props.length < turns) (enough' : props.length < turns') :
    getPropertyLoop m fdt key turns (nextprop m fdt turns' (Int32.ofNat (extent before))) =
      propertyResult m fdt (extent before) (seekProp strings key (props ++ token :: after)) := by
  induction has generalizing before turns turns' with
  | nil =>
    obtain ⟨turns, rfl⟩ : ∃ less, turns = less + 1 := ⟨turns - 1, by simp at enough; omega⟩
    obtain ⟨turns', rfl⟩ : ∃ less, turns' = less + 1 := ⟨turns' - 1, by simp at enough'; omega⟩
    have ends : nextprop m fdt (turns' + 1) (Int32.ofNat (extent before)) = -fdtErrNotfound := by
      rw [nextprop, readable.tokens.nextTag]
      cases token with
      | beginNode _ => rfl
      | endNode => rfl
      | prop _ => exact absurd stop (by simp [Token.tag])
      | nop => exact absurd stop (by simp [Token.tag])
    have none : seekProp strings key ([] ++ token :: after) = none := by
      cases token with
      | beginNode _ => rfl
      | endNode => rfl
      | prop _ => exact absurd stop (by simp [Token.tag])
      | nop => exact absurd stop (by simp [Token.tag])
    have negative : -fdtErrNotfound < 0 := by decide
    rw [ends, none, getPropertyLoop, if_pos negative]
    rfl
  | @nop props properties _ ih =>
    obtain ⟨turns', rfl⟩ : ∃ less, turns' = less + 1 := ⟨turns' - 1, by simp at enough'; omega⟩
    rw [List.length_cons] at enough enough'
    rw [List.cons_append] at readable ⊢
    have later : Readable m fdt ((before ++ [.nop]) ++ (props ++ token :: after)) strings := by
      rwa [List.append_assoc, List.singleton_append]
    have next : extent (before ++ [.nop]) = extent before + Token.size .nop := by simp
    have step : nextprop m fdt (turns' + 1) (Int32.ofNat (extent before)) =
        nextprop m fdt turns' (Int32.ofNat (extent (before ++ [.nop]))) := by
      rw [nextprop, readable.tokens.nextTag, next]
      rfl
    rw [step, seekProp, propertyResult_map, ← next]
    exact ih later (by omega) (by omega)
  | @prop props properties name property named _ ih =>
    obtain ⟨turns, rfl⟩ : ∃ less, turns = less + 1 := ⟨turns - 1, by simp at enough; omega⟩
    obtain ⟨turns', rfl⟩ : ∃ less, turns' = less + 1 := ⟨turns' - 1, by simp at enough'; omega⟩
    rw [List.length_cons] at enough enough'
    rw [List.cons_append] at readable ⊢
    have tokens := readable.tokens
    have small := tokens.offset_small.1
    have later : Readable m fdt ((before ++ [.prop property]) ++ (props ++ token :: after)) strings := by
      rwa [List.append_assoc, List.singleton_append]
    have next : extent (before ++ [.prop property]) = extent before + Token.size (.prop property) := by
      simp
    have more := later.tokens.turns
    rw [List.length_append] at more
    have here : nextprop m fdt (turns' + 1) (Int32.ofNat (extent before)) =
        Int32.ofNat (extent before) := by
      rw [nextprop, tokens.nextTag]
      rfl
    have offset : property.nameoff.toInt32 = Int32.ofNat property.nameoff.toNat := by
      rw [← UInt32.toInt32_ofNat', UInt32.ofNat_toNat]
    rw [here, getPropertyLoop, if_neg (not_ofNat_neg small), tokens.propertyByOffset, seekProp]
    simp only [Except.mapError, bind, Except.bind, tokens.propNameoff, offset,
      readable.stringEq named short, decide_eq_true_eq]
    by_cases same : nameAt strings property.nameoff.toNat = some key
    · rw [if_pos same, if_pos same]
      rfl
    · rw [if_neg same, if_neg same, propertyResult_map, ← next, tokens.nextProperty]
      exact ih later (by omega) (by omega)

section Found

variable {root : Node} {parts : Parts} {position : Position} {properties : Properties}
  {children : List Node}

/-- `fdt_get_property_namelen_` searches the properties of the node. -/
theorem Readable.getProperty_seek (readable : Readable m fdt parts.all strings)
    (isAt : IsAt strings parts [root] 0 position properties children)
    (short : key.length < 2 ^ 31) :
    fdtGetPropertyNamelen_ m fdt (Int32.ofNat (extent parts.before)) key =
      propertyResult m fdt (extent (parts.before ++ [.beginNode parts.name]))
        (seekProp strings key (parts.props ++ (parts.inside ++ .endNode :: parts.after))) := by
  obtain ⟨nops, token, behind, stop, split⟩ := isAt.inside.skip_nops parts.after
  have has := isAt.props.append_nops nops
  have tokens : HasTokens m fdt (parts.before ++ .beginNode parts.name ::
      (parts.props ++ (parts.inside ++ .endNode :: parts.after))) := readable.tokens
  have later : Readable m fdt ((parts.before ++ [.beginNode parts.name]) ++
      ((parts.props ++ List.replicate nops .nop) ++ token :: behind)) strings := by
    rw [List.append_assoc parts.props, ← split, List.append_assoc, List.singleton_append]
    exact readable
  have small := later.tokens.offset_small.1
  have turns := later.tokens.turns
  rw [List.length_append] at turns
  have next : extent parts.before + Token.size (.beginNode parts.name) =
      extent (parts.before ++ [.beginNode parts.name]) := by simp
  have first : fdtFirstPropertyOffset m fdt (Int32.ofNat (extent parts.before)) =
      nextprop m fdt (fdtTurns m fdt)
        (Int32.ofNat (extent (parts.before ++ [.beginNode parts.name]))) := by
    unfold fdtFirstPropertyOffset
    simp only [tokens.checkNode, next, not_ofNat_neg small, if_false]
  rw [fdtGetPropertyNamelen_, first, split, ← List.append_assoc]
  exact getPropertyLoop_eq has later stop short (by omega) (by omega)

/-- Without the property the result is `-FDT_ERR_NOTFOUND`. -/
theorem Readable.getProperty_none (readable : Readable m fdt parts.all strings)
    (isAt : IsAt strings parts [root] 0 position properties children)
    (short : key.length < 2 ^ 31) (missing : properties (text key) = none) :
    fdtGetPropertyNamelen_ m fdt (Int32.ofNat (extent parts.before)) key =
      .error (-fdtErrNotfound) := by
  rw [readable.getProperty_seek isAt short, isAt.props.seekProp_none missing,
    isAt.inside.seekProp_end]
  rfl

/-- `fdt_get_property` finds the first property with the name. -/
theorem Readable.getProperty_some (readable : Readable m fdt parts.all strings)
    (isAt : IsAt strings parts [root] 0 position properties children) (short : key.length < 2 ^ 31)
    {before : List Token} {property : Property}
    (seek : ∀ tail, seekProp strings key (parts.props ++ tail) = some (extent before, property)) :
    fdtGetProperty m fdt (Int32.ofNat (extent parts.before)) key =
      .ok (structAt m fdt + UInt64.ofNat (extent (parts.before ++ .beginNode parts.name :: before)),
        Int32.ofNat property.value.length) := by
  have recent : ¬fdtVersion m fdt < 0x10 := UInt32.not_lt.mpr readable.tokens.version
  have place : extent (parts.before ++ [.beginNode parts.name]) + extent before =
      extent (parts.before ++ .beginNode parts.name :: before) := by simp [Nat.add_assoc]
  unfold fdtGetProperty fdtGetPropertyNamelen
  rw [if_neg recent, readable.getProperty_seek isAt short, seek, propertyResult, place]
  rfl

/-- Without one it returns `-FDT_ERR_NOTFOUND`. -/
theorem Readable.getProperty_missing (readable : Readable m fdt parts.all strings)
    (isAt : IsAt strings parts [root] 0 position properties children)
    (short : key.length < 2 ^ 31) (missing : properties (text key) = none) :
    fdtGetProperty m fdt (Int32.ofNat (extent parts.before)) key = .error (-fdtErrNotfound) := by
  have recent : ¬fdtVersion m fdt < 0x10 := UInt32.not_lt.mpr readable.tokens.version
  unfold fdtGetProperty fdtGetPropertyNamelen
  rw [if_neg recent, readable.getProperty_none isAt short missing]
  rfl

/-- `fdt_getprop` gives the value of the first property with the name. -/
theorem Readable.getprop_at (readable : Readable m fdt parts.all strings)
    (isAt : IsAt strings parts [root] 0 position properties children) (short : key.length < 2 ^ 31)
    {before : List Token} {property : Property}
    (seek : ∀ tail, seekProp strings key (parts.props ++ tail) = some (extent before, property)) :
    fdtGetprop m fdt (Int32.ofNat (extent parts.before)) key =
      .ok (structAt m fdt + UInt64.ofNat (extent (parts.before ++ .beginNode parts.name :: before)) + 12,
        Int32.ofNat property.value.length) := by
  have recent : ¬fdtVersion m fdt < 0x10 := UInt32.not_lt.mpr readable.tokens.version
  have place : extent (parts.before ++ [.beginNode parts.name]) + extent before =
      extent (parts.before ++ .beginNode parts.name :: before) := by simp [Nat.add_assoc]
  unfold fdtGetprop fdtGetpropNamelen
  simp only [readable.getProperty_seek isAt short, seek, propertyResult, recent, decide_false,
    Bool.false_and, Bool.false_eq_true, if_false, place]

/-- `fdt_getprop` finds a value that is there, with its length. -/
theorem Readable.getprop_some (readable : Readable m fdt parts.all strings)
    (isAt : IsAt strings parts [root] 0 position properties children)
    (short : key.length < 2 ^ 31) {value : List UInt8}
    (found : properties (text key) = some value) :
    ∃ p, fdtGetprop m fdt (Int32.ofNat (extent parts.before)) key =
      .ok (p, Int32.ofNat value.length) ∧ Holds m p value := by
  obtain ⟨before, behind, property, split, rfl, seek, -⟩ := isAt.props.seekProp_some found
  have has : HasTokens m fdt ((parts.before ++ .beginNode parts.name :: before) ++
      .prop property :: (behind ++ (parts.inside ++ .endNode :: parts.after))) := by
    have tokens := readable.tokens
    rw [Parts.all, split] at tokens
    simpa using tokens
  exact ⟨_, readable.getprop_at isAt short seek, has.propData⟩

/-- A property that a node does not have is not found. -/
theorem Readable.getprop_none (readable : Readable m fdt parts.all strings)
    (isAt : IsAt strings parts [root] 0 position properties children)
    (short : key.length < 2 ^ 31) (missing : properties (text key) = none) :
    fdtGetprop m fdt (Int32.ofNat (extent parts.before)) key = .error (-fdtErrNotfound) := by
  unfold fdtGetprop fdtGetpropNamelen
  simp only [readable.getProperty_none isAt short missing]

end Found

end DragonStub

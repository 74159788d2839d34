import DragonStub.Verif.FdtSetprop

/-!
# Changes in place

The functions of `fdt_wip.c` write over bytes that are there, and move nothing.
-/

namespace DragonStub

open ByteMemory DeviceTree FlatTree Stateful Word

variable {m : Memory} {fdt : UInt64} {image : Image} {node : Int32} {key value : List UInt8}
  {before behind : List Token} {property : Property}

/-- A value with some of its bytes replaced. -/
def patch (old : List UInt8) (place : Nat) (value : List UInt8) : List UInt8 :=
  old.take place ++ value ++ old.drop (place + value.length)

/-- A value around a part of it. -/
theorem eq_parts (old : List UInt8) (place count : Nat) :
    old = old.take place ++ ((old.drop place).take count ++ old.drop (place + count)) := by
  rw [← List.drop_drop, List.take_append_drop, List.take_append_drop]

/-- A patched value keeps its length. -/
theorem length_patch {old : List UInt8} {place : Nat} (inside : place + value.length ≤ old.length) :
    (patch old place value).length = old.length := by
  simp only [patch, List.length_append, List.length_take, List.length_drop]
  omega

/-- All of a value replaced. -/
theorem patch_all {old : List UInt8} (same : old.length = value.length) : patch old 0 value = value := by
  rw [patch, List.take_zero, List.nil_append, List.drop_eq_nil_of_le (by omega), List.append_nil]

/-- A property with some bytes of its value replaced. -/
def patched (property : Property) (place : Nat) (value : List UInt8)
    (inside : place + value.length ≤ property.value.length) : Property where
  nameoff := property.nameoff
  value := patch property.value place value
  pad := property.pad
  fills := by rw [length_patch inside, property.fills]

/-- Its token stays as large as it was. -/
theorem size_prop_patched (property : Property) {place : Nat}
    (inside : place + value.length ≤ property.value.length) :
    Token.size (.prop (patched property place value inside)) = Token.size (.prop property) := by
  have same : cellsOf (patch property.value place value) = cellsOf property.value := by
    rw [cellsOf, cellsOf, length_patch inside]
  rw [size_prop, size_prop]
  exact congrArg (12 + ·) same

/-- The tokens with such a property fit where the others do. -/
theorem admits_patched (split : image.tokens = before ++ .prop property :: behind) {place : Nat}
    (inside : place + value.length ≤ property.value.length) :
    image.Admits (before ++ ([Token.prop (patched property place value inside)] ++ behind)) := by
  have within := image.size_le
  rw [Image.Admits, split, List.singleton_append, extent_append, extent_append, extent_cons, extent_cons,
    size_prop_patched]
  omega

/-- The image stays as large as it was. -/
theorem size_patched (split : image.tokens = before ++ .prop property :: behind) {place : Nat}
    (inside : place + value.length ≤ property.value.length) :
    (image.withTokens (before ++ ([Token.prop (patched property place value inside)] ++ behind))
      (admits_patched split inside)).size = image.size := by
  have split' : image.tokens = before ++ ([Token.prop property] ++ behind) := split
  have sizes : (image.withTokens _ (admits_patched split inside)).size + _ = _ :=
    Image.size_exchange split'
  rw [extent_cons, extent_cons, size_prop_patched] at sizes
  omega

section Partial

variable {idx : UInt32} (editable : Editable m fdt image)
  (split : image.tokens = before ++ .prop property :: behind)
  (found : fdtGetpropNamelen m fdt node key =
    .ok (structAt m fdt + UInt64.ofNat (extent before) + 12, Int32.ofNat property.value.length))

include editable split found

/-- `fdt_setprop_inplace_namelen_partial` writes inside a value. -/
theorem Editable.setpropInplacePartial (inside : idx.toNat + value.length ≤ property.value.length) :
    Returns (fdtSetpropInplaceNamelenPartial fdt node key idx value) m fun _ m' =>
      Editable m' fdt (image.withTokens
        (before ++ ([Token.prop (patched property idx.toNat value inside)] ++ behind))
        (admits_patched split inside)) ∧ ChangedIn (window fdt image.totalsize.toNat) m m' := by
  have around := size_around split
  have small := image.size_lt
  rw [cellsOf] at around
  have fits : ¬(Int32.ofNat property.value.length).toUInt32 < UInt32.ofNat value.length + idx := by
    rw [Int32.toUInt32_ofNat', UInt32.lt_iff_toNat_lt, UInt32.toNat_add, toNat_ofNat32 (by omega),
      toNat_ofNat32 (by omega), Nat.mod_eq_of_lt (by omega)]
    omega
  have becomes : Becomes m fdt image.totalsize.toNat image.header image.body m :=
    editable.stands.becomes
  have whole := eq_parts property.value idx.toNat value.length
  have parts : image.body = headOf image before property.value.length property.nameoff ++
      property.value.take idx.toNat ++ (property.value.drop idx.toNat).take value.length ++
        (property.value.drop (idx.toNat + value.length) ++ property.pad ++ image.downFrom behind) := by
    rw [body_prop split]
    conv_lhs => enter [1, 2, 1]; rw [whole]
    simp only [List.append_assoc]
  have length : (headOf image before property.value.length property.nameoff ++
      property.value.take idx.toNat).length = (image.upTo before).length + (12 + idx.toNat) := by
    rw [List.length_append, length_headOf, List.length_take, Nat.min_eq_left (by omega), Nat.add_assoc]
  have place : structAt m fdt + UInt64.ofNat (extent before) + 12 + idx.toUInt64 =
      fdt + UInt64.ofNat (40 + (headOf image before property.value.length property.nameoff ++
        property.value.take idx.toNat).length) := by
    have address := editable.address_upTo before (12 + idx.toNat)
    rw [length, ← address, ← add_offsets, ← UInt32.toNat_toUInt64, UInt64.ofNat_toNat]
    rfl
  unfold fdtSetpropInplaceNamelenPartial
  refine Returns.bind (Returns.get ?_)
  rw [found]
  refine Returns.bind (returns_failIf (decide_eq_false fits) ?_)
  refine (becomes.writeAt parts ?_ place).mono fun _ m' becomes => ⟨?_, becomes.changed⟩
  · rw [List.length_take, List.length_drop]
    omega
  · have number : (patched property idx.toNat value inside).value.length = property.value.length :=
      length_patch inside
    have body : (image.withTokens (before ++ ([Token.prop (patched property idx.toNat value
        inside)] ++ behind)) (admits_patched split inside)).body = headOf image before
          property.value.length property.nameoff ++ property.value.take idx.toNat ++ value ++
            (property.value.drop (idx.toNat + value.length) ++ property.pad ++ image.downFrom behind) := by
      rw [Image.body_exchange, bytesOf_cons, bytes_prop, number, bytesOf_nil, headOf]
      simp only [patched, patch, List.append_assoc, List.append_nil]
    have sizes : extent (before ++ ([Token.prop (patched property idx.toNat value inside)] ++
        behind)) = extent image.tokens := by
      rw [split]
      simp only [List.singleton_append, extent_append, extent_cons, size_prop, cellsOf, number]
    refine becomes.editable editable.aligned ?_ body.symm le_rfl
    have struct : (image.withTokens _ (admits_patched split inside)).sizeStruct + _ = _ :=
      Image.sizeStruct_withTokens
    have strings : (image.withTokens _ (admits_patched split inside)).offStrings + _ = _ :=
      Image.offStrings_withTokens
    rw [sizes] at struct strings
    have struct := Nat.add_right_cancel struct
    have strings := Nat.add_right_cancel strings
    unfold Image.header
    rw [struct, strings]
    rfl

omit editable in
/-- Beyond the value it writes nothing. -/
theorem Editable.setpropInplacePartial_full (small : idx.toNat + value.length < 2 ^ 32)
    (beyond : property.value.length < idx.toNat + value.length) :
    (fdtSetpropInplaceNamelenPartial fdt node key idx value).run.run m = (.error (-fdtErrNospace), m) := by
  have around := size_around split
  have total := image.size_lt
  rw [cellsOf] at around
  have full : (Int32.ofNat property.value.length).toUInt32 < UInt32.ofNat value.length + idx := by
    rw [Int32.toUInt32_ofNat', UInt32.lt_iff_toNat_lt, UInt32.toNat_add, toNat_ofNat32 (by omega),
      toNat_ofNat32 (by omega), Nat.mod_eq_of_lt (by omega)]
    omega
  unfold fdtSetpropInplaceNamelenPartial
  simp only [run_bind, run_get, found, run_failIf, full, decide_true, if_true]

end Partial

end DragonStub

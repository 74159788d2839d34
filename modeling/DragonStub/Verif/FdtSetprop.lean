import DragonStub.Verif.FdtImage

/-!
# Setting properties

`fdt_setprop` gives a property of a node another value, or adds it behind the beginning of the node.
It does so when there is room, and otherwise leaves the tree as it was.
-/

namespace DragonStub

open ByteMemory DeviceTree FlatTree Stateful Word

variable {m : Memory} {fdt : UInt64} {image : Image} {node : Int32} {key value : List UInt8}
  {before behind : List Token} {property : Property}

/-- The size of a value in whole cells. -/
def cellsOf (value : List UInt8) : Nat := value.length + padding value.length

/-- Less than a word is padded. -/
theorem padding_lt (n : Nat) : padding n < 4 := by
  rw [padding]
  omega

/-- A small size is aligned by its padding. -/
theorem fdtTagalignInt_ofNat {n : Nat} (small : n < 2 ^ 31) :
    fdtTagalignInt (Int32.ofNat n) = Int32.ofNat (n + padding n) := by
  rw [fdtTagalignInt, ofInt_ofNat small, fdtTagalign_ofNat small, toInt_ofNat64]

/-- The size of the token of a property. -/
theorem size_prop : Token.size (.prop property) = 12 + cellsOf property.value := by
  rw [Token.size_eq, Token.body, cellsOf, ← property.fills]
  simp only [List.length_append, length_bigEndian]
  omega

/-- The token of a property in parts. -/
theorem bytes_prop : Token.bytes (.prop property) = bigEndian 4 3 ++
    bigEndian 4 property.value.length ++ bigEndian 4 property.nameoff.toNat ++
      (property.value ++ property.pad) := by
  simp [Token.bytes, Token.body, Token.tag]

/-- A property whose value fills a gap. -/
def fillGap (nameoff : UInt32) (value gap : List UInt8) (length : gap.length = cellsOf value) :
    Property where
  nameoff := nameoff
  value := value
  pad := gap.drop value.length
  fills := by rw [List.length_drop, length, cellsOf, Nat.add_sub_cancel_left]

/-- Tokens that have taken the place of others. -/
theorem Becomes.exchanged {total old new : Nat} {start : Memory} {middle middle' : List Token}
    (becomes : Becomes start fdt total (resized image.header old new)
      (image.upTo before ++ bytesOf middle' ++ image.downFrom behind) m)
    (split : image.tokens = before ++ (middle ++ behind))
    (sizes : extent middle + new = extent middle' + old) (aligned : fdt &&& 7 = 0)
    (admits : image.Admits (before ++ (middle' ++ behind)))
    (room : image.totalsize.toNat ≤ total) :
    Editable m fdt (image.withTokens (before ++ (middle' ++ behind)) admits) := by
  have struct : (image.withTokens (before ++ (middle' ++ behind)) admits).sizeStruct + _ = _ :=
    Image.sizeStruct_withTokens
  have strings : (image.withTokens (before ++ (middle' ++ behind)) admits).offStrings + _ = _ :=
    Image.offStrings_withTokens
  have extents := congrArg extent split
  rw [extent_append, extent_append] at extents
  rw [extent_append, extent_append] at struct strings
  refine becomes.editable aligned ?_ Image.body_exchange.symm room
  have first : image.header.sizeDtStruct + (Int32.ofNat new - Int32.ofNat old).toUInt32 =
      UInt32.ofNat (image.withTokens (before ++ (middle' ++ behind)) admits).sizeStruct :=
    ofNat_add_sub (by omega)
  have second : image.header.offDtStrings + (Int32.ofNat new - Int32.ofNat old).toUInt32 =
      UInt32.ofNat (image.withTokens (before ++ (middle' ++ behind)) admits).offStrings :=
    ofNat_add_sub (by omega)
  rw [resized, first, second]
  rfl

/-- The address behind so many tokens. -/
theorem Editable.address_upTo (editable : Editable m fdt image) (before : List Token) (offset : Nat) :
    structAt m fdt + UInt64.ofNat (extent before) + UInt64.ofNat offset =
      fdt + UInt64.ofNat (40 + ((image.upTo before).length + offset)) := by
  rw [add_offsets, editable.address, image.length_upTo, Nat.add_assoc]

/-- Behind some tokens of the block stands the address behind what lies in front of them. -/
theorem Editable.address_behind (editable : Editable m fdt image) (before : List Token) :
    structAt m fdt + UInt64.ofNat (extent before) =
      fdt + UInt64.ofNat (40 + (image.upTo before).length) := by
  have base := editable.address_upTo before 0
  rwa [show UInt64.ofNat 0 = 0 from rfl, UInt64.add_zero, Nat.add_zero] at base

section Resize

/-- What stands before the value of a property. -/
def headOf (image : Image) (before : List Token) (length : Nat) (nameoff : UInt32) : List UInt8 :=
  image.upTo before ++ bigEndian 4 3 ++ bigEndian 4 length ++ bigEndian 4 nameoff.toNat

/-- The head of a property takes twelve bytes behind what lies in front of it. -/
theorem length_headOf {length : Nat} {nameoff : UInt32} :
    (headOf image before length nameoff).length = (image.upTo before).length + 12 := by
  simp [headOf]

/-- An image is split around the value of a property. -/
theorem body_prop (split : image.tokens = before ++ .prop property :: behind) :
    image.body = headOf image before property.value.length property.nameoff ++
      (property.value ++ property.pad) ++ image.downFrom behind := by
  have split : image.tokens = before ++ ([Token.prop property] ++ behind) := split
  rw [image.body_split split, bytesOf_cons, bytes_prop, bytesOf_nil, headOf]
  simp only [List.append_assoc, List.append_nil]

/-- A value and its padding take whole cells. -/
theorem length_cells : (property.value ++ property.pad).length = cellsOf property.value := by
  rw [List.length_append, property.fills, cellsOf]

/-- The sizes around a property. -/
theorem size_around (split : image.tokens = before ++ .prop property :: behind) :
    40 + (image.upTo before).length + 12 + cellsOf property.value + (image.downFrom behind).length =
      image.size := by
  have split : image.tokens = before ++ ([Token.prop property] ++ behind) := split
  have size := image.size_split split
  rw [extent_cons, extent_nil, size_prop] at size
  omega

variable (editable : Editable m fdt image) (split : image.tokens = before ++ .prop property :: behind)
  (found : fdtGetProperty m fdt node key =
    .ok (structAt m fdt + UInt64.ofNat (extent before), Int32.ofNat property.value.length))
  (short : value.length < 2 ^ 31 - 16)

include editable split found short

/-- `fdt_resize_property_` where there is room. -/
theorem Editable.resize
    (room : image.size + cellsOf value ≤ image.totalsize.toNat + cellsOf property.value) :
    Returns (fdtResizeProperty fdt node key (Int32.ofNat value.length)) m fun prop m' =>
      prop = structAt m fdt + UInt64.ofNat (extent before) ∧ ∃ gap, gap.length = cellsOf value ∧
        Becomes m fdt image.totalsize.toNat
          (resized image.header (cellsOf property.value) (cellsOf value))
          (headOf image before value.length property.nameoff ++ gap ++ image.downFrom behind) m' := by
  have becomes : Becomes m fdt image.totalsize.toNat image.header image.body m :=
    editable.stands.becomes
  have sized : Sized image.totalsize.toNat image.header image.body := sized_image
  have around := size_around split
  have small := image.size_lt
  have pads := padding_lt value.length
  have cells : cellsOf value < 2 ^ 31 := by
    rw [cellsOf]
    omega
  have old : property.value.length < 2 ^ 31 := by
    rw [cellsOf] at around
    omega
  have align : fdtTagalignInt (Int32.ofNat property.value.length) =
      Int32.ofNat (property.value ++ property.pad).length := by
    rw [length_cells]
    exact fdtTagalignInt_ofNat old
  have align' : fdtTagalignInt (Int32.ofNat value.length) = Int32.ofNat (cellsOf value) :=
    fdtTagalignInt_ofNat (by omega)
  have place : structAt m fdt + UInt64.ofNat (extent before) + 12 = fdt + UInt64.ofNat
      (40 + (headOf image before property.value.length property.nameoff).length) := by
    rw [length_headOf]
    exact editable.address_upTo before 12
  unfold fdtResizeProperty
  refine Returns.bind (Returns.get ?_)
  rw [found]
  dsimp only
  rw [align, align']
  refine Returns.bind ((becomes.spliceStruct (body_prop split) place sized cells ?_).mono ?_)
  · rw [length_headOf]
    omega
  rintro _ m' ⟨gap, length, becomes⟩
  have parts : headOf image before property.value.length property.nameoff ++ gap ++
      image.downFrom behind = image.upTo before ++ bigEndian 4 3 ++
        bigEndian 4 property.value.length ++ (bigEndian 4 property.nameoff.toNat ++ gap ++
          image.downFrom behind) := by
    simp only [headOf, List.append_assoc]
  have number : cpuToFdt32 (Int32.ofNat value.length).toUInt32 = bigEndian 4 value.length := by
    rw [cpuToFdt32_eq, Int32.toUInt32_ofNat', toNat_ofNat32 (by omega)]
  have lenAt : structAt m fdt + UInt64.ofNat (extent before) + 4 =
      fdt + UInt64.ofNat (40 + (image.upTo before ++ bigEndian 4 3).length) := by
    rw [List.length_append, length_bigEndian]
    exact editable.address_upTo before 4
  rw [number]
  refine Returns.bind ((becomes.writeAt parts (by simp) lenAt).mono fun _ m' becomes => ?_)
  refine Returns.pure ⟨rfl, gap, length, ?_⟩
  rw [length_cells] at becomes
  simpa only [headOf, List.append_assoc] using becomes

/-- `fdt_resize_property_` where there is none. -/
theorem Editable.resize_full
    (full : image.totalsize.toNat + cellsOf property.value < image.size + cellsOf value) :
    Aborts (fdtResizeProperty fdt node key (Int32.ofNat value.length)) m (-fdtErrNospace)
      (Becomes m fdt image.totalsize.toNat image.header image.body) := by
  have becomes : Becomes m fdt image.totalsize.toNat image.header image.body m :=
    editable.stands.becomes
  have around := size_around split
  have small := image.size_lt
  have pads := padding_lt value.length
  have cells : cellsOf value < 2 ^ 31 := by
    rw [cellsOf]
    omega
  have old : property.value.length < 2 ^ 31 := by
    rw [cellsOf] at around
    omega
  have align : fdtTagalignInt (Int32.ofNat property.value.length) =
      Int32.ofNat (property.value ++ property.pad).length := by
    rw [length_cells]
    exact fdtTagalignInt_ofNat old
  have align' : fdtTagalignInt (Int32.ofNat value.length) = Int32.ofNat (cellsOf value) :=
    fdtTagalignInt_ofNat (by omega)
  have place : structAt m fdt + UInt64.ofNat (extent before) + 12 = fdt + UInt64.ofNat
      (40 + (headOf image before property.value.length property.nameoff).length) := by
    rw [length_headOf]
    exact editable.address_upTo before 12
  unfold fdtResizeProperty
  refine Returns.aborts (Returns.get ?_)
  rw [found]
  dsimp only
  rw [align, align']
  refine Aborts.bind (becomes.spliceStruct_full (body_prop split) place sized_image cells ?_)
  rw [length_headOf]
  omega

/-- `fdt_setprop` replaces the value of a property where there is room. -/
theorem Editable.setprop_found
    (room : image.size + cellsOf value ≤ image.totalsize.toNat + cellsOf property.value) :
    Returns (fdtSetprop fdt node key value) m fun _ m' =>
      ∃ (property' : Property) (admits : image.Admits (before ++ ([Token.prop property'] ++ behind))),
        property'.nameoff = property.nameoff ∧ property'.value = value ∧
        Editable m' fdt (image.withTokens (before ++ ([Token.prop property'] ++ behind)) admits) ∧
        ChangedIn (window fdt image.totalsize.toNat) m m' := by
  unfold fdtSetprop fdtSetpropPlaceholder
  refine Returns.bind (Returns.bind (Returns.of_run editable.rwProbe ?_))
  refine Returns.bind (Returns.tryCatch ((editable.resize split found short room).mono ?_))
  rintro _ m' ⟨rfl, gap, length, becomes⟩
  have parts : headOf image before value.length property.nameoff ++ gap ++ image.downFrom behind =
      headOf image before value.length property.nameoff ++ gap.take value.length ++
        (gap.drop value.length ++ image.downFrom behind) := by
    simp only [← List.append_assoc, List.append_assoc _ (gap.take _), List.take_append_drop]
  have longer : value.length ≤ gap.length := by
    rw [length, cellsOf]
    omega
  have place : structAt m fdt + UInt64.ofNat (extent before) + 12 = fdt + UInt64.ofNat
      (40 + (headOf image before value.length property.nameoff).length) := by
    rw [length_headOf]
    exact editable.address_upTo before 12
  refine Returns.pure ((becomes.writeAt parts ?_ place).mono fun _ m' becomes => ?_)
  · rw [List.length_take, Nat.min_eq_left longer]
  · have split' : image.tokens = before ++ ([Token.prop property] ++ behind) := split
    let property' := fillGap property.nameoff value gap length
    have size : Token.size (.prop property') = 12 + cellsOf value := size_prop
    have extents := congrArg extent split'
    rw [extent_append, extent_append, extent_cons, extent_nil, size_prop] at extents
    have admits : image.Admits (before ++ ([Token.prop property'] ++ behind)) := by
      rw [Image.Admits, extent_append, extent_append, extent_cons, extent_nil, size]
      omega
    have bytes : Token.bytes (.prop property') = bigEndian 4 3 ++ bigEndian 4 value.length ++
        bigEndian 4 property.nameoff.toNat ++ (value ++ gap.drop value.length) := bytes_prop
    have ready : Becomes m fdt image.totalsize.toNat
        (resized image.header (cellsOf property.value) (cellsOf value))
        (image.upTo before ++ bytesOf [Token.prop property'] ++ image.downFrom behind) m' := by
      rw [bytesOf_cons, bytes, bytesOf_nil, List.append_nil]
      simpa only [headOf, List.append_assoc] using becomes
    refine ⟨property', admits, rfl, rfl, ?_, becomes.changed⟩
    refine ready.exchanged split' ?_ editable.aligned admits le_rfl
    rw [extent_cons, extent_nil, extent_cons, extent_nil, size_prop, size]
    omega

/-- Where there is none it leaves the image. -/
theorem Editable.setprop_full
    (full : image.totalsize.toNat + cellsOf property.value < image.size + cellsOf value) :
    Aborts (fdtSetprop fdt node key value) m (-fdtErrNospace) fun m' =>
      Editable m' fdt image ∧ ChangedIn (window fdt image.totalsize.toNat) m m' := by
  unfold fdtSetprop fdtSetpropPlaceholder
  refine Aborts.bind (Returns.aborts (Returns.of_run editable.rwProbe ?_))
  refine Aborts.bind (Aborts.rethrow ((editable.resize_full split found short full).mono ?_))
  intro m' becomes
  have other : (-fdtErrNospace == -fdtErrNotfound) = false := by decide
  simp only [other, Bool.false_eq_true, if_false]
  exact Aborts.throw ⟨becomes.editable editable.aligned rfl rfl le_rfl, becomes.changed⟩

end Resize

/-- The address behind the strings. -/
theorem Editable.stringsEnd (editable : Editable m fdt image) :
    fdt + (fdtOffDtStrings m fdt).toUInt64 + (fdtSizeDtStrings m fdt).toUInt64 =
      fdt + UInt64.ofNat (40 + image.body.length) := by
  have offset : (fdtOffDtStrings m fdt).toUInt64 = UInt64.ofNat image.offStrings := by
    rw [editable.stands.offDtStrings, ← image.header_offStrings, ← UInt32.toNat_toUInt64,
      UInt64.ofNat_toNat]
  have size : (fdtSizeDtStrings m fdt).toUInt64 = UInt64.ofNat image.strings.length := by
    rw [editable.stands.sizeDtStrings, ← image.header_sizeStrings, ← UInt32.toNat_toUInt64,
      UInt64.ofNat_toNat]
  rw [offset, size, add_offsets, image.length_body, Image.size]

/-- A name takes its bytes and a zero byte. -/
theorem length_nameBytes : (key ++ [0]).length = key.length + 1 := by simp

/-- A name among the strings costs nothing. -/
theorem nameCost_found {strings : List UInt8} {place : Nat} (found : nameAt strings place = some key) :
    nameCost strings key = 0 := by
  have inside := nameAt_inside found
  exact if_pos ⟨place, List.mem_range.mpr (by omega), found⟩

/-- A name that is missing costs its bytes and a zero byte. -/
theorem nameCost_missing {strings : List UInt8}
    (missing : ∀ {place}, nameAt strings place ≠ some key) : nameCost strings key = key.length + 1 :=
  if_neg fun ⟨_, _, found⟩ => missing found

section FindAdd

variable (editable : Editable m fdt image) (noNul : 0 ∉ key) (short : key.length < 2 ^ 31 - 16)

include editable noNul short

/-- `fdt_find_add_string_` where there is room: the name is among the strings, perhaps a new one. -/
theorem Editable.findAddString
    (room : image.size + nameCost image.strings key ≤ image.totalsize.toNat) :
    Returns (fdtFindAddString fdt key) m fun found m' => ∃ (place : Nat) (more : List UInt8)
      (hasRoom : image.HasRoom more), found = (Int32.ofNat place, decide (more ≠ [])) ∧
        (more = [] ∨ more = key ++ [0]) ∧ more.length = nameCost image.strings key ∧
        place < 2 ^ 31 ∧ nameAt (image.strings ++ more) place = some key ∧
        Becomes m fdt image.totalsize.toNat (image.withStrings more hasRoom).header
          (image.withStrings more hasRoom).body m' := by
  have readable := editable.readable
  have small := image.size_lt
  rw [Image.size] at small
  have becomes : Becomes m fdt image.totalsize.toNat image.header image.body m :=
    editable.stands.becomes
  unfold fdtFindAddString
  refine Returns.bind (Returns.get ?_)
  dsimp only
  cases found : fdtFindString m (fdt + (fdtOffDtStrings m fdt).toUInt64)
      (fdtSizeDtStrings m fdt).toInt32 key with
  | some place =>
    have named := readable.findString_some noNul found
    have inside := nameAt_inside named
    have hasRoom : image.HasRoom [] := image.size_le
    refine Returns.pure ⟨place, [], hasRoom, rfl, .inl rfl, (nameCost_found named).symm, by omega, ?_, ?_⟩
    · rwa [List.append_nil]
    · rwa [Image.header_withStrings, Image.body_withStrings, List.append_nil]
  | none =>
    have missing {place : Nat} : nameAt image.strings place ≠ some key :=
      readable.findString_none noNul found
    have cost := nameCost_missing missing
    have hasRoom : image.HasRoom (key ++ [0]) := by
      rw [Image.HasRoom, length_nameBytes]
      omega
    have whole : image.body = image.body ++ [] ++ [] := by simp
    have sized : Sized image.totalsize.toNat image.header image.body := sized_image
    have length := image.length_body
    have behind := editable.stringsEnd
    have strings : fdtSizeDtStrings m fdt = UInt32.ofNat image.strings.length :=
      editable.stands.sizeDtStrings
    have named : nameAt (image.strings ++ (key ++ [0])) image.strings.length = some key := by
      refine nameAt_eq_some.mpr ⟨noNul, [], ?_⟩
      rw [List.drop_left]
    rw [whole] at becomes sized
    unfold fdtSpliceString
    refine Returns.bind (Returns.bind (Returns.get ?_))
    rw [behind]
    have room' : 40 + image.body.length + (key.length + 1) + ([] : List UInt8).length ≤
        image.totalsize.toNat := by
      rw [List.length_nil]
      omega
    refine Returns.bind ((becomes.splice sized (by omega) room').mono ?_)
    rintro _ m' ⟨gap, gapLength, becomes⟩
    have longer : fdtSizeDtStrings m' fdt + (Int32.ofNat (key.length + 1)).toUInt32 =
        UInt32.ofNat (image.strings.length + (key ++ [0]).length) := by
      rw [becomes.stands.sizeDtStrings, Int32.toUInt32_ofNat', length_nameBytes]
      exact (UInt32.ofNat_add ..).symm
    refine (becomes.setSizeDtStrings longer).mono fun _ m' becomes => ?_
    have same : (key ++ [0]).length = gap.length := by rw [gapLength, length_nameBytes]
    refine Returns.bind ((becomes.write same).mono fun _ m' becomes => ?_)
    have value : (fdtSizeDtStrings m fdt).toInt32 = Int32.ofNat image.strings.length := by
      rw [strings, UInt32.toInt32_ofNat']
    have some : decide (key ++ [0] ≠ []) = true := by simp
    refine Returns.pure ⟨image.strings.length, key ++ [0], hasRoom, ?_, .inr rfl, ?_, by omega, named, ?_⟩
    · rw [value, some]
    · rw [length_nameBytes, cost]
    · rw [List.append_nil] at becomes
      rwa [Image.header_withStrings, Image.body_withStrings]

/-- Elsewhere it changes nothing. -/
theorem Editable.findAddString_full
    (full : image.totalsize.toNat < image.size + nameCost image.strings key) :
    Aborts (fdtFindAddString fdt key) m (-fdtErrNospace)
      (Becomes m fdt image.totalsize.toNat image.header image.body) := by
  have readable := editable.readable
  have small := image.size_lt
  have becomes : Becomes m fdt image.totalsize.toNat image.header image.body m :=
    editable.stands.becomes
  unfold fdtFindAddString
  refine Returns.aborts (Returns.get ?_)
  dsimp only
  cases found : fdtFindString m (fdt + (fdtOffDtStrings m fdt).toUInt64)
      (fdtSizeDtStrings m fdt).toInt32 key with
  | some place =>
    have named := readable.findString_some noNul found
    have within := image.size_le
    have free := nameCost_found named
    omega
  | none =>
    have cost := nameCost_missing (readable.findString_none noNul found)
    have whole : image.body = image.body ++ [] ++ [] := by simp
    have sized : Sized image.totalsize.toNat image.header image.body := sized_image
    have length := image.length_body
    have full' : image.totalsize.toNat < 40 + image.body.length + (key.length + 1) +
        ([] : List UInt8).length := by
      rw [List.length_nil]
      omega
    rw [whole] at becomes sized ⊢
    unfold fdtSpliceString
    refine Aborts.bind (Returns.aborts (Returns.get ?_))
    rw [editable.stringsEnd]
    exact Aborts.bind (becomes.splice_full sized (by omega) full')

end FindAdd

/-- A gap for a property in parts. -/
theorem exists_parts {gap : List UInt8} {n : Nat} (length : gap.length = 12 + n) :
    ∃ a b c d : List UInt8, gap = a ++ b ++ c ++ d ∧ a.length = 4 ∧ b.length = 4 ∧ c.length = 4 ∧
      d.length = n := by
  refine ⟨gap.take 4, (gap.drop 4).take 4, (gap.drop 8).take 4, gap.drop 12, ?_, ?_, ?_, ?_, ?_⟩
  · have first := List.take_append_drop 4 gap
    have second := List.take_append_drop 4 (gap.drop 4)
    have third := List.take_append_drop 4 (gap.drop 8)
    rw [List.drop_drop] at second third
    rw [List.append_assoc, List.append_assoc, third, second, first]
  all_goals
    simp only [List.length_take, List.length_drop]
    omega

/-- Write the head of a property into a gap. -/
theorem Becomes.writeHead {total place : Nat} {start : Memory} {header : Header}
    {front back gap : List UInt8} {prop result : UInt64}
    (becomes : Becomes start fdt total header (front ++ gap ++ back) m)
    (length : gap.length = 12 + cellsOf value) (short : value.length < 2 ^ 31 - 16)
    (address : ∀ offset, prop + UInt64.ofNat offset = fdt + UInt64.ofNat (40 + (front.length + offset))) :
    Returns (do
      Edit.write prop fun _ => cpuToFdt32 fdtProp
      Edit.write (prop + 8) fun _ => cpuToFdt32 (Int32.ofNat place).toUInt32
      Edit.write (prop + 4) fun _ => cpuToFdt32 (Int32.ofNat value.length).toUInt32
      return result) m fun last m' => last = result ∧
        ∃ gap, gap.length = cellsOf value ∧ Becomes start fdt total header
          (front ++ bigEndian 4 3 ++ bigEndian 4 value.length ++
            bigEndian 4 (UInt32.ofNat place).toNat ++ gap ++ back) m' := by
  obtain ⟨a, b, c, d, rfl, la, lb, lc, ld⟩ := exists_parts length
  have tag : cpuToFdt32 fdtProp = bigEndian 4 3 := cpuToFdt32_eq fdtProp
  have nameoff : cpuToFdt32 (Int32.ofNat place).toUInt32 = bigEndian 4 (UInt32.ofNat place).toNat := by
    rw [cpuToFdt32_eq, Int32.toUInt32_ofNat']
  have number : cpuToFdt32 (Int32.ofNat value.length).toUInt32 = bigEndian 4 value.length := by
    rw [cpuToFdt32_eq, Int32.toUInt32_ofNat', toNat_ofNat32 (by omega)]
  rw [tag, nameoff, number]
  have here : prop = fdt + UInt64.ofNat (40 + front.length) := by
    have base := address 0
    rwa [show UInt64.ofNat 0 = 0 from rfl, UInt64.add_zero, Nat.add_zero] at base
  have first : front ++ (a ++ b ++ c ++ d) ++ back = front ++ a ++ (b ++ c ++ d ++ back) := by
    simp only [List.append_assoc]
  refine Returns.bind ((becomes.writeAt first (by rw [length_bigEndian, la]) here).mono
    fun _ m' becomes => ?_)
  have second : front ++ bigEndian 4 3 ++ (b ++ c ++ d ++ back) =
      front ++ bigEndian 4 3 ++ b ++ c ++ (d ++ back) := by
    simp only [List.append_assoc]
  have nameoffAt : prop + 8 = fdt + UInt64.ofNat (40 + (front ++ bigEndian 4 3 ++ b).length) := by
    rw [List.length_append, List.length_append, length_bigEndian, lb, Nat.add_assoc]
    exact address 8
  refine Returns.bind ((becomes.writeAt second (by rw [length_bigEndian, lc]) nameoffAt).mono
    fun _ m' becomes => ?_)
  have third : front ++ bigEndian 4 3 ++ b ++ bigEndian 4 (UInt32.ofNat place).toNat ++ (d ++ back) =
      front ++ bigEndian 4 3 ++ b ++ (bigEndian 4 (UInt32.ofNat place).toNat ++ (d ++ back)) := by
    simp only [List.append_assoc]
  have lenAt : prop + 4 = fdt + UInt64.ofNat (40 + (front ++ bigEndian 4 3).length) := by
    rw [List.length_append, length_bigEndian]
    exact address 4
  refine Returns.bind ((becomes.writeAt third (by rw [length_bigEndian, lb]) lenAt).mono
    fun _ m' becomes => Returns.pure ⟨rfl, d, ld, ?_⟩)
  simpa only [List.append_assoc] using becomes

/-- The body of an image where tokens may be put in. -/
theorem body_gap (split : image.tokens = before ++ behind) :
    image.body = image.upTo before ++ [] ++ image.downFrom behind := by
  have none : image.tokens = before ++ ([] ++ behind) := split
  rw [Image.body_split none, bytesOf_nil]

/-- The parts around a place between two tokens add up to the image. -/
theorem size_gap (split : image.tokens = before ++ behind) :
    40 + (image.upTo before).length + (image.downFrom behind).length = image.size := by
  have none : image.tokens = before ++ ([] ++ behind) := split
  have size := image.size_split none
  rwa [extent_nil, Nat.add_zero] at size

/-- The address of a token. -/
theorem Editable.offsetPtr (editable : Editable m fdt image) (split : image.tokens = before ++ behind) :
    fdtOffsetPtr_ m fdt (Int32.ofNat (extent before)) =
      fdt + UInt64.ofNat (40 + (image.upTo before).length) := by
  have tokens : HasTokens m fdt (before ++ behind) := split ▸ editable.readable.tokens
  rw [fdtOffsetPtr_at tokens.offset_small.1]
  exact editable.address_behind before

/-- A bare property takes less than an `int` can say. -/
theorem cellsOf_lt (short : value.length < 2 ^ 31 - 16) : 12 + cellsOf value < 2 ^ 31 := by
  have pads := padding_lt value.length
  rw [cellsOf]
  omega

/-- The length that `fdt_add_property_` computes. -/
theorem proplen_eq (short : value.length < 2 ^ 31 - 16) :
    toInt (12 + fdtTagalign (ofInt (Int32.ofNat value.length))) =
      Int32.ofNat (12 + cellsOf value) := by
  have sum : UInt64.ofNat (12 + cellsOf value) =
      12 + UInt64.ofNat (value.length + padding value.length) := UInt64.ofNat_add ..
  rw [ofInt_ofNat (by omega), fdtTagalign_ofNat (by omega), ← toInt_ofNat64, sum]

/-- The handler of `fdt_add_property_` takes a new string back. -/
theorem Becomes.takeBack {total : Nat} {start : Memory} {more : List UInt8}
    {hasRoom : image.HasRoom more} {status : Int32} {α : Type}
    (becomes : Becomes start fdt total (image.withStrings more hasRoom).header
      (image.withStrings more hasRoom).body m) (which : more = [] ∨ more = key ++ [0]) :
    Aborts (do
      if decide (more ≠ []) then
        fdtDelLastString fdt key
      throw status : Edit Memory α) m status (Becomes start fdt total image.header image.body) := by
  rcases which with rfl | rfl
  · -- The name was there before.
    refine Returns.aborts (Returns.pure (Aborts.throw ?_))
    rwa [Image.header_withStrings, Image.body_withStrings, List.append_nil] at becomes
  · -- The string that was added is deleted again.
    have added : decide (key ++ [0] ≠ []) = true := by simp
    rw [if_pos added]
    have shorter : fdtSizeDtStrings m fdt - (Int32.ofNat (key.length + 1)).toUInt32 =
        UInt32.ofNat image.strings.length := by
      rw [becomes.stands.sizeDtStrings, Image.header_withStrings, Int32.toUInt32_ofNat',
        length_nameBytes, UInt32.ofNat_add, UInt32.add_sub_cancel]
    refine Returns.aborts ((becomes.setSizeDtStrings shorter).mono fun _ _ becomes => Aborts.throw ?_)
    rw [Image.header_withStrings, Image.body_withStrings] at becomes
    exact becomes.shorten

/-- Without the property `fdt_resize_property_` stops at once. -/
theorem resize_missing {len : Int32}
    (missing : fdtGetProperty m fdt node key = .error (-fdtErrNotfound)) :
    Aborts (fdtResizeProperty fdt node key len) m (-fdtErrNotfound) fun m' => m = m' := by
  unfold fdtResizeProperty
  refine Returns.aborts (Returns.get ?_)
  rw [missing]
  exact Aborts.throw rfl

/-- Behind the token of a node its properties start. -/
theorem Editable.nodeStart {name : Name} (editable : Editable m fdt image)
    (split : image.tokens = before ++ .beginNode name :: behind) :
    fdtCheckNodeOffset m fdt (Int32.ofNat (extent before)) =
        Int32.ofNat (extent (before ++ [Token.beginNode name])) ∧
      extent (before ++ [Token.beginNode name]) < 2 ^ 31 := by
  have tokens : HasTokens m fdt (before ++ .beginNode name :: behind) :=
    split ▸ editable.readable.tokens
  have later : HasTokens m fdt ((before ++ [Token.beginNode name]) ++ behind) := by
    rwa [List.append_assoc, List.singleton_append]
  have next : extent before + Token.size (.beginNode name) =
      extent (before ++ [Token.beginNode name]) := by simp
  rw [tokens.checkNode, next]
  exact ⟨rfl, later.offset_small.1⟩

/-- With more strings the tokens are split in the same way. -/
theorem strings_split {name : Name} (split : image.tokens = before ++ .beginNode name :: behind)
    {more : List UInt8} (hasRoom : image.HasRoom more) :
    (image.withStrings more hasRoom).tokens = before ++ [Token.beginNode name] ++ behind := by
  rw [List.append_assoc, List.singleton_append]
  exact split

section AddProperty

variable {name : Name} (editable : Editable m fdt image)
  (split : image.tokens = before ++ .beginNode name :: behind) (noNul : 0 ∉ key)
  (shortKey : key.length < 2 ^ 31 - 16) (short : value.length < 2 ^ 31 - 16)

include editable split noNul shortKey short

/-- `fdt_add_property_` where there is room. -/
theorem Editable.addProperty
    (room : image.size + nameCost image.strings key + (12 + cellsOf value) ≤ image.totalsize.toNat) :
    Returns (fdtAddProperty fdt (Int32.ofNat (extent before)) key (Int32.ofNat value.length)) m
      fun prop m' => ∃ (more : List UInt8) (hasRoom : image.HasRoom more) (nameoff : UInt32)
        (gap : List UInt8), more.length = nameCost image.strings key ∧
        nameAt (image.strings ++ more) nameoff.toNat = some key ∧ gap.length = cellsOf value ∧
        prop = fdt + UInt64.ofNat (40 + (image.upTo (before ++ [Token.beginNode name])).length) ∧
        Becomes m fdt image.totalsize.toNat
          (resized (image.withStrings more hasRoom).header 0 (12 + cellsOf value))
          (headOf (image.withStrings more hasRoom) (before ++ [Token.beginNode name]) value.length nameoff ++
            gap ++ (image.withStrings more hasRoom).downFrom behind) m' := by
  obtain ⟨next, small⟩ := editable.nodeStart split
  unfold fdtAddProperty
  refine Returns.bind (Returns.get ?_)
  simp only [next]
  refine Returns.bind (returns_failIf (decide_eq_false (not_ofNat_neg small)) ?_)
  refine Returns.bind ((editable.findAddString noNul shortKey (by omega)).mono ?_)
  rintro found m' ⟨place, more, hasRoom, rfl, -, cost, placeSmall, named, becomes⟩
  refine Returns.bind (returns_failIf (decide_eq_false (not_ofNat_neg placeSmall)) ?_)
  refine Returns.bind (Returns.get ?_)
  -- From here on the name is among the strings.
  have editable' : Editable m' fdt (image.withStrings more hasRoom) :=
    becomes.editable editable.aligned rfl rfl le_rfl
  have split' := strings_split split hasRoom
  have sized : Sized (image.withStrings more hasRoom).totalsize.toNat
    (image.withStrings more hasRoom).header (image.withStrings more hasRoom).body := sized_image
  have size := size_gap split'
  have longer : (image.withStrings more hasRoom).size = image.size + more.length :=
    Image.size_withStrings
  dsimp only
  rw [editable'.offsetPtr split', proplen_eq short]
  refine Returns.bind (Returns.tryCatch ((becomes.spliceStruct (body_gap split') rfl sized
    (cellsOf_lt short) (by omega)).mono ?_))
  rintro _ m'' ⟨gap, gapLength, becomes⟩
  have address (offset : Nat) : fdt + UInt64.ofNat (40 +
      ((image.withStrings more hasRoom).upTo (before ++ [Token.beginNode name])).length) +
        UInt64.ofNat offset = fdt + UInt64.ofNat (40 +
          (((image.withStrings more hasRoom).upTo (before ++ [Token.beginNode name])).length +
            offset)) := by
    rw [add_offsets, Nat.add_assoc]
  refine (becomes.writeHead gapLength short address).mono ?_
  rintro _ last ⟨rfl, gap, gapLength, becomes⟩
  refine ⟨more, hasRoom, UInt32.ofNat place, gap, cost, ?_, gapLength, ?_, becomes⟩
  · rwa [toNat_ofNat32 (by omega)]
  · rfl

/-- Elsewhere it takes its string back. -/
theorem Editable.addProperty_full
    (full : image.totalsize.toNat < image.size + nameCost image.strings key + (12 + cellsOf value)) :
    Aborts (fdtAddProperty fdt (Int32.ofNat (extent before)) key (Int32.ofNat value.length)) m
      (-fdtErrNospace) (Becomes m fdt image.totalsize.toNat image.header image.body) := by
  obtain ⟨next, small⟩ := editable.nodeStart split
  unfold fdtAddProperty
  refine Returns.aborts (Returns.get ?_)
  simp only [next]
  refine Returns.aborts (returns_failIf (decide_eq_false (not_ofNat_neg small)) ?_)
  by_cases room : image.size + nameCost image.strings key ≤ image.totalsize.toNat
  · refine Returns.aborts ((editable.findAddString noNul shortKey room).mono ?_)
    rintro found m' ⟨place, more, hasRoom, rfl, which, cost, placeSmall, named, becomes⟩
    refine Returns.aborts (returns_failIf (decide_eq_false (not_ofNat_neg placeSmall)) ?_)
    refine Returns.aborts (Returns.get ?_)
    have editable' : Editable m' fdt (image.withStrings more hasRoom) :=
      becomes.editable editable.aligned rfl rfl le_rfl
    have split' := strings_split split hasRoom
    have sized : Sized (image.withStrings more hasRoom).totalsize.toNat
      (image.withStrings more hasRoom).header (image.withStrings more hasRoom).body := sized_image
    have size := size_gap split'
    have longer : (image.withStrings more hasRoom).size = image.size + more.length :=
      Image.size_withStrings
    dsimp only
    rw [editable'.offsetPtr split', proplen_eq short]
    refine Aborts.bind (Aborts.rethrow ((becomes.spliceStruct_full (body_gap split') rfl sized
      (cellsOf_lt short) (by omega)).mono ?_))
    intro last becomes
    exact becomes.takeBack which
  · exact Aborts.bind (editable.findAddString_full noNul shortKey (by omega))

/-- `fdt_setprop` adds a property where there is room. -/
theorem Editable.setprop_missing
    (missing : fdtGetProperty m fdt (Int32.ofNat (extent before)) key = .error (-fdtErrNotfound))
    (room : image.size + nameCost image.strings key + (12 + cellsOf value) ≤ image.totalsize.toNat) :
    Returns (fdtSetprop fdt (Int32.ofNat (extent before)) key value) m fun _ m' =>
      ∃ (more : List UInt8) (hasRoom : image.HasRoom more) (property : Property)
        (admits : (image.withStrings more hasRoom).Admits
          ((before ++ [Token.beginNode name]) ++ ([Token.prop property] ++ behind))),
        more.length = nameCost image.strings key ∧
        nameAt (image.strings ++ more) property.nameoff.toNat = some key ∧ property.value = value ∧
        Editable m' fdt ((image.withStrings more hasRoom).withTokens
          ((before ++ [Token.beginNode name]) ++ ([Token.prop property] ++ behind)) admits) ∧
        ChangedIn (window fdt image.totalsize.toNat) m m' := by
  unfold fdtSetprop fdtSetpropPlaceholder
  refine Returns.bind (Returns.bind (Returns.of_run editable.rwProbe ?_))
  refine Returns.bind (Aborts.tryCatch
    ((resize_missing missing).mono ?_))
  rintro _ rfl
  simp only [beq_self_eq_true, if_true]
  refine (editable.addProperty split noNul shortKey short room).mono ?_
  rintro _ m' ⟨more, hasRoom, nameoff, gap, cost, named, length, rfl, becomes⟩
  let image' := image.withStrings more hasRoom
  let before' := before ++ [Token.beginNode name]
  have parts : headOf image' before' value.length nameoff ++ gap ++ image'.downFrom behind =
      headOf image' before' value.length nameoff ++ gap.take value.length ++
        (gap.drop value.length ++ image'.downFrom behind) := by
    simp only [← List.append_assoc, List.append_assoc _ (gap.take _), List.take_append_drop]
  have longer : value.length ≤ gap.length := by
    rw [length, cellsOf]
    omega
  have place : fdt + UInt64.ofNat (40 + (image.upTo before').length) + 12 =
      fdt + UInt64.ofNat (40 + (headOf image' before' value.length nameoff).length) := by
    rw [length_headOf]
    exact add_offsets ..
  refine Returns.pure ((becomes.writeAt parts ?_ place).mono fun _ m' becomes => ?_)
  · rw [List.length_take, Nat.min_eq_left longer]
  let property := fillGap nameoff value gap length
  have size : Token.size (.prop property) = 12 + cellsOf value := size_prop
  have split' : image'.tokens = before' ++ ([] ++ behind) := by
    change image.tokens = _
    rw [split]
    simp [before']
  have extents : extent image'.tokens = extent before' + extent behind := by
    rw [split', extent_append, List.nil_append]
  have wider : image'.size = image.size + more.length := Image.size_withStrings
  have admits : image'.Admits (before' ++ ([Token.prop property] ++ behind)) := by
    have total : image'.totalsize = image.totalsize := rfl
    have around : extent (before' ++ ([Token.prop property] ++ behind)) =
        extent before' + (12 + cellsOf value + extent behind) := by
      rw [extent_append, List.singleton_append, extent_cons, size]
    rw [Image.Admits, total, extents, around]
    omega
  have bytes : Token.bytes (.prop property) = bigEndian 4 3 ++ bigEndian 4 value.length ++
      bigEndian 4 nameoff.toNat ++ (value ++ gap.drop value.length) := bytes_prop
  have ready : Becomes m fdt image.totalsize.toNat (resized image'.header 0 (12 + cellsOf value))
      (image'.upTo before' ++ bytesOf [Token.prop property] ++ image'.downFrom behind) m' := by
    rw [bytesOf_cons, bytes, bytesOf_nil, List.append_nil]
    simpa only [headOf, List.append_assoc] using becomes
  refine ⟨more, hasRoom, property, admits, cost, named, rfl, ?_, becomes.changed⟩
  refine ready.exchanged split' ?_ editable.aligned admits le_rfl
  rw [extent_cons, extent_nil, size]
  omega

/-- Where there is none it leaves the image. -/
theorem Editable.setprop_missing_full
    (missing : fdtGetProperty m fdt (Int32.ofNat (extent before)) key = .error (-fdtErrNotfound))
    (full : image.totalsize.toNat < image.size + nameCost image.strings key + (12 + cellsOf value)) :
    Aborts (fdtSetprop fdt (Int32.ofNat (extent before)) key value) m (-fdtErrNospace) fun m' =>
      Editable m' fdt image ∧ ChangedIn (window fdt image.totalsize.toNat) m m' := by
  unfold fdtSetprop fdtSetpropPlaceholder
  refine Aborts.bind (Returns.aborts (Returns.of_run editable.rwProbe ?_))
  refine Aborts.bind (Aborts.rethrow ((resize_missing missing).mono ?_))
  rintro _ rfl
  simp only [beq_self_eq_true, if_true]
  exact (editable.addProperty_full split noNul shortKey short full).mono fun m' becomes =>
    ⟨becomes.editable editable.aligned rfl rfl le_rfl, becomes.changed⟩

end AddProperty

end DragonStub

import DragonStub.Verif.FdtImage

/-!
# Reserved memory

The reserved ranges of a device tree are entries of an address and a size, and an entry without size
ends them. To add or delete one moves everything behind it.
-/

namespace DragonStub

open ByteMemory DeviceTree FlatTree Stateful Word

variable {m : Memory} {fdt address size : UInt64} {ranges : List (UInt64 × UInt64)} {stop : UInt64}
  {image : Image} {index : Nat}

/-- Memory has these reserved ranges inside the tree. -/
structure Reserves (m : Memory) (fdt : UInt64) (ranges : List (UInt64 × UInt64)) (stop : UInt64) :
    Prop where
  /-- The entries. -/
  held : Holds m (fdt + (fdtOffMemRsvmap m fdt).toUInt64) (rangesBytes (ranges ++ [(stop, 0)]))
  /-- None of them ends the others. -/
  sizes : ∀ range ∈ ranges, range.2 ≠ 0
  /-- They are inside the tree. -/
  inside : (fdtOffMemRsvmap m fdt).toNat + (16 * ranges.length + 16) ≤ (fdtTotalsize m fdt).toNat
  /-- The size of the tree is an `int`. -/
  small : (fdtTotalsize m fdt).toNat < 2 ^ 31

/-- The address of an entry. -/
theorem fdtMemRsv_at (small : index < 2 ^ 27) : fdtMemRsv_ m fdt (Int32.ofNat index) =
    fdt + (fdtOffMemRsvmap m fdt).toUInt64 + UInt64.ofNat (16 * index) := by
  have sixteen : (16 : UInt64) = UInt64.ofNat 16 := rfl
  rw [fdtMemRsv_, ofInt_ofNat (by omega), sixteen, ← UInt64.ofNat_mul, Nat.mul_comm]

namespace Reserves

/-- The reserve map fits an `int`. -/
theorem count (reserves : Reserves m fdt ranges stop) : 16 * ranges.length + 16 < 2 ^ 31 := by
  have inside := reserves.inside
  have small := reserves.small
  omega

/-- `fdt_mem_rsv` lets every entry through, the last one too. -/
theorem memRsv (reserves : Reserves m fdt ranges stop) (inside : index ≤ ranges.length) :
    fdtMemRsv m fdt (Int32.ofNat index) = some (fdt + (fdtOffMemRsvmap m fdt).toUInt64 +
      UInt64.ofNat (16 * index)) := by
  have bound := reserves.inside
  have small := reserves.small
  have sixteen : (16 : UInt64).toNat = 16 := rfl
  have scaled : (UInt64.ofNat index * 16).toUInt32 = UInt32.ofNat (16 * index) := by
    have product : UInt64.ofNat index * 16 = UInt64.ofNat (16 * index) := by
      rw [Nat.mul_comm, UInt64.ofNat_mul]
      rfl
    rw [product, UInt64.toUInt32_ofNat']
  have absolute : (fdtOffMemRsvmap m fdt + UInt32.ofNat (16 * index)).toNat =
      (fdtOffMemRsvmap m fdt).toNat + 16 * index := by
    rw [UInt32.toNat_add, toNat_ofNat32 (by omega), Nat.mod_eq_of_lt (by omega)]
  have first : ¬fdtOffMemRsvmap m fdt + UInt32.ofNat (16 * index) < fdtOffMemRsvmap m fdt := by
    rw [UInt32.lt_iff_toNat_lt, absolute]
    omega
  have total : ((fdtTotalsize m fdt).toUInt64 - 16).toNat = (fdtTotalsize m fdt).toNat - 16 := by
    rw [UInt64.toNat_sub_of_le, UInt32.toNat_toUInt64, sixteen]
    rw [UInt64.le_iff_toNat_le, UInt32.toNat_toUInt64, sixteen]
    omega
  have second : ¬(fdtOffMemRsvmap m fdt + UInt32.ofNat (16 * index)).toUInt64 >
      (fdtTotalsize m fdt).toUInt64 - 16 := by
    rw [gt_iff_lt, UInt64.lt_iff_toNat_lt, UInt32.toNat_toUInt64, absolute, total]
    omega
  unfold fdtMemRsv
  simp only [ofInt_ofNat (show index < 2 ^ 31 by omega), scaled, first, second, if_false]
  rw [fdtMemRsv_at (by omega)]

/-- The entry at an index. -/
theorem entry (reserves : Reserves m fdt ranges stop) {range : UInt64 × UInt64}
    (there : (ranges ++ [(stop, 0)])[index]? = some range) :
    Holds m (fdt + (fdtOffMemRsvmap m fdt).toUInt64 + UInt64.ofNat (16 * index)) (rangeBytes range) := by
  have held := reserves.held
  generalize ranges ++ [(stop, 0)] = entries at there held
  obtain ⟨inside, rfl⟩ := List.getElem?_eq_some_iff.mp there
  have split : entries = entries.take index ++ entries[index] :: entries.drop (index + 1) := by simp
  rw [split, rangesBytes_append, rangesBytes_cons] at held
  have behind := held.behind.before
  rwa [length_rangesBytes, List.length_take, Nat.min_eq_left (by omega)] at behind

/-- The words of an entry. -/
theorem words (reserves : Reserves m fdt ranges stop) {range : UInt64 × UInt64}
    (there : (ranges ++ [(stop, 0)])[index]? = some range) :
    fdt64Ld m (fdt + (fdtOffMemRsvmap m fdt).toUInt64 + UInt64.ofNat (16 * index)) = range.1 ∧
    fdt64Ld m (fdt + (fdtOffMemRsvmap m fdt).toUInt64 + UInt64.ofNat (16 * index) + 8) = range.2 := by
  have held := reserves.entry there
  have behind := held.behind
  rw [length_bigEndian] at behind
  constructor
  · apply fdt64Ld_eq
    rw [cpuToFdt64_eq]
    exact held.before
  · apply fdt64Ld_eq
    rw [cpuToFdt64_eq]
    exact behind

/-- The loop of `fdt_num_mem_rsv` stops at the entry without size. -/
theorem numLoop (reserves : Reserves m fdt ranges stop) {turns : Nat} (inside : index ≤ ranges.length)
    (enough : ranges.length < index + turns) :
    numMemRsvLoop m fdt turns (Int32.ofNat index) = Int32.ofNat ranges.length := by
  induction turns generalizing index with
  | zero => omega
  | succ turns ih =>
    rw [numMemRsvLoop, reserves.memRsv inside]
    rcases Nat.eq_or_lt_of_le inside with last | earlier
    · subst last
      have there : (ranges ++ [(stop, 0)])[ranges.length]? = some (stop, 0) := by simp
      simp only [(reserves.words there).2]
      rfl
    · have there : (ranges ++ [(stop, 0)])[index]? = some ranges[index] := by
        rw [List.getElem?_append_left earlier, List.getElem?_eq_getElem earlier]
      have some : ¬(ranges[index].2 == 0) = true := by
        simpa using reserves.sizes _ (List.getElem_mem earlier)
      have next : Int32.ofNat index + 1 = Int32.ofNat (index + 1) := (Int32.ofNat_add index 1).symm
      simp only [(reserves.words there).2, some, next]
      exact ih earlier (by omega)

/-- `fdt_num_mem_rsv` counts the ranges. -/
theorem numMemRsv (reserves : Reserves m fdt ranges stop) :
    fdtNumMemRsv m fdt = Int32.ofNat ranges.length := by
  have count := reserves.count
  exact reserves.numLoop (Nat.zero_le ranges.length) (by omega)

/-- The size of the ranges, as `fdt_open_into` and `fdt_pack` compute it. -/
theorem memRsvSize (reserves : Reserves m fdt ranges stop) :
    toInt (ofInt (fdtNumMemRsv m fdt + 1) * 16) = Int32.ofNat (16 * ranges.length + 16) := by
  have count := reserves.count
  have one : Int32.ofNat ranges.length + 1 = Int32.ofNat (ranges.length + 1) :=
    (Int32.ofNat_add ranges.length 1).symm
  have sixteen : (16 : UInt64) = UInt64.ofNat 16 := rfl
  rw [reserves.numMemRsv, one, ofInt_ofNat (by omega), sixteen, ← UInt64.ofNat_mul, toInt_ofNat64]
  congr 1
  omega

/-- `fdt_get_mem_rsv` reads a range. -/
theorem getMemRsv (reserves : Reserves m fdt ranges stop) (probe : ¬fdtRoProbe m fdt < 0)
    (inside : index < ranges.length) :
    fdtGetMemRsv m fdt (Int32.ofNat index) = .ok ranges[index] := by
  have there : (ranges ++ [(stop, 0)])[index]? = some ranges[index] := by
    rw [List.getElem?_append_left inside, List.getElem?_eq_getElem inside]
  obtain ⟨first, second⟩ := reserves.words there
  unfold fdtGetMemRsv
  simp only [probe, if_false, reserves.memRsv inside.le, first, second]

end Reserves

/-- The reserved ranges of an image. -/
theorem Editable.reserves (editable : Editable m fdt image) :
    Reserves m fdt image.reserved image.stop := by
  have stands := editable.stands
  have offset : (fdtOffMemRsvmap m fdt).toNat = image.offReserved := by
    rw [stands.offMemRsvmap, image.header_offReserved]
  have total : (fdtTotalsize m fdt).toNat = image.totalsize.toNat := by
    rw [stands.totalsize]
    rfl
  have within := image.size_le
  have bounds := And.intro image.offReserved_le image.offStruct_le
  have small := image.small
  rw [Image.size] at within
  refine ⟨?_, image.ranges, by omega, by omega⟩
  have held := stands.held
  rw [Image.body, Image.ahead, ← List.append_assoc, ← List.append_assoc, ← List.append_assoc,
    ← List.append_assoc] at held
  have behind := held.before.before.before.behind
  have start : (image.header.bytes ++ image.front).length = (fdtOffMemRsvmap m fdt).toNat := by
    rw [List.length_append, Header.length_bytes, offset, Image.offReserved]
  rw [start, ← UInt32.toNat_toUInt64, UInt64.ofNat_toNat] at behind
  exact behind

section Splice

variable {start : Memory} {total : Nat} {header : Header} {body front old back : List UInt8}

/-- `fdt_splice_mem_rsv_` with one entry more, where there is room. -/
theorem Becomes.insertMemRsv (becomes : Becomes start fdt total header body m)
    (split : body = front ++ back) {p : UInt64} (place : p = fdt + UInt64.ofNat (40 + front.length))
    (sized : Sized total header body) (room : 40 + front.length + 16 + back.length ≤ total) :
    Returns (fdtSpliceMemRsv fdt p 0 1) m fun _ m' => ∃ gap, gap.length = 16 ∧
      Becomes start fdt total
        { header with
          offDtStruct := header.offDtStruct + 16
          offDtStrings := header.offDtStrings + 16 } (front ++ gap ++ back) m' := by
  have whole : body = front ++ [] ++ back := by rw [split, List.append_nil]
  subst whole place
  have sixteen : 16 < 2 ^ 31 := by decide
  refine Returns.bind ((becomes.splice sized sixteen room).mono ?_)
  rintro _ m' ⟨gap, length, becomes⟩
  have struct := congrArg (· + (16 : UInt32)) becomes.stands.offDtStruct
  refine Returns.bind ((becomes.setOffDtStruct struct).mono fun _ m' becomes => ?_)
  have strings := congrArg (· + (16 : UInt32)) becomes.stands.offDtStrings
  exact (becomes.setOffDtStrings strings).mono fun _ m' becomes => ⟨gap, length, becomes⟩

/-- Elsewhere it changes nothing. -/
theorem Becomes.insertMemRsv_full (becomes : Becomes start fdt total header body m)
    (split : body = front ++ back) {p : UInt64} (place : p = fdt + UInt64.ofNat (40 + front.length))
    (sized : Sized total header body) (full : total < 40 + front.length + 16 + back.length) :
    Aborts (fdtSpliceMemRsv fdt p 0 1) m (-fdtErrNospace) (Becomes start fdt total header body) := by
  have whole : body = front ++ [] ++ back := by rw [split, List.append_nil]
  subst whole place
  have sixteen : 16 < 2 ^ 31 := by decide
  exact Aborts.bind (becomes.splice_full sized sixteen full)

/-- `fdt_splice_mem_rsv_` with one entry less. -/
theorem Becomes.deleteMemRsv (becomes : Becomes start fdt total header body m)
    (split : body = front ++ old ++ back) (entry : old.length = 16) {p : UInt64}
    (place : p = fdt + UInt64.ofNat (40 + front.length)) (sized : Sized total header body) :
    Returns (fdtSpliceMemRsv fdt p 1 0) m fun _ m' => Becomes start fdt total
      { header with
        offDtStruct := header.offDtStruct + (-16 : Int32).toUInt32
        offDtStrings := header.offDtStrings + (-16 : Int32).toUInt32 } (front ++ back) m' := by
  subst split place
  have within := becomes.stands.within
  rw [List.length_append, List.length_append] at within
  have zero : 0 < 2 ^ 31 := by decide
  have spliced := becomes.splice sized zero (by omega)
  rw [entry] at spliced
  refine Returns.bind (spliced.mono ?_)
  rintro _ m' ⟨gap, length, becomes⟩
  obtain rfl := List.eq_nil_of_length_eq_zero length
  rw [List.append_nil] at becomes
  have struct := congrArg (· + (-16 : Int32).toUInt32) becomes.stands.offDtStruct
  refine Returns.bind ((becomes.setOffDtStruct struct).mono fun _ m' becomes => ?_)
  have strings := congrArg (· + (-16 : Int32).toUInt32) becomes.stands.offDtStrings
  exact becomes.setOffDtStrings strings

/-- The two words of an entry are written one after the other. -/
theorem Becomes.writeRange (becomes : Becomes start fdt total header (front ++ old ++ back) m)
    (entry : old.length = 16) {p : UInt64} (place : p = fdt + UInt64.ofNat (40 + front.length))
    (range : UInt64 × UInt64) :
    Returns (do
      Edit.write p fun _ => cpuToFdt64 range.1
      Edit.write (p + 8) fun _ => cpuToFdt64 range.2) m fun _ =>
        Becomes start fdt total header (front ++ rangeBytes range ++ back) := by
  have first : (old.take 8).length = 8 := by
    rw [List.length_take]
    omega
  have second : (old.drop 8).length = 8 := by
    rw [List.length_drop]
    omega
  have parts : front ++ old ++ back = front ++ old.take 8 ++ (old.drop 8 ++ back) := by
    simp only [← List.append_assoc, List.append_assoc _ (old.take _), List.take_append_drop]
  have parts' : front ++ bigEndian 8 range.1.toNat ++ (old.drop 8 ++ back) =
      front ++ bigEndian 8 range.1.toNat ++ old.drop 8 ++ back := by
    simp only [List.append_assoc]
  have behind : p + 8 =
      fdt + UInt64.ofNat (40 + (front ++ bigEndian 8 range.1.toNat).length) := by
    rw [place, List.length_append, length_bigEndian, ← Nat.add_assoc]
    exact add_offsets ..
  rw [cpuToFdt64_eq, cpuToFdt64_eq]
  refine Returns.bind ((becomes.writeAt parts (by rw [length_bigEndian, first]) place).mono
    fun _ m' becomes => ?_)
  refine (becomes.writeAt parts' (by rw [length_bigEndian, second]) behind).mono
    fun _ m' becomes => ?_
  rw [rangeBytes]
  simpa only [List.append_assoc] using becomes

end Splice

/-- The address of an entry of an image. -/
theorem Editable.memRsv_address (editable : Editable m fdt image)
    (inside : index ≤ image.reserved.length) : fdtMemRsv_ m fdt (Int32.ofNat index) =
      fdt + UInt64.ofNat (40 + (image.front ++ rangesBytes (image.reserved.take index)).length) := by
  have count := editable.reserves.count
  have offset : (fdtOffMemRsvmap m fdt).toUInt64 = UInt64.ofNat image.offReserved := by
    rw [editable.stands.offMemRsvmap, ← image.header_offReserved, ← UInt32.toNat_toUInt64,
      UInt64.ofNat_toNat]
  rw [fdtMemRsv_at (by omega), offset, add_offsets, List.length_append, length_rangesBytes,
    List.length_take, Nat.min_eq_left inside, Image.offReserved, Nat.add_assoc]

/-- The ranges after one more: an entry without size ends them where it stands. -/
def addRange (ranges : List (UInt64 × UInt64)) (address size : UInt64) : List (UInt64 × UInt64) :=
  if size = 0 then ranges else ranges ++ [(address, size)]

/-- What stands behind the reserved ranges of an image. -/
def behindReserved (image : Image) : List UInt8 :=
  rangeBytes (image.stop, 0) ++ image.middle ++ blockOf image.tokens ++ image.rear

/-- An image is split behind its reserved ranges. -/
theorem body_reserved : image.body =
    image.front ++ rangesBytes image.reserved ++ behindReserved image := by
  rw [Image.body, Image.ahead, Image.reservedBytes, rangesBytes_append, behindReserved]
  simp [rangesBytes]

/-- An image with an entry more in its reserve map has the blocks behind the map sixteen bytes
further. -/
theorem header_withEntry {between : List UInt8} {sizes : ∀ range ∈ ranges, range.2 ≠ 0}
    {keeps : image.Keeps ranges between} (more : 16 * ranges.length + between.length =
      16 * image.reserved.length + image.middle.length + 16) :
    (image.withReserved ranges stop between sizes keeps).header = { image.header with
      offDtStruct := UInt32.ofNat (image.offStruct + 16)
      offDtStrings := UInt32.ofNat (image.offStrings + 16) } := by
  have struct : (image.withReserved ranges stop between sizes keeps).offStruct + _ = _ :=
    Image.offStruct_withReserved
  have strings : (image.withReserved ranges stop between sizes keeps).offStrings + _ = _ :=
    Image.offStrings_withReserved
  have first : (image.withReserved ranges stop between sizes keeps).offStruct =
      image.offStruct + 16 := by omega
  have second : (image.withReserved ranges stop between sizes keeps).offStrings =
      image.offStrings + 16 := by omega
  rw [Image.header_withReserved, first, second]

/-- What becomes of an image when an entry is put behind its reserved ranges. -/
structure EntryAdded (image : Image) (address size : UInt64) (image' : Image) : Prop where
  /-- The blocks behind the entry are moved. -/
  header : image'.header = { image.header with
    offDtStruct := UInt32.ofNat (image.offStruct + 16)
    offDtStrings := UInt32.ofNat (image.offStrings + 16) }
  /-- The entry stands behind the ranges. -/
  body : image'.body = image.front ++ rangesBytes image.reserved ++ rangeBytes (address, size) ++
    behindReserved image
  /-- It is a range if it has a size. -/
  reserved : image'.reserved = addRange image.reserved address size
  /-- The tokens stay. -/
  tokens : image'.tokens = image.tokens
  /-- The strings stay. -/
  strings : image'.strings = image.strings
  /-- The room stays. -/
  totalsize : image'.totalsize = image.totalsize

/-- The image takes sixteen bytes more. -/
theorem EntryAdded.grows {image' : Image} (added : EntryAdded image address size image') :
    image'.size = image.size + 16 := by
  have length := image.length_body
  have length' := image'.length_body
  rw [body_reserved] at length
  rw [added.body] at length'
  simp only [List.length_append, length_rangeBytes] at length length'
  omega

/-- An entry without a size ends the ranges, with the entry that ended them behind it. -/
theorem exists_entryAdded_empty (room : image.size + 16 ≤ image.totalsize.toNat) :
    ∃ image', EntryAdded image address 0 image' := by
  have length := image.length_body
  rw [body_reserved, List.length_append] at length
  have keeps : image.Keeps image.reserved (rangeBytes (image.stop, 0) ++ image.middle) := by
    rw [Image.Keeps, List.length_append, length_rangeBytes]
    omega
  refine ⟨image.withReserved image.reserved address _ image.ranges keeps,
    header_withEntry ?_, ?_, (if_pos rfl).symm, rfl, rfl, rfl⟩
  · rw [List.length_append, length_rangeBytes]
    omega
  · rw [Image.body_withReserved, behindReserved, rangesBytes_append]
    simp [rangesBytes]

/-- An entry with a size is one more range. -/
theorem exists_entryAdded_range (room : image.size + 16 ≤ image.totalsize.toNat)
    (some : size ≠ 0) : ∃ image', EntryAdded image address size image' := by
  have length := image.length_body
  rw [body_reserved, List.length_append] at length
  have sizes : ∀ range ∈ image.reserved ++ [(address, size)], range.2 ≠ 0 := by
    intro range member
    rcases List.mem_append.mp member with before | last
    · exact image.ranges range before
    · rw [List.mem_singleton.mp last]
      exact some
  have keeps : image.Keeps (image.reserved ++ [(address, size)]) image.middle := by
    rw [Image.Keeps, List.length_append, List.length_singleton]
    omega
  refine ⟨image.withReserved _ image.stop image.middle sizes keeps, header_withEntry ?_, ?_,
    (if_neg some).symm, rfl, rfl, rfl⟩
  · rw [List.length_append, List.length_singleton]
    omega
  · rw [Image.body_withReserved, behindReserved]
    simp [rangesBytes]

/-- `fdt_add_mem_rsv` where there is room. -/
theorem Editable.addMemRsv (editable : Editable m fdt image)
    (room : image.size + 16 ≤ image.totalsize.toNat) :
    Returns (fdtAddMemRsv fdt address size) m fun _ m' => ∃ image', Editable m' fdt image' ∧
      image'.reserved = addRange image.reserved address size ∧ image'.tokens = image.tokens ∧
      image'.strings = image.strings ∧ image'.totalsize = image.totalsize ∧
      image'.size = image.size + 16 ∧ ChangedIn (window fdt image.totalsize.toNat) m m' := by
  have becomes : Becomes m fdt image.totalsize.toNat image.header image.body m :=
    editable.stands.becomes
  have place := editable.memRsv_address (le_refl image.reserved.length)
  rw [List.take_length] at place
  have length := image.length_body
  rw [body_reserved, List.length_append] at length
  obtain ⟨image', added⟩ : ∃ image', EntryAdded image address size image' := by
    by_cases none : size = 0
    · rw [none]
      exact exists_entryAdded_empty room
    · exact exists_entryAdded_range room none
  unfold fdtAddMemRsv
  refine Returns.bind (Returns.of_run editable.rwProbe ?_)
  refine Returns.bind (Returns.get ?_)
  rw [editable.reserves.numMemRsv, place]
  refine Returns.bind ((becomes.insertMemRsv body_reserved rfl sized_image (by omega)).mono ?_)
  rintro _ m' ⟨gap, sixteen, becomes⟩
  refine (becomes.writeRange sixteen rfl (address, size)).mono fun _ m' becomes => ?_
  refine ⟨image', becomes.editable editable.aligned ?_ added.body.symm ?_, added.reserved,
    added.tokens, added.strings, added.totalsize, added.grows, becomes.changed⟩
  · rw [added.header, UInt32.ofNat_add, UInt32.ofNat_add]
    rfl
  · rw [added.totalsize]

/-- Elsewhere it changes nothing. -/
theorem Editable.addMemRsv_full (editable : Editable m fdt image)
    (full : image.totalsize.toNat < image.size + 16) :
    Aborts (fdtAddMemRsv fdt address size) m (-fdtErrNospace) fun m' =>
      Editable m' fdt image ∧ ChangedIn (window fdt image.totalsize.toNat) m m' := by
  have becomes : Becomes m fdt image.totalsize.toNat image.header image.body m :=
    editable.stands.becomes
  have place := editable.memRsv_address (le_refl image.reserved.length)
  rw [List.take_length] at place
  have length := image.length_body
  rw [body_reserved, List.length_append] at length
  unfold fdtAddMemRsv
  refine Returns.aborts (Returns.of_run editable.rwProbe ?_)
  refine Returns.aborts (Returns.get ?_)
  rw [editable.reserves.numMemRsv, place]
  exact Aborts.bind ((becomes.insertMemRsv_full body_reserved rfl sized_image (by omega)).mono
    fun _ becomes => ⟨becomes.editable editable.aligned rfl rfl le_rfl, becomes.changed⟩)

/-- `fdt_del_mem_rsv` deletes a range that is there. -/
theorem Editable.delMemRsv (editable : Editable m fdt image) (inside : index < image.reserved.length) :
    Returns (fdtDelMemRsv fdt (Int32.ofNat index)) m fun _ m' => ∃ image', Editable m' fdt image' ∧
      image'.reserved = image.reserved.eraseIdx index ∧ image'.tokens = image.tokens ∧
      image'.strings = image.strings ∧ image'.totalsize = image.totalsize ∧
      image'.size + 16 = image.size ∧ ChangedIn (window fdt image.totalsize.toNat) m m' := by
  have becomes : Becomes m fdt image.totalsize.toNat image.header image.body m :=
    editable.stands.becomes
  have count := editable.reserves.count
  have split : image.body = image.front ++ rangesBytes (image.reserved.take index) ++
      rangeBytes image.reserved[index] ++ (rangesBytes (image.reserved.drop (index + 1)) ++
        behindReserved image) := by
    have here : image.reserved = image.reserved.take index ++
        image.reserved[index] :: image.reserved.drop (index + 1) := by simp
    rw [body_reserved]
    conv_lhs => rw [here, rangesBytes_append, rangesBytes_cons]
    simp only [List.append_assoc]
  have enough : ¬Int32.ofNat index ≥ Int32.ofNat image.reserved.length := by
    rw [ge_iff_le, ofNat_le_ofNat (by omega) (by omega)]
    omega
  unfold fdtDelMemRsv
  refine Returns.bind (Returns.get ?_)
  refine Returns.bind (Returns.of_run editable.rwProbe ?_)
  refine Returns.bind (Returns.get ?_)
  rw [editable.memRsv_address inside.le, editable.reserves.numMemRsv]
  refine Returns.bind (returns_failIf (decide_eq_false enough) ?_)
  refine (becomes.deleteMemRsv split length_rangeBytes rfl sized_image).mono fun _ m' becomes => ?_
  have sizes : ∀ range ∈ image.reserved.eraseIdx index, range.2 ≠ 0 := fun range member =>
    image.ranges range (List.mem_of_mem_eraseIdx member)
  have fewer := List.length_eraseIdx_of_lt inside
  have within := image.size_le
  have keeps : image.Keeps (image.reserved.eraseIdx index) image.middle := by
    rw [Image.Keeps]
    omega
  refine ⟨image.withReserved _ image.stop image.middle sizes keeps,
    becomes.editable editable.aligned ?_ ?_ le_rfl, rfl, rfl, rfl, rfl, ?_, becomes.changed⟩
  · have struct : (image.withReserved _ image.stop image.middle sizes keeps).offStruct + _ = _ :=
      Image.offStruct_withReserved
    have strings : (image.withReserved _ image.stop image.middle sizes keeps).offStrings + _ = _ :=
      Image.offStrings_withReserved
    have less {n k : Nat} (shorter : k + 16 = n) :
        UInt32.ofNat n + (-16 : Int32).toUInt32 = UInt32.ofNat k := by
      have gone : (-16 : Int32).toUInt32 = -UInt32.ofNat 16 := rfl
      rw [← shorter, UInt32.ofNat_add, gone, ← UInt32.sub_eq_add_neg, UInt32.add_sub_cancel]
    have first : (image.withReserved _ image.stop image.middle sizes keeps).offStruct + 16 =
        image.offStruct := by omega
    have second : (image.withReserved _ image.stop image.middle sizes keeps).offStrings + 16 =
        image.offStrings := by omega
    rw [Image.header_withReserved, ← less first, ← less second]
    rfl
  · rw [Image.body_withReserved, behindReserved, rangesBytes_append, List.eraseIdx_eq_take_drop_succ,
      rangesBytes_append]
    simp [rangesBytes]
  · have shorter : (image.withReserved _ image.stop image.middle sizes keeps).size + _ = _ :=
      Image.size_withReserved
    omega

end DragonStub

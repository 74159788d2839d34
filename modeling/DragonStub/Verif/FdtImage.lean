import DragonStub.Base.FlatImage
import DragonStub.Boot.LibfdtRw
import DragonStub.Verif.FdtProps
import DragonStub.Verif.Memmove

/-!
# Device trees that can be changed

A device tree of version 17 with its blocks in order stands in memory as an image. It can be read, and
the words of its header are set one by one while the blocks behind it move.
-/

namespace DragonStub

open ByteMemory DeviceTree FlatTree Stateful Word

variable {m m' : Memory} {fdt : UInt64} {header header' : Header} {body front old back : List UInt8}

/-- A check that does not fail comes through and changes nothing. -/
theorem returns_failIf {Blob : Type} {fdt : Blob} {bad : Bool} {status : Int32}
    {post : Unit → Blob → Prop} (good : bad = false) (holds : post () fdt) :
    Returns (Edit.failIf bad status) fdt post := by
  subst good
  exact Returns.pure holds

/-- A check that fails stops with its error and changes nothing. -/
theorem aborts_failIf {Blob : Type} {fdt : Blob} {bad : Bool} {status : Int32} {post : Blob → Prop}
    (fails : bad = true) (holds : post fdt) : Aborts (Edit.failIf bad status) fdt status post := by
  subst fails
  exact Aborts.throw holds

/-- A check changes nothing, whether it fails or not. -/
@[simp] theorem run_failIf {Blob : Type} {fdt : Blob} {bad : Bool} {status : Int32} :
    (Edit.failIf bad status : Edit Blob Unit).run.run fdt =
      if bad = true then (.error status, fdt) else (.ok (), fdt) := by
  cases bad <;> rfl

/-- Writing bytes leaves a memory that holds them at the address. -/
theorem returns_write {address : UInt64} {bytes : Memory → List UInt8} {post : Unit → Memory → Prop}
    (holds : post () (storeAll m address (bytes m))) : Returns (Edit.write address bytes) m post :=
  Returns.modify holds

/-- Memory has a header and the bytes behind it, in a room that does not wrap. -/
structure Lies (m : Memory) (fdt : UInt64) (total : Nat) (header : Header) (body : List UInt8) :
    Prop where
  /-- The bytes. -/
  held : Holds m fdt (header.bytes ++ body)
  /-- They are within the room. -/
  within : 40 + body.length ≤ total
  /-- The room does not wrap. -/
  fits : fdt.toNat + total < 2 ^ 64

/-- The room is the size that the header says. -/
abbrev Stands (m : Memory) (fdt : UInt64) (header : Header) (body : List UInt8) : Prop :=
  Lies m fdt header.totalsize.toNat header body

variable {start : Memory} {total : Nat}

/-- One word of the header. -/
theorem Lies.word (stands : Lies m fdt total header body) (place : Nat) (inside : place < 10) :
    fdt32Ld m (fdt + UInt64.ofNat (4 * place)) = header.words.get ⟨place, inside⟩ := by
  apply fdt32Ld_eq
  rw [cpuToFdt32_eq]
  exact holds_word stands.held inside

/-- An image that lies in the memory is no longer than the address space. -/
theorem Lies.short (stands : Lies m fdt total header body) :
    (header.bytes ++ body).length ≤ 2 ^ 64 := by
  have within := stands.within
  have fits := stands.fits
  rw [List.length_append, Header.length_bytes]
  omega

section Header

/-- The magic number read at the image is that of its header. -/
theorem Lies.magic (stands : Lies m fdt total header body) : fdtMagic m fdt = header.magic := by
  have word := stands.word 0 (by decide)
  rwa [Nat.mul_zero, show UInt64.ofNat 0 = 0 from rfl, UInt64.add_zero] at word

/-- The total size read at the image is that of its header. -/
theorem Lies.totalsize (stands : Lies m fdt total header body) :
    fdtTotalsize m fdt = header.totalsize := stands.word 1 (by decide)

/-- The offset of the structure block read at the image is that of its header. -/
theorem Lies.offDtStruct (stands : Lies m fdt total header body) :
    fdtOffDtStruct m fdt = header.offDtStruct := stands.word 2 (by decide)

/-- The offset of the strings read at the image is that of its header. -/
theorem Lies.offDtStrings (stands : Lies m fdt total header body) :
    fdtOffDtStrings m fdt = header.offDtStrings := stands.word 3 (by decide)

/-- The offset of the reserve map read at the image is that of its header. -/
theorem Lies.offMemRsvmap (stands : Lies m fdt total header body) :
    fdtOffMemRsvmap m fdt = header.offMemRsvmap := stands.word 4 (by decide)

/-- The version read at the image is that of its header. -/
theorem Lies.version (stands : Lies m fdt total header body) :
    fdtVersion m fdt = header.version := stands.word 5 (by decide)

/-- The oldest compatible version read at the image is that of its header. -/
theorem Lies.lastCompVersion (stands : Lies m fdt total header body) :
    fdtLastCompVersion m fdt = header.lastCompVersion := stands.word 6 (by decide)

/-- The boot CPU read at the image is that of its header. -/
theorem Lies.bootCpuidPhys (stands : Lies m fdt total header body) :
    fdtBootCpuidPhys m fdt = header.bootCpuidPhys := stands.word 7 (by decide)

/-- The size of the strings read at the image is that of its header. -/
theorem Lies.sizeDtStrings (stands : Lies m fdt total header body) :
    fdtSizeDtStrings m fdt = header.sizeDtStrings := stands.word 8 (by decide)

/-- The size of the structure block read at the image is that of its header. -/
theorem Lies.sizeDtStruct (stands : Lies m fdt total header body) :
    fdtSizeDtStruct m fdt = header.sizeDtStruct := stands.word 9 (by decide)

end Header

/-- From a memory on, memory has got this header and these bytes behind it, and nothing has changed
outside the room. -/
structure Becomes (start : Memory) (fdt : UInt64) (total : Nat) (header : Header) (body : List UInt8)
    (m : Memory) : Prop where
  /-- What memory has. -/
  stands : Lies m fdt total header body
  /-- What has not changed. -/
  changed : ChangedIn (window fdt total) start m

/-- An image that lies in the memory has become itself. -/
theorem Lies.becomes (stands : Lies m fdt total header body) : Becomes m fdt total header body m :=
  ⟨stands, ChangedIn.refl _ m⟩

/-- Set one word of the header. -/
theorem Becomes.setWord (becomes : Becomes start fdt total header body m) (place : Nat) {word : UInt32}
    {val : Memory → UInt32} (inside : place < 10) (value : val m = word)
    (same : header.words.set place word = header'.words) :
    Returns (Edit.write (fdt + UInt64.ofNat (4 * place)) fun m => cpuToFdt32 (val m)) m fun _ =>
      Becomes start fdt total header' body := by
  obtain ⟨stands, earlier⟩ := becomes
  have written := holds_setWord stands.held inside word stands.short
  rw [same] at written
  have within := stands.within
  have fits := stands.fits
  refine returns_write ⟨⟨?_, within, fits⟩, ?_⟩
  · rw [value, cpuToFdt32_eq]
    exact written
  · have changed : ChangedIn (window (fdt + UInt64.ofNat (4 * place)) (cpuToFdt32 (val m)).length) m
        (storeAll m (fdt + UInt64.ofNat (4 * place)) (cpuToFdt32 (val m))) :=
      changedIn_storeAll (by simp [cpuToFdt32])
    refine earlier.trans (changed.mono (window_part ?_ ?_))
    · have four : (cpuToFdt32 (val m)).length = 4 := rfl
      omega
    · omega

section Setters

variable {val : Memory → UInt32} {word : UInt32}

/-- Setting the magic number changes that word of the header. -/
theorem Becomes.setMagic (becomes : Becomes start fdt total header body m) (value : val m = word) :
    Returns (fdtSetMagic fdt val) m fun _ =>
      Becomes start fdt total { header with magic := word } body := by
  have written : Returns (Edit.write (fdt + UInt64.ofNat (4 * 0)) fun m => cpuToFdt32 (val m)) m fun _ =>
      Becomes start fdt total { header with magic := word } body :=
    becomes.setWord 0 (by omega) value rfl
  rwa [Nat.mul_zero, show UInt64.ofNat 0 = 0 from rfl, UInt64.add_zero] at written

/-- Setting the total size changes that word of the header. -/
theorem Becomes.setTotalsize (becomes : Becomes start fdt total header body m) (value : val m = word) :
    Returns (fdtSetTotalsize fdt val) m fun _ =>
      Becomes start fdt total { header with totalsize := word } body :=
  becomes.setWord 1 (by omega) value rfl

/-- Setting the offset of the structure block changes that word of the header. -/
theorem Becomes.setOffDtStruct (becomes : Becomes start fdt total header body m) (value : val m = word) :
    Returns (fdtSetOffDtStruct fdt val) m fun _ =>
      Becomes start fdt total { header with offDtStruct := word } body :=
  becomes.setWord 2 (by omega) value rfl

/-- Setting the offset of the strings changes that word of the header. -/
theorem Becomes.setOffDtStrings (becomes : Becomes start fdt total header body m) (value : val m = word) :
    Returns (fdtSetOffDtStrings fdt val) m fun _ =>
      Becomes start fdt total { header with offDtStrings := word } body :=
  becomes.setWord 3 (by omega) value rfl

/-- Setting the offset of the reserve map changes that word of the header. -/
theorem Becomes.setOffMemRsvmap (becomes : Becomes start fdt total header body m) (value : val m = word) :
    Returns (fdtSetOffMemRsvmap fdt val) m fun _ =>
      Becomes start fdt total { header with offMemRsvmap := word } body :=
  becomes.setWord 4 (by omega) value rfl

/-- Setting the version changes that word of the header. -/
theorem Becomes.setVersion (becomes : Becomes start fdt total header body m) (value : val m = word) :
    Returns (fdtSetVersion fdt val) m fun _ =>
      Becomes start fdt total { header with version := word } body :=
  becomes.setWord 5 (by omega) value rfl

/-- Setting the oldest compatible version changes that word of the header. -/
theorem Becomes.setLastCompVersion (becomes : Becomes start fdt total header body m) (value : val m = word) :
    Returns (fdtSetLastCompVersion fdt val) m fun _ =>
      Becomes start fdt total { header with lastCompVersion := word } body :=
  becomes.setWord 6 (by omega) value rfl

/-- Setting the boot CPU changes that word of the header. -/
theorem Becomes.setBootCpuidPhys (becomes : Becomes start fdt total header body m) (value : val m = word) :
    Returns (fdtSetBootCpuidPhys fdt val) m fun _ =>
      Becomes start fdt total { header with bootCpuidPhys := word } body :=
  becomes.setWord 7 (by omega) value rfl

/-- Setting the size of the strings changes that word of the header. -/
theorem Becomes.setSizeDtStrings (becomes : Becomes start fdt total header body m) (value : val m = word) :
    Returns (fdtSetSizeDtStrings fdt val) m fun _ =>
      Becomes start fdt total { header with sizeDtStrings := word } body :=
  becomes.setWord 8 (by omega) value rfl

/-- Setting the size of the structure block changes that word of the header. -/
theorem Becomes.setSizeDtStruct (becomes : Becomes start fdt total header body m) (value : val m = word) :
    Returns (fdtSetSizeDtStruct fdt val) m fun _ =>
      Becomes start fdt total { header with sizeDtStruct := word } body :=
  becomes.setWord 9 (by omega) value rfl

end Setters

/-- Write over a part of the bytes behind the header. -/
theorem Becomes.write (becomes : Becomes start fdt total header (front ++ old ++ back) m)
    {bytes : List UInt8} (same : bytes.length = old.length) :
    Returns (Edit.write (fdt + UInt64.ofNat (40 + front.length)) fun _ => bytes) m fun _ =>
      Becomes start fdt total header (front ++ bytes ++ back) := by
  obtain ⟨stands, earlier⟩ := becomes
  have within := stands.within
  have fits := stands.fits
  have short := stands.short
  have held := stands.held
  have ahead : (header.bytes ++ front).length = 40 + front.length := by simp
  rw [← List.append_assoc, ← List.append_assoc] at held short
  have written := held.overwrite same short
  rw [ahead, List.append_assoc, List.append_assoc, ← List.append_assoc front] at written
  simp only [List.length_append] at within
  refine returns_write ⟨⟨written, ?_, fits⟩, ?_⟩
  · simp only [List.length_append, same]
    omega
  · refine earlier.trans ((changedIn_storeAll (by omega)).mono (window_part ?_ ?_))
    · omega
    · omega

/-- The same, with the place of the part given. -/
theorem Becomes.writeAt (becomes : Becomes start fdt total header body m) {bytes : List UInt8}
    {address : UInt64} (split : body = front ++ old ++ back) (same : bytes.length = old.length)
    (place : address = fdt + UInt64.ofNat (40 + front.length)) :
    Returns (Edit.write address fun _ => bytes) m fun _ =>
      Becomes start fdt total header (front ++ bytes ++ back) := by
  subst split place
  exact becomes.write same

/-- The header says where the bytes behind it end, and how large the room is. -/
structure Sized (total : Nat) (header : Header) (body : List UInt8) : Prop where
  /-- Where the strings end. -/
  data : header.offDtStrings.toNat + header.sizeDtStrings.toNat = 40 + body.length
  /-- The room. -/
  full : header.totalsize.toNat = total
  /-- Its size is an `int`. -/
  small : total < 2 ^ 31

section Splice

variable {size : Nat}

/-- The sizes that `fdt_splice_` compares. -/
theorem Lies.spliceSizes (stands : Lies m fdt total header (front ++ old ++ back))
    (sized : Sized total header (front ++ old ++ back)) (small : size < 2 ^ 31) :
    (fdtDataSize m fdt).toNat = 40 + front.length + old.length + back.length ∧
      ¬fdtDataSize m fdt + UInt32.ofNat size < UInt32.ofNat old.length ∧
      (fdtDataSize m fdt - UInt32.ofNat old.length + UInt32.ofNat size).toNat =
        40 + front.length + size + back.length := by
  obtain ⟨data, -, room⟩ := sized
  have within := stands.within
  simp only [List.length_append] at data within
  have whole : (fdtDataSize m fdt).toNat = 40 + front.length + old.length + back.length := by
    rw [fdtDataSize, stands.offDtStrings, stands.sizeDtStrings, UInt32.toNat_add, data,
      Nat.mod_eq_of_lt (by omega)]
    omega
  have before : (UInt32.ofNat old.length).toNat = old.length := toNat_ofNat32 (by omega)
  have after : (UInt32.ofNat size).toNat = size := toNat_ofNat32 (by omega)
  have less : UInt32.ofNat old.length ≤ fdtDataSize m fdt := by
    rw [UInt32.le_iff_toNat_le, before, whole]
    omega
  refine ⟨whole, ?_, ?_⟩
  · rw [UInt32.lt_iff_toNat_lt, UInt32.toNat_add, whole, before, after, Nat.mod_eq_of_lt (by omega)]
    omega
  · rw [UInt32.toNat_add, UInt32.toNat_sub_of_le _ _ less, whole, before, after,
      Nat.mod_eq_of_lt (by omega)]
    omega

/-- `fdt_splice_` goes on to compare the sizes. -/
theorem Lies.spliceChecks (stands : Lies m fdt total header (front ++ old ++ back))
    (sized : Sized total header (front ++ old ++ back)) (small : size < 2 ^ 31) :
    (fdtSplice fdt (fdt + UInt64.ofNat (40 + front.length)) (Int32.ofNat old.length)
      (Int32.ofNat size)).run.run m =
    if total < 40 + front.length + size + back.length then
      (.error (-fdtErrNospace), m)
    else (.ok (), moved m (fdt + UInt64.ofNat (40 + front.length + size))
      (fdt + UInt64.ofNat (40 + front.length + old.length)) back.length) := by
  obtain ⟨whole, enough, longer⟩ := stands.spliceSizes sized small
  have bound := sized.small
  have fits := stands.fits
  have within := stands.within
  simp only [List.length_append] at within
  have oldSmall : old.length < 2 ^ 31 := by omega
  have word {n : Nat} (low : n < 2 ^ 31) : (UInt64.ofNat n).toNat = n := by
    rw [UInt64.toNat_ofNat', Nat.mod_eq_of_lt (by omega)]
  have sum : (UInt64.ofNat (40 + front.length) + UInt64.ofNat old.length).toNat =
      40 + front.length + old.length := by
    rw [← UInt64.ofNat_add, word (by omega)]
  have first : (decide (Int32.ofNat old.length < 0) ||
      decide (UInt64.ofNat (40 + front.length) + UInt64.ofNat old.length <
        UInt64.ofNat (40 + front.length)) ||
      decide (UInt64.ofNat (40 + front.length) + UInt64.ofNat old.length >
        (fdtDataSize m fdt).toUInt64)) = false := by
    rw [decide_eq_false (not_ofNat_neg oldSmall), Bool.false_or, ← Bool.decide_or]
    apply decide_eq_false
    rw [gt_iff_lt, UInt64.lt_iff_toNat_lt, UInt64.lt_iff_toNat_lt, sum, UInt32.toNat_toUInt64, whole,
      word (by omega)]
    omega
  have start := toNat_offset (show fdt.toNat + (40 + front.length) < 2 ^ 64 by omega)
  have second : (decide (fdt + UInt64.ofNat (40 + front.length) < fdt) ||
      decide (fdtDataSize m fdt + UInt32.ofNat size < UInt32.ofNat old.length)) = false := by
    rw [decide_eq_false enough, Bool.or_false]
    apply decide_eq_false
    rw [UInt64.lt_iff_toNat_lt, start]
    omega
  have rest : fdt + (fdtDataSize m fdt).toUInt64 -
      (fdt + UInt64.ofNat (40 + front.length + old.length)) = UInt64.ofNat back.length := by
    have data : (fdtDataSize m fdt).toUInt64 =
        UInt64.ofNat (40 + front.length + old.length + back.length) := by
      apply UInt64.toNat_inj.mp
      rw [UInt32.toNat_toUInt64, whole, word (by omega)]
    rw [data, ← add_offsets, sub_add_self]
  have third : fdtDataSize m fdt - UInt32.ofNat old.length + UInt32.ofNat size > fdtTotalsize m fdt ↔
      total < 40 + front.length + size + back.length := by
    rw [gt_iff_lt, UInt32.lt_iff_toNat_lt, longer, stands.totalsize, sized.full]
  unfold fdtSplice
  simp only [run_bind, run_get, sub_add_self, ofInt_ofNat oldSmall, ofInt_ofNat small,
    Int32.toUInt32_ofNat', first, second, third, run_failIf, add_offsets, rest, Bool.false_eq_true,
    if_false, decide_eq_true_eq]
  by_cases room : total < 40 + front.length + size + back.length
  · rw [if_pos room, if_pos room]
  · rw [if_neg room, if_neg room]
    have length := word (show back.length < 2 ^ 31 by omega)
    have target := toNat_offset (show fdt.toNat + (40 + front.length + size) < 2 ^ 64 by omega)
    have source := toNat_offset (show fdt.toNat + (40 + front.length + old.length) < 2 ^ 64 by omega)
    have move : memmove m (fdt + UInt64.ofNat (40 + front.length + size))
        (fdt + UInt64.ofNat (40 + front.length + old.length)) (UInt64.ofNat back.length) =
          (fdt + UInt64.ofNat (40 + front.length + size), moved m
            (fdt + UInt64.ofNat (40 + front.length + size))
            (fdt + UInt64.ofNat (40 + front.length + old.length)) back.length) := by
      rw [memmove_eq (by omega) (by omega), length]
    rw [move]
    rfl

/-- Where there is room `fdt_splice_` makes a gap of the new size. -/
theorem Becomes.splice (becomes : Becomes start fdt total header (front ++ old ++ back) m)
    (sized : Sized total header (front ++ old ++ back)) (small : size < 2 ^ 31)
    (room : 40 + front.length + size + back.length ≤ total) :
    Returns (fdtSplice fdt (fdt + UInt64.ofNat (40 + front.length)) (Int32.ofNat old.length)
      (Int32.ofNat size)) m fun _ m' => ∃ gap, gap.length = size ∧
        Becomes start fdt total header (front ++ gap ++ back) m' := by
  obtain ⟨stands, earlier⟩ := becomes
  have run := stands.spliceChecks sized small
  have fits := stands.fits
  have bound := sized.small
  rw [if_neg (by omega)] at run
  have held := stands.held
  rw [← List.append_assoc, ← List.append_assoc] at held
  have ahead : (header.bytes ++ front).length = 40 + front.length := by simp
  obtain ⟨gap, length, held⟩ := held.splice size (by rw [ahead]; omega)
  rw [ahead, List.append_assoc, List.append_assoc, ← List.append_assoc front] at held
  refine ⟨(), _, run, gap, length, ⟨held, ?_, fits⟩, earlier.trans fun x outside => moved_outside ?_⟩
  · simp only [List.length_append]
    omega
  · intro inside
    exact outside (window_part (by omega) (by omega) inside)

/-- Elsewhere it changes nothing. -/
theorem Becomes.splice_full (becomes : Becomes start fdt total header (front ++ old ++ back) m)
    (sized : Sized total header (front ++ old ++ back)) (small : size < 2 ^ 31)
    (full : total < 40 + front.length + size + back.length) :
    Aborts (fdtSplice fdt (fdt + UInt64.ofNat (40 + front.length)) (Int32.ofNat old.length)
      (Int32.ofNat size)) m (-fdtErrNospace)
        (Becomes start fdt total header (front ++ old ++ back)) := by
  have run := becomes.stands.spliceChecks sized small
  rw [if_pos full] at run
  exact ⟨m, run, becomes⟩

/-- The header when the structure block has got another size. -/
def resized (header : Header) (old new : Nat) : Header :=
  { header with
    sizeDtStruct := header.sizeDtStruct + (Int32.ofNat new - Int32.ofNat old).toUInt32
    offDtStrings := header.offDtStrings + (Int32.ofNat new - Int32.ofNat old).toUInt32 }

/-- `fdt_splice_struct_` where there is room: the structure block gets another size. -/
theorem Becomes.spliceStruct (becomes : Becomes start fdt total header body m)
    (split : body = front ++ old ++ back) {p : UInt64}
    (place : p = fdt + UInt64.ofNat (40 + front.length)) (sized : Sized total header body)
    (small : size < 2 ^ 31) (room : 40 + front.length + size + back.length ≤ total) :
    Returns (fdtSpliceStruct fdt p (Int32.ofNat old.length) (Int32.ofNat size)) m fun _ m' =>
      ∃ gap, gap.length = size ∧
        Becomes start fdt total (resized header old.length size) (front ++ gap ++ back) m' := by
  subst split place
  refine Returns.bind ((becomes.splice sized small room).mono ?_)
  rintro _ m' ⟨gap, length, becomes⟩
  have struct := congrArg (· + (Int32.ofNat size - Int32.ofNat old.length).toUInt32)
    becomes.stands.sizeDtStruct
  refine Returns.bind ((becomes.setSizeDtStruct struct).mono fun _ m' becomes => ?_)
  have strings := congrArg (· + (Int32.ofNat size - Int32.ofNat old.length).toUInt32)
    becomes.stands.offDtStrings
  exact (becomes.setOffDtStrings strings).mono fun _ m' becomes => ⟨gap, length, becomes⟩

/-- Elsewhere it changes nothing. -/
theorem Becomes.spliceStruct_full (becomes : Becomes start fdt total header body m)
    (split : body = front ++ old ++ back) {p : UInt64}
    (place : p = fdt + UInt64.ofNat (40 + front.length)) (sized : Sized total header body)
    (small : size < 2 ^ 31) (full : total < 40 + front.length + size + back.length) :
    Aborts (fdtSpliceStruct fdt p (Int32.ofNat old.length) (Int32.ofNat size)) m (-fdtErrNospace)
      (Becomes start fdt total header body) := by
  subst split place
  exact Aborts.bind (becomes.splice_full sized small full)

end Splice

/-- Memory has an image where a device tree may stand. -/
structure Editable (m : Memory) (fdt : UInt64) (image : Image) : Prop where
  /-- The image. -/
  stands : Stands m fdt image.header image.body
  /-- The tree is aligned. -/
  aligned : fdt &&& 7 = 0

variable {image : Image}

/-- The sizes that the header of an image has. -/
theorem sized_image : Sized image.totalsize.toNat image.header image.body := by
  have small := image.small
  refine ⟨?_, rfl, by omega⟩
  rw [image.header_offStrings, image.header_sizeStrings, image.length_body, Image.size]

/-- Memory that has become an image. -/
theorem Becomes.editable {image : Image} (becomes : Becomes start fdt total header body m)
    (aligned : fdt &&& 7 = 0) (head : header = image.header) (rest : body = image.body)
    (room : image.totalsize.toNat ≤ total) : Editable m fdt image := by
  subst head rest
  have fits := becomes.stands.fits
  have size := image.size_le
  have length := image.length_body
  refine ⟨⟨becomes.stands.held, ?_, ?_⟩, aligned⟩
  · change 40 + image.body.length ≤ image.totalsize.toNat
    omega
  · change fdt.toNat + image.totalsize.toNat < 2 ^ 64
    omega

/-- The address of a place in the structure block. -/
theorem Editable.address (editable : Editable m fdt image) (offset : Nat) :
    structAt m fdt + UInt64.ofNat offset =
      fdt + UInt64.ofNat (40 + (image.ahead.length + offset)) := by
  have ahead := image.length_ahead
  have start : (fdtOffDtStruct m fdt).toUInt64 = UInt64.ofNat image.offStruct := by
    rw [editable.stands.offDtStruct, ← image.header_offStruct, ← UInt32.toNat_toUInt64,
      UInt64.ofNat_toNat]
  rw [structAt, start, add_offsets, ← ahead]
  congr 2
  omega

/-- The structure block of an image. -/
theorem Editable.block (editable : Editable m fdt image) :
    Holds m (structAt m fdt) (blockOf image.tokens ++ image.rear) := by
  have held := editable.stands.held
  have ahead := image.length_ahead
  rw [Image.body, List.append_assoc image.ahead, ← List.append_assoc] at held
  have behind := held.behind
  have start : (image.header.bytes ++ image.ahead).length = image.offStruct := by
    rw [List.length_append, Header.length_bytes]
    omega
  rw [start] at behind
  have address := editable.address 0
  rw [show UInt64.ofNat 0 = 0 from rfl, UInt64.add_zero, Nat.add_zero, Nat.add_comm, ahead] at address
  rw [address]
  exact behind

/-- An image can be read. -/
theorem Editable.readable (editable : Editable m fdt image) :
    Readable m fdt image.tokens image.strings := by
  have stands := editable.stands
  have within := image.size_le
  have small := image.small
  have bounds := And.intro image.offStruct_le image.offReserved_le
  have block := editable.block
  have total : (fdtTotalsize m fdt).toNat = image.totalsize.toNat := by
    rw [stands.totalsize]
    rfl
  have struct : (fdtOffDtStruct m fdt).toNat = image.offStruct := by
    rw [stands.offDtStruct, image.header_offStruct]
  have strings : (fdtOffDtStrings m fdt).toNat = image.offStrings := by
    rw [stands.offDtStrings, image.header_offStrings]
  have sizeStruct : (fdtSizeDtStruct m fdt).toNat = image.sizeStruct := by
    rw [stands.sizeDtStruct, image.header_sizeStruct]
  have sizeStrings : (fdtSizeDtStrings m fdt).toNat = image.strings.length := by
    rw [stands.sizeDtStrings, image.header_sizeStrings]
  rw [Image.size] at within
  refine ⟨⟨⟨?_, ?_, ?_⟩, block.before, ?_⟩, editable.aligned, ?_, ?_, ?_, ?_, sizeStrings, ?_⟩
  · rw [struct, total]
    rw [Image.sizeStruct] at bounds
    omega
  · intro _
    rw [sizeStruct, Image.sizeStruct]
    omega
  · omega
  · rw [stands.version]
    exact (show (16 : UInt32) ≤ 17 by decide)
  · rw [stands.magic]
    rfl
  · rw [stands.lastCompVersion]
    exact image.supported
  · have limit : (0x7fffffff : UInt32).toNat = 2 ^ 31 - 1 := rfl
    rw [UInt32.lt_iff_toNat_lt, total, limit]
    exact small
  · have later := block.behind
    rw [Image.rear] at later
    have last := later.behind
    rw [Image.length_blockOf, List.length_append, add_offsets, structAt] at last
    have address : fdt + (fdtOffDtStrings m fdt).toUInt64 = fdt + (fdtOffDtStruct m fdt).toUInt64 +
        UInt64.ofNat (extent image.tokens + 4 + (image.slack.length + image.spare.length)) := by
      have sum : (fdtOffDtStrings m fdt).toUInt64 = (fdtOffDtStruct m fdt).toUInt64 +
          UInt64.ofNat (extent image.tokens + 4 + (image.slack.length + image.spare.length)) := by
        apply UInt64.toNat_inj.mp
        rw [UInt32.toNat_toUInt64, strings, UInt64.toNat_add, UInt32.toNat_toUInt64, struct,
          UInt64.toNat_ofNat', Image.offStrings, Image.sizeStruct]
        rw [Image.offStrings, Image.sizeStruct] at within
        omega
      rw [sum, UInt64.add_assoc]
    rw [address]
    exact last
  · rw [strings, total]
    omega

/-- What stands at the end may be left away. -/
theorem Becomes.shorten (becomes : Becomes start fdt total header (body ++ back) m) :
    Becomes start fdt total header body m := by
  obtain ⟨⟨held, within, fits⟩, changed⟩ := becomes
  rw [← List.append_assoc] at held
  rw [List.length_append] at within
  exact ⟨⟨held.before, by omega, fits⟩, changed⟩

/-- `fdt_rw_probe_` lets an image pass. -/
theorem Editable.rwProbe (editable : Editable m fdt image) :
    (fdtRwProbe fdt).run.run m = (.ok (), m) := by
  have readable := editable.readable
  have stands := editable.stands
  have within := image.size_le
  have small := image.small
  have bounds := And.intro image.offStruct_le image.offReserved_le
  rw [Image.size] at within
  have version : fdtVersion m fdt = 17 := stands.version
  have reserve : (16 : Int32).toUInt32.toNat = 16 := rfl
  have first : ¬fdtOffMemRsvmap m fdt < 40 := by
    have forty : (40 : UInt32).toNat = 40 := rfl
    rw [UInt32.lt_iff_toNat_lt, stands.offMemRsvmap, image.header_offReserved, forty,
      Image.offReserved]
    omega
  have second : ¬fdtOffDtStruct m fdt < fdtOffMemRsvmap m fdt + (16 : Int32).toUInt32 := by
    rw [UInt32.lt_iff_toNat_lt, UInt32.toNat_add, stands.offDtStruct, image.header_offStruct,
      stands.offMemRsvmap, image.header_offReserved, reserve, Nat.mod_eq_of_lt (by omega)]
    omega
  have third : ¬fdtOffDtStrings m fdt <
      fdtOffDtStruct m fdt + (fdtSizeDtStruct m fdt).toInt32.toUInt32 := by
    rw [UInt32.lt_iff_toNat_lt, UInt32.toUInt32_toInt32, UInt32.toNat_add, stands.offDtStruct,
      image.header_offStruct, stands.sizeDtStruct, image.header_sizeStruct, stands.offDtStrings,
      image.header_offStrings, Nat.mod_eq_of_lt (by omega)]
    omega
  have fourth : ¬fdtTotalsize m fdt < fdtOffDtStrings m fdt + fdtSizeDtStrings m fdt := by
    rw [UInt32.lt_iff_toNat_lt, UInt32.toNat_add, stands.offDtStrings, image.header_offStrings,
      stands.sizeDtStrings, image.header_sizeStrings, stands.totalsize, Nat.mod_eq_of_lt (by omega)]
    change ¬image.totalsize.toNat < _
    omega
  have old : ¬(17 : UInt32) < 17 := by decide
  have ordered : fdtBlocksMisordered m fdt 16 (fdtSizeDtStruct m fdt).toInt32 = false := by
    simp only [fdtBlocksMisordered, first, second, third, fourth, decide_false, Bool.or_self]
  unfold fdtRwProbe
  simp only [run_bind, run_get, run_failIf, readable.probe_nonneg, version, old, ordered, decide_false,
    Bool.false_eq_true, if_false, gt_iff_lt]
  rfl

end DragonStub

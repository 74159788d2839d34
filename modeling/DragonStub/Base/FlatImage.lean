import DragonStub.Base.ByteBlock
import DragonStub.Base.FlatTree

/-!
# Flattened trees as one block of bytes

A flattened device tree is a header of ten words and behind it, in this order, the reserved ranges of
memory, the structure block and the strings; unused bytes may stand between them. The header says
where each of them is. An image is such a block by its parts, so its header is determined but for a
few words.
-/

namespace FlatTree

open ByteMemory DeviceTree

/-- Words as bytes. -/
def wordBytes (words : List UInt32) : List UInt8 := words.flatMap fun word => bigEndian 4 word.toNat

/-- A word takes four bytes. -/
theorem length_wordBytes {words : List UInt32} : (wordBytes words).length = 4 * words.length := by
  induction words with
  | nil => rfl
  | cons word rest ih =>
    change (bigEndian 4 word.toNat ++ wordBytes rest).length = 4 * (rest.length + 1)
    rw [List.length_append, length_bigEndian, ih]
    omega

/-- The bytes of two runs of words come one behind the other. -/
theorem wordBytes_append {first second : List UInt32} :
    wordBytes (first ++ second) = wordBytes first ++ wordBytes second := List.flatMap_append

/-- The bytes of a word come before those of the words behind it. -/
theorem wordBytes_cons {word : UInt32} {words : List UInt32} :
    wordBytes (word :: words) = bigEndian 4 word.toNat ++ wordBytes words := rfl

section Words

variable {m : Memory} {base : UInt64} {words : List UInt32} {rest : List UInt8} {place : Nat}

/-- One of the words in memory. -/
theorem holds_word (held : Holds m base (wordBytes words ++ rest)) (inside : place < words.length) :
    Holds m (base + UInt64.ofNat (4 * place)) (bigEndian 4 words[place].toNat) := by
  have split : words = words.take place ++ words[place] :: words.drop (place + 1) := by simp
  have length : (wordBytes (words.take place)).length = 4 * place := by
    rw [length_wordBytes, List.length_take, Nat.min_eq_left (by omega)]
  rw [split, wordBytes_append, wordBytes_cons, List.append_assoc, List.append_assoc] at held
  have behind := held.behind.before
  rw [length] at behind
  exact behind

/-- Write over one of the words. -/
theorem holds_setWord (held : Holds m base (wordBytes words ++ rest)) (inside : place < words.length)
    (word : UInt32) (short : (wordBytes words ++ rest).length ≤ 2 ^ 64) :
    Holds (storeAll m (base + UInt64.ofNat (4 * place)) (bigEndian 4 word.toNat)) base
      (wordBytes (words.set place word) ++ rest) := by
  have split : words = words.take place ++ words[place] :: words.drop (place + 1) := by simp
  have after : words.set place word = words.take place ++ word :: words.drop (place + 1) :=
    List.set_eq_take_append_cons_drop.trans (if_pos inside)
  have length : (wordBytes (words.take place)).length = 4 * place := by
    rw [length_wordBytes, List.length_take, Nat.min_eq_left (by omega)]
  have before : wordBytes words ++ rest = wordBytes (words.take place) ++
      bigEndian 4 words[place].toNat ++ (wordBytes (words.drop (place + 1)) ++ rest) := by
    conv_lhs => rw [split, wordBytes_append, wordBytes_cons]
    simp only [List.append_assoc]
  rw [before] at held short
  have same : (bigEndian 4 word.toNat).length = (bigEndian 4 words[place].toNat).length := by simp
  have written := held.overwrite same short
  rw [length] at written
  rw [after, wordBytes_append, wordBytes_cons]
  simpa only [List.append_assoc] using written

/-- Any four bytes are a word. -/
theorem exists_word (m : Memory) (base : UInt64) :
    ∃ word : UInt32, Holds m base (bigEndian 4 word.toNat) := by
  have bounds := And.intro (And.intro (m base).toNat_lt (m (base + 1)).toNat_lt)
    (And.intro (m (base + 1 + 1)).toNat_lt (m (base + 1 + 1 + 1)).toNat_lt)
  let n := (((m base).toNat * 256 + (m (base + 1)).toNat) * 256 + (m (base + 1 + 1)).toNat) * 256 +
    (m (base + 1 + 1 + 1)).toNat
  have value : (UInt32.ofNat n).toNat = n :=
    UInt32.toNat_ofNat_of_lt' (by rw [UInt32.size]; dsimp only [n]; omega)
  have byte {b : UInt8} {k : Nat} (same : k % 256 = b.toNat) : b = UInt8.ofNat k := by
    apply UInt8.toNat_inj.mp
    rw [UInt8.toNat_ofNat', same]
  refine ⟨UInt32.ofNat n, ?_⟩
  rw [value]
  refine ⟨byte ?_, byte ?_, byte ?_, byte ?_, trivial⟩
  all_goals
    dsimp only [n]
    omega

/-- Any bytes are words. -/
theorem exists_words (m : Memory) (base : UInt64) (count : Nat) :
    ∃ words, words.length = count ∧ Holds m base (wordBytes words) := by
  induction count generalizing base with
  | zero => exact ⟨[], rfl, trivial⟩
  | succ count ih =>
    obtain ⟨word, first⟩ := exists_word m base
    obtain ⟨words, length, behind⟩ := ih (base + UInt64.ofNat 4)
    refine ⟨word :: words, congrArg (· + 1) length, ?_⟩
    rw [wordBytes_cons, holds_append, length_bigEndian]
    exact ⟨first, behind⟩

end Words

/-- The words of a header. -/
structure Header where
  /-- What a flattened tree begins with. -/
  magic : UInt32
  /-- The size of the room for the tree. -/
  totalsize : UInt32
  /-- Where the structure block is. -/
  offDtStruct : UInt32
  /-- Where the strings are. -/
  offDtStrings : UInt32
  /-- Where the reserved ranges are. -/
  offMemRsvmap : UInt32
  /-- The version of the format. -/
  version : UInt32
  /-- The oldest version it is compatible with. -/
  lastCompVersion : UInt32
  /-- The processor that boots. -/
  bootCpuidPhys : UInt32
  /-- The size of the strings. -/
  sizeDtStrings : UInt32
  /-- The size of the structure block. -/
  sizeDtStruct : UInt32

namespace Header

/-- The words in order. -/
def words (header : Header) : List UInt32 :=
  [header.magic, header.totalsize, header.offDtStruct, header.offDtStrings, header.offMemRsvmap,
    header.version, header.lastCompVersion, header.bootCpuidPhys, header.sizeDtStrings,
    header.sizeDtStruct]

/-- The bytes of a header. -/
def bytes (header : Header) : List UInt8 := wordBytes header.words

/-- A header takes forty bytes. -/
@[simp] theorem length_bytes {header : Header} : header.bytes.length = 40 := length_wordBytes

/-- Any bytes are a header. -/
theorem exists_bytes (m : Memory) (base : UInt64) : ∃ header : Header, Holds m base header.bytes := by
  obtain ⟨words, length, held⟩ := exists_words m base 10
  match words, length with
  | [a, b, c, d, e, f, g, h, i, j], _ => exact ⟨⟨a, b, c, d, e, f, g, h, i, j⟩, held⟩

end Header

/-- The bytes of one reserved range. -/
def rangeBytes (range : UInt64 × UInt64) : List UInt8 :=
  bigEndian 8 range.1.toNat ++ bigEndian 8 range.2.toNat

/-- The bytes of reserved ranges. -/
def rangesBytes (ranges : List (UInt64 × UInt64)) : List UInt8 := ranges.flatMap rangeBytes

/-- A reserved range takes sixteen bytes. -/
@[simp] theorem length_rangeBytes {range : UInt64 × UInt64} : (rangeBytes range).length = 16 := by
  simp [rangeBytes]

/-- The bytes of a range come before those of the ranges behind it. -/
@[simp] theorem rangesBytes_cons {range : UInt64 × UInt64} {ranges : List (UInt64 × UInt64)} :
    rangesBytes (range :: ranges) = rangeBytes range ++ rangesBytes ranges := rfl

/-- The bytes of two runs of ranges come one behind the other. -/
@[simp] theorem rangesBytes_append {first second : List (UInt64 × UInt64)} :
    rangesBytes (first ++ second) = rangesBytes first ++ rangesBytes second := List.flatMap_append

/-- Each range adds sixteen bytes. -/
@[simp] theorem length_rangesBytes {ranges : List (UInt64 × UInt64)} :
    (rangesBytes ranges).length = 16 * ranges.length := by
  induction ranges with
  | nil => rfl
  | cons range rest ih =>
    rw [rangesBytes_cons, List.length_append, length_rangeBytes, ih, List.length_cons]
    omega

/-- Blocks in order are parts of one block, with whatever stands between them. -/
theorem exists_between {m : Memory} {base : UInt64} {r s t struct : Nat} {first second third : List UInt8}
    (one : Holds m (base + UInt64.ofNat r) first) (two : Holds m (base + UInt64.ofNat s) second)
    (three : Holds m (base + UInt64.ofNat t) third) (ahead : 40 ≤ r) (behind : r + first.length ≤ s)
    (covers : second.length ≤ struct) (last : s + struct ≤ t) :
    ∃ front middle slack spare : List UInt8, 40 + front.length = r ∧
      r + first.length + middle.length = s ∧ second.length + slack.length = struct ∧
      s + struct + spare.length = t ∧ Holds m (base + UInt64.ofNat 40)
        (front ++ first ++ middle ++ second ++ (slack ++ spare ++ third)) := by
  refine ⟨load m (base + UInt64.ofNat 40) (r - 40),
    load m (base + UInt64.ofNat (r + first.length)) (s - (r + first.length)),
    load m (base + UInt64.ofNat (s + second.length)) (struct - second.length),
    load m (base + UInt64.ofNat (s + struct)) (t - (s + struct)), ?_, ?_, ?_, ?_, ?_⟩
  iterate 4
    · rw [length_load]
      omega
  have place {n k : Nat} {bytes : List UInt8} (held : Holds m (base + UInt64.ofNat k) bytes)
      (same : n = k) : Holds m (base + UInt64.ofNat n) bytes := same ▸ held
  simp only [holds_append, add_offsets, List.length_append, length_load]
  exact ⟨⟨⟨⟨holds_load, place one (by omega)⟩, place holds_load (by omega)⟩, place two (by omega)⟩,
    ⟨place holds_load (by omega), place holds_load (by omega)⟩, place three (by omega)⟩

/-- What a flattened tree begins with. -/
def flatMagic : UInt32 := 0xd00dfeed

/-- The parts of a flattened tree of version 17 in their order. -/
structure Image where
  /-- The size of the room for the tree. -/
  totalsize : UInt32
  /-- The oldest version it is compatible with. -/
  lastCompVersion : UInt32
  /-- The processor that boots. -/
  bootCpuidPhys : UInt32
  /-- The bytes behind the header. -/
  front : List UInt8
  /-- The reserved ranges. -/
  reserved : List (UInt64 × UInt64)
  /-- The address in the entry that ends them. -/
  stop : UInt64
  /-- The bytes behind them. -/
  middle : List UInt8
  /-- The tokens of the structure block. -/
  tokens : List Token
  /-- The bytes behind its end that count for it. -/
  slack : List UInt8
  /-- The bytes behind the structure block. -/
  spare : List UInt8
  /-- The strings. -/
  strings : List UInt8
  /-- No reserved range ends the others. -/
  ranges : ∀ range ∈ reserved, range.2 ≠ 0
  /-- The version it is compatible with is supported. -/
  supported : lastCompVersion ≤ 17
  /-- There is room for everything. -/
  room : 40 + front.length + (16 * reserved.length + 16) + middle.length + (extent tokens + 4) +
    slack.length + spare.length + strings.length ≤ totalsize.toNat
  /-- The size fits an `int`. -/
  small : totalsize.toNat < 2 ^ 31 - 1

namespace Image

/-- The bytes of the reserved ranges. -/
def reservedBytes (image : Image) : List UInt8 := rangesBytes (image.reserved ++ [(image.stop, 0)])

/-- Where the reserved ranges are. -/
def offReserved (image : Image) : Nat := 40 + image.front.length

/-- Where the structure block is. -/
def offStruct (image : Image) : Nat :=
  image.offReserved + (16 * image.reserved.length + 16) + image.middle.length

/-- The size of the structure block. -/
def sizeStruct (image : Image) : Nat := extent image.tokens + 4 + image.slack.length

/-- Where the strings are. -/
def offStrings (image : Image) : Nat := image.offStruct + image.sizeStruct + image.spare.length

/-- The size of everything. -/
def size (image : Image) : Nat := image.offStrings + image.strings.length

/-- The header. -/
def header (image : Image) : Header where
  magic := flatMagic
  totalsize := image.totalsize
  offDtStruct := UInt32.ofNat image.offStruct
  offDtStrings := UInt32.ofNat image.offStrings
  offMemRsvmap := UInt32.ofNat image.offReserved
  version := 17
  lastCompVersion := image.lastCompVersion
  bootCpuidPhys := image.bootCpuidPhys
  sizeDtStrings := UInt32.ofNat image.strings.length
  sizeDtStruct := UInt32.ofNat image.sizeStruct

/-- What stands between the header and the structure block. -/
def ahead (image : Image) : List UInt8 := image.front ++ image.reservedBytes ++ image.middle

/-- What stands behind the structure block. -/
def rear (image : Image) : List UInt8 := image.slack ++ image.spare ++ image.strings

/-- What stands behind the header. -/
def body (image : Image) : List UInt8 := image.ahead ++ blockOf image.tokens ++ image.rear

variable {image : Image}

/-- The reserve map is its ranges and the range that ends it. -/
@[simp] theorem length_reservedBytes :
    image.reservedBytes.length = 16 * image.reserved.length + 16 := by
  rw [reservedBytes, length_rangesBytes, List.length_append, List.length_singleton]
  omega

/-- The structure block starts behind the header and what lies ahead of the block. -/
theorem length_ahead : image.ahead.length + 40 = image.offStruct := by
  rw [ahead, List.length_append, List.length_append, length_reservedBytes, offStruct, offReserved]
  omega

/-- Behind the structure block come the slack, the spare bytes and the strings. -/
theorem length_rear : image.rear.length =
    image.slack.length + image.spare.length + image.strings.length := by
  rw [rear, List.length_append, List.length_append]

/-- A structure block is its tokens and the end token. -/
theorem length_blockOf {tokens : List Token} : (blockOf tokens).length = extent tokens + 4 := by
  simp [blockOf, extent]

/-- An image is its header and its body. -/
theorem length_body : 40 + image.body.length = image.size := by
  have before := image.length_ahead
  have behind := image.length_rear
  rw [body, List.length_append, List.length_append, length_blockOf, size, offStrings, sizeStruct]
  omega

/-- An image is no longer than its total size. -/
theorem size_le : image.size ≤ image.totalsize.toNat := by
  have room := image.room
  simp only [size, offStrings, sizeStruct, offStruct, offReserved]
  omega

/-- Every offset and size fits a word of the header. -/
theorem size_lt : image.size < 2 ^ 31 := by
  have within := image.size_le
  have small := image.small
  omega

/-- The reserve map ends before the structure block. -/
theorem offReserved_le : image.offReserved + (16 * image.reserved.length + 16) ≤ image.offStruct := by
  rw [offStruct]
  omega

/-- The structure block ends before the strings. -/
theorem offStruct_le : image.offStruct + image.sizeStruct ≤ image.offStrings := by
  rw [offStrings]
  omega

/-- The header says where the reserve map starts. -/
theorem header_offReserved : image.header.offMemRsvmap.toNat = image.offReserved := by
  have bounds := And.intro image.offReserved_le image.offStruct_le
  have small := image.size_lt
  rw [size] at small
  exact UInt32.toNat_ofNat_of_lt' (by rw [UInt32.size]; omega)

/-- The header says where the structure block starts. -/
theorem header_offStruct : image.header.offDtStruct.toNat = image.offStruct := by
  have bound := image.offStruct_le
  have small := image.size_lt
  rw [size] at small
  exact UInt32.toNat_ofNat_of_lt' (by rw [UInt32.size]; omega)

/-- The header says how long the structure block is. -/
theorem header_sizeStruct : image.header.sizeDtStruct.toNat = image.sizeStruct := by
  have bound := image.offStruct_le
  have small := image.size_lt
  rw [size] at small
  exact UInt32.toNat_ofNat_of_lt' (by rw [UInt32.size]; omega)

/-- The header says where the strings start. -/
theorem header_offStrings : image.header.offDtStrings.toNat = image.offStrings := by
  have small := image.size_lt
  rw [size] at small
  exact UInt32.toNat_ofNat_of_lt' (by rw [UInt32.size]; omega)

/-- The header says how long the strings are. -/
theorem header_sizeStrings : image.header.sizeDtStrings.toNat = image.strings.length := by
  have small := image.size_lt
  rw [size] at small
  exact UInt32.toNat_ofNat_of_lt' (by rw [UInt32.size]; omega)

/-- What stands before the token behind some of them. -/
def upTo (image : Image) (before : List Token) : List UInt8 := image.ahead ++ bytesOf before

/-- What stands behind a token, up to the end. -/
def downFrom (image : Image) (behind : List Token) : List UInt8 :=
  bytesOf behind ++ bigEndian 4 9 ++ image.rear

variable {before middle behind : List Token}

/-- What lies in front of a token is what lies ahead of the block and the tokens before it. -/
theorem length_upTo : (image.upTo before).length = image.ahead.length + extent before := by
  rw [upTo, List.length_append, extent]

/-- An image is split around any run of its tokens. -/
theorem body_split (split : image.tokens = before ++ (middle ++ behind)) :
    image.body = image.upTo before ++ bytesOf middle ++ image.downFrom behind := by
  simp [body, split, upTo, downFrom, blockOf]

/-- The parts around a run of tokens add up to the image. -/
theorem size_split (split : image.tokens = before ++ (middle ++ behind)) :
    40 + (image.upTo before).length + extent middle + (image.downFrom behind).length = image.size := by
  have length := image.length_body
  rw [image.body_split split, List.length_append, List.length_append] at length
  rw [extent]
  omega

/-- There is room for other tokens. -/
def Admits (image : Image) (tokens : List Token) : Prop :=
  image.size + extent tokens ≤ image.totalsize.toNat + extent image.tokens

/-- An image with other tokens. -/
def withTokens (image : Image) (tokens : List Token) (admits : image.Admits tokens) : Image :=
  { image with
    tokens := tokens
    room := by
      have room := image.room
      simp only [Admits, size, offStrings, sizeStruct, offStruct, offReserved] at admits
      omega }

variable {tokens : List Token} {admits : image.Admits tokens}

/-- An image with a run of tokens exchanged is the same around the run. -/
theorem body_exchange {middle' : List Token} {admits : image.Admits (before ++ (middle' ++ behind))} :
    (image.withTokens (before ++ (middle' ++ behind)) admits).body =
      image.upTo before ++ bytesOf middle' ++ image.downFrom behind := body_split rfl

/-- The structure block grows by as much as its tokens. -/
theorem sizeStruct_withTokens : (image.withTokens tokens admits).sizeStruct + extent image.tokens =
    image.sizeStruct + extent tokens := by
  change extent tokens + 4 + image.slack.length + _ = extent image.tokens + 4 + image.slack.length + _
  omega

/-- The strings move by as much as the tokens grow. -/
theorem offStrings_withTokens : (image.withTokens tokens admits).offStrings + extent image.tokens =
    image.offStrings + extent tokens := by
  have struct : (image.withTokens tokens admits).sizeStruct + _ = _ := sizeStruct_withTokens
  change image.offStruct + _ + image.spare.length + _ = image.offStruct + _ + image.spare.length + _
  omega

/-- The image grows by as much as its tokens. -/
theorem size_withTokens : (image.withTokens tokens admits).size + extent image.tokens =
    image.size + extent tokens := by
  have strings : (image.withTokens tokens admits).offStrings + _ = _ := offStrings_withTokens
  change (image.withTokens tokens admits).offStrings + image.strings.length + _ =
    image.offStrings + image.strings.length + _
  omega

/-- An image with a run of tokens exchanged grows by as much as the run. -/
theorem size_exchange {middle' : List Token} {admits : image.Admits (before ++ (middle' ++ behind))}
    (split : image.tokens = before ++ (middle ++ behind)) :
    (image.withTokens (before ++ (middle' ++ behind)) admits).size + extent middle =
      image.size + extent middle' := by
  have sizes : (image.withTokens _ admits).size + _ = _ := size_withTokens
  rw [split] at sizes
  simp only [extent_append] at sizes
  omega

/-- There is room for more strings. -/
def HasRoom (image : Image) (more : List UInt8) : Prop :=
  image.size + more.length ≤ image.totalsize.toNat

/-- An image with more strings behind the others. -/
def withStrings (image : Image) (more : List UInt8) (room : image.HasRoom more) : Image :=
  { image with
    strings := image.strings ++ more
    room := by
      simp only [HasRoom, size, offStrings, sizeStruct, offStruct, offReserved] at room
      rw [List.length_append]
      omega }

variable {more : List UInt8} {hasRoom : image.HasRoom more}

/-- Strings are added at the end of the image. -/
theorem body_withStrings : (image.withStrings more hasRoom).body = image.body ++ more := by
  change image.ahead ++ blockOf image.tokens ++ (image.slack ++ image.spare ++ (image.strings ++ more)) =
    image.ahead ++ blockOf image.tokens ++ (image.slack ++ image.spare ++ image.strings) ++ more
  simp only [List.append_assoc]

/-- Added strings change the size of the strings alone in the header. -/
theorem header_withStrings : (image.withStrings more hasRoom).header =
    { image.header with sizeDtStrings := UInt32.ofNat (image.strings.length + more.length) } := by
  rw [← List.length_append]
  rfl

/-- The image grows by the strings that are added. -/
theorem size_withStrings : (image.withStrings more hasRoom).size = image.size + more.length := by
  have length := image.length_body
  have longer := (image.withStrings more hasRoom).length_body
  rw [body_withStrings, List.length_append] at longer
  omega

section Reserved

variable {ranges : List (UInt64 × UInt64)} {stop : UInt64} {between : List UInt8}

/-- There is room for other reserved ranges and other bytes behind them. -/
def Keeps (image : Image) (ranges : List (UInt64 × UInt64)) (between : List UInt8) : Prop :=
  image.size + (16 * ranges.length + between.length) ≤
    image.totalsize.toNat + (16 * image.reserved.length + image.middle.length)

/-- An image with other reserved ranges. -/
def withReserved (image : Image) (ranges : List (UInt64 × UInt64)) (stop : UInt64)
    (between : List UInt8) (sizes : ∀ range ∈ ranges, range.2 ≠ 0) (keeps : image.Keeps ranges between) :
    Image :=
  { image with
    reserved := ranges
    stop := stop
    middle := between
    ranges := sizes
    room := by
      have room := image.room
      simp only [Keeps, size, offStrings, sizeStruct, offStruct, offReserved] at keeps
      omega }

variable {sizes : ∀ range ∈ ranges, range.2 ≠ 0} {keeps : image.Keeps ranges between}

/-- The structure block moves by as much as the reserve map grows. -/
theorem offStruct_withReserved : (image.withReserved ranges stop between sizes keeps).offStruct +
    (16 * image.reserved.length + image.middle.length) =
      image.offStruct + (16 * ranges.length + between.length) := by
  change image.offReserved + (16 * ranges.length + 16) + between.length + _ =
    image.offReserved + (16 * image.reserved.length + 16) + image.middle.length + _
  omega

/-- The strings move by as much as the reserve map grows. -/
theorem offStrings_withReserved : (image.withReserved ranges stop between sizes keeps).offStrings +
    (16 * image.reserved.length + image.middle.length) =
      image.offStrings + (16 * ranges.length + between.length) := by
  have struct : (image.withReserved ranges stop between sizes keeps).offStruct + _ = _ :=
    offStruct_withReserved
  change (image.withReserved ranges stop between sizes keeps).offStruct + image.sizeStruct +
    image.spare.length + _ = image.offStruct + image.sizeStruct + image.spare.length + _
  omega

/-- The image grows by as much as its reserve map. -/
theorem size_withReserved : (image.withReserved ranges stop between sizes keeps).size +
    (16 * image.reserved.length + image.middle.length) =
      image.size + (16 * ranges.length + between.length) := by
  have strings : (image.withReserved ranges stop between sizes keeps).offStrings + _ = _ :=
    offStrings_withReserved
  change (image.withReserved ranges stop between sizes keeps).offStrings + image.strings.length + _ =
    image.offStrings + image.strings.length + _
  omega

/-- Another reserve map changes the offsets of the blocks behind it alone in the header. -/
theorem header_withReserved : (image.withReserved ranges stop between sizes keeps).header =
    { image.header with
      offDtStruct := UInt32.ofNat (image.withReserved ranges stop between sizes keeps).offStruct
      offDtStrings :=
        UInt32.ofNat (image.withReserved ranges stop between sizes keeps).offStrings } := rfl

/-- An image with another reserve map is the same around the map. -/
theorem body_withReserved : (image.withReserved ranges stop between sizes keeps).body =
    image.front ++ rangesBytes (ranges ++ [(stop, 0)]) ++ between ++ blockOf image.tokens ++
      image.rear := rfl

end Reserved

/-- An image without unused bytes. -/
def packed (image : Image) : Image :=
  { image with
    totalsize := UInt32.ofNat (40 + (16 * image.reserved.length + 16) + image.sizeStruct +
      image.strings.length)
    front := []
    middle := []
    spare := []
    room := by
      have within := image.size_le
      have small := image.small
      simp only [size, offStrings, offStruct, offReserved] at within
      rw [UInt32.toNat_ofNat_of_lt' (by rw [UInt32.size]; omega), sizeStruct]
      simp only [List.length_nil]
      omega
    small := by
      have within := image.size_le
      have small := image.small
      simp only [size, offStrings, offStruct, offReserved] at within
      rw [UInt32.toNat_ofNat_of_lt' (by rw [UInt32.size]; omega)]
      omega }

/-- The strings of a packed image start right behind the structure block. -/
theorem offStrings_packed : image.packed.offStrings =
    40 + (16 * image.reserved.length + 16) + image.sizeStruct := rfl

/-- A packed image holds the reserve map, the structure block and the strings. -/
theorem body_packed : image.packed.body =
    image.reservedBytes ++ (blockOf image.tokens ++ image.slack) ++ image.strings := by
  have ahead : image.packed.ahead = image.reservedBytes := List.append_nil _
  have rear : image.packed.rear = image.slack ++ image.strings := by
    change image.slack ++ [] ++ image.strings = _
    rw [List.append_nil]
  change image.packed.ahead ++ blockOf image.tokens ++ image.packed.rear = _
  rw [ahead, rear]
  simp only [List.append_assoc]

/-- A packed image fills its room. -/
theorem size_packed : image.packed.size = image.packed.totalsize.toNat := by
  have within := image.size_le
  have small := image.small
  simp only [size, offStrings, offStruct, offReserved] at within
  change image.packed.offStrings + image.strings.length = (UInt32.ofNat (40 +
    (16 * image.reserved.length + 16) + image.sizeStruct + image.strings.length)).toNat
  rw [offStrings_packed, UInt32.toNat_ofNat_of_lt' (by rw [UInt32.size]; omega)]

/-- It is smaller by the bytes that were unused. -/
theorem size_packed_add : image.packed.size +
    (image.front.length + image.middle.length + image.spare.length) = image.size := by
  change image.packed.offStrings + image.strings.length + _ = _
  rw [offStrings_packed, size, offStrings, offStruct, offReserved]
  omega

end Image

/-- The bytes that the strings need for a name: none when it is among them. -/
def nameCost (strings key : List UInt8) : Nat :=
  if ∃ place ∈ List.range strings.length, nameAt strings place = some key then 0 else key.length + 1

end FlatTree

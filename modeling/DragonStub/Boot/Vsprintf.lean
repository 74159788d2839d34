import DragonStub.Base.Sink
import DragonStub.Base.Word

/-!
# Formatted output

The formatter of `lib/vsprintf.c`. A format is the text before its NUL; `fmt` is what is left of it,
and its head, or NUL behind the end, is `*fmt`. The arguments come one word after the other, each
read in the type of its conversion, and the strings and bytes that they point to lie apart from the
buffer. A conversion writes through a bounded sink.
-/

namespace DragonStub.Vsprintf

open BoundedOutput

/-- Why a call does not return. -/
inductive Fault
  /-- It never ends. -/
  | hang
  /-- It reads or writes behind what it has been handed. -/
  | outside
deriving DecidableEq

/-- `format_type`. -/
inductive FormatType
  | none | width | precision | char | str | ptr | percentChar | invalid
  | longLong | ulong | long | ubyte | byte | ushort | short | uint | int | sizeT | ptrdiff
deriving DecidableEq

/-- `printf_spec` — the field width has 24 bits and the precision 16, both with a sign. -/
structure PrintfSpec where
  /-- The kind of the directive. -/
  type : FormatType
  /-- The width of the field, or -1. -/
  fieldWidth : Int
  /-- The flags for the number. -/
  flags : UInt8
  /-- The base of the number. -/
  base : UInt8
  /-- The number of digits or characters, or -1. -/
  precision : Int
deriving DecidableEq

/-- `SIGN`. -/
def flagSign : UInt8 := 1
/-- `LEFT`. -/
def flagLeft : UInt8 := 2
/-- `PLUS`. -/
def flagPlus : UInt8 := 4
/-- `SPACE`. -/
def flagSpace : UInt8 := 8
/-- `ZEROPAD`. -/
def flagZeropad : UInt8 := 16
/-- `SMALL`. -/
def flagSmall : UInt8 := 32
/-- `SPECIAL`. -/
def flagSpecial : UInt8 := 64

/-- Whether a flag is set. -/
def PrintfSpec.has (spec : PrintfSpec) (flag : UInt8) : Bool := spec.flags &&& flag != 0

/-- The bytes of a literal. -/
def chars (text : List Char) : List UInt8 := text.map Char.toUInt8

/-- `*fmt`. -/
def star (fmt : List UInt8) : UInt8 := fmt.headD 0

/-- `isdigit`. -/
def isDigit (c : UInt8) : Bool := '0'.toUInt8 ≤ c && c ≤ '9'.toUInt8

/-- `isalnum` — by the table, which has the letters of Latin-1. -/
def isAlnum (c : UInt8) : Bool :=
  isDigit c || ('A'.toUInt8 ≤ c && c ≤ 'Z'.toUInt8) || ('a'.toUInt8 ≤ c && c ≤ 'z'.toUInt8) ||
    (192 ≤ c && c != 215 && c != 247)

/-- What a signed field of so many bits keeps of a value. -/
def field (bits : Nat) (value : Int) : Int := value.bmod (2 ^ bits)

/-- `FIELD_WIDTH_MAX`. -/
def fieldWidthMax : Int := 2 ^ 23 - 1

/-- `PRECISION_MAX`. -/
def precisionMax : Int := 2 ^ 15 - 1

/-- `set_field_width`. -/
def setFieldWidth (spec : PrintfSpec) (width : Int32) : PrintfSpec :=
  if field 24 width.toInt ≠ width.toInt then
    { spec with fieldWidth := min (max width.toInt (-fieldWidthMax)) fieldWidthMax }
  else { spec with fieldWidth := field 24 width.toInt }

/-- `set_precision`. -/
def setPrecision (spec : PrintfSpec) (prec : Int32) : PrintfSpec :=
  if field 16 prec.toInt ≠ prec.toInt then
    { spec with precision := min (max prec.toInt 0) precisionMax }
  else { spec with precision := field 16 prec.toInt }

/-- `hex_asc`. -/
def hexAsc (digit : UInt8) : UInt8 :=
  if digit < 10 then '0'.toUInt8 + digit else 'a'.toUInt8 + (digit - 10)

/-- `hex_asc_upper`. -/
def hexAscUpper (digit : UInt8) : UInt8 :=
  if digit < 10 then '0'.toUInt8 + digit else 'A'.toUInt8 + (digit - 10)

/-- `decpair` — the units, then the tens. -/
def decpair (x : UInt32) : List UInt8 :=
  ['0'.toUInt8 + (x % 10).toUInt8, '0'.toUInt8 + (x / 10).toUInt8]

/-- The label `out_r` of `put_dec_trunc8`. -/
def putDecLast (r : UInt32) : List UInt8 := (decpair r).take (if r < 10 then 1 else 2)

/-- A hundredth, in fixed point. -/
def hundredth (r : UInt32) : UInt32 := ((r.toUInt64 * 0x28f5c29) >>> 32).toUInt32

/-- `put_dec_trunc8`. -/
def putDecTrunc8 (r : UInt32) : List UInt8 :=
  if r < 100 then putDecLast r
  else
    let q := hundredth r
    decpair (r - 100 * q) ++
      if q < 100 then putDecLast q
      else
        let r := hundredth q
        decpair (q - 100 * r) ++
          if r < 100 then putDecLast r
          else
            let q := (r * 0x147b) >>> 19
            decpair (r - 100 * q) ++ putDecLast q

/-- `put_dec_full8`. -/
def putDecFull8 (r : UInt32) : List UInt8 :=
  let q := hundredth r
  let low := decpair (r - 100 * q)
  let r := hundredth q
  let middle := decpair (q - 100 * r)
  let q := (r * 0x147b) >>> 19
  low ++ middle ++ decpair (r - 100 * q) ++ decpair q

/-- `put_dec` — the digits from the units on. -/
def putDec (n : UInt64) : List UInt8 :=
  if 100000000 ≤ n then
    let low := putDecFull8 (n % 100000000).toUInt32
    let n := n / 100000000
    if 100000000 ≤ n then
      low ++ putDecFull8 (n % 100000000).toUInt32 ++ putDecTrunc8 (n / 100000000).toUInt32
    else low ++ putDecTrunc8 n.toUInt32
  else putDecTrunc8 n.toUInt32

/-- The digits of base 8 or 16 from the units on, as far as there are steps. -/
def maskDigits (mask locase : UInt8) (shift : UInt64) : Nat → UInt64 → List UInt8
  | 0, _ => []
  | steps + 1, num =>
    (hexAscUpper (num.toUInt8 &&& mask) ||| locase) ::
      (if num >>> shift != 0 then maskDigits mask locase shift steps (num >>> shift) else [])

/-- The digits that `number` holds in `tmp`, from the units on. -/
def digits (num : UInt64) (base locase : UInt8) : List UInt8 :=
  if num < base.toUInt64 then [hexAscUpper num.toUInt8 ||| locase]
  else if base != 10 then
    -- 64 bits are gone after 22 shifts by three.
    maskDigits (base - 1) locase (if base == 16 then 4 else 3) 22 num
  else putDec num

/-- What `while (--field_width >= 0)` writes. -/
def padding (c : UInt8) (fieldWidth : Int) : List UInt8 := List.replicate fieldWidth.toNat c

/-- The width that `while (--field_width >= 0)` leaves. -/
def padded (fieldWidth : Int) : Int := if 0 < fieldWidth then -1 else fieldWidth - 1

/-- The sign that `number` writes, or NUL, and the number without it. -/
def signed (num : UInt64) (spec : PrintfSpec) : UInt8 × UInt64 :=
  if spec.has flagSign then
    if num.toInt64 < 0 then ('-'.toUInt8, -num)
    else if spec.has flagPlus then ('+'.toUInt8, num)
    else if spec.has flagSpace then (' '.toUInt8, num)
    else (0, num)
  else (0, num)

/-- The prefix that `number` writes. -/
def basePrefix (num : UInt64) (spec : PrintfSpec) : List UInt8 :=
  if spec.has flagSpecial && spec.base != 10 then
    if spec.base == 16 then ['0'.toUInt8, 'X'.toUInt8 ||| (spec.flags &&& flagSmall)]
    else if num != 0 then ['0'.toUInt8] else []
  else []

/-- `number`. -/
def number (finish : Nat) (num : UInt64) (spec : PrintfSpec) (out : Sink) : Sink :=
  let locase := spec.flags &&& flagSmall
  let left := spec.has flagLeft
  let zeropad := spec.has flagZeropad && !left
  let (sign, magnitude) := signed num spec
  let fieldWidth := spec.fieldWidth - (if sign != 0 then 1 else 0) - (basePrefix num spec).length
  let tmp := digits magnitude spec.base locase
  let precision := max (tmp.length : Int) spec.precision
  let fieldWidth := fieldWidth - precision
  let out := puts finish (if !zeropad && !left then padding ' '.toUInt8 fieldWidth else []) out
  let fieldWidth := if !zeropad && !left then padded fieldWidth else fieldWidth
  let out := puts finish (if sign != 0 then [sign] else []) out
  let out := puts finish (basePrefix num spec) out
  let c := if zeropad then '0'.toUInt8 else ' '.toUInt8
  let out := puts finish (if !left then padding c fieldWidth else []) out
  let fieldWidth := if !left then padded fieldWidth else fieldWidth
  let out := puts finish (padding '0'.toUInt8 (precision - tmp.length)) out
  let out := puts finish tmp.reverse out
  puts finish (padding ' '.toUInt8 fieldWidth) out

/-- `move_right`. -/
def moveRight (finish start len spaces : Nat) (memory : Nat → UInt8) : Nat → UInt8 :=
  if finish ≤ start then memory
  else
    let size := finish - start
    if size ≤ spaces then fill memory start size ' '.toUInt8
    else
      let memory := if len ≠ 0 then move memory (start + spaces) start (min len (size - spaces))
        else memory
      fill memory start spaces ' '.toUInt8

/-- `widen_string`. -/
def widenString (finish n : Nat) (spec : PrintfSpec) (out : Sink) : Sink :=
  if spec.fieldWidth ≤ n then out
  else
    let spaces := (spec.fieldWidth - n).toNat
    if !spec.has flagLeft then
      { position := out.position + spaces
        memory := moveRight finish (out.position - n) n spaces out.memory }
    else puts finish (List.replicate spaces ' '.toUInt8) out

/-- The loop of `string_nocheck`, which copies until NUL or its limit and counts. -/
def copyString (finish : Nat) (s : Nat → UInt8) : Nat → Nat → Sink → Nat × Sink
  | 0, len, out => (len, out)
  | lim + 1, len, out =>
    if s len == 0 then (len, out) else copyString finish s lim (len + 1) (put finish (s len) out)

/-- How many bytes that loop reads. -/
def copyReads (s : Nat → UInt8) : Nat → Nat → Nat
  | 0, _ => 0
  | lim + 1, len => if s len == 0 then 1 else copyReads s lim (len + 1) + 1

/-- `string_nocheck` — a negative precision counts down from as far as an `int` goes around. -/
def stringNocheck (finish : Nat) (s : Nat → UInt8) (spec : PrintfSpec) (out : Sink) : Sink :=
  let (len, out) := copyString finish s (spec.precision % 2 ^ 32).toNat 0 out
  widenString finish len spec out

/-- `error_string`. -/
def errorString (finish : Nat) (s : List UInt8) (spec : PrintfSpec) (out : Sink) : Sink :=
  let spec := if spec.precision == -1 then { spec with precision := 2 * 8 } else spec
  stringNocheck finish (fun index => s.getD index 0) spec out

/-- `IS_ERR_VALUE`. -/
def isErrValue (ptr : UInt64) : Bool := -4095 ≤ ptr

/-- `check_pointer_msg`. -/
def checkPointerMsg (ptr : UInt64) : Option (List UInt8) :=
  if ptr == 0 then some (chars ['(', 'n', 'u', 'l', 'l', ')'])
  else if ptr < 4096 || isErrValue ptr then some (chars ['(', 'e', 'f', 'a', 'u', 'l', 't', ')'])
  else none

/-- `check_pointer` — what it has written when it fails. -/
def checkPointer (finish : Nat) (ptr : UInt64) (spec : PrintfSpec) (out : Sink) : Option Sink :=
  (checkPointerMsg ptr).map fun message => errorString finish message spec out

/-- What a pointer points to. -/
def pointee (reading : UInt64 → UInt8) (ptr : UInt64) : Nat → UInt8 :=
  fun index => reading (ptr + UInt64.ofNat index)

/-- `string`. -/
def string (finish : Nat) (reading : UInt64 → UInt8) (s : UInt64) (spec : PrintfSpec)
    (out : Sink) : Sink :=
  match checkPointer finish s spec out with
  | some out => out
  | none => stringNocheck finish (pointee reading s) spec out

/-- `pointer_string`. -/
def pointerString (finish : Nat) (ptr : UInt64) (spec : PrintfSpec) (out : Sink) : Sink :=
  let spec := { spec with base := 16, flags := spec.flags ||| flagSmall }
  let spec := if spec.fieldWidth == -1 then
      { spec with fieldWidth := 2 * 8, flags := spec.flags ||| flagZeropad }
    else spec
  number finish ptr spec out

/-- `hex_byte_pack`. -/
def hexBytePack (byte : UInt8) : List UInt8 := [hexAsc (byte >>> 4), hexAsc (byte &&& 0x0f)]

/-- `hex_string`. -/
def hexString (finish : Nat) (reading : UInt64 → UInt8) (addr : UInt64) (spec : PrintfSpec)
    (fmt : List UInt8) (out : Sink) : Sink :=
  if spec.fieldWidth == 0 then out
  else match checkPointer finish addr spec out with
    | some out => out
    | none =>
      let separator := match Char.ofUInt8 (fmt.getD 1 0) with
        | 'C' => ':'.toUInt8
        | 'D' => '-'.toUInt8
        | 'N' => 0
        | _ => ' '.toUInt8
      let len := if 0 < spec.fieldWidth then (min spec.fieldWidth 64).toNat else 1
      (List.range len).foldl (fun out i =>
        let out := puts finish (hexBytePack (pointee reading addr i)) out
        puts finish (if separator != 0 && i + 1 != len then [separator] else []) out) out

/-- `mac_address_string`. -/
def macAddressString (finish : Nat) (reading : UInt64 → UInt8) (addr : UInt64) (spec : PrintfSpec)
    (fmt : List UInt8) (out : Sink) : Sink :=
  match checkPointer finish addr spec out with
  | some out => out
  | none =>
    let separator := if fmt.getD 1 0 == 'F'.toUInt8 then '-'.toUInt8 else ':'.toUInt8
    let reversed := fmt.getD 1 0 == 'R'.toUInt8
    let macAddr := (List.range 6).flatMap fun i =>
      hexBytePack (pointee reading addr (if reversed then 5 - i else i)) ++
        if star fmt == 'M'.toUInt8 && i != 5 then [separator] else []
    stringNocheck finish (fun index => macAddr.getD index 0) spec out

/-- `err_ptr`. -/
def errPtr (finish : Nat) (ptr : UInt64) (spec : PrintfSpec) (out : Sink) : Sink :=
  number finish (Word.ofInt (Word.toInt ptr))
    { spec with flags := spec.flags ||| flagSign, base := 10 } out

/-- `default_pointer`. -/
def defaultPointer (finish : Nat) (ptr : UInt64) (spec : PrintfSpec) (out : Sink) : Sink :=
  pointerString finish ptr spec out

/-- `pointer` — `fmt` is what follows the conversion. -/
def pointer (finish : Nat) (reading : UInt64 → UInt8) (fmt : List UInt8) (ptr : UInt64)
    (spec : PrintfSpec) (out : Sink) : Sink :=
  match Char.ofUInt8 (star fmt) with
  | 'h' => hexString finish reading ptr spec fmt out
  | 'M' | 'm' => macAddressString finish reading ptr spec fmt out
  | 'x' => pointerString finish ptr spec out
  | 'e' => if isErrValue ptr then errPtr finish ptr spec out else defaultPointer finish ptr spec out
  | 'u' | 'k' =>
    if fmt.getD 1 0 == 's'.toUInt8 then string finish reading ptr spec out
    else errorString finish (chars ['(', 'e', 'i', 'n', 'v', 'a', 'l', ')']) spec out
  | _ => defaultPointer finish ptr spec out

/-- `++fmt`, which must not pass the NUL. -/
def next : List UInt8 → Except Fault (List UInt8)
  | [] => .error .outside
  | _ :: fmt => .ok fmt

/-- `fmt - start`, as an `int`. -/
def distance (start fmt : List UInt8) : Int32 := Int32.ofNat (start.length - fmt.length)

/-- `skip_atoi` — a number too large for an `int` wraps. -/
def skipAtoi : List UInt8 → Int32 → Except Fault (Int32 × List UInt8)
  | [], _ => .error .outside
  | c :: s, i =>
    let i := i * 10 + c.toUInt32.toInt32 - 48
    if isDigit (star s) then skipAtoi s i else .ok (i, s)

/-- The flag that a character sets. -/
def flagOf (c : UInt8) : Option UInt8 :=
  match Char.ofUInt8 c with
  | '-' => some flagLeft
  | '+' => some flagPlus
  | ' ' => some flagSpace
  | '#' => some flagSpecial
  | '0' => some flagZeropad
  | _ => none

/-- The loop of `format_decode` over the flags, which also skips the `%`. -/
def skipFlags : List UInt8 → UInt8 → Except Fault (List UInt8 × UInt8)
  | [], _ => .error .outside
  | _ :: fmt, flags =>
    match flagOf (star fmt) with
    | some flag => skipFlags fmt (flags ||| flag)
    | none => .ok (fmt, flags)

/-- `BUILD_BUG_ON` — it loops whatever its condition is. -/
def buildBugOn (_condition : Bool) : Except Fault Unit := .error .hang

/-- The type `unsignedType + (flags & SIGN)`, behind the check that `signedType` comes next. -/
def checkedType (unsignedType signedType : FormatType) (spec : PrintfSpec) :
    Except Fault FormatType := do
  buildBugOn (unsignedType.ctorIdx + 1 != signedType.ctorIdx)
  return if spec.has flagSign then signedType else unsignedType

/-- The type that `format_decode` gives an integer conversion. -/
def integerType (qualifier : UInt8) (spec : PrintfSpec) : Except Fault FormatType :=
  match Char.ofUInt8 qualifier with
  | 'L' => .ok .longLong
  | 'l' => checkedType .ulong .long spec
  | 'z' => .ok .sizeT
  | 't' => .ok .ptrdiff
  | 'H' => checkedType .ubyte .byte spec
  | 'h' => checkedType .ushort .short spec
  | _ => checkedType .uint .int spec

/-- How `format_decode` ends at an integer conversion. -/
def decodeInteger (start fmt : List UInt8) (qualifier : UInt8) (spec : PrintfSpec) :
    Except Fault (Int32 × PrintfSpec) := do
  let type ← integerType qualifier spec
  let fmt ← next fmt
  return (distance start fmt, { spec with type := type })

/-- How `format_decode` ends at a conversion that is no integer. -/
def decodeOther (start fmt : List UInt8) (type : FormatType) (spec : PrintfSpec) :
    Except Fault (Int32 × PrintfSpec) := do
  let fmt ← next fmt
  return (distance start fmt, { spec with type := type })

/-- The conversion that `format_decode` switches on. -/
def decodeConversion (start fmt : List UInt8) (qualifier : UInt8) (spec : PrintfSpec) :
    Except Fault (Int32 × PrintfSpec) :=
  let spec := { spec with base := 10 }
  match Char.ofUInt8 (star fmt) with
  | 'c' => decodeOther start fmt .char spec
  | 's' => decodeOther start fmt .str spec
  | 'p' => decodeOther start fmt .ptr spec
  | '%' => decodeOther start fmt .percentChar spec
  | 'o' => decodeInteger start fmt qualifier { spec with base := 8 }
  | 'x' => decodeInteger start fmt qualifier
      { spec with base := 16, flags := spec.flags ||| flagSmall }
  | 'X' => decodeInteger start fmt qualifier { spec with base := 16 }
  | 'd' | 'i' => decodeInteger start fmt qualifier { spec with flags := spec.flags ||| flagSign }
  | 'u' => decodeInteger start fmt qualifier spec
  | _ => .ok (distance start fmt, { spec with type := .invalid })

/-- `_tolower`. -/
def toLower (c : UInt8) : UInt8 := c ||| 0x20

/-- The label `qualifier` of `format_decode`. -/
def decodeQualifier (start fmt : List UInt8) (spec : PrintfSpec) :
    Except Fault (Int32 × PrintfSpec) := do
  if star fmt == 'h'.toUInt8 || toLower (star fmt) == 'l'.toUInt8 || star fmt == 'z'.toUInt8 ||
      star fmt == 't'.toUInt8 then
    let qualifier := star fmt
    let fmt ← next fmt
    if qualifier == star fmt then
      if qualifier == 'l'.toUInt8 then
        let fmt ← next fmt
        decodeConversion start fmt 'L'.toUInt8 spec
      else if qualifier == 'h'.toUInt8 then
        let fmt ← next fmt
        decodeConversion start fmt 'H'.toUInt8 spec
      else decodeConversion start fmt qualifier spec
    else decodeConversion start fmt qualifier spec
  else decodeConversion start fmt 0 spec

/-- The label `precision` of `format_decode`. -/
def decodePrecision (start fmt : List UInt8) (spec : PrintfSpec) :
    Except Fault (Int32 × PrintfSpec) := do
  let spec := { spec with precision := -1 }
  if star fmt == '.'.toUInt8 then
    let fmt ← next fmt
    if isDigit (star fmt) then
      let (number, fmt) ← skipAtoi fmt 0
      decodeQualifier start fmt { spec with precision := max (field 16 number.toInt) 0 }
    else if star fmt == '*'.toUInt8 then
      let fmt ← next fmt
      return (distance start fmt, { spec with type := .precision })
    else decodeQualifier start fmt spec
  else decodeQualifier start fmt spec

/-- `format_decode` after the flags. -/
def decodeWidth (start fmt : List UInt8) (spec : PrintfSpec) :
    Except Fault (Int32 × PrintfSpec) := do
  let spec := { spec with fieldWidth := -1 }
  if isDigit (star fmt) then
    let (number, fmt) ← skipAtoi fmt 0
    decodePrecision start fmt { spec with fieldWidth := field 24 number.toInt }
  else if star fmt == '*'.toUInt8 then
    let fmt ← next fmt
    return (distance start fmt, { spec with type := .width })
  else decodePrecision start fmt spec

/-- `format_decode` — what it returns is how far it has read. -/
def formatDecode (start : List UInt8) (spec : PrintfSpec) : Except Fault (Int32 × PrintfSpec) :=
  match spec.type with
  -- It has stopped early at a width, which is an argument.
  | .width =>
    let spec := if spec.fieldWidth < 0 then
        { spec with fieldWidth := field 24 (-spec.fieldWidth), flags := spec.flags ||| flagLeft }
      else spec
    decodePrecision start start { spec with type := .none }
  -- It has stopped early at a precision, which is an argument.
  | .precision =>
    decodeQualifier start start { spec with precision := max spec.precision 0, type := .none }
  | _ =>
    let spec := { spec with type := .none }
    let fmt := start.dropWhile (· != '%'.toUInt8)
    if fmt.length ≠ start.length ∨ fmt = [] then .ok (distance start fmt, spec)
    else do
      let (fmt, flags) ← skipFlags fmt 0
      decodeWidth start fmt { spec with flags := flags }

/-- A text in C: no NUL stands before its end. -/
structure CString where
  /-- The bytes in front of the zero byte. -/
  text : List UInt8
  /-- No byte of the text is zero. -/
  terminated : 0 ∉ text

/-- What a call reads, apart from its buffer. -/
structure Call where
  /-- The format. -/
  format : CString
  /-- The words of the argument list. -/
  arguments : Nat → UInt64
  /-- What the pointers among them point to. -/
  reading : UInt64 → UInt8

/-- Where a call stands in its format and in its arguments. -/
structure Cursor where
  /-- How far `fmt` has moved from the start of the format. -/
  position : Int
  /-- The conversion read last. -/
  spec : PrintfSpec
  /-- How many arguments have been taken. -/
  taken : Nat

/-- `va_arg` of an integer conversion, widened to `num`. -/
def integerArgument (type : FormatType) (word : UInt64) : UInt64 :=
  match type with
  | .longLong | .ulong | .long | .sizeT | .ptrdiff => word
  | .ubyte => word.toUInt8.toUInt64
  | .byte => word.toUInt8.toInt8.toInt64.toUInt64
  | .ushort => word.toUInt16.toUInt64
  | .short => word.toUInt16.toInt16.toInt64.toUInt64
  | .int => Word.ofInt (Word.toInt word)
  | _ => word.toUInt32.toUInt64

/-- What `fmt` points to, which must not lie before the format. -/
def remaining (call : Call) (position : Int) : Except Fault (List UInt8) :=
  if position < 0 then .error .outside else .ok (call.format.text.drop position.toNat)

/-- The copy of a text without conversions. A negative length reaches `memcpy` as a huge one. -/
def copyLiteral (finish : Nat) (oldFmt : List UInt8) (read : Int32) (out : Sink) :
    Except Fault Sink :=
  if out.position < finish then
    if read < 0 then .error .outside
    else
      let copy := min read.toInt.toNat (finish - out.position)
      .ok { position := out.position + read.toInt.toNat
            memory := store out.memory out.position copy fun index => oldFmt.getD index 0 }
  else .ok { out with position := (out.position + read.toInt).toNat }

/-- How often `while (--field_width > 0)` runs, and the field that it leaves. -/
def countDown (fieldWidth : Int) : Nat × Int :=
  let below := field 24 (fieldWidth - 1)
  (below.toNat, if 0 < below then 0 else below)

/-- The spaces of `%c` before and after its character, and the field width that it leaves. -/
def charPadding (spec : PrintfSpec) : Nat × Nat × Int :=
  let (before, width) := if !spec.has flagLeft then countDown spec.fieldWidth
    else (0, spec.fieldWidth)
  let (after, rest) := countDown width
  (before, after, rest)

/-- The conversion `%c`. -/
def character (finish : Nat) (c : UInt8) (spec : PrintfSpec) (out : Sink) : Sink :=
  let (before, after, _) := charPadding spec
  let out := puts finish (List.replicate before ' '.toUInt8) out
  let out := put finish c out
  puts finish (List.replicate after ' '.toUInt8) out

/-- What `vsnprintf` does with a directive: where it goes on, if it does, and the output. -/
def dispatch (call : Call) (finish : Nat) (oldFmt : List UInt8) (read : Int32) (cursor : Cursor)
    (out : Sink) : Except Fault (Option Cursor × Sink) :=
  let spec := cursor.spec
  let argument := call.arguments cursor.taken
  let taking := { cursor with taken := cursor.taken + 1 }
  match spec.type with
  | .none => do
    let out ← copyLiteral finish oldFmt read out
    return (some cursor, out)
  | .width => .ok (some { taking with spec := setFieldWidth spec (Word.toInt argument) }, out)
  | .precision => .ok (some { taking with spec := setPrecision spec (Word.toInt argument) }, out)
  | .char =>
    .ok (some { taking with spec := { spec with fieldWidth := (charPadding spec).2.2 } },
      character finish argument.toUInt8 spec out)
  | .str => .ok (some taking, string finish call.reading argument spec out)
  | .ptr => do
    let fmt ← remaining call cursor.position
    return (some { taking with position := cursor.position + (fmt.takeWhile isAlnum).length },
      pointer finish call.reading fmt argument spec out)
  | .percentChar => .ok (some cursor, put finish '%'.toUInt8 out)
  | .invalid => .ok (none, out)
  | type => .ok (some taking, number finish (integerArgument type argument) spec out)

/-- One turn of the loop of `vsnprintf`. -/
def step (call : Call) (finish : Nat) (cursor : Cursor) (out : Sink) :
    Except Fault (Option Cursor × Sink) := do
  let oldFmt ← remaining call cursor.position
  if oldFmt = [] then .ok (none, out)
  else do
    let (read, spec) ← formatDecode oldFmt cursor.spec
    dispatch call finish oldFmt read ⟨cursor.position + read.toInt, spec, cursor.taken⟩ out

/-- The loop of `vsnprintf`, as far as there are turns. -/
def loop (call : Call) (finish : Nat) : Nat → Cursor → Sink → Except Fault Sink
  | 0, _, _ => .error .hang
  | turns + 1, cursor, out => do
    match ← step call finish cursor out with
    | (none, out) => return out
    | (some cursor, out) => loop call finish turns cursor out

/-- Where `vsnprintf` begins. -/
def Cursor.initial : Cursor := ⟨0, ⟨.none, 0, 0, 0, 0⟩, 0⟩

/-- The terminating NUL, in the last byte if the text has been cut. -/
def terminate (finish size : Nat) (out : Sink) : Nat → UInt8 :=
  if 0 < size then
    if out.position < finish then fill out.memory out.position 1 0
    else fill out.memory (finish - 1) 1 0
  else out.memory

/-- `INT_MAX`. -/
def intMax : Nat := 2 ^ 31 - 1

/-- The `end` of `vsnprintf`, which never lies before the buffer. -/
def bufferEnd (buf size : UInt64) : UInt64 := if buf + size < buf then -1 else buf + size

/-- `vsnprintf` — what it returns, and memory after it. -/
def vsnprintf (call : Call) (turns : Nat) (buf size : UInt64) (memory : Nat → UInt8) :
    Except Fault (Int32 × (Nat → UInt8)) :=
  if intMax < size.toNat then .ok (0, memory)
  else do
    let finish := bufferEnd buf size
    let size := if buf + size < buf then finish - buf else size
    let out ← loop call finish.toNat turns Cursor.initial ⟨buf.toNat, memory⟩
    return (Int32.ofInt (out.position - buf.toNat), terminate finish.toNat size.toNat out)

/-- `snprintf` — a format takes no more turns than it has characters, and one more at its end. -/
def snprintf (call : Call) (buf size : UInt64) (memory : Nat → UInt8) :
    Except Fault (Int32 × (Nat → UInt8)) :=
  vsnprintf call (call.format.text.length + 1) buf size memory

end DragonStub.Vsprintf

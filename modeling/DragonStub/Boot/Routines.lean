import DragonStub.Boot.Options

/-!
# Memory and string routines

`memmove` and `memchr` of `lib/init.c`, and `strlen`, `__strchrnul` and `simple_strtoull` of
`string.c`. Every byte and every word that is looked at is a point of the run. A loop that counts
down ends with its count; another one is given a number of turns, and one that takes them all counts
as a loop that does not end.
-/

namespace DragonStub

open ByteMemory Interaction Prog

/-- The loop of `memmove` that copies from the last byte on. -/
def copyDown (m : Memory) (dst src : UInt64) : Nat → Memory
  | 0 => m
  | size + 1 => copyDown (store m (dst - 1) (m (src - 1))) (dst - 1) (src - 1) size

/-- `memmove` — what it returns, and memory after it. -/
def memmove (m : Memory) (dst src size : UInt64) : UInt64 × Memory :=
  if size == 0 then (dst, m)
  else if dst ≤ src then (dst, memcpy m dst src size.toNat)
  else (dst, copyDown m (dst + size) (src + size) size.toNat)

/-- `ONES`. -/
def ones : UInt64 := -1 / 255

/-- `HIGHS`. -/
def highs : UInt64 := ones * (255 / 2 + 1)

/-- `HASZERO`. -/
def hasZero (x : UInt64) : UInt64 := x - ones &&& ~~~x &&& highs

/-- `(unsigned char)c`. -/
def charOf (c : Int32) : UInt8 := c.toUInt32.toUInt8

/-- The loop of `memchr` up to an aligned address; the bytes left are its argument and are returned
with the address. -/
def memchrHead (m : Memory) (c : UInt8) : Nat → UInt64 → Stub (UInt64 × Nat)
  | 0, s => return (s, 0)
  | n + 1, s =>
    if s &&& 7 != 0 then do
      let byte ← readByte m s
      if byte != c then memchrHead m c n (s + 1) else return (s, n + 1)
    else return (s, n + 1)

/-- The loop of `memchr` over words. -/
def memchrWords (m : Memory) (k : UInt64) : Nat → UInt64 → Stub (UInt64 × Nat)
  | n + 8, w => do
    let word ← readWord m w 8
    if hasZero (word ^^^ k) == 0 then memchrWords m k n (w + 8) else return (w, n + 8)
  | n, w => return (w, n)

/-- The loop of `memchr` at its end, and what it returns. -/
def memchrTail (m : Memory) (c : UInt8) : Nat → UInt64 → Stub UInt64
  | 0, _ => return 0
  | n + 1, s => do
    let byte ← readByte m s
    if byte != c then memchrTail m c n (s + 1) else return s

/-- The words of `memchr`, unless it is at its end or at the byte. -/
def memchrMiddle (m : Memory) (c : UInt8) (n : Nat) (s : UInt64) : Stub (UInt64 × Nat) :=
  if n != 0 then do
    let byte ← readByte m s
    if byte != c then memchrWords m (ones * c.toUInt64) n s else return (s, n)
  else return (s, n)

/-- `memchr`. -/
def memchr (m : Memory) (src : UInt64) (c : Int32) (n : UInt64) : Stub UInt64 := do
  let (s, n) ← memchrHead m (charOf c) n.toNat src
  let (s, n) ← memchrMiddle m (charOf c) n s
  memchrTail m (charOf c) n s

/-- The loop of `strlen`. -/
def strlenLoop (m : Memory) : Nat → UInt64 → Stub UInt64
  | 0, _ => endless
  | turns + 1, sc => do
    let c ← readByte m sc
    if c != 0 then strlenLoop m turns (sc + 1) else return sc

/-- `strlen`. -/
def strlen (m : Memory) (turns : Nat) (s : UInt64) : Stub UInt64 := do
  let sc ← strlenLoop m turns s
  return sc - s

/-- The loop of `__strchrnul` up to an aligned address, and whether `__strchrnul` returns there. -/
def strchrnulHead (m : Memory) (c : UInt8) : Nat → UInt64 → Stub (UInt64 × Bool)
  | 0, _ => endless
  | turns + 1, s =>
    if s % 8 != 0 then do
      let byte ← readByte m s
      if byte == 0 || byte == c then return (s, true) else strchrnulHead m c turns (s + 1)
    else return (s, false)

/-- The loop of `__strchrnul` over words. -/
def strchrnulWords (m : Memory) (k : UInt64) : Nat → UInt64 → Stub UInt64
  | 0, _ => endless
  | turns + 1, w => do
    let word ← readWord m w 8
    if hasZero word == 0 && hasZero (word ^^^ k) == 0 then strchrnulWords m k turns (w + 8)
    else return w

/-- The loop of `__strchrnul` at its end. -/
def strchrnulTail (m : Memory) (c : UInt8) : Nat → UInt64 → Stub UInt64
  | 0, _ => endless
  | turns + 1, s => do
    let byte ← readByte m s
    if byte != 0 && byte != c then strchrnulTail m c turns (s + 1) else return s

/-- `__strchrnul`. -/
def strchrnul (m : Memory) (turns : Nat) (s : UInt64) (c : Int32) : Stub UInt64 :=
  if charOf c == 0 then do
    let length ← strlen m turns s
    return s + length
  else do
    let (s, found) ← strchrnulHead m (charOf c) turns s
    if found then return s
    else
      let w ← strchrnulWords m (ones * (charOf c).toUInt64) turns s
      strchrnulTail m (charOf c) turns w

/-- `isxdigit`, by the table of `ctype.c`. -/
def isxdigit (c : UInt8) : Bool :=
  Vsprintf.isDigit c || ('A'.toUInt8 ≤ c && c ≤ 'F'.toUInt8) || ('a'.toUInt8 ≤ c && c ≤ 'f'.toUInt8)

/-- `TOLOWER`. -/
def toLower (c : UInt8) : UInt8 := c ||| 0x20

/-- `simple_guess_base`. -/
def simpleGuessBase (m : Memory) (cp : UInt64) : Stub UInt32 := do
  let first ← readByte m cp
  if first == '0'.toUInt8 then
    let second ← readByte m (cp + 1)
    if toLower second == 'x'.toUInt8 then
      let third ← readByte m (cp + 2)
      return if isxdigit third then 16 else 8
    else return 8
  else return 10

/-- `if (base == 16 && cp[0] == '0' && TOLOWER(cp[1]) == 'x') cp += 2;` -/
def skipBase (m : Memory) (base : UInt32) (cp : UInt64) : Stub UInt64 :=
  if base == 16 then do
    let first ← readByte m cp
    if first == '0'.toUInt8 then
      let second ← readByte m (cp + 1)
      return if toLower second == 'x'.toUInt8 then cp + 2 else cp
    else return cp
  else return cp

/-- The value of a digit. -/
def digitValue (c : UInt8) : UInt32 :=
  if Vsprintf.isDigit c then c.toUInt32 - '0'.toUInt8.toUInt32
  else (toLower c).toUInt32 - 'a'.toUInt8.toUInt32 + 10

/-- The loop of `simple_strtoull`; `result` and `cp` at its end. -/
def strtoullLoop (m : Memory) (base : UInt32) : Nat → UInt64 → UInt64 → Stub (UInt64 × UInt64)
  | 0, _, _ => endless
  | turns + 1, cp, result => do
    let c ← readByte m cp
    if isxdigit c then
      let value := digitValue c
      if base ≤ value then return (result, cp)
      else strtoullLoop m base turns (cp + 1) (result * base.toUInt64 + value.toUInt64)
    else return (result, cp)

/-- `simple_strtoull` — what it returns, and `*endp`. -/
def simpleStrtoull (m : Memory) (turns : Nat) (cp : UInt64) (base : UInt32) :
    Stub (UInt64 × UInt64) := do
  let base ← if base == 0 then simpleGuessBase m cp else pure base
  let cp ← skipBase m base cp
  strtoullLoop m base turns cp 0

end DragonStub

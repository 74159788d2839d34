import DragonStub.Base.ByteMemory
import DragonStub.Boot.Vsprintf

/-!
# Decimal digits in a buffer

`put_dec` of `lib/vsprintf.c` as it works on memory, two digits to a store. The reciprocals it
multiplies by and the pairs it stores are recorded, so that a claim about them is one about a run.
-/

namespace DragonStub.Vsprintf

open ByteMemory

/-- What `put_dec` does on its way. -/
inductive PutStep
  /-- `q = (r * (u64)0x28f5c29) >> 32`. -/
  | wide (r q : UInt32)
  /-- `q = (r * 0x147b) >> 19`. -/
  | narrow (r q : UInt32)
  /-- `*((u16 *)buf) = decpair[x]`. -/
  | pair (buf : UInt64) (x : UInt32)

/-- The buffer that digits are put into. -/
structure Scratch where
  /-- `buf`. -/
  buf : UInt64
  /-- The bytes of memory. -/
  memory : Memory
  /-- What has been done. -/
  steps : List PutStep

/-- An entry of `decpair`. -/
def pairWord (x : UInt32) : UInt16 := ((x % 10 ||| (x / 10) <<< 8) + 0x3030).toUInt16

namespace Scratch

/-- `*((u16 *)buf) = decpair[x]; buf += n;` -/
def putPair (s : Scratch) (x : UInt32) (n : UInt64) : Scratch where
  buf := s.buf + n
  memory := writeLe s.memory s.buf (pairWord x).toNat 2
  steps := s.steps ++ [.pair s.buf x]

/-- A hundredth in 64 bits. -/
def wide (s : Scratch) (r : UInt32) : UInt32 × Scratch :=
  let q := hundredth r
  (q, { s with steps := s.steps ++ [.wide r q] })

/-- A hundredth in 32 bits. -/
def narrow (s : Scratch) (r : UInt32) : UInt32 × Scratch :=
  let q := (r * 0x147b) >>> 19
  (q, { s with steps := s.steps ++ [.narrow r q] })

/-- The label `out_r` of `put_dec_trunc8`. -/
def putDecLast (s : Scratch) (r : UInt32) : Scratch := s.putPair r (if r < 10 then 1 else 2)

/-- `put_dec_trunc8`. -/
def putDecTrunc8 (s : Scratch) (r : UInt32) : Scratch :=
  if r < 100 then s.putDecLast r
  else
    let (q, s) := s.wide r
    let s := s.putPair (r - 100 * q) 2
    if q < 100 then s.putDecLast q
    else
      let (r, s) := s.wide q
      let s := s.putPair (q - 100 * r) 2
      if r < 100 then s.putDecLast r
      else
        let (q, s) := s.narrow r
        let s := s.putPair (r - 100 * q) 2
        s.putDecLast q

/-- `put_dec_full8`. -/
def putDecFull8 (s : Scratch) (r : UInt32) : Scratch :=
  let (q, s) := s.wide r
  let s := s.putPair (r - 100 * q) 2
  let (r, s) := s.wide q
  let s := s.putPair (q - 100 * r) 2
  let (q, s) := s.narrow r
  let s := s.putPair (r - 100 * q) 2
  s.putPair q 2

end Scratch

/-- `do_div` — the remainder, and what becomes of `n`. -/
def doDiv (n : UInt64) (base : UInt32) : UInt32 × UInt64 :=
  ((n % base.toUInt64).toUInt32, n / base.toUInt64)

namespace Scratch

/-- `if (n >= 100 * 1000 * 1000) buf = put_dec_full8(buf, do_div(n, 100 * 1000 * 1000));` -/
def putDecLow (s : Scratch) (n : UInt64) : UInt64 × Scratch :=
  if 100 * 1000 * 1000 ≤ n then
    let (low, n) := doDiv n (100 * 1000 * 1000)
    (n, s.putDecFull8 low)
  else (n, s)

/-- `put_dec`, for 64-bit words. -/
def putDec (s : Scratch) (n : UInt64) : Scratch :=
  let (n, s) := s.putDecLow n
  let (n, s) := s.putDecLow n
  s.putDecTrunc8 n.toUInt32

end Scratch

end DragonStub.Vsprintf

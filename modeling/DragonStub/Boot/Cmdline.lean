import DragonStub.Boot.Elf
import DragonStub.Boot.Vsprintf

/-!
# The command line

`efi_convert_cmdline` of `helper.c`, which turns the load options of the image into a string. One
pass counts the bytes that the text takes in UTF-8, reading the options unit by unit; the other is
left to the formatter, whose reads of the options are a point of the run.
-/

namespace DragonStub

open ByteMemory Interaction Prog Word

/-- `sizeof(struct efi_measured_event)`, without the data of the event. -/
def measuredEventSize : UInt64 := 26

/-- `events[EFISTUB_EVT_LOAD_OPTIONS].event_data_len`. -/
def loadOptionsEventLength : UInt64 := 26

/-- `efi_measure_tagged_event` for the load options. -/
def efiMeasureTaggedEvent (loadAddr loadSize : UInt64) : Stub EfiStatus := do
  let tcg2 ← perform (Call.locateProtocol efiTcg2ProtocolGuid)
  if tcg2.value != 0 then
    let evt ← perform (Call.allocatePool efiLoaderData (measuredEventSize + loadOptionsEventLength))
    if evt.status != efiSuccess then
      efiWarn "Failed to measure data for event %d: 0x%lx\n" [1, evt.status]
      return evt.status
    else
      let status ← perform (Call.hashLogExtendEvent tcg2.value 0 loadAddr loadSize evt.value)
      let _ ← perform (Call.freePool evt.value)
      if status != efiSuccess then
        efiWarn "Failed to measure data for event %d: 0x%lx\n" [1, status]
        return status
      else return efiSuccess
  else return efiUnsupported

/-- `COMMAND_LINE_SIZE`. -/
def commandLineSize : Nat := 1024

/-- `isspace` of an ASCII character. -/
def isSpace (c : UInt16) : Bool := (9 ≤ c && c ≤ 13) || c == 32

/-- The variables of the counting loop. -/
structure Counting where
  /-- `options_bytes`. -/
  bytes : Nat
  /-- `safe_options_bytes`. -/
  safe : Nat
  /-- `in_quote`. -/
  inQuote : Bool
deriving DecidableEq

/-- `(c & 0xfc00) == 0xd800`. -/
def isHighSurrogate (c : UInt16) : Bool := c &&& 0xfc00 == 0xd800

/-- `(c & 0xfc00) == 0xdc00`. -/
def isLowSurrogate (c : UInt16) : Bool := c &&& 0xfc00 == 0xdc00

/-- A character of the text counted as one byte. -/
def Counting.ascii (count : Counting) (c : UInt16) : Counting :=
  if c == 0x22 then { count with bytes := count.bytes + 1, inQuote := !count.inQuote }
  else if !count.inQuote && isSpace c then
    { count with bytes := count.bytes + 1, safe := count.bytes }
  else { count with bytes := count.bytes + 1 }

/-- A number of bytes counted. -/
def Counting.add (count : Counting) (bytes : Nat) : Counting :=
  { count with bytes := count.bytes + bytes }

/-- `*s2`. -/
def readUnit (m : Memory) (s2 : UInt64) : Stub UInt16 := do
  let word ← readWord m s2 2
  return word.toUInt16

/-- The loop of `efi_convert_cmdline`, which counts the bytes of the text. -/
def countLoop (m : Memory) : Nat → UInt64 → Counting → Stub Counting
  | 0, _, count => return count
  | optionsChars + 1, s2, count =>
    if count.bytes < commandLineSize then do
      let c ← readUnit m s2
      if c < 0x80 then
        if c == 0 || c == 10 then return count
        else countLoop m optionsChars (s2 + 2) (count.ascii c)
      else
        let bytes := if 0x800 ≤ c then 3 else 2
        if isHighSurrogate c then
          match optionsChars with
          -- Behind the very last unit there is no low surrogate to look at.
          | 0 => return { count with bytes := count.bytes + bytes - 3 }
          | left + 1 => do
            let low ← readUnit m (s2 + 2)
            if isLowSurrogate low then countLoop m left (s2 + 4) ((count.add bytes).add 1)
            else countLoop m (left + 1) (s2 + 2) (count.add bytes)
        else countLoop m optionsChars (s2 + 2) (count.add bytes)
    else return count

/-- The fields of `EFI_LOADED_IMAGE` that hold the load options. -/
structure LoadedImage where
  /-- `LoadOptions`. -/
  loadOptions : UInt64
  /-- `LoadOptionsSize`. -/
  loadOptionsSize : UInt32

/-- A converted command line. -/
structure ConvertedCmdline where
  /-- What is returned. -/
  cmdline : UInt64
  /-- `*cmd_line_len`. -/
  cmdLineLen : UInt64
  /-- Memory once the string is written. -/
  memory : Memory

/-- The pass over the options that counts, unless there are none. -/
def countOptions (m : Memory) (options : UInt64) (optionsSize : UInt32) : Stub Nat :=
  if options != 0 then do
    let count ← countLoop m (optionsSize / 2).toNat options ⟨0, 0, false⟩
    if commandLineSize ≤ count.bytes then do
      efiErr "Command line is too long: truncated to %d bytes\n" [UInt64.ofNat count.safe]
      return count.safe
    else return count.bytes
  else return 0

/-- `"%.*ls"`. -/
def optionsFormat : Vsprintf.CString := ⟨Vsprintf.chars ['%', '.', '*', 'l', 's'], by decide⟩

/-- The call of the formatter: the bytes of text, then the options. -/
def optionsCall (m : Memory) (bytes options : UInt64) : Vsprintf.Call where
  format := optionsFormat
  arguments index := if index = 0 then bytes else options
  reading := m

/-- How many bytes the formatter reads of the options. -/
def optionsRead (m : Memory) (bytes : Nat) (options : UInt64) : Nat :=
  if (Vsprintf.checkPointerMsg options).isSome then 0
  else Vsprintf.copyReads (Vsprintf.pointee m options) bytes 0

/-- Measure the options, if there are any. -/
def measureOptions (image : LoadedImage) : Stub Unit := do
  if 0 < image.loadOptionsSize then
    let _ ← efiMeasureTaggedEvent image.loadOptions image.loadOptionsSize.toUInt64

/-- Allocate a string for the text, and format the options into it. -/
def formatOptions (m : Memory) (options : UInt64) (bytes : Nat) :
    Stub (Option ConvertedCmdline) := do
  let optionsBytes := UInt64.ofNat bytes + 1
  let pool ← perform (Call.allocatePool efiLoaderData optionsBytes)
  if pool.status != efiSuccess then return none
  else
    reading options (optionsRead m bytes options)
    match Vsprintf.snprintf (optionsCall m (optionsBytes - 1) options) pool.value optionsBytes
        (fun address => m (UInt64.ofNat address)) with
    | .error _ => nomatch ← perform Call.hang
    | .ok (_, memory) =>
      return some ⟨pool.value, optionsBytes, fun address => memory address.toNat⟩

/-- `efi_convert_cmdline`; the load options quirk is for another architecture. -/
def efiConvertCmdline (m : Memory) (image : LoadedImage) : Stub (Option ConvertedCmdline) := do
  measureOptions image
  let bytes ← countOptions m image.loadOptions image.loadOptionsSize
  formatOptions m image.loadOptions bytes

end DragonStub

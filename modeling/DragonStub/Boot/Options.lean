import DragonStub.Boot.Cmdline

/-!
# The options of the command line

`skip_spaces`, `strcmp`, `strncmp` and `strnlen` of `string.c`, `next_arg` of `cmdline.c`,
`parse_option_str` and `efi_parse_options` of `helper.c`, and `efi_handle_cmdline` of `stub.c`,
which converts the command line and parses its options. A string that is looked at lies in memory,
and every byte read or written is a point of the run; a literal of the source is the list of its
bytes. A loop is given a number of turns, and one that takes them all counts as a loop that does
not end.
-/

namespace DragonStub

open ByteMemory Interaction Prog

/-- Read a byte. -/
def readByte (m : Memory) (address : UInt64) : Stub UInt8 := do
  reading address 1
  return m address

/-- Write a byte. -/
def writeByte (m : Memory) (address : UInt64) (byte : UInt8) : Stub Memory := do
  writing address 1
  return store m address byte

/-- A loop that does not end. -/
def endless {α : Type} : Stub α := do
  let never ← perform Call.hang
  nomatch never

/-- `isspace`, by the table of `ctype.c`. -/
def isspace (c : UInt8) : Bool := (9 ≤ c && c ≤ 13) || c == 32 || c == 160

/-- `'"'`. -/
def doubleQuote : UInt8 := 0x22

/-- `skip_spaces`. -/
def skipSpaces (m : Memory) : Nat → UInt64 → Stub UInt64
  | 0, _ => endless
  | turns + 1, str => do
    let c ← readByte m str
    if isspace c then skipSpaces m turns (str + 1) else return str

/-- `strcmp` with a literal. -/
def strcmp (m : Memory) : Nat → UInt64 → List UInt8 → Stub Int
  | 0, _, _ => endless
  | turns + 1, s1, s2 => do
    let c ← readByte m s1
    if c != 0 || s2.headD 0 != 0 then
      let delta : Int := c.toNat - (s2.headD 0).toNat
      if delta != 0 then return delta else strcmp m turns (s1 + 1) s2.tail
    else return 0

/-- `strncmp` with a literal; the last argument is `count`. -/
def strncmp (m : Memory) (cs : UInt64) (ct : List UInt8) : Nat → Stub Int
  | 0 => return 0
  | count + 1 => do
    let c1 ← readByte m cs
    let c2 := ct.headD 0
    if c1 != c2 then return if c1 < c2 then -1 else 1
    else if c1 == 0 then return 0
    else strncmp m (cs + 1) ct.tail count

/-- The loop of `strnlen`; the last argument is `maxlen`. -/
def strnlenLoop (m : Memory) (es : UInt64) : Nat → Stub UInt64
  | 0 => do
    let _ ← readByte m es
    return es
  | maxlen + 1 => do
    let c ← readByte m es
    if c != 0 then strnlenLoop m (es + 1) maxlen else return es

/-- `strnlen`. -/
def strnlen (m : Memory) (s : UInt64) (maxlen : Nat) : Stub UInt64 := do
  let es ← strnlenLoop m s maxlen
  return es - s

/-- `strstarts`. -/
def strstarts (m : Memory) (str : UInt64) (text : List UInt8) : Stub Bool := do
  let order ← strncmp m str text text.length
  return order == 0

/-- The loop of `parse_option_str` that skips an element. -/
def skipElement (m : Memory) : Nat → UInt64 → Stub UInt64
  | 0, _ => endless
  | turns + 1, str => do
    let c ← readByte m str
    if c != 0 && c != 0x2c then skipElement m turns (str + 1) else return str

/-- The end of a turn of `parse_option_str`: skip an element and the comma behind it. -/
def nextElement (m : Memory) (turns : Nat) (str : UInt64) : Stub UInt64 := do
  let str ← skipElement m turns str
  let c ← readByte m str
  return if c == 0x2c then str + 1 else str

/-- `parse_option_str`. -/
def parseOptionStr (m : Memory) (option : List UInt8) : Nat → UInt64 → Stub Bool
  | 0, _ => endless
  | turns + 1, str => do
    let c ← readByte m str
    if c == 0 then return false
    else
      let order ← strncmp m str option option.length
      if order == 0 then do
        let str := str + UInt64.ofNat option.length
        let c ← readByte m str
        if c == 0 || c == 0x2c then return true
        else
          let str ← nextElement m (turns + 1) str
          parseOptionStr m option turns str
      else
        let str ← nextElement m (turns + 1) str
        parseOptionStr m option turns str

/-- The variables of the loop of `next_arg`. -/
structure Scan where
  /-- `i`. -/
  i : UInt32
  /-- `equals`. -/
  equals : UInt32
  /-- `in_quote`. -/
  inQuote : Bool

/-- The body of the loop of `next_arg`, and its step. -/
def Scan.next (scan : Scan) (c : UInt8) : Scan where
  i := scan.i + 1
  equals := if scan.equals == 0 && c == 0x3d then scan.i else scan.equals
  inQuote := if c == doubleQuote then !scan.inQuote else scan.inQuote

/-- The loop of `next_arg`. -/
def scanArg (m : Memory) (args : UInt64) : Nat → Scan → Stub Scan
  | 0, _ => endless
  | turns + 1, scan => do
    let c ← readByte m (args + scan.i.toUInt64)
    if c == 0 || (isspace c && !scan.inQuote) then return scan
    else scanArg m args turns (scan.next c)

/-- `if (*last == '"') *last = '\0';` -/
def closeQuote (m : Memory) (last : UInt64) : Stub Memory := do
  let c ← readByte m last
  if c == doubleQuote then writeByte m last 0 else return m

/-- What `next_arg` returns, its out-parameters, and memory as it leaves it. -/
structure Arg where
  /-- `*param`. -/
  param : UInt64
  /-- `*val`. -/
  val : UInt64
  /-- What is returned. -/
  next : UInt64
  /-- Memory after the call. -/
  memory : Memory

/-- The value of an argument with an equals sign. -/
def cutValue (m : Memory) (args : UInt64) (scan : Scan) : Stub (UInt64 × Memory) := do
  let m ← writeByte m (args + scan.equals.toUInt64) 0
  let val := args + scan.equals.toUInt64 + 1
  let c ← readByte m val
  if c == doubleQuote then do
    let m ← closeQuote m (args + (scan.i - 1).toUInt64)
    return (val + 1, m)
  else return (val, m)

/-- `*val` — null without an equals sign. -/
def takeValue (m : Memory) (args : UInt64) (scan : Scan) : Stub (UInt64 × Memory) :=
  if scan.equals == 0 then return (0, m) else cutValue m args scan

/-- The quote that ends an argument in quotes. -/
def takeQuote (m : Memory) (args : UInt64) (quoted : Bool) (i : UInt32) : Stub Memory :=
  if quoted && 0 < i then closeQuote m (args + (i - 1).toUInt64) else return m

/-- End the argument; what comes behind it. -/
def endArg (m : Memory) (args : UInt64) (i : UInt32) : Stub (UInt64 × Memory) := do
  let c ← readByte m (args + i.toUInt64)
  if c != 0 then do
    let m ← writeByte m (args + i.toUInt64) 0
    return (args + (i + 1).toUInt64, m)
  else return (args + i.toUInt64, m)

/-- `next_arg`. -/
def nextArg (m : Memory) (turns : Nat) (args : UInt64) : Stub Arg := do
  let first ← readByte m args
  let quoted := first == doubleQuote
  let args := if quoted then args + 1 else args
  let scan ← scanArg m args turns ⟨0, 0, quoted⟩
  let (val, m) ← takeValue m args scan
  let m ← takeQuote m args quoted scan.i
  let (behind, m) ← endArg m args scan.i
  let next ← skipSpaces m turns behind
  return ⟨args, val, next, m⟩

/-- The variables that options set. -/
structure OptionFlags where
  /-- `efi_nokaslr`. -/
  efiNokaslr : Bool
  /-- `efi_noinitrd`. -/
  efiNoinitrd : Bool
  /-- `efi_nochunk`. -/
  efiNochunk : Bool
  /-- `efi_novamap`. -/
  efiNovamap : Bool
  /-- `efi_nosoftreserve`. -/
  efiNosoftreserve : Bool
  /-- `efi_disable_pci_dma`. -/
  efiDisablePciDma : Bool
  deriving DecidableEq, Repr

/-- `"--"`. -/
def dashes : List UInt8 := Vsprintf.chars ['-', '-']
/-- `"nokaslr"`. -/
def nokaslrText : List UInt8 := Vsprintf.chars ['n', 'o', 'k', 'a', 's', 'l', 'r']
/-- `"quiet"`. -/
def quietText : List UInt8 := Vsprintf.chars ['q', 'u', 'i', 'e', 't']
/-- `"noinitrd"`. -/
def noinitrdText : List UInt8 := Vsprintf.chars ['n', 'o', 'i', 'n', 'i', 't', 'r', 'd']
/-- `"efi"`. -/
def efiText : List UInt8 := Vsprintf.chars ['e', 'f', 'i']
/-- `"nochunk"`. -/
def nochunkText : List UInt8 := Vsprintf.chars ['n', 'o', 'c', 'h', 'u', 'n', 'k']
/-- `"novamap"`. -/
def novamapText : List UInt8 := Vsprintf.chars ['n', 'o', 'v', 'a', 'm', 'a', 'p']
/-- `"disable_early_pci_dma"`. -/
def disableText : List UInt8 := Vsprintf.chars ['d', 'i', 's', 'a', 'b', 'l', 'e', '_', 'e', 'a', 'r',
  'l', 'y', '_', 'p', 'c', 'i', '_', 'd', 'm', 'a']
/-- `"no_disable_early_pci_dma"`. -/
def noDisableText : List UInt8 := Vsprintf.chars ['n', 'o', '_'] ++ disableText
/-- `"debug"`. -/
def debugText : List UInt8 := Vsprintf.chars ['d', 'e', 'b', 'u', 'g']
/-- `"video"`. -/
def videoText : List UInt8 := Vsprintf.chars ['v', 'i', 'd', 'e', 'o']
/-- `"efifb:"`. -/
def efifbText : List UInt8 := Vsprintf.chars ['e', 'f', 'i', 'f', 'b', ':']

/-- The value of an `efi=` option. -/
def parseEfiValue (m : Memory) (turns : Nat) (val : UInt64) (flags : OptionFlags) :
    Stub OptionFlags := do
  let nochunk ← parseOptionStr m nochunkText turns val
  let novamap ← parseOptionStr m novamapText turns val
  let flags := { flags with
    efiNochunk := nochunk, efiNovamap := flags.efiNovamap || novamap, efiNosoftreserve := false }
  let disable ← parseOptionStr m disableText turns val
  let flags := if disable then { flags with efiDisablePciDma := true } else flags
  let noDisable ← parseOptionStr m noDisableText turns val
  let flags := if noDisable then { flags with efiDisablePciDma := false } else flags
  let _ ← parseOptionStr m debugText turns val
  return flags

/-- One argument of the loop of `efi_parse_options`. -/
def parseOption (m : Memory) (turns : Nat) (param val : UInt64) (flags : OptionFlags) :
    Stub OptionFlags := do
  if (← strcmp m turns param nokaslrText) == 0 then return { flags with efiNokaslr := true }
  else if (← strcmp m turns param quietText) == 0 then return flags
  else if (← strcmp m turns param noinitrdText) == 0 then return { flags with efiNoinitrd := true }
  else if (← strcmp m turns param efiText) == 0 && val != 0 then parseEfiValue m turns val flags
  else if (← strcmp m turns param videoText) == 0 && val != 0 then
    let _ ← strstarts m val efifbText
    return flags
  else return flags

/-- `!val && !strcmp(param, "--")`. -/
def isDashes (m : Memory) (turns : Nat) (param val : UInt64) : Stub Bool :=
  if val == 0 then do
    let order ← strcmp m turns param dashes
    return order == 0
  else return false

/-- The loop of `efi_parse_options`. -/
def parseLoop (m : Memory) : Nat → UInt64 → OptionFlags → Stub (OptionFlags × Memory)
  | 0, _, _ => endless
  | turns + 1, str, flags => do
    let c ← readByte m str
    if c == 0 then return (flags, m)
    else
      let arg ← nextArg m (turns + 1) str
      if ← isDashes arg.memory (turns + 1) arg.param arg.val then return (flags, arg.memory)
      else
        let flags ← parseOption arg.memory (turns + 1) arg.param arg.val flags
        parseLoop arg.memory turns arg.next flags

/-- Copy the command line into a block of `len` bytes, and parse the copy. It has at most
`COMMAND_LINE_SIZE` bytes with its NUL, so no loop takes more turns than that. -/
def parseCopy (m : Memory) (flags : OptionFlags) (cmdline buf len : UInt64) :
    Stub (OptionFlags × Memory) := do
  reading cmdline (len - 1).toNat
  writing buf (len - 1).toNat
  let m := memcpy m buf cmdline (len - 1).toNat
  let m ← writeByte m (buf + (len - 1)) 0
  let str ← skipSpaces m commandLineSize buf
  parseLoop m commandLineSize str flags

/-- `efi_parse_options`. -/
def efiParseOptions (m : Memory) (flags : OptionFlags) (cmdline : UInt64) :
    Stub (EfiStatus × OptionFlags × Memory) := do
  if cmdline == 0 then return (efiSuccess, flags, m)
  else
    let count ← strnlen m cmdline (commandLineSize - 1)
    let len := count + 1
    let pool ← perform (Call.allocatePool efiLoaderData len)
    if pool.status != efiSuccess then return (pool.status, flags, m)
    else
      let (flags, m) ← parseCopy m flags cmdline pool.value len
      let _ ← perform (Call.freePool pool.value)
      return (efiSuccess, flags, m)

/-- `*cmdline_ptr = cmdline; return EFI_SUCCESS;` -/
def returnCmdline (m : Memory) (flags : OptionFlags) (cmdlinePtr cmdline : UInt64) :
    Stub (EfiStatus × OptionFlags × Memory) := do
  writing cmdlinePtr 8
  return (efiSuccess, flags, writeLe m cmdlinePtr cmdline.toNat 8)

/-- Parse the options of a converted command line. -/
def handleConverted (flags : OptionFlags) (cmdlinePtr : UInt64) (converted : ConvertedCmdline) :
    Stub (EfiStatus × OptionFlags × Memory) := do
  if 0 < converted.cmdLineLen then
    let (status, flags, m) ← efiParseOptions converted.memory flags converted.cmdline
    if status != efiSuccess then
      efiErr "Failed to parse options\n" []
      -- What is freed is the caller's variable, not the command line.
      let _ ← perform (Call.freePool cmdlinePtr)
      return (status, flags, m)
    else returnCmdline m flags cmdlinePtr converted.cmdline
  else returnCmdline converted.memory flags cmdlinePtr converted.cmdline

/-- `efi_handle_cmdline`; the options of `CONFIG_CMDLINE` are left out of the source. -/
def efiHandleCmdline (m : Memory) (flags : OptionFlags) (image : LoadedImage)
    (cmdlinePtr : UInt64) : Stub (EfiStatus × OptionFlags × Memory) := do
  let converted ← efiConvertCmdline m image
  match converted.filter (·.cmdline != 0) with
  | none => do
    efiErr "getting command line via LOADED_IMAGE_PROTOCOL\n" []
    return (efiOutOfResources, flags, (converted.map (·.memory)).getD m)
  | some converted => handleConverted flags cmdlinePtr converted

end DragonStub

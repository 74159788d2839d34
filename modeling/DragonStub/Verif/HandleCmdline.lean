import DragonStub.Verif.OptionFlags

/-!
# The blocks of the command line

`efi_handle_cmdline` allocates three times, one call inside the other: for the event that measures
the options, for the converted command line, and for the copy that is parsed. When the last one is
refused, its cleanup frees the wrong pointer.
-/

namespace DragonStub

open ByteMemory Interaction Prog Trace

variable {m final : Memory} {flags flags' : OptionFlags} {image : LoadedImage}
  {cmdlinePtr options : UInt64} {events first second : List Event} {status : EfiStatus}
  {region : Set UInt64}

/-- A pool block is refused. -/
def Refuses : Event → Prop
  | ⟨.allocatePool .., pool⟩ => pool.status ≠ efiSuccess
  | _ => False

/-- What refuses a block is an allocation. -/
theorem refuses_allocation {event : Event} (refuses : Refuses event) :
    event.op.isAllocation = true := by
  obtain ⟨call, reply⟩ := event
  cases call with
  | allocatePool => rfl
  | _ => exact refuses.elim

/-- A part of a run that frees only what it holds, holds nothing at its end, and is refused a block
only while it holds nothing. -/
structure Balanced (events : List Event) : Prop where
  /-- Only what is held is freed. -/
  owns : OwnsFrees events
  /-- Nothing is held at the end. -/
  held : firmwareEffects.held ∅ events = ∅
  /-- A block is refused only while nothing is held. -/
  idle : firmwareEffects.OnlyIdle Refuses ∅ events

/-- Behind a balanced part the frees of the rest decide. -/
theorem Balanced.owns_append (balanced : Balanced first) :
    OwnsFrees (first ++ second) ↔ OwnsFrees second := by
  rw [OwnsFrees, Effects.releasesHeld_append, balanced.held]
  exact and_iff_right balanced.owns

/-- Behind a balanced part the rest decides what is held. -/
theorem Balanced.held_append (balanced : Balanced first) :
    firmwareEffects.held ∅ (first ++ second) = firmwareEffects.held ∅ second := by
  rw [Effects.held_append, balanced.held]

/-- Behind a balanced part the refusals of the rest decide. -/
theorem Balanced.idle_append (balanced : Balanced first) :
    firmwareEffects.OnlyIdle Refuses ∅ (first ++ second) ↔
      firmwareEffects.OnlyIdle Refuses ∅ second := by
  rw [Effects.onlyIdle_append, balanced.held]
  exact and_iff_right balanced.idle

/-- Two balanced parts of a trace are balanced together. -/
theorem Balanced.append (before : Balanced first) (behind : Balanced second) :
    Balanced (first ++ second) :=
  ⟨before.owns_append.mpr behind.owns, before.held_append.trans behind.held,
    before.idle_append.mpr behind.idle⟩

/-- A part that neither allocates nor frees is refused nothing. -/
theorem onlyIdle_quiet {live : Set Resource} (gained : Lacks Call.isAllocation events) :
    firmwareEffects.OnlyIdle Refuses live events :=
  Effects.onlyIdle_of_none fun event member refuses =>
    absurd (refuses_allocation refuses) (by simp [gained event member])

/-- A trace that neither allocates nor frees is balanced. -/
theorem Quiet.balanced (quiet : Quiet events) : Balanced events :=
  ⟨(Lacks.keeps quiet.2).1, quiet.held, onlyIdle_quiet quiet.1⟩

/-- A block that is refused is not held. -/
theorem balanced_refused {memoryType : UInt32} {size : UInt64} {pool : WordReply}
    (refused : pool.status ≠ efiSuccess) : Balanced [⟨.allocatePool memoryType size, pool⟩] := by
  refine ⟨⟨Set.empty_subset _, trivial⟩, ?_, fun _ => rfl, trivial⟩
  simp [Effects.held, Effects.after, firmwareEffects, refused]

/-- A block that is freed is not held. -/
theorem balanced_block {middle : List Event} {memoryType : UInt32} {size : UInt64}
    {pool : WordReply} {freed : EfiStatus} (granted : pool.status = efiSuccess)
    (quiet : Quiet middle) : Balanced (⟨.allocatePool memoryType size, pool⟩ ::
      (middle ++ [⟨.freePool pool.value, freed⟩])) := by
  refine ⟨⟨Set.empty_subset _, ?_⟩, held_block granted quiet (Set.notMem_empty _),
    fun _ => rfl, ?_⟩
  · refine Effects.releasesHeld_append.mpr ⟨(Lacks.keeps quiet.2).1, ?_, trivial⟩
    rw [quiet.held]
    exact Set.singleton_subset_iff.mpr (.inr (by simp [firmwareEffects, granted]))
  · exact Effects.onlyIdle_append.mpr ⟨onlyIdle_quiet quiet.1, fun refuses => refuses.elim, trivial⟩

/-- Looking at memory neither allocates nor frees. -/
theorem Call.isAllocation_of_looksAt {call : Call} (looks : call.looksAt region) :
    call.isAllocation = false ∧ call.isFree = false := by
  cases call with
  | print | reach => exact ⟨rfl, rfl⟩
  | _ => exact looks.elim

/-- Looking at memory is balanced. -/
theorem Looks.balanced (looks : Looks region events) : Balanced events := by
  have quiet : Quiet events :=
    ⟨fun event member => (Call.isAllocation_of_looksAt (looks event member)).1,
      fun event member => (Call.isAllocation_of_looksAt (looks event member)).2⟩
  exact quiet.balanced

/-- The measurement gives its block back. -/
theorem efiMeasureTaggedEvent_balanced {loadAddr loadSize : UInt64} {outcome : Option EfiStatus}
    (run : Exec (efiMeasureTaggedEvent loadAddr loadSize) events outcome) : Balanced events := by
  unfold efiMeasureTaggedEvent at run
  simp only [perform_bind, exec_call, efiWarn, efiPrintk] at run
  obtain ⟨tcg2, rest, rfl, run⟩ := run
  have found : Balanced [⟨.locateProtocol efiTcg2ProtocolGuid, tcg2⟩] :=
    (quiet_single rfl rfl).balanced
  apply found.append
  by_cases absent : tcg2.value = 0
  · rw [if_neg (by simpa using absent)] at run
    obtain ⟨rfl, -⟩ := exec_ret.mp run
    exact quiet_nil.balanced
  rw [if_pos (by simpa using absent), exec_call] at run
  obtain ⟨evt, rest, rfl, run⟩ := run
  by_cases granted : evt.status = efiSuccess
  · rw [if_neg (by simpa using granted), exec_call] at run
    obtain ⟨hashed, rest, rfl, run⟩ := run
    obtain ⟨freed, rest, rfl, ends⟩ := exec_call.mp run
    have block : Balanced (⟨.allocatePool _ _, evt⟩ ::
        ([⟨.hashLogExtendEvent _ _ _ _ _, hashed⟩] ++ [⟨.freePool evt.value, freed⟩])) :=
      balanced_block granted (quiet_single rfl rfl)
    apply block.append
    rcases exec_ite.mp ends with ⟨-, prints⟩ | ⟨-, prints⟩
    · obtain ⟨_, rest, rfl, returns⟩ := exec_call.mp prints
      obtain ⟨rfl, -⟩ := exec_ret.mp returns
      exact (quiet_single rfl rfl).balanced
    · obtain ⟨rfl, -⟩ := exec_ret.mp prints
      exact quiet_nil.balanced
  · rw [if_pos (by simpa using granted), exec_call] at run
    obtain ⟨_, rest, rfl, run⟩ := run
    obtain ⟨rfl, -⟩ := exec_ret.mp run
    exact (balanced_refused granted).append (quiet_single rfl rfl).balanced

/-- The measurement returns, and gives its block back. -/
theorem measureOptions_balanced {outcome : Option Unit}
    (run : Exec (measureOptions image) events outcome) : Balanced events ∧ outcome = some () := by
  obtain ⟨_, rfl⟩ := measureOptions_measures.returns Call.answered_of_isMeasure run
  refine ⟨?_, rfl⟩
  unfold measureOptions at run
  rcases exec_ite.mp run with ⟨-, measures⟩ | ⟨-, skips⟩
  · obtain ⟨status, first, second, rfl, tagged, returns⟩ := exec_bind_some.mp measures
    obtain ⟨rfl, -⟩ := exec_ret.mp returns
    rw [List.append_nil]
    exact efiMeasureTaggedEvent_balanced tagged
  · obtain ⟨rfl, -⟩ := exec_ret.mp skips
    exact quiet_nil.balanced

/-- The block for the string is granted, and the options are read. -/
def converting (m : Memory) (options : UInt64) (bytes : Nat) (pool : WordReply) : List Event :=
  [⟨.allocatePool efiLoaderData (UInt64.ofNat bytes + 1), pool⟩,
    ⟨.reach (.read options (optionsRead m bytes options)), ()⟩]

/-- The events in front of the block for the string, and what the conversion does with it. -/
structure Conversion (m : Memory) (image : LoadedImage) (events : List Event)
    (outcome : Option (Option ConvertedCmdline)) (before : List Event) (bytes : Nat)
    (pool : WordReply) : Prop where
  /-- What comes before the block is balanced. -/
  balanced : Balanced before
  /-- The string is short. -/
  short : bytes < 2 ^ 15
  /-- Without the block the conversion ends with nothing. -/
  refused : pool.status ≠ efiSuccess → outcome = some none ∧
    events = before ++ [⟨.allocatePool efiLoaderData (UInt64.ofNat bytes + 1), pool⟩]
  /-- With the block the options are copied into it. -/
  granted : pool.status = efiSuccess → ∃ result, outcome = some (some result) ∧
    Formatted m image.loadOptions bytes pool.value result ∧
    events = before ++ converting m image.loadOptions bytes pool

/-- A conversion whose block is refused is balanced. -/
theorem Conversion.balanced_refused {outcome : Option (Option ConvertedCmdline)}
    {before : List Event} {bytes : Nat} {pool : WordReply}
    (conversion : Conversion m image events outcome before bytes pool)
    (refused : pool.status ≠ efiSuccess) : Balanced events := by
  rw [(conversion.refused refused).2]
  exact conversion.balanced.append (DragonStub.balanced_refused refused)

/-- The conversion returns, and holds at most the block of its string. -/
theorem conversion_of_exec {outcome : Option (Option ConvertedCmdline)} (blocks : BlocksFit events)
    (run : Exec (efiConvertCmdline m image) events outcome) :
    ∃ before bytes pool, Conversion m image events outcome before bytes pool := by
  unfold efiConvertCmdline at run
  rcases exec_bind.mp run with ⟨_, measured, rest, rfl, measures, run⟩ | ⟨-, waits⟩
  swap
  · cases (measureOptions_balanced waits).2
  rcases exec_bind.mp run with ⟨bytes, counted, last, rfl, counts, formats⟩ | ⟨-, waits⟩
  swap
  · cases (countOptions_counted waits).2
  obtain ⟨looks, chosen⟩ := countOptions_counted counts
  have short : bytes < 2 ^ 15 := by
    cases chosen
    exact lt_trans (fitting_length _) (by decide)
  have balanced := (measureOptions_balanced measures).1.append looks.balanced
  obtain ⟨pool, formatting⟩ := formatOptions_of_exec short blocks.right.right formats
  refine ⟨measured ++ counted, bytes, pool, balanced, short, fun refused => ?_, fun granted => ?_⟩
  · rcases formatting with ⟨-, none, only⟩ | ⟨granted, -⟩
    · exact ⟨none, by rw [only, List.append_assoc]⟩
    · exact absurd granted refused
  · rcases formatting with ⟨refused, -⟩ | ⟨-, result, returned, both, formatted⟩
    · exact absurd granted refused
    · exact ⟨result, returned, formatted, by rw [both, List.append_assoc, converting]⟩

section Converting

variable {before rest : List Event} {bytes : Nat} {pool : WordReply}

/-- A granted block is held while the options are converted. -/
theorem held_converting (granted : pool.status = efiSuccess) :
    firmwareEffects.held ∅ (converting m options bytes pool) = {.block pool.value} :=
  held_granted granted ⟨by simp [Call.isAllocation], by simp [Call.isFree]⟩

/-- The block is a new one, and what is allocated behind it is new beside it. -/
theorem fresh_converting (balanced : Balanced before) (granted : pool.status = efiSuccess)
    (fresh : firmwareEffects.AcquiresFresh {.block 0} ∅
      (before ++ (converting m options bytes pool ++ rest))) :
    pool.value ≠ 0 ∧ firmwareEffects.AcquiresFresh {.block 0} {.block pool.value} rest := by
  have newBlock := (Effects.acquiresFresh_append.mp fresh).2
  rw [balanced.held] at newBlock
  have later := (Effects.acquiresFresh_append.mp newBlock).2
  rw [held_converting granted] at later
  refine ⟨fun null => ?_, later⟩
  have isNew := Set.disjoint_left.mp newBlock.1
  exact @isNew (.block pool.value) (by simp [firmwareEffects, granted]) (.inr (by simp [null]))

/-- Behind the conversion, only the block of the string may be freed. -/
theorem owns_converting (balanced : Balanced before) (granted : pool.status = efiSuccess) :
    OwnsFrees (before ++ (converting m options bytes pool ++ rest)) ↔
      firmwareEffects.ReleasesHeld {.block pool.value} rest := by
  rw [balanced.owns_append, OwnsFrees, Effects.releasesHeld_append, held_converting granted]
  exact and_iff_right (Lacks.keeps (by simp [converting, Call.isFree])).1

/-- Behind the granted block, refusals are looked for with the block held. -/
theorem idle_converting (balanced : Balanced before) (granted : pool.status = efiSuccess) :
    firmwareEffects.OnlyIdle Refuses ∅
      (before ++ (converting m options bytes pool ++ rest)) ↔
    firmwareEffects.OnlyIdle Refuses {.block pool.value} rest := by
  rw [balanced.idle_append, Effects.onlyIdle_append, held_converting granted]
  exact and_iff_right ⟨fun _ => rfl, fun refuses => refuses.elim, trivial⟩

/-- A variable apart from the blocks is not at the place of one. -/
theorem BlocksApart.ne (short : bytes < 2 ^ 15) (granted : pool.status = efiSuccess)
    (apart : BlocksApart (before ++ (converting m options bytes pool ++ rest)) cmdlinePtr 8) :
    cmdlinePtr ≠ pool.value := by
  rintro rfl
  have windows := Set.disjoint_left.mp (apart _ (mem_givenBlock before _ granted))
  refine @windows pool.value ?_ (by simp)
  rw [mem_window, UInt64.sub_self, UInt64.toNat_add, UInt64.toNat_ofNat', UInt64.toNat_one,
    UInt64.toNat_zero]
  omega

end Converting

/-- The events in front of the block for the copy, and what becomes of the command line. -/
structure Handling (flags : OptionFlags) (cmdlinePtr : UInt64) (converted : ConvertedCmdline)
    (events : List Event) (outcome : Option (EfiStatus × OptionFlags × Memory))
    (first : List Event) (size : UInt64) (pool : WordReply) : Prop where
  /-- What comes before the block neither allocates nor frees. -/
  quiet : Quiet first
  /-- Without the block the failure is printed, and the result pointer is freed. -/
  refused : pool.status ≠ efiSuccess →
    outcome = some (pool.status, flags, converted.memory) ∧ ∃ freed,
      events = first ++ [⟨.allocatePool efiLoaderData size, pool⟩,
        ⟨.print ("[ERROR]: " ++ "Failed to parse options\n") [], ()⟩,
        ⟨.freePool cmdlinePtr, freed⟩]
  /-- With the block the options are parsed, the block is freed and the result is written. -/
  granted : pool.status = efiSuccess → ∃ flags' final parsing freed,
    outcome = some (efiSuccess, flags', final) ∧ Quiet parsing ∧
      events = (first ++ ⟨.allocatePool efiLoaderData size, pool⟩ ::
        (parsing ++ [⟨.freePool pool.value, freed⟩])) ++ [⟨.reach (.write cmdlinePtr 8), ()⟩]

/-- Every run on a converted command line asks for one block and then parses or fails. -/
theorem handling_of_exec {converted : ConvertedCmdline}
    {outcome : Option (EfiStatus × OptionFlags × Memory)} (given : converted.cmdline ≠ 0)
    (nonempty : 0 < converted.cmdLineLen)
    (run : Exec (handleConverted flags cmdlinePtr converted) events outcome) :
    ∃ first size pool, Handling flags cmdlinePtr converted events outcome first size pool := by
  unfold handleConverted at run
  rw [if_pos nonempty] at run
  obtain ⟨⟨status, flags', final⟩, parse, rest, rfl, parses, ends⟩ | ⟨-, waits⟩ :=
    exec_bind.mp run
  swap
  · obtain ⟨_, _, _, returned⟩ := efiParseOptions_returns waits
    cases returned
  obtain ⟨n, first, pool, options⟩ := optionsRun_of_exec given parses
  refine ⟨first, UInt64.ofNat n + 1, pool, quiet_points options.points, fun refused => ?_,
    fun granted => ?_⟩
  · obtain ⟨same, rfl⟩ := options.refused refused
    cases same
    simp only [efiErr, efiPrintk, perform_bind, exec_ite] at ends
    rcases ends with ⟨-, ends⟩ | ⟨success, -⟩
    · obtain ⟨_, rest, rfl, frees⟩ := exec_call.mp ends
      obtain ⟨freed, rest, rfl, returns⟩ := exec_call.mp frees
      obtain ⟨rfl, rfl⟩ := exec_ret.mp returns
      exact ⟨rfl, freed, by rw [List.append_assoc]; rfl⟩
    · exact absurd (by simpa using success) refused
  · obtain ⟨_, _, parsing, freed, same, -, rfl, points⟩ := options.granted granted
    cases same
    simp only [returnCmdline, writing, perform_bind, exec_ite] at ends
    rcases ends with ⟨failed, -⟩ | ⟨-, ends⟩
    · exact absurd failed (by decide)
    · obtain ⟨_, rest, rfl, returns⟩ := exec_call.mp ends
      obtain ⟨rfl, rfl⟩ := exec_ret.mp returns
      exact ⟨_, _, parsing, freed, rfl, quiet_points points, rfl⟩

/-- Blocks that fit do so in the first part of a trace. -/
theorem BlocksFit.left (blocks : BlocksFit (first ++ second)) : BlocksFit first := by
  intro block member
  apply blocks
  rw [List.filterMap_append]
  exact List.mem_append_left _ member

/-- With the command line held, the refusal of the copy frees what is not held. -/
theorem refusal_breaks {address : UInt64} {size : UInt64} {pool : WordReply} {freed : EfiStatus}
    (quiet : Quiet first) (other : cmdlinePtr ≠ address) (refused : pool.status ≠ efiSuccess) :
    ¬firmwareEffects.ReleasesHeld {.block address} (first ++
        [⟨.allocatePool efiLoaderData size, pool⟩,
          ⟨.print ("[ERROR]: " ++ "Failed to parse options\n") [], ()⟩,
          ⟨.freePool cmdlinePtr, freed⟩]) ∧
      ¬firmwareEffects.OnlyIdle Refuses {.block address} (first ++
        [⟨.allocatePool efiLoaderData size, pool⟩,
          ⟨.print ("[ERROR]: " ++ "Failed to parse options\n") [], ()⟩,
          ⟨.freePool cmdlinePtr, freed⟩]) := by
  rw [Effects.releasesHeld_append, Effects.onlyIdle_append, quiet.held]
  constructor
  · rintro ⟨-, -, -, frees, -⟩
    apply other
    simpa [Effects.after, firmwareEffects, refused] using frees
  · rintro ⟨-, idle, -⟩
    exact Set.singleton_ne_empty _ (idle refused)

/-- What a run frees was allocated in it and not freed before, and a run that fails holds no block at
its end and leaves the caller's variable as it was. -/
structure CleanRun (m : Memory) (cmdlinePtr : UInt64) (events : List Event)
    (outcome : Option (EfiStatus × OptionFlags × Memory)) : Prop where
  /-- Only what is held is freed. -/
  owns : OwnsFrees events
  /-- A failing run leaves nothing held and the result as it was. -/
  failed : ∀ status flags' final, outcome = some (status, flags', final) → status ≠ efiSuccess →
    firmwareEffects.held ∅ events = ∅ ∧ ∀ x ∈ window cmdlinePtr 8, final x = m x

/-- A run that is refused the block for the string is clean. -/
theorem unconverted_clean {outcome : Option (EfiStatus × OptionFlags × Memory)}
    (balanced : Balanced first)
    (run : Exec (efiErr "getting command line via LOADED_IMAGE_PROTOCOL\n" [] >>= fun _ =>
      return (efiOutOfResources, flags, m)) second outcome) :
    CleanRun m cmdlinePtr (first ++ second) outcome ∧
      firmwareEffects.OnlyIdle Refuses ∅ (first ++ second) := by
  simp only [efiErr, efiPrintk, perform_bind, exec_call] at run
  obtain ⟨_, rest, rfl, returns⟩ := run
  obtain ⟨rfl, rfl⟩ := exec_ret.mp returns
  have prints : Balanced [⟨.print ("[ERROR]: " ++
      "getting command line via LOADED_IMAGE_PROTOCOL\n") [], ()⟩] :=
    (quiet_single rfl rfl).balanced
  have whole := balanced.append prints
  refine ⟨⟨whole.owns, ?_⟩, whole.idle⟩
  rintro _ _ _ ⟨⟩ -
  exact ⟨whole.held, fun _ _ => rfl⟩

/-- With the command line held, a run is clean exactly when its copy is granted. -/
theorem handling_clean {converted : ConvertedCmdline} {size : UInt64} {pool : WordReply}
    {outcome : Option (EfiStatus × OptionFlags × Memory)} {address : UInt64}
    (handling : Handling flags cmdlinePtr converted second outcome first size pool)
    (other : cmdlinePtr ≠ address)
    (fresh : firmwareEffects.AcquiresFresh {.block 0} {.block address} second) :
    (firmwareEffects.ReleasesHeld {.block address} second ∧
        ∀ status flags' final, outcome = some (status, flags', final) → status = efiSuccess) ∧
        firmwareEffects.OnlyIdle Refuses {.block address} second ∨
      ¬firmwareEffects.ReleasesHeld {.block address} second ∧
        ¬firmwareEffects.OnlyIdle Refuses {.block address} second := by
  by_cases granted : pool.status = efiSuccess
  · left
    obtain ⟨flags', final, parsing, freed, rfl, quiet, rfl⟩ := handling.granted granted
    have borrowed := borrow_block first parsing granted handling.quiet.2 quiet.2
      (Effects.acquiresFresh_append.mp fresh).1
    have written : Lacks Call.isFree [⟨.reach (.write cmdlinePtr 8), ()⟩] := by simp [Call.isFree]
    refine ⟨⟨Effects.releasesHeld_append.mpr ⟨borrowed.1, written.keeps.1⟩, ?_⟩, ?_⟩
    · rintro _ _ _ ⟨⟩
      rfl
    · apply Effects.onlyIdle_of_none
      intro event member refuses
      have allocates := refuses_allocation refuses
      simp only [List.mem_append, List.mem_cons, List.not_mem_nil, or_false] at member
      rcases member with (member | rfl | member | rfl) | rfl
      · rw [handling.quiet.1 event member] at allocates
        cases allocates
      · exact refuses granted
      · rw [quiet.1 event member] at allocates
        cases allocates
      · exact refuses
      · exact refuses
  · right
    obtain ⟨-, freed, rfl⟩ := handling.refused granted
    exact refusal_breaks handling.quiet other granted

/-- A run is clean exactly when no block is refused while one is held. -/
theorem efiHandleCmdline_iff {outcome : Option (EfiStatus × OptionFlags × Memory)}
    (fresh : firmwareEffects.AcquiresFresh {.block 0} ∅ events) (blocks : BlocksFit events)
    (apart : BlocksApart events cmdlinePtr 8)
    (run : Exec (efiHandleCmdline m flags image cmdlinePtr) events outcome) :
    CleanRun m cmdlinePtr events outcome ↔ firmwareEffects.OnlyIdle Refuses ∅ events := by
  unfold efiHandleCmdline at run
  obtain ⟨converted, conversionEvents, rest, rfl, converts, handles⟩ | ⟨-, waits⟩ :=
    exec_bind.mp run
  swap
  · obtain ⟨before, bytes, pool, conversion⟩ := conversion_of_exec blocks waits
    by_cases granted : pool.status = efiSuccess
    · obtain ⟨_, returned, -⟩ := conversion.granted granted
      cases returned
    · cases (conversion.refused granted).1
  obtain ⟨before, bytes, pool, conversion⟩ := conversion_of_exec blocks.left converts
  by_cases granted : pool.status = efiSuccess
  swap
  · have balanced := conversion.balanced_refused granted
    cases (conversion.refused granted).1
    obtain ⟨clean, idle⟩ := unconverted_clean balanced handles
    exact iff_of_true clean idle
  obtain ⟨result, same, formatted, rfl⟩ := conversion.granted granted
  cases same
  rw [List.append_assoc] at fresh apart ⊢
  obtain ⟨isBlock, later⟩ := fresh_converting conversion.balanced granted fresh
  have given : result.cmdline ≠ 0 := by
    rw [formatted.place]
    exact isBlock
  have nonempty : 0 < result.cmdLineLen := by
    rw [UInt64.lt_iff_toNat_lt, formatted.length]
    exact Nat.succ_pos _
  rw [Option.filter_some, if_pos (by simpa using given)] at handles
  obtain ⟨first, size, copy, handling⟩ := handling_of_exec given nonempty handles
  have other : cmdlinePtr ≠ pool.value := BlocksApart.ne conversion.short granted apart
  rcases handling_clean handling other later with ⟨⟨owned, succeeds⟩, idle⟩ | ⟨breaks, refused⟩
  · refine iff_of_true ⟨(owns_converting conversion.balanced granted).mpr owned, ?_⟩
      ((idle_converting conversion.balanced granted).mpr idle)
    intro status flags' final returned failed
    exact absurd (succeeds _ _ _ returned) failed
  · exact iff_of_false
      (fun clean => breaks ((owns_converting conversion.balanced granted).mp clean.owns))
      fun idle => refused ((idle_converting conversion.balanced granted).mp idle)

/-- Firmware that gives a number of blocks, and frees none. -/
def scarceFirmware (granted : Nat) (past : List Event) : (call : Call) → Option call.Reply
  | .allocatePool .. =>
    if (past.filter (·.op.isAllocation)).length < granted then some ⟨efiSuccess, 0x4000⟩
    else some ⟨efiOutOfResources, 0⟩
  | .freePool .. => some efiInvalidParameter
  | .print .. | .reach .. => some ()
  | _ => none

/-- The run for an image without options. -/
def bareRun : Stub (EfiStatus × OptionFlags × Memory) :=
  efiHandleCmdline (fun _ => 0) ⟨false, false, false, false, false, false⟩ ⟨0, 0⟩ 0x8000

/-- The trace of the run without any block. -/
theorem bareRun_refused : bareRun.eventsWith (scarceFirmware 0) = [
    ⟨.allocatePool efiLoaderData 1, ⟨efiOutOfResources, 0⟩⟩,
    ⟨.print "[ERROR]: getting command line via LOADED_IMAGE_PROTOCOL\n" [], ()⟩] := by rfl

/-- The trace of the run with one block. -/
theorem bareRun_scarce : bareRun.eventsWith (scarceFirmware 1) = [
    ⟨.allocatePool efiLoaderData 1, ⟨efiSuccess, 0x4000⟩⟩,
    ⟨.reach (.read 0 0), ()⟩,
    ⟨.reach (.read 0x4000 1), ()⟩,
    ⟨.allocatePool efiLoaderData 1, ⟨efiOutOfResources, 0⟩⟩,
    ⟨.print "[ERROR]: Failed to parse options\n" [], ()⟩,
    ⟨.freePool 0x8000, efiInvalidParameter⟩] := by rfl

/-- The block is fresh, and apart from the caller's variable. -/
theorem bareRun_blocks :
    firmwareEffects.AcquiresFresh {.block 0} ∅ (bareRun.eventsWith (scarceFirmware 1)) ∧
      BlocksFit (bareRun.eventsWith (scarceFirmware 1)) ∧
      BlocksApart (bareRun.eventsWith (scarceFirmware 1)) 0x8000 8 := by
  have refused : efiOutOfResources ≠ efiSuccess := by decide
  have given : (bareRun.eventsWith (scarceFirmware 1)).filterMap givenBlock = [(0x4000, 1)] := by
    rw [bareRun_scarce]
    simp [givenBlock, refused]
  refine ⟨?_, by simp [BlocksFit, given], ?_⟩
  · rw [bareRun_scarce]
    simp [Effects.AcquiresFresh, Effects.after, firmwareEffects, refused]
  · have windows : Disjoint (window (0 + 0x4000) 1) (window (0 + 0x8000) 8) :=
      window_disjoint_of_offsets (by decide) (by decide) (by decide)
    rw [UInt64.zero_add, UInt64.zero_add] at windows
    simpa [BlocksApart, given] using windows

/-- Without any block there is nothing to free; with one block the copy is refused. -/
theorem efiHandleCmdline_iff_refused :
    (CleanRun (fun _ => 0) 0x8000 (bareRun.eventsWith (scarceFirmware 0))
        (bareRun.valueWith (scarceFirmware 0)) ↔
      firmwareEffects.OnlyIdle Refuses ∅ (bareRun.eventsWith (scarceFirmware 0))) ∧
    (CleanRun (fun _ => 0) 0x8000 (bareRun.eventsWith (scarceFirmware 1))
        (bareRun.valueWith (scarceFirmware 1)) ↔
      firmwareEffects.OnlyIdle Refuses ∅ (bareRun.eventsWith (scarceFirmware 1))) := by
  have refused : efiOutOfResources ≠ efiSuccess := by decide
  have given : (bareRun.eventsWith (scarceFirmware 0)).filterMap givenBlock = [] := by
    rw [bareRun_refused]
    simp [givenBlock, refused]
  constructor
  · refine efiHandleCmdline_iff ?_ ?_ ?_ (exec_eventsWith (by decide +kernel))
    · rw [bareRun_refused]
      simp [Effects.AcquiresFresh, firmwareEffects, refused]
    · simp [BlocksFit, given]
    · simp [BlocksApart, given]
  · obtain ⟨fresh, fit, apart⟩ := bareRun_blocks
    exact efiHandleCmdline_iff fresh fit apart (exec_eventsWith (by decide +kernel))

/-- With the copy refused, the command line stays held, and the caller's variable is freed. -/
theorem efiHandleCmdline_breaks : ¬∀ m flags image cmdlinePtr events outcome,
    firmwareEffects.AcquiresFresh {.block 0} ∅ events → BlocksFit events →
      BlocksApart events cmdlinePtr 8 →
        Exec (efiHandleCmdline m flags image cmdlinePtr) events outcome →
          CleanRun m cmdlinePtr events outcome := by
  intro claim
  have refused : efiOutOfResources ≠ efiSuccess := by decide
  obtain ⟨fresh, fit, apart⟩ := bareRun_blocks
  have clean := claim (fun _ => 0) ⟨false, false, false, false, false, false⟩ ⟨0, 0⟩ 0x8000
    (bareRun.eventsWith (scarceFirmware 1)) _ fresh fit apart (exec_eventsWith (by decide +kernel))
  have owns := clean.owns
  rw [OwnsFrees, bareRun_scarce] at owns
  simp [firmwareEffects, Effects.after, refused] at owns

end DragonStub

import DragonStub.Base.Trace
import DragonStub.Verif.HandoverRuns

/-!
# What follows the first exit

Once `ExitBootServices` has been called, only it and `GetMemoryMap` may be called, and the console
is gone. The handover keeps to that while the firmware lets it leave; when the firmware does not,
it reports the failure and frees its memory all the same.
-/

namespace DragonStub

open Interaction Prog Trace

/-- The calls that are still possible once an exit was asked for. -/
def Call.allowedAfterExit : Call → Bool
  | .getMemoryMap .. | .exitBootServices .. => true
  | other => !other.isBootService && !other.isConsole

/-- After the first `ExitBootServices` call there is no console output and no boot service but
`GetMemoryMap` and `ExitBootServices`. -/
def QuietAfterExit (events : List Event) : Prop :=
  After (fun event => event.op.isExit = true) (fun event => event.op.allowedAfterExit = true) events

/-- Whether an event is an exit the firmware agreed to. -/
def acceptedExit (event : Event) : Bool :=
  match event with
  | ⟨.exitBootServices .., status⟩ => status == efiSuccess
  | _ => false

/-- The firmware agreed to an exit. -/
def Accepted (events : List Event) : Prop := ∃ event ∈ events, acceptedExit event = true

/-- No exit was asked for. -/
abbrev NoExit (events : List Event) : Prop := Lacks Call.isExit events

variable {events first second : List Event}

/-- No exit is counted where none is asked for. -/
theorem exitCalls_eq_zero_iff : exitCalls events = 0 ↔ NoExit events := by
  simp [exitCalls, Lacks]

/-- Without an exit there is nothing to be quiet after. -/
theorem NoExit.quiet (none : NoExit events) : QuietAfterExit events :=
  after_of_none fun event member => by simp [none event member]

/-- A part without an exit can be left out. -/
theorem NoExit.quiet_append (none : NoExit first) :
    QuietAfterExit (first ++ second) ↔ QuietAfterExit second :=
  after_append_of_none fun event member => by simp [none event member]

/-- Quiet is asked for from the first exit on. -/
theorem quiet_cons {event : Event} (other : event.op.isExit = false) :
    QuietAfterExit (event :: events) ↔ QuietAfterExit events := by
  have none : NoExit [event] := by simp [other]
  exact none.quiet_append

/-- An accepted exit is an exit. -/
theorem acceptedExit_isExit {event : Event} (accepted : acceptedExit event = true) :
    event.op.isExit = true := by
  obtain ⟨call, reply⟩ := event
  cases call with
  | exitBootServices => rfl
  | _ => cases accepted

/-- Without an exit none is accepted. -/
theorem NoExit.not_accepted (none : NoExit events) : ¬Accepted events := by
  rintro ⟨event, member, accepted⟩
  have exit := acceptedExit_isExit accepted
  rw [none event member] at exit
  cases exit

/-- Printing asks for no exit. -/
theorem noExit_of_console (printed : ∀ event ∈ events, event.op.isConsole = true) :
    NoExit events := fun event member =>
  Call.isExit_of_isBootService (Call.plain_of_isConsole (printed event member)).1

/-- Queries ask for no exit. -/
theorem noExit_of_query (asked : ∀ event ∈ events, event.op.isQuery = true) : NoExit events := by
  intro event member
  have query := asked event member
  cases h : event.op with
  | exitBootServices => simp [h, Call.isQuery] at query
  | _ => rfl

variable {Blob : Type} {lib : Libfdt Blob} {globals : Globals} {handle m : UInt64}
  {map : EfiBootMemmap} {priv : ExitBootStruct Blob}
  {outcome : Option (EfiStatus × ExitBootStruct Blob)}

/-- No events accept an exit. -/
@[simp] theorem accepted_nil : ¬Accepted [] := by simp [Accepted]

/-- An exit is accepted by the first event or in the rest. -/
@[simp] theorem accepted_cons {event : Event} :
    Accepted (event :: events) ↔ acceptedExit event = true ∨ Accepted events := by
  simp [Accepted]

/-- An exit is accepted in one of two parts of a trace. -/
@[simp] theorem accepted_append : Accepted (first ++ second) ↔ Accepted first ∨ Accepted second := by
  simp [Accepted, or_and_right, exists_or]

/-- The second attempt does nothing that is not allowed after an exit, and its result is the answer
of the firmware. -/
theorem retryRun_allowed (run : RetryRun handle m map priv (exitBootFunc lib globals) events outcome) :
    (∀ event ∈ events, event.op.allowedAfterExit = true) ∧
      ∀ status final, outcome = some (status, final) → (status = efiSuccess ↔ Accepted events) := by
  cases run with
  | noMap reply refused =>
    refine ⟨by simp [Call.allowedAfterExit], ?_⟩
    rintro _ _ ⟨⟩
    simp [acceptedExit, refused]
  | waits reply given waits =>
    obtain ⟨rfl, -⟩ := exitBootFunc_of_exec waits
    exact ⟨by simp [Call.allowedAfterExit, Call.isBootService, Call.isConsole], nofun⟩
  | refused reply given ran refused =>
    obtain ⟨rfl, -⟩ := exitBootFunc_of_exec ran
    refine ⟨by simp [Call.allowedAfterExit, Call.isBootService, Call.isConsole], ?_⟩
    rintro _ _ ⟨⟩
    simp [acceptedExit, refused]
  | exits reply given ran status =>
    obtain ⟨rfl, -⟩ := exitBootFunc_of_exec ran
    refine ⟨by simp [Call.allowedAfterExit, Call.isBootService, Call.isConsole], ?_⟩
    rintro _ _ ⟨⟩
    simp [acceptedExit]

/-- From the first exit on the rule is kept, and the result is the answer of the firmware. -/
theorem firstRun_quiet
    (run : FirstRun globals handle m map priv (exitBootFunc lib globals) events outcome) :
    QuietAfterExit events ∧
      ∀ status final, outcome = some (status, final) → (status = efiSuccess ↔ Accepted events) := by
  have prints (mapKey : UInt64) : NoExit (beforeExit globals handle mapKey) :=
    noExit_of_console beforeExit_console
  cases run with
  | decided status final =>
    refine ⟨(prints _).quiet_append.mpr (after_of_all (by simp [Call.allowedAfterExit])), ?_⟩
    rintro _ _ ⟨⟩
    simp [(prints _).not_accepted, acceptedExit]
  | retried retry =>
    obtain ⟨allowed, answer⟩ := retryRun_allowed retry
    refine ⟨(prints _).quiet_append.mpr (after_of_all ?_), ?_⟩
    · simpa [Call.allowedAfterExit] using allowed
    · intro status final left
      have refused : (efiInvalidParameter == efiSuccess) = false := by decide
      simp [answer status final left, (prints _).not_accepted, acceptedExit, refused]

/-- Getting the memory map asks for no exit. -/
theorem GetMapRun.exitFree {result : Except EfiStatus (UInt64 × EfiBootMemmap)}
    (run : GetMapRun events result) : NoExit events :=
  exitCalls_eq_zero_iff.mp run.noExit

/-- `efi_exit_boot_services` keeps the rule, and its result is the answer of the firmware. -/
theorem exitRun_quiet (run : ExitRun globals handle priv (exitBootFunc lib globals) events outcome) :
    QuietAfterExit events ∧
      ∀ status final, outcome = some (status, final) → (status = efiSuccess ↔ Accepted events) := by
  cases run with
  | unimplemented prints asked => exact ⟨(noExit_of_console prints).quiet, nofun⟩
  | noMap got =>
    refine ⟨got.exitFree.quiet, ?_⟩
    rintro _ _ ⟨⟩
    exact iff_of_false got.failed got.exitFree.not_accepted
  | waits got waits =>
    obtain ⟨rfl, -⟩ := exitBootFunc_of_exec waits
    refine ⟨NoExit.quiet ?_, nofun⟩
    simp [got.exitFree, Call.isExit]
  | refused got ran refused freed =>
    obtain ⟨rfl, -⟩ := exitBootFunc_of_exec ran
    suffices none : NoExit _ by
      refine ⟨none.quiet, ?_⟩
      rintro _ _ ⟨⟩
      exact iff_of_false refused none.not_accepted
    simp [got.exitFree, Call.isExit]
  | exits got ran exit =>
    obtain ⟨rfl, -⟩ := exitBootFunc_of_exec ran
    obtain ⟨quiet, answer⟩ := firstRun_quiet exit
    refine ⟨?_, fun status final left => ?_⟩
    · rw [got.exitFree.quiet_append, quiet_cons rfl, quiet_cons rfl]
      exact quiet
    · simp [answer status final left, got.exitFree.not_accepted, acceptedExit]

variable {buffer : VirtmapBuffer} {fdtAddr fdtSize : UInt64} {fdtAt : UInt64 → Blob}
  {result : Option (Except EfiStatus (ExitBootStruct Blob))}

/-- Freeing pages asks for no exit. -/
theorem freeEvents_noExit {size addr : UInt64} {status : EfiStatus} :
    NoExit (freeEvents size addr status) := by
  unfold freeEvents
  split <;> simp [Call.isExit]

/-- The clean-up asks for no exit. -/
theorem cleanFail_noExit {runtimeMap : UInt64}
    (run : Exec (cleanFail fdtAddr fdtSize runtimeMap) events result) : NoExit events := by
  obtain ⟨status, freed, rfl, -⟩ := cleanFail_of_exec run
  simp [freeEvents_noExit, Call.isExit]

/-- The clean-up with a new tree asks for no exit. -/
theorem cleanFailFreeNewFdt_noExit {newFdtAddr runtimeMap : UInt64}
    (run : Exec (cleanFailFreeNewFdt newFdtAddr fdtAddr fdtSize runtimeMap) events result) :
    NoExit events := by
  obtain ⟨new, status, freed, rfl, -⟩ := cleanFailFreeNewFdt_of_exec run
  simp [freeEvents_noExit, Call.isExit]

/-- The clean-up ends in an error of loading. -/
theorem cleanFailFreeNewFdt_returns {newFdtAddr runtimeMap : UInt64}
    (run : Exec (cleanFailFreeNewFdt newFdtAddr fdtAddr fdtSize runtimeMap) events result) :
    result = some (.error efiLoadError) := by
  obtain ⟨_, _, _, -, returned⟩ := cleanFailFreeNewFdt_of_exec run
  exact returned

/-- With a tree chosen, the rule is kept exactly when no exit is asked for, one is accepted, or the
run never returns. -/
theorem treeRun_quiet (run : TreeRun lib globals handle buffer fdtAddr fdtSize events result) :
    QuietAfterExit events ↔ NoExit events ∨ Accepted events ∨ result = none := by
  cases run with
  | noPages address reply prints refused printed clean =>
    suffices none : NoExit _ from iff_of_true none.quiet (.inl none)
    simp [cleanFail_noExit clean, noExit_of_console printed, newFdtRequest, Call.isExit]
  | noTree address reply prints granted printed clean =>
    suffices none : NoExit _ from iff_of_true none.quiet (.inl none)
    simp [cleanFailFreeNewFdt_noExit clean, noExit_of_console printed, newFdtRequest, Call.isExit]
  | waits address reply prints granted printed ran =>
    refine iff_of_true ?_ (.inr (.inr rfl))
    rw [quiet_cons rfl, (noExit_of_console printed).quiet_append]
    exact (exitRun_quiet ran).1
  | left address reply prints granted printed ran installed =>
    obtain ⟨quiet, answer⟩ := exitRun_quiet ran
    have accepted := (answer _ _ rfl).mp rfl
    refine iff_of_true ?_ (.inr (.inl (by simp [accepted])))
    rw [quiet_cons rfl, (noExit_of_console printed).quiet_append]
    refine After.append quiet fun event member => ?_
    obtain ⟨_, _, _, _, install⟩ := (installVirtmap_of_exec installed).1 event member
    rw [install]
    rfl
  | @failed address reply prints exit cleanup _ _ status _ granted printed ran refused clean =>
    obtain ⟨quiet, answer⟩ := exitRun_quiet ran
    have declined : ¬Accepted exit := fun accepted => refused ((answer _ _ rfl).mpr accepted)
    have cleaned := cleanFailFreeNewFdt_noExit clean
    have returned := cleanFailFreeNewFdt_returns clean
    have before := noExit_of_console printed
    rw [quiet_cons rfl, before.quiet_append]
    by_cases asked : NoExit exit
    · refine iff_of_true ?_ (.inl ?_)
      · rw [asked.quiet_append, quiet_cons rfl]
        exact cleaned.quiet
      · simp [before, asked, cleaned, newFdtRequest, Call.isExit]
    · -- the report of the failure is console output behind the exit
      have asks : ∃ event ∈ exit, event.op.isExit = true := by simpa [Lacks] using asked
      refine iff_of_false (not_after asks List.mem_cons_self (by
        simp [Call.allowedAfterExit, Call.isConsole])) ?_
      simp [before.not_accepted, asked, declined, cleaned.not_accepted, returned, acceptedExit,
        newFdtRequest]

/-- A part without an exit changes nothing about the rule or its condition. -/
theorem NoExit.settled_append (none : NoExit first) :
    (QuietAfterExit (first ++ second) ↔
      NoExit (first ++ second) ∨ Accepted (first ++ second) ∨ result = .none) ↔
    (QuietAfterExit second ↔ NoExit second ∨ Accepted second ∨ result = .none) := by
  rw [none.quiet_append]
  simp [none, none.not_accepted]

/-- The body is quiet after the exit just when none is asked for, one is accepted or it does not
return. -/
theorem bodyRun_quiet (run : BodyRun lib fdtAt globals handle buffer events result) :
    QuietAfterExit events ↔ NoExit events ∨ Accepted events ∨ result = none := by
  cases run with
  | @chosen before prints later tables _ asked printed _ run =>
    have none : NoExit (before ++ ⟨.configurationTable, tables⟩ :: prints) := by
      simp [noExit_of_query asked, noExit_of_console printed, Call.isExit]
    have settled := none.settled_append.mpr (treeRun_quiet run)
    simpa using settled

/-- Getting the runtime map asks for no exit. -/
theorem VirtmapRun.exitFree {answer : Except EfiStatus VirtmapBuffer}
    (run : VirtmapRun events answer) : NoExit events := by
  cases run <;> simp [Call.isExit]

/-- A run of `allocate_new_fdt_and_exit_boot` prints nothing and calls no boot service but
`GetMemoryMap` and `ExitBootServices` after its first `ExitBootServices` call exactly when it makes
no such call, the firmware accepts one, or the run never returns. -/
theorem handover_quiet_iff {cmdline : List UInt8}
    (run : Exec (allocateNewFdtAndExitBoot lib fdtAt globals handle cmdline) events result) :
    QuietAfterExit events ↔ NoExit events ∨ Accepted events ∨ result = none := by
  cases handoverRun_of_exec run with
  | novamap set run => exact bodyRun_quiet run
  | noBuffer unset map printed =>
    have none : NoExit _ := lacks_append.mpr ⟨map.exitFree, noExit_of_console printed⟩
    exact iff_of_true none.quiet (.inl none)
  | buffered unset map run => exact map.exitFree.settled_append.mpr (bodyRun_quiet run)

/-- The events of a handover whose exits are all answered in one way. -/
def answeredHandover (exit : EfiStatus) : List Event :=
  plainHandover.eventsWith (plainFirmware [] efiSuccess exit)

/-- A firmware that accepts the exit hears nothing more. -/
theorem handover_quiet_iff_agreed : QuietAfterExit (answeredHandover efiSuccess) ↔
    NoExit (answeredHandover efiSuccess) ∨ Accepted (answeredHandover efiSuccess) ∨
      plainHandover.valueWith (plainFirmware [] efiSuccess efiSuccess) = none :=
  handover_quiet_iff (exec_eventsWith (by decide +kernel))

/-- An event behind an exit is allowed. -/
theorem QuietAfterExit.allowed (quiet : QuietAfterExit events) {i j : Nat} (order : i < j)
    (exit : (events.map fun event => event.op.isExit)[i]? = some true) :
    (events.map fun event => event.op.allowedAfterExit)[j]? ≠ some false := by
  intro forbidden
  rw [List.getElem?_map, Option.map_eq_some_iff] at exit forbidden
  obtain ⟨head, headAt, triggers⟩ := exit
  obtain ⟨event, eventAt, denied⟩ := forbidden
  obtain ⟨inRange, rfl⟩ := List.getElem?_eq_some_iff.mp headAt
  have split : events = events.take i ++ events[i] :: events.drop (i + 1) := by simp
  have member : event ∈ events.drop (i + 1) := by
    refine List.mem_iff_getElem?.mpr ⟨j - (i + 1), ?_⟩
    rw [List.getElem?_drop, Nat.add_sub_cancel' order]
    exact eventAt
  have allowed : event.op.allowedAfterExit = true := quiet _ _ _ split triggers event member
  rw [denied] at allowed
  cases allowed

/-- A firmware that answers every exit with `EFI_INVALID_PARAMETER` sees console output and frees
behind the exits. -/
theorem handover_refused_not_quiet : ¬∀ events result, Exec plainHandover events result →
    QuietAfterExit events := by
  intro claim
  have quiet : QuietAfterExit (answeredHandover efiInvalidParameter) :=
    claim _ _ (exec_eventsWith (by decide +kernel))
  refine quiet.allowed (show 22 < 23 by decide) ?_ ?_ <;> decide +kernel

end DragonStub

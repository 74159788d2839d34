import DragonStub.Boot.Handover
import DragonStub.Verif.ExitRuns

/-!
# The map that boot services are left with

`efi_exit_boot_services` against an arbitrary firmware: how often it asks to exit, and which map the
callback has seen when the firmware agrees.
-/

namespace DragonStub

open Interaction Prog

/-- Whether a call is `ExitBootServices`. -/
def Call.isExit : Call → Bool
  | .exitBootServices .. => true
  | _ => false

/-- The map passed to the callback at an event, if the callback is entered there. -/
def passedMap (event : Event) : Option EfiBootMemmap :=
  match event.op with
  | .reach (.privFunc map) => some map
  | _ => none

/-- The map last passed to the callback in a run. -/
def lastPassed (events : List Event) : Option EfiBootMemmap := (events.filterMap passedMap).getLast?

/-- The number of exits asked for in a run. -/
def exitCalls (events : List Event) : Nat := events.countP fun event => event.op.isExit

/-- A callback that makes no boot service call. -/
def NoBootCalls {P : Type} (privFunc : PrivFunc P) : Prop :=
  ∀ m map priv, Calls (fun call => call.isBootService = false ∧ call.isPoint = false)
    (privFunc m map priv)

/-- A callback that leaves `map->map_key` as it found it. -/
def KeepsKey {P : Type} (privFunc : PrivFunc P) : Prop :=
  ∀ m map priv events status map' priv', Exec (privFunc m map priv) events
    (some (status, map', priv')) → map'.mapKey = map.mapKey

/-- A run ends with an accepted exit whose key a `GetMemoryMap` call produced, no boot service was
called between the two, and the callback was last passed what that call returned. -/
def ExitsCurrent (events : List Event) : Prop :=
  ∃ before size buffer reply between handle map,
    events = before ++ ⟨.getMemoryMap size buffer, reply⟩ ::
      (between ++ [⟨.exitBootServices handle reply.mapKey, efiSuccess⟩]) ∧
    (∀ event ∈ between, event.op.isBootService = false) ∧
    lastPassed events = some map ∧ map.map = reply.map ∧ map.mapSize = reply.mapSize ∧
    map.descSize = reply.descSize ∧ map.descVer = reply.descVer

variable {P : Type} {events : List Event}

/-- No map is passed by events that are not points. -/
theorem passed_eq_nil (plain : ∀ event ∈ events, event.op.isPoint = false) :
    events.filterMap passedMap = [] := by
  rw [List.filterMap_eq_nil_iff]
  intro event member
  have point := plain event member
  unfold passedMap
  cases h : event.op with
  | reach => simp [h, Call.isPoint] at point
  | _ => rfl

/-- `ExitBootServices` is a boot service. -/
theorem Call.isExit_of_isBootService {call : Call} (other : call.isBootService = false) :
    call.isExit = false := by
  cases call with
  | exitBootServices => cases other
  | _ => rfl

/-- Console output is neither a boot service nor a point of a run. -/
theorem Call.plain_of_isConsole {call : Call} (console : call.isConsole = true) :
    call.isBootService = false ∧ call.isPoint = false := by
  cases call with
  | print => exact ⟨rfl, rfl⟩
  | _ => cases console

/-- Without boot services no exit is counted. -/
theorem exitCalls_eq_zero (plain : ∀ event ∈ events, event.op.isBootService = false) :
    exitCalls events = 0 := by
  rw [exitCalls, List.countP_eq_zero]
  intro event member
  rw [Call.isExit_of_isBootService (plain event member)]
  decide

/-- No events count no exit. -/
@[simp] theorem exitCalls_nil : exitCalls [] = 0 := rfl

/-- The exits of two parts of a trace are added. -/
theorem exitCalls_append (first second : List Event) :
    exitCalls (first ++ second) = exitCalls first + exitCalls second :=
  List.countP_append

/-- The first event adds one exit, if it is one. -/
theorem exitCalls_cons (event : Event) (rest : List Event) :
    exitCalls (event :: rest) = exitCalls rest + if event.op.isExit then 1 else 0 :=
  List.countP_cons

/-- A map is read by a `GetMemoryMap` call that comes last, and no exit is asked for before. -/
theorem GetMapRun.ok {m : UInt64} {map : EfiBootMemmap} (run : GetMapRun events (.ok (m, map))) :
    ∃ before size buffer reply buffSize, events = before ++ [⟨.getMemoryMap size buffer, reply⟩] ∧
      map = reply.memmap buffSize := by
  cases run with
  | read tmp pool reply granted given =>
    exact ⟨_, _, _, reply, tmp.askedSize, List.append_assoc (sizedMap tmp pool) [_] [_] |>.symm, rfl⟩

/-- Getting the memory map counts no exit. -/
theorem GetMapRun.noExit {result : Except EfiStatus (UInt64 × EfiBootMemmap)}
    (run : GetMapRun events result) : exitCalls events = 0 := by
  cases run <;> simp [exitCalls, sizedMap, readMapEvents, Call.isExit]

/-- A map that is not read is an error. -/
theorem GetMapRun.failed {status : EfiStatus} (run : GetMapRun events (.error status)) :
    status ≠ efiSuccess := by
  cases run with
  | unsized => decide
  | noPool _ _ refused | noTable _ _ _ _ _ refused | noMap _ _ _ _ _ _ refused => exact refused

variable {privFunc : PrivFunc P} {globals : Globals} {handle m : UInt64} {map : EfiBootMemmap}
  {priv : P} {outcome : Option (EfiStatus × P)}

/-- The events of a callback without boot service calls. -/
theorem NoBootCalls.plain (quiet : NoBootCalls privFunc) {inner : List Event}
    {result : Option (EfiStatus × EfiBootMemmap × P)}
    (ran : Exec (privFunc m map priv) inner result) :
    (∀ event ∈ inner, event.op.isBootService = false) ∧
      ∀ event ∈ inner, event.op.isPoint = false := by
  have allowed := (quiet m map priv).events ran
  exact ⟨fun event member => (allowed event member).1, fun event member => (allowed event member).2⟩

/-- What is done in front of an exit is printing. -/
theorem beforeExit_console {mapKey : UInt64} :
    ∀ event ∈ beforeExit globals handle mapKey, event.op.isConsole = true := by
  simp [beforeExit, Call.isConsole]

/-- The second attempt asks to exit at most once. -/
theorem RetryRun.exitCalls_le (quiet : NoBootCalls privFunc)
    (run : RetryRun handle m map priv privFunc events outcome) : exitCalls events ≤ 1 := by
  cases run with
  | noMap reply refused => simp [exitCalls_cons, Call.isExit]
  | waits reply given waits =>
    have none := exitCalls_eq_zero (quiet.plain waits).1
    simp [exitCalls_cons, Call.isExit, none]
  | refused reply given ran refused =>
    have none := exitCalls_eq_zero (quiet.plain ran).1
    simp [exitCalls_cons, Call.isExit, none]
  | exits reply given ran status =>
    have none := exitCalls_eq_zero (quiet.plain ran).1
    simp [exitCalls_cons, exitCalls_append, Call.isExit, none]

/-- From the first exit on there are at most two. -/
theorem FirstRun.exitCalls_le (quiet : NoBootCalls privFunc)
    (run : FirstRun globals handle m map priv privFunc events outcome) : exitCalls events ≤ 2 := by
  have prints {mapKey : UInt64} : exitCalls (beforeExit globals handle mapKey) = 0 :=
    exitCalls_eq_zero fun event member =>
      (Call.plain_of_isConsole (beforeExit_console event member)).1
  cases run with
  | decided status final => simp [exitCalls_cons, exitCalls_append, Call.isExit, prints]
  | retried retry =>
    have again := retry.exitCalls_le quiet
    simp only [exitCalls_cons, exitCalls_append, Call.isExit, prints, if_true]
    omega

/-- `efi_exit_boot_services` asks to exit at most twice. -/
theorem ExitRun.exitCalls_le (quiet : NoBootCalls privFunc)
    (run : ExitRun globals handle priv privFunc events outcome) : exitCalls events ≤ 2 := by
  cases run with
  | unimplemented prints asked =>
    have none := exitCalls_eq_zero fun event member =>
      (Call.plain_of_isConsole (prints event member)).1
    omega
  | noMap got =>
    have none := got.noExit
    omega
  | waits got waits =>
    have none := exitCalls_eq_zero (quiet.plain waits).1
    simp [exitCalls_cons, exitCalls_append, got.noExit, Call.isExit, none]
  | refused got ran refused freed =>
    have none := exitCalls_eq_zero (quiet.plain ran).1
    simp [exitCalls_cons, exitCalls_append, got.noExit, Call.isExit, none]
  | exits got ran exit =>
    have none := exitCalls_eq_zero (quiet.plain ran).1
    have later := exit.exitCalls_le quiet
    simpa [exitCalls_cons, exitCalls_append, got.noExit, Call.isExit, none] using later

/-- The events from the last map on make the run current: nothing but the callback and the console
lies between, and the key is the one the map came with. -/
theorem exitsCurrent_of_last (first prints inner more : List Event) (size buffer buffSize : UInt64)
    (reply : MemoryMapReply) (handle : UInt64) {mapKey : UInt64}
    (printsPlain : ∀ event ∈ prints, event.op.isConsole = true)
    (morePlain : ∀ event ∈ more, event.op.isConsole = true)
    (innerPlain : (∀ event ∈ inner, event.op.isBootService = false) ∧
      ∀ event ∈ inner, event.op.isPoint = false)
    (key : mapKey = reply.mapKey)
    (run : events = first ++ ⟨.getMemoryMap size buffer, reply⟩ ::
      (prints ++ ⟨.reach (.privFunc (reply.memmap buffSize)), ()⟩ :: (inner ++ more) ++
        [⟨.exitBootServices handle mapKey, efiSuccess⟩])) : ExitsCurrent events := by
  have printed := fun event member => Call.plain_of_isConsole (printsPlain event member)
  have printedMore := fun event member => Call.plain_of_isConsole (morePlain event member)
  subst key
  refine ⟨first, size, buffer, reply, _, handle, reply.memmap buffSize, run, ?_, ?_,
    rfl, rfl, rfl, rfl⟩
  · intro event member
    simp only [List.mem_append, List.mem_cons] at member
    rcases member with member | rfl | member | member
    · exact (printed event member).1
    · rfl
    · exact innerPlain.1 event member
    · exact (printedMore event member).1
  · have tail : List.filterMap passedMap [⟨.exitBootServices handle reply.mapKey, efiSuccess⟩] = [] :=
      rfl
    have entered : passedMap ⟨.reach (.privFunc (reply.memmap buffSize)), ()⟩ =
        some (reply.memmap buffSize) := rfl
    have read : passedMap ⟨.getMemoryMap size buffer, reply⟩ = none := rfl
    simp only [run, lastPassed, List.filterMap_append, List.filterMap_cons, tail, entered, read,
      passed_eq_nil fun event member => (printed event member).2, passed_eq_nil innerPlain.2,
      passed_eq_nil fun event member => (printedMore event member).2]
    simp

/-- When the second attempt succeeds, the callback has seen the map it read. -/
theorem RetryRun.current {final : P} (quiet : NoBootCalls privFunc) (keeps : KeepsKey privFunc)
    (run : RetryRun handle m map priv privFunc events outcome)
    (left : outcome = some (efiSuccess, final)) (first : List Event) :
    ExitsCurrent (first ++ events) := by
  cases run with
  | noMap reply refused => exact absurd (congrArg Prod.fst (Option.some.inj left)) refused
  | waits => cases left
  | refused reply given ran refused =>
    exact absurd (congrArg Prod.fst (Option.some.inj left)) refused
  | exits reply given ran status =>
    obtain rfl : status = efiSuccess := congrArg Prod.fst (Option.some.inj left)
    have key := keeps _ _ _ _ _ _ _ ran
    exact exitsCurrent_of_last first [] _ [] map.buffSize (m + efiBootMemmapSize) map.buffSize reply
      handle (by simp) (by simp) (quiet.plain ran) key (by simp)

/-- When boot services are left, the callback has last seen the map the firmware agreed to. -/
theorem ExitRun.current {final : P} (quiet : NoBootCalls privFunc) (keeps : KeepsKey privFunc)
    (run : ExitRun globals handle priv privFunc events outcome)
    (left : outcome = some (efiSuccess, final)) : ExitsCurrent events := by
  cases run with
  | unimplemented | waits => cases left
  | noMap got => exact absurd (congrArg Prod.fst (Option.some.inj left)) got.failed
  | refused got ran refused freed => exact absurd (congrArg Prod.fst (Option.some.inj left)) refused
  | @exits first inner later m map map' _ _ got ran exit =>
    cases exit with
    | decided status =>
      obtain rfl : status = efiSuccess := congrArg Prod.fst (Option.some.inj left)
      obtain ⟨before, size, buffer, reply, buffSize, rfl, rfl⟩ := got.ok
      have key := keeps _ _ _ _ _ _ _ ran
      exact exitsCurrent_of_last before [⟨.print ("[DEBUG]: " ++ "before priv_func\n") [], ()⟩] inner
        (beforeExit globals handle map'.mapKey) size buffer buffSize reply handle
        (by simp [Call.isConsole]) beforeExit_console (quiet.plain ran) key (by simp)
    | retried retry =>
      have current := retry.current quiet keeps left (first ++
        ⟨.print ("[DEBUG]: " ++ "before priv_func\n") [], ()⟩ :: ⟨.reach (.privFunc map), ()⟩ ::
          (inner ++ (beforeExit globals handle map'.mapKey ++
            [⟨.exitBootServices handle map'.mapKey, efiInvalidParameter⟩])))
      simpa using current

/-- Against every firmware, `efi_exit_boot_services` asks to exit at most twice, and when it
succeeds the callback was last passed the map whose key the firmware accepted, with no boot service
called since that map was read. The callback makes no boot service call and leaves the key alone. -/
theorem exit_boot_services_current (quiet : NoBootCalls privFunc) (keeps : KeepsKey privFunc)
    (run : Exec (efiExitBootServices globals handle priv privFunc) events outcome) :
    exitCalls events ≤ 2 ∧
      ∀ final, outcome = some (efiSuccess, final) → ExitsCurrent events := by
  have shape := exitRun_of_exec run
  exact ⟨shape.exitCalls_le quiet, fun final left => shape.current quiet keeps left⟩

/-- One page of free memory. -/
def plainDescriptor : EfiMemoryDescriptor := ⟨7, 0, 0x80000000, 0, 1, 0xF, []⟩

/-- A firmware that gives maps with key 7 and agrees to exit when it is asked a second time. -/
def hesitantFirmware (past : List Event) : (call : Call) → Option call.Reply
  | .getMemoryMap size _ =>
    some ⟨if size = 0 then efiBufferTooSmall else efiSuccess, 40, 7, 40, 1, [plainDescriptor]⟩
  | .allocatePool .. => some ⟨efiSuccess, 0x1000⟩
  | .freePool .. => some efiSuccess
  | .installConfigurationTable .. => some efiSuccess
  | .exitBootServices .. => some (if exitCalls past = 0 then efiInvalidParameter else efiSuccess)
  | .print .. => some ()
  | .reach .. => some ()
  | _ => none

/-- No options are given, and no address matters. -/
def plainGlobals : Globals := ⟨false, false, 0, 0, 0⟩

/-- A callback that changes nothing. -/
def idleFunc : PrivFunc Unit := fun _ map priv => .ret (efiSuccess, map, priv)

/-- A callback that counts the key up. -/
def bumpKeyFunc : PrivFunc Unit := fun _ map priv =>
  .ret (efiSuccess, { map with mapKey := map.mapKey + 1 }, priv)

/-- A callback that does nothing makes no boot calls. -/
theorem noBootCalls_idle : NoBootCalls idleFunc := fun _ _ _ => trivial

/-- A callback that changes the key makes no boot calls. -/
theorem noBootCalls_bumpKey : NoBootCalls bumpKeyFunc := fun _ _ _ => trivial

/-- The run of a callback against the hesitant firmware. -/
def hesitantExit (privFunc : PrivFunc Unit) : Stub (EfiStatus × Unit) :=
  efiExitBootServices plainGlobals 1 () privFunc

/-- A firmware that refuses the first exit and accepts the second. -/
theorem exit_boot_services_current_retried :
    exitCalls ((hesitantExit idleFunc).eventsWith hesitantFirmware) ≤ 2 ∧
      ∀ final, (hesitantExit idleFunc).valueWith hesitantFirmware = some (efiSuccess, final) →
        ExitsCurrent ((hesitantExit idleFunc).eventsWith hesitantFirmware) := by
  refine exit_boot_services_current noBootCalls_idle ?_ (exec_eventsWith (by decide +kernel))
  intro m map priv events status map' priv' ran
  obtain ⟨-, ⟨⟩⟩ := exec_ret.mp ran
  rfl

/-- The key a `GetMemoryMap` call returned. -/
def givenKey (event : Event) : Option UInt64 :=
  match event with
  | ⟨.getMemoryMap .., reply⟩ => some reply.mapKey
  | _ => none

/-- The key an exit was asked for with. -/
def askedKey (event : Event) : Option UInt64 :=
  match event.op with
  | .exitBootServices _ mapKey => some mapKey
  | _ => none

/-- In a current run the last exit is asked for with a key that was given. -/
theorem ExitsCurrent.key_given (current : ExitsCurrent events) :
    ∃ key ∈ events.filterMap givenKey, (events.filterMap askedKey).getLast? = some key := by
  obtain ⟨before, size, buffer, reply, between, handle, map, rfl, -⟩ := current
  refine ⟨reply.mapKey, ?_, ?_⟩
  · simp [givenKey]
  · simp [askedKey, List.filterMap_cons]

/-- A callback may make no boot service call and yet exit with a key no map came with. -/
theorem exit_boot_services_foreign_key : ¬∀ privFunc : PrivFunc Unit, NoBootCalls privFunc →
    ∀ globals handle priv events outcome,
      Exec (efiExitBootServices globals handle priv privFunc) events outcome →
      exitCalls events ≤ 2 ∧
        ∀ final, outcome = some (efiSuccess, final) → ExitsCurrent events := by
  intro claim
  have run : Exec (hesitantExit bumpKeyFunc) ((hesitantExit bumpKeyFunc).eventsWith
      hesitantFirmware) _ := exec_eventsWith (by decide +kernel)
  have current := (claim bumpKeyFunc noBootCalls_bumpKey _ _ _ _ _ run).2 () (by decide +kernel)
  obtain ⟨key, given, asked⟩ := current.key_given
  have keys : ((hesitantExit bumpKeyFunc).eventsWith hesitantFirmware).filterMap givenKey =
      [7, 7, 7] := by decide +kernel
  have last : (((hesitantExit bumpKeyFunc).eventsWith hesitantFirmware).filterMap
      askedKey).getLast? = some 8 := by decide +kernel
  rw [keys] at given
  rw [last] at asked
  cases asked
  exact absurd given (by decide)

end DragonStub

import Mathlib.Data.List.Induction
import DragonStub.Verif.ExitBoot

/-!
# The table of the memory map

`efi_get_memory_map` publishes the block it fills as a configuration table, and removes the table
before it frees the block. `efi_exit_boot_services` frees the block behind a failed callback and
leaves the table.
-/

namespace DragonStub

open Interaction Prog

variable {P : Type} {globals : Globals} {handle m : UInt64} {map : EfiBootMemmap} {priv : P}
  {privFunc : PrivFunc P} {events kept first second : List Event}

/-- The configuration table after an event, given the one before: installing a null table removes
the entry, and a table that is refused changes nothing. -/
def tablesStep (tables : EfiGuid → Option UInt64) : Event → EfiGuid → Option UInt64
  | ⟨.installConfigurationTable guid table, status⟩ =>
    if table = 0 then Function.update tables guid none
    else if status = efiSuccess then Function.update tables guid (some table)
    else tables
  | _ => tables

/-- The configuration table after a list of events. -/
def tablesAfter (tables : EfiGuid → Option UInt64) (events : List Event) : EfiGuid → Option UInt64 :=
  events.foldl tablesStep tables

/-- The entry of the memory map after a list of events that starts with an empty table. -/
def bootMemmapTable (events : List Event) : Option UInt64 :=
  tablesAfter (fun _ => none) events linuxEfiBootMemmapGuid

/-- The freed blocks after an event, given those before; a block that is given out again is not
freed. -/
def freedStep (freed : Set UInt64) : Event → Set UInt64
  | ⟨.freePool buffer, status⟩ => if status = efiSuccess then insert buffer freed else freed
  | ⟨.allocatePool .., reply⟩ => if reply.status = efiSuccess then freed \ {reply.value} else freed
  | _ => freed

/-- The blocks that are freed after a list of events. -/
def freedBlocks (events : List Event) : Set UInt64 := events.foldl freedStep ∅

/-- The entry of the memory map refers to a freed block. -/
def Dangles (events : List Event) : Prop :=
  ∃ block ∈ freedBlocks events, bootMemmapTable events = some block

/-- The calls that change the table or the pool. -/
def Call.movesBlocks : Call → Bool
  | .allocatePool .. | .freePool .. | .installConfigurationTable .. => true
  | _ => false

/-- No other call changes the table. -/
theorem tablesStep_other {tables : EfiGuid → Option UInt64} {event : Event}
    (other : event.op.movesBlocks = false) : tablesStep tables event = tables := by
  obtain ⟨call, reply⟩ := event
  cases call with
  | installConfigurationTable => cases other
  | _ => rfl

/-- An installed table is never null. -/
theorem tablesStep_ne_zero {tables : EfiGuid → Option UInt64} (event : Event) {guid : EfiGuid}
    (before : tables guid ≠ some 0) : tablesStep tables event guid ≠ some 0 := by
  obtain ⟨call, reply⟩ := event
  cases call with
  | installConfigurationTable named table =>
    simp only [tablesStep]
    by_cases same : guid = named
    · subst same
      split_ifs with null
      · simp
      · simpa using null
      · exact before
    · split_ifs
      · rwa [Function.update_of_ne same]
      · rwa [Function.update_of_ne same]
      · exact before
  | _ => exact before

/-- The entry is never null. -/
theorem bootMemmapTable_ne_zero : bootMemmapTable events ≠ some 0 := by
  unfold bootMemmapTable tablesAfter
  induction events using List.reverseRecOn with
  | nil => simp
  | append_singleton before event ih =>
    rw [List.foldl_append]
    exact tablesStep_ne_zero event ih

/-- No other call changes which blocks are freed. -/
theorem freedStep_other {freed : Set UInt64} {event : Event}
    (other : event.op.movesBlocks = false) : freedStep freed event = freed := by
  obtain ⟨call, reply⟩ := event
  cases call with
  | allocatePool | freePool => cases other
  | _ => rfl

/-- A part without such calls changes neither. -/
theorem Lacks.blocks (first : List Event) (none : Lacks Call.movesBlocks second) :
    bootMemmapTable (first ++ second) = bootMemmapTable first ∧
      freedBlocks (first ++ second) = freedBlocks first := by
  unfold bootMemmapTable tablesAfter freedBlocks
  rw [List.foldl_append, List.foldl_append]
  generalize List.foldl tablesStep (fun _ => Option.none) first = tables
  generalize List.foldl freedStep ∅ first = freed
  induction second with
  | nil => exact ⟨rfl, rfl⟩
  | cons event rest ih =>
    rw [lacks_cons] at none
    rw [List.foldl_cons, List.foldl_cons, tablesStep_other none.1, freedStep_other none.1]
    exact ih none.2

/-- What moves no block leaves the table as it dangles or does not. -/
theorem Lacks.dangles (first : List Event) (none : Lacks Call.movesBlocks second) :
    Dangles (first ++ second) ↔ Dangles first := by
  obtain ⟨table, freed⟩ := none.blocks first
  unfold Dangles
  rw [table, freed]

/-- A block that is freed leaves the entry dangling that refers to it, or that was dangling
before. -/
theorem dangles_free (block : UInt64) (status : EfiStatus) :
    Dangles (kept ++ [⟨.freePool block, status⟩]) ↔
      Dangles kept ∨ status = efiSuccess ∧ bootMemmapTable kept = some block := by
  have table : bootMemmapTable (kept ++ [⟨.freePool block, status⟩]) = bootMemmapTable kept := by
    rw [bootMemmapTable, tablesAfter, List.foldl_append]
    rfl
  have freed : freedBlocks (kept ++ [⟨.freePool block, status⟩]) =
      if status = efiSuccess then insert block (freedBlocks kept) else freedBlocks kept := by
    rw [freedBlocks, List.foldl_append]
    rfl
  unfold Dangles
  rw [table, freed]
  by_cases done : status = efiSuccess
  · rw [if_pos done]
    constructor
    · rintro ⟨other, rfl | member, entry⟩
      · exact .inr ⟨done, entry⟩
      · exact .inl ⟨other, member, entry⟩
    · rintro (⟨other, member, entry⟩ | ⟨-, entry⟩)
      · exact ⟨other, .inr member, entry⟩
      · exact ⟨block, .inl rfl, entry⟩
  · rw [if_neg done]
    simp only [done, false_and, or_false]

/-- The block that a single call frees. -/
theorem freed_mem {block : UInt64} {status : EfiStatus} {property : UInt64 → Prop} :
    (∀ freed, (⟨.freePool freed, efiSuccess⟩ : Event) ∈ [⟨.freePool block, status⟩] →
      property freed) ↔ (status = efiSuccess → property block) := by
  constructor
  · rintro all rfl
    exact all block (by simp)
  · intro one freed member
    have same := List.mem_singleton.mp member
    injection same with called answered
    obtain rfl := Call.freePool.inj called
    exact one answered.symm

/-- `efi_get_memory_map` removes the table before it frees the block, and leaves it in the table when
it returns it. -/
theorem GetMapRun.blocks {result : Except EfiStatus (UInt64 × EfiBootMemmap)}
    (run : GetMapRun events result) : ¬Dangles events ∧
      ∀ m map, result = .ok (m, map) → m ≠ 0 → bootMemmapTable events = some m := by
  cases run with
  | unsized tmp refused =>
    refine ⟨?_, by simp⟩
    rintro ⟨block, freed, -⟩
    exact freed
  | noPool tmp pool refused =>
    refine ⟨?_, by simp⟩
    rintro ⟨block, -, entry⟩
    cases entry
  | noTable tmp pool status freed granted refused =>
    refine ⟨?_, by simp⟩
    rintro ⟨block, -, entry⟩
    have none : bootMemmapTable (sizedMap tmp pool ++
        [⟨.installConfigurationTable linuxEfiBootMemmapGuid pool.value, status⟩,
          ⟨.freePool pool.value, freed⟩]) = none := by
      simp [bootMemmapTable, sizedMap, tablesAfter, tablesStep, refused]
    rw [none] at entry
    cases entry
  | noMap tmp pool reply removed freed granted refused =>
    refine ⟨?_, by simp⟩
    rintro ⟨block, -, entry⟩
    have none : bootMemmapTable (readMapEvents tmp pool reply ++
        [⟨.installConfigurationTable linuxEfiBootMemmapGuid 0, removed⟩,
          ⟨.freePool pool.value, freed⟩]) = none := by
      simp [bootMemmapTable, readMapEvents, sizedMap, tablesAfter, tablesStep]
    rw [none] at entry
    cases entry
  | read tmp pool reply granted given =>
    constructor
    · rintro ⟨block, freed, -⟩
      simp [freedBlocks, readMapEvents, sizedMap, freedStep, granted] at freed
    · rintro m map ⟨⟩ nonzero
      simp [bootMemmapTable, readMapEvents, sizedMap, tablesAfter, tablesStep, nonzero]

/-- How far a run of `efi_exit_boot_services` is in the hands of its callback, and what is freed
behind it: nothing, unless the first call of the callback fails. -/
inductive CallbackEnds (priv : P) (privFunc : PrivFunc P) : List Event → List Event → Prop where
  /-- There is no map. -/
  | noMap {first : List Event} {status : EfiStatus} (got : GetMapRun first (.error status)) :
      CallbackEnds priv privFunc first []
  /-- The first call succeeds. -/
  | passed {first inner later : List Event} {m : UInt64} {map map' : EfiBootMemmap} {priv' : P}
      (got : GetMapRun first (.ok (m, map)))
      (ran : Exec (privFunc m map priv) inner (some (efiSuccess, map', priv'))) :
      CallbackEnds priv privFunc (first ++ ⟨.print ("[DEBUG]: " ++ "before priv_func\n") [], ()⟩ ::
        ⟨.reach (.privFunc map), ()⟩ :: (inner ++ later)) []
  /-- The first call fails. -/
  | refused {first inner : List Event} {m : UInt64} {map map' : EfiBootMemmap} {priv' : P}
      {status : EfiStatus} (got : GetMapRun first (.ok (m, map)))
      (ran : Exec (privFunc m map priv) inner (some (status, map', priv')))
      (refused : status ≠ efiSuccess) (freed : EfiStatus) :
      CallbackEnds priv privFunc (first ++ ⟨.print ("[DEBUG]: " ++ "before priv_func\n") [], ()⟩ ::
        ⟨.reach (.privFunc map), ()⟩ :: inner) [⟨.freePool m, freed⟩]

/-- The callback leaves the pool and the configuration tables alone. -/
def LeavesBlocks (privFunc : PrivFunc P) : Prop :=
  ∀ m map priv inner outcome, Exec (privFunc m map priv) inner outcome →
    Lacks Call.movesBlocks inner

/-- The exit itself changes neither the table nor the pool. -/
theorem FirstRun.leavesBlocks (quiet : LeavesBlocks privFunc)
    {outcome : Option (EfiStatus × P)}
    (run : FirstRun globals handle m map priv privFunc events outcome) :
    Lacks Call.movesBlocks events := by
  cases run with
  | decided => simp [beforeExit, Call.movesBlocks]
  | retried retry =>
    cases retry with
    | noMap => simp [beforeExit, Call.movesBlocks]
    | waits reply given waits =>
      simp [beforeExit, Call.movesBlocks, quiet _ _ _ _ _ waits]
    | refused reply given ran => simp [beforeExit, Call.movesBlocks, quiet _ _ _ _ _ ran]
    | exits reply given ran => simp [beforeExit, Call.movesBlocks, quiet _ _ _ _ _ ran]

/-- The part of a run in the hands of the callback neither frees nor changes the entry. -/
theorem entered_quiet (quiet : LeavesBlocks privFunc) {inner : List Event}
    {result : Option (EfiStatus × EfiBootMemmap × P)} (ran : Exec (privFunc m map priv) inner result)
    {later : List Event} (rest : Lacks Call.movesBlocks later) :
    Lacks Call.movesBlocks (⟨.print ("[DEBUG]: " ++ "before priv_func\n") [], ()⟩ ::
      ⟨.reach (.privFunc map), ()⟩ :: (inner ++ later)) := by
  simp [Call.movesBlocks, quiet _ _ _ _ _ ran, rest]

/-- When `efi_exit_boot_services` returns, the entry of the memory map refers to a freed block exactly
when the callback has left it so, or the map is freed behind its failed first call while the entry
refers to the map. For a callback that leaves the pool and the tables alone, the entry does so
whenever that call fails. -/
theorem exit_boot_services_table_iff {result : EfiStatus × P}
    (run : Exec (efiExitBootServices globals handle priv privFunc) events (some result)) :
    ∃ kept freed, CallbackEnds priv privFunc kept freed ∧ events = kept ++ freed ∧
      (¬Dangles events ↔ ¬Dangles kept ∧
        ∀ m, ⟨.freePool m, efiSuccess⟩ ∈ freed → bootMemmapTable kept ≠ some m) ∧
      (LeavesBlocks privFunc →
        (¬Dangles events ↔ ∀ m, ⟨.freePool m, efiSuccess⟩ ∈ freed → m = 0)) := by
  have shape := exitRun_of_exec run
  generalize returned : some result = outcome at shape
  cases shape with
  | unimplemented | waits => cases returned
  | noMap got =>
    refine ⟨_, _, .noMap got, by simp, by simp, fun quiet => ?_⟩
    simp [got.blocks.1]
  | @exits first inner later m map map' priv' _ got ran exit =>
    refine ⟨_, _, .passed got ran, (List.append_nil _).symm, by simp, fun quiet => ?_⟩
    have silent := entered_quiet quiet ran (exit.leavesBlocks quiet)
    have whole := silent.dangles first
    simp only [whole, got.blocks.1, List.not_mem_nil, not_false_eq_true, false_implies, implies_true]
  | @refused first inner m map map' status priv' got ran refused freed =>
    refine ⟨_, _, .refused got ran refused freed, by simp, ?_, fun quiet => ?_⟩
    · rw [freed_mem, ← List.cons_append, ← List.cons_append, ← List.append_assoc, dangles_free]
      tauto
    · have silent := entered_quiet quiet ran lacks_nil
      rw [List.append_nil] at silent
      have entry := (silent.blocks first).1
      have whole := silent.dangles first
      rw [freed_mem, ← List.cons_append, ← List.cons_append, ← List.append_assoc, dangles_free,
        whole, entry]
      obtain ⟨sound, published⟩ := got.blocks
      by_cases null : m = 0
      · have absent : bootMemmapTable first ≠ some 0 := bootMemmapTable_ne_zero
        subst null
        tauto
      · have found := published m map rfl null
        tauto

/-- A callback that refuses the map. -/
def refusingFunc : PrivFunc Unit := fun _ map priv => .ret (efiLoadError, map, priv)

/-- The run with a callback that succeeds, and the run with one that fails. -/
theorem exit_boot_services_table_retried :
    (∃ kept freed, CallbackEnds () idleFunc kept freed ∧
      (hesitantExit idleFunc).eventsWith hesitantFirmware = kept ++ freed ∧
      (¬Dangles ((hesitantExit idleFunc).eventsWith hesitantFirmware) ↔ ¬Dangles kept ∧
        ∀ m, ⟨.freePool m, efiSuccess⟩ ∈ freed → bootMemmapTable kept ≠ some m) ∧
      (LeavesBlocks idleFunc →
        (¬Dangles ((hesitantExit idleFunc).eventsWith hesitantFirmware) ↔
          ∀ m, ⟨.freePool m, efiSuccess⟩ ∈ freed → m = 0))) ∧
    ∃ kept freed, CallbackEnds () refusingFunc kept freed ∧
      (hesitantExit refusingFunc).eventsWith hesitantFirmware = kept ++ freed ∧
      (¬Dangles ((hesitantExit refusingFunc).eventsWith hesitantFirmware) ↔ ¬Dangles kept ∧
        ∀ m, ⟨.freePool m, efiSuccess⟩ ∈ freed → bootMemmapTable kept ≠ some m) ∧
      (LeavesBlocks refusingFunc →
        (¬Dangles ((hesitantExit refusingFunc).eventsWith hesitantFirmware) ↔
          ∀ m, ⟨.freePool m, efiSuccess⟩ ∈ freed → m = 0)) := by
  have run {func : PrivFunc Unit} {status : EfiStatus} (returned :
      ((hesitantExit func).valueWith hesitantFirmware).map Prod.fst = some status) :
      ∃ result, Exec (hesitantExit func) ((hesitantExit func).eventsWith hesitantFirmware)
        (some result) := by
    obtain ⟨result, -, run⟩ := exec_of_seen returned
    exact ⟨result, run⟩
  constructor
  · obtain ⟨result, passed⟩ := run (by decide +kernel :
      ((hesitantExit idleFunc).valueWith hesitantFirmware).map Prod.fst = some efiSuccess)
    exact exit_boot_services_table_iff passed
  · obtain ⟨result, refused⟩ := run (by decide +kernel :
      ((hesitantExit refusingFunc).valueWith hesitantFirmware).map Prod.fst = some efiLoadError)
    exact exit_boot_services_table_iff refused

/-- A callback that fails leaves the entry with a freed block. -/
theorem exit_boot_services_table_dangles : ¬∀ privFunc : PrivFunc Unit,
    ∀ globals handle priv events result,
      Exec (efiExitBootServices globals handle priv privFunc) events (some result) →
      ¬Dangles events := by
  intro claim
  have run : Exec (hesitantExit refusingFunc)
      ((hesitantExit refusingFunc).eventsWith hesitantFirmware)
      ((hesitantExit refusingFunc).valueWith hesitantFirmware) := exec_eventsWith (by decide +kernel)
  have returned : (hesitantExit refusingFunc).valueWith hesitantFirmware =
      some (efiLoadError, ()) := by decide +kernel
  rw [returned] at run
  apply claim _ _ _ _ _ _ run
  have entry : bootMemmapTable ((hesitantExit refusingFunc).eventsWith hesitantFirmware) =
      some 0x1000 := by decide +kernel
  refine ⟨0x1000, ?_, entry⟩
  have split : (hesitantExit refusingFunc).eventsWith hesitantFirmware =
      ((hesitantExit refusingFunc).eventsWith hesitantFirmware).take 6 ++
        [⟨.freePool 0x1000, efiSuccess⟩] := rfl
  rw [split, freedBlocks, List.foldl_append]
  exact .inl rfl

end DragonStub

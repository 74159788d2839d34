import DragonStub.Verif.ParseOptions

/-!
# What the options set

The variables after `efi_parse_options` are those before it, changed by one argument of the command
line after the other. Some variables are only ever set, and some are decided by the last argument
that speaks of them.
-/

namespace DragonStub

open ByteMemory Interaction Prog Trace

variable {flags flags' : OptionFlags} {value : List UInt8}
  {argument : List UInt8 × Option (List UInt8)} {options : List (List UInt8 × Option (List UInt8))}

/-- The value of an argument that is an `efi=` option. -/
def efiValueOf : List UInt8 × Option (List UInt8) → Option (List UInt8)
  | (name, value) => if name = efiText then value else none

/-- The values of the `efi=` options. -/
def efiValues (options : List (List UInt8 × Option (List UInt8))) : List (List UInt8) :=
  options.filterMap efiValueOf

/-- A value speaks of early bus mastering. -/
def speaksOfDma (value : List UInt8) : Bool := lists value disableText || lists value noDisableText

/-- An argument changes each variable on its own. -/
theorem applyArg_eq : applyArg flags argument =
    { (efiValueOf argument).elim flags (efiValue flags) with
      efiNokaslr := flags.efiNokaslr || decide (argument.1 = nokaslrText)
      efiNoinitrd := flags.efiNoinitrd || decide (argument.1 = noinitrdText) } := by
  obtain ⟨name, value⟩ := argument
  by_cases nokaslr : name = nokaslrText
  · subst nokaslr
    have other : ¬nokaslrText = noinitrdText ∧ ¬nokaslrText = efiText := by decide
    simp [applyArg, efiValueOf, other]
  by_cases quiet : name = quietText
  · subst quiet
    have other : ¬quietText = nokaslrText ∧ ¬quietText = noinitrdText ∧ ¬quietText = efiText := by
      decide
    simp [applyArg, efiValueOf, other]
  by_cases noinitrd : name = noinitrdText
  · subst noinitrd
    have other : ¬noinitrdText = nokaslrText ∧ ¬noinitrdText = quietText ∧
        ¬noinitrdText = efiText := by decide
    simp [applyArg, efiValueOf, other]
  by_cases efi : name = efiText
  · subst efi
    cases value <;> simp [applyArg, efiValueOf, efiValue, nokaslr, quiet, noinitrd]
  · simp [applyArg, efiValueOf, nokaslr, quiet, noinitrd, efi]

/-- What a list of options makes of the variables. -/
structure OptionsSet (flags : OptionFlags) (options : List (List UInt8 × Option (List UInt8)))
    (flags' : OptionFlags) : Prop where
  /-- The flag of `nokaslr` is set by that option. -/
  nokaslr : flags'.efiNokaslr = true ↔
    flags.efiNokaslr = true ∨ ∃ argument ∈ options, argument.1 = nokaslrText
  /-- The flag of `noinitrd` is set by that option. -/
  noinitrd : flags'.efiNoinitrd = true ↔
    flags.efiNoinitrd = true ∨ ∃ argument ∈ options, argument.1 = noinitrdText
  /-- The flag of `novamap` is set by a value that lists it. -/
  novamap : flags'.efiNovamap = true ↔
    flags.efiNovamap = true ∨ ∃ value ∈ efiValues options, novamapText ∈ value.splitOn 0x2c
  /-- The flag of `nochunk` is whether the last value lists it. -/
  nochunk : flags'.efiNochunk =
    ((efiValues options).getLast?.map fun value => lists value nochunkText).getD flags.efiNochunk
  /-- The last value that speaks of DMA decides on it. -/
  disable : flags'.efiDisablePciDma =
    (((efiValues options).filter speaksOfDma).getLast?.map fun value =>
      !lists value noDisableText).getD flags.efiDisablePciDma

/-- The last of some values decides. -/
theorem lastDecides_cons (decides : List UInt8 → Bool) (before : Bool) (value : List UInt8)
    (values : List (List UInt8)) : ((value :: values).getLast?.map decides).getD before =
      (values.getLast?.map decides).getD (decides value) := by
  rw [List.getLast?_cons, Option.map_some, Option.getD_some]
  cases values.getLast? with
  | none => rfl
  | some last => rfl

/-- The values of `efi=` are that of the first option, if it has one, and those behind it. -/
theorem efiValues_cons : efiValues (argument :: options) =
    (efiValueOf argument).elim (efiValues options) (· :: efiValues options) := by
  rw [efiValues, List.filterMap_cons]
  cases efiValueOf argument with
  | none => rfl
  | some value => rfl

/-- A value that does not speak of it leaves early bus mastering as it is. -/
theorem efiValue_disable : (efiValue flags value).efiDisablePciDma =
    if speaksOfDma value then !lists value noDisableText else flags.efiDisablePciDma := by
  unfold efiValue speaksOfDma
  cases lists value disableText <;> cases lists value noDisableText <;> rfl

/-- One more option in front of others. -/
theorem OptionsSet.cons (rest : OptionsSet (applyArg flags argument) options flags') :
    OptionsSet flags (argument :: options) flags' := by
  obtain ⟨nokaslr, noinitrd, novamap, nochunk, disable⟩ := rest
  rw [applyArg_eq] at nokaslr noinitrd novamap nochunk disable
  refine ⟨?_, ?_, ?_, ?_, ?_⟩
  · rw [nokaslr]
    simp [or_assoc]
  · rw [noinitrd]
    simp [or_assoc]
  · rw [novamap, efiValues_cons]
    cases efiValueOf argument with
    | none => rfl
    | some value => simp [efiValue, lists, or_assoc]
  · rw [nochunk, efiValues_cons]
    cases efiValueOf argument with
    | none => rfl
    | some value => exact (lastDecides_cons _ _ _ _).symm
  · rw [disable, efiValues_cons]
    cases efiValueOf argument with
    | none => rfl
    | some value =>
      simp only [Option.elim_some, efiValue_disable]
      by_cases speaks : speaksOfDma value = true
      · rw [List.filter_cons_of_pos speaks, lastDecides_cons, if_pos speaks]
      · rw [List.filter_cons_of_neg speaks, if_neg speaks]

/-- The options of a list are applied from its front. -/
theorem optionsSet_foldl (flags : OptionFlags)
    (options : List (List UInt8 × Option (List UInt8))) :
    OptionsSet flags options (options.foldl applyArg flags) := by
  induction options generalizing flags with
  | nil => exact ⟨by simp, by simp, by simp [efiValues], rfl, rfl⟩
  | cons argument options ih => exact (ih (applyArg flags argument)).cons

variable {m final : Memory} {cmdline : UInt64} {text : List UInt8} {events : List Event}

/-- The blocks a run is given are apart from some bytes. -/
def BlocksApart (events : List Event) (address : UInt64) (length : Nat) : Prop :=
  ∀ block ∈ events.filterMap givenBlock,
    Disjoint (window block.1 block.2.toNat) (window address length)

/-- A successful `efi_parse_options` sets the variables by the arguments in front of a bare `--` in
the first bytes of the command line, which it leaves as it is, and holds no block at its end. -/
theorem efiParseOptions_sets (given : cmdline ≠ 0) (held : HoldsString m cmdline text)
    (blocks : BlocksFit events) (apart : BlocksApart events cmdline (text.length + 1))
    (run : Exec (efiParseOptions m flags cmdline) events (some (efiSuccess, flags', final))) :
    flags' = (optionArgs (optionLine text)).foldl applyArg flags ∧
      OptionsSet flags (optionArgs (optionLine text)) flags' ∧
      HoldsString final cmdline text ∧ firmwareEffects.held ∅ events = ∅ := by
  obtain ⟨n, first, pool, parses⟩ := optionsRun_of_exec given run
  by_cases granted : pool.status = efiSuccess
  swap
  · obtain ⟨same, -⟩ := parses.refused granted
    rw [Option.some.injEq, Prod.mk.injEq] at same
    exact absurd same.1.symm granted
  obtain ⟨_, _, parsing, freed, same, parsed, rfl, points⟩ := parses.granted granted
  cases same
  have within := parses.within
  have limit : commandLineSize - 1 = 1023 := rfl
  have length : (UInt64.ofNat n + 1).toNat = n + 1 := by
    rw [UInt64.toNat_add, UInt64.toNat_ofNat', UInt64.toNat_one]
    omega
  have fits := blocks _ (mem_givenBlock first _ granted)
  have apart := apart _ (mem_givenBlock first _ granted)
  simp only [length] at fits apart
  have folds := parsed.folds text held apart fits.le
  refine ⟨folds, folds ▸ optionsSet_foldl _ _, ?_, ?_⟩
  · refine held.congr held.length_lt fun x inside => parsed.same x fun copied => ?_
    exact Set.disjoint_left.mp apart copied inside
  · rw [Effects.held_append, (quiet_points parses.points).held]
    exact held_block granted (quiet_points points) (Set.notMem_empty _)

/-- Firmware that gives a block. -/
def poolFirmware (_ : List Event) : (call : Call) → Option call.Reply
  | .allocatePool .. => some ⟨efiSuccess, 0x2000⟩
  | .freePool .. => some efiSuccess
  | .reach .. => some ()
  | _ => none

/-- An `efi=` option that lists one thing. -/
def novamapLine : List UInt8 := efiText ++ 0x3d :: novamapText

/-- The run over that line. -/
def novamapRun : Stub (EfiStatus × OptionFlags × Memory) :=
  efiParseOptions (bytesAt 0x1000 novamapLine) ⟨false, false, true, false, false, true⟩ 0x1000

/-- It sets one variable. -/
theorem efiParseOptions_sets_novamap : ∃ flags' final,
    novamapRun.valueWith poolFirmware = some (efiSuccess, flags', final) ∧
      flags'.efiNovamap = true ∧ flags'.efiNochunk = false ∧ flags'.efiDisablePciDma = true := by
  have held : HoldsString (bytesAt 0x1000 novamapLine) 0x1000 novamapLine :=
    holdsString_bytesAt (by decide) (by decide)
  have returns : (novamapRun.valueWith poolFirmware).map Prod.fst = some efiSuccess := by
    decide +kernel
  obtain ⟨⟨status, flags', final⟩, value, rfl⟩ := Option.map_eq_some_iff.mp returns
  have run : Exec novamapRun (novamapRun.eventsWith poolFirmware) _ :=
    exec_eventsWith (by rw [value]; rfl)
  have given : (novamapRun.eventsWith poolFirmware).filterMap givenBlock = [(0x2000, 12)] := by
    decide +kernel
  have apart : BlocksApart (novamapRun.eventsWith poolFirmware) 0x1000 (11 + 1) := by
    intro block member
    rw [given, List.mem_singleton] at member
    subst member
    have windows : Disjoint (window (0 + 0x2000) 12) (window (0 + 0x1000) 12) :=
      window_disjoint_of_offsets (by decide) (by decide) (by decide)
    rwa [UInt64.zero_add, UInt64.zero_add] at windows
  have sets := efiParseOptions_sets (by decide) held (by decide +kernel) apart (value ▸ run)
  have options : optionArgs (optionLine novamapLine) = [(efiText, some novamapText)] := by
    decide +kernel
  refine ⟨flags', final, value, ?_⟩
  rw [sets.1, options]
  decide

end DragonStub

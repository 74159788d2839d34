import DragonStub.Verif.Arguments
import DragonStub.Verif.CmdlineText
import DragonStub.Verif.Ownership
import DragonStub.Verif.ProgramBounds

/-!
# Parsing the options

The loop of `efi_parse_options` sets its variables by the arguments of a copy of the command line,
one after the other, up to a bare `--`. It ends for every command line.
-/

namespace DragonStub

open ByteMemory Interaction Prog Trace

/-- A list of options has an element. -/
def lists (value option : List UInt8) : Bool := decide (option ∈ value.splitOn 0x2c)

/-- What the value of an `efi=` option sets. -/
def efiValue (flags : OptionFlags) (value : List UInt8) : OptionFlags where
  efiNokaslr := flags.efiNokaslr
  efiNoinitrd := flags.efiNoinitrd
  efiNochunk := lists value nochunkText
  efiNovamap := flags.efiNovamap || lists value novamapText
  efiNosoftreserve := false
  efiDisablePciDma :=
    !lists value noDisableText && (lists value disableText || flags.efiDisablePciDma)

/-- What an argument sets. -/
def applyArg (flags : OptionFlags) : List UInt8 × Option (List UInt8) → OptionFlags
  | (name, value) =>
    if name = nokaslrText then { flags with efiNokaslr := true }
    else if name = quietText then flags
    else if name = noinitrdText then { flags with efiNoinitrd := true }
    else if name = efiText then value.elim flags (efiValue flags)
    else flags

/-- The arguments of a text in front of a bare `--`. -/
def optionArgs (text : List UInt8) : List (List UInt8 × Option (List UInt8)) :=
  (arguments text).takeWhile (· != (dashes, none))

/-- Two dashes end the options. -/
theorem optionArgs_stop {text : List UInt8} (nonempty : text ≠ [])
    (bare : firstArg text = (dashes, none)) : optionArgs text = [] := by
  rw [optionArgs, arguments_step nonempty, List.takeWhile_cons_of_neg (by simp [bare])]

/-- Any other argument is an option, and those behind it follow. -/
theorem optionArgs_step {text : List UInt8} (nonempty : text ≠ [])
    (other : firstArg text ≠ (dashes, none)) :
    optionArgs text = firstArg text :: optionArgs (behindArg text) := by
  rw [optionArgs, arguments_step nonempty, List.takeWhile_cons_of_pos (by simpa using other),
    optionArgs]

variable {α : Type} {m : Memory} {region : Set UInt64} {str param val : UInt64} {turns k : Nat}
  {text part name option value : List UInt8} {seen : Option (List UInt8)} {arg : Arg}
  {flags : OptionFlags} {result : α}

/-- A comparison is followed by what its answer chooses. -/
theorem yields_strcmp {next : Int → Stub α} (string : StringIn m region str text)
    (noNul : 0 ∉ option) (enough : text.length < turns)
    (same : text = option → Yields (Call.accesses region) (next 0) result)
    (other : text ≠ option → ∀ order ≠ 0, Yields (Call.accesses region) (next order) result) :
    Yields (Call.accesses region) (strcmp m turns str option >>= next) result := by
  obtain ⟨order, compares, equal⟩ := strcmp_yields string noNul enough
  apply compares.bind
  by_cases zero : order = 0
  · rw [zero]
    exact same (equal.mp zero)
  · exact other (fun holds => zero (equal.mpr holds)) order zero

/-- A look into a list of options is followed by what its answer chooses. -/
theorem yields_parseOptionStr {next : Bool → Stub α} (string : StringIn m region str value)
    (nonempty : option ≠ []) (noComma : 0x2c ∉ option) (noNul : 0 ∉ option)
    (enough : value.length < turns)
    (rest : Yields (Call.accesses region) (next (lists value option)) result) :
    Yields (Call.accesses region) (parseOptionStr m option turns str >>= next) result := by
  obtain ⟨found, looks, member⟩ := parseOptionStr_yields string nonempty noComma noNul enough
  apply looks.bind
  have answer : found = lists value option := by
    rw [Bool.eq_iff_iff, member, lists, decide_eq_true_iff]
  rwa [answer]

/-- Parsing the value of `efi=` sets its flags. -/
theorem parseEfiValue_yields (string : StringIn m region val value)
    (enough : value.length < turns) :
    Yields (Call.accesses region) (parseEfiValue m turns val flags) (efiValue flags value) := by
  unfold parseEfiValue
  apply yields_parseOptionStr string (by decide) (by decide) (by decide) enough
  apply yields_parseOptionStr string (by decide) (by decide) (by decide) enough
  apply yields_parseOptionStr string (by decide) (by decide) (by decide) enough
  apply yields_parseOptionStr string (by decide) (by decide) (by decide) enough
  apply yields_parseOptionStr string (by decide) (by decide) (by decide) enough
  cases disable : lists value disableText <;> cases noDisable : lists value noDisableText <;>
    simp [efiValue, disable, noDisable, yields_ret]

/-- A name and a value, if one is seen, are strings that can be compared. -/
structure AtHand (m : Memory) (region : Set UInt64) (param val : UInt64) (name : List UInt8)
    (seen : Option (List UInt8)) (turns : Nat) : Prop where
  /-- The name is a string in the region. -/
  nameIn : StringIn m region param name
  /-- There are turns enough to read it. -/
  nameShort : name.length < turns
  /-- Without a value the pointer is null. -/
  unseen : seen = none ↔ val = 0
  /-- A value is a string in the region, and there are turns enough to read it. -/
  valueIn : ∀ value ∈ seen, StringIn m region val value ∧ value.length < turns

/-- An option sets what its argument sets. -/
theorem parseOption_yields (atHand : AtHand m region param val name seen turns) :
    Yields (Call.accesses region) (parseOption m turns param val flags)
      (applyArg flags (name, seen)) := by
  have compare {option : List UInt8} {next : Int → Stub OptionFlags} (noNul : 0 ∉ option)
      (same : name = option → Yields (Call.accesses region) (next 0) (applyArg flags (name, seen)))
      (other : name ≠ option → ∀ order ≠ 0,
        Yields (Call.accesses region) (next order) (applyArg flags (name, seen))) :
      Yields (Call.accesses region) (strcmp m turns param option >>= next)
        (applyArg flags (name, seen)) :=
    yields_strcmp atHand.nameIn noNul atHand.nameShort same other
  unfold parseOption
  refine compare (by decide) (fun nokaslr => ?_) fun notNokaslr order unequal => ?_
  · rw [if_pos (by decide), nokaslr]
    exact yields_ret
  rw [if_neg (by simpa using unequal)]
  refine compare (by decide) (fun quiet => ?_) fun notQuiet order unequal => ?_
  · rw [if_pos (by decide), quiet]
    exact yields_ret
  rw [if_neg (by simpa using unequal)]
  refine compare (by decide) (fun noinitrd => ?_) fun notNoinitrd order unequal => ?_
  · rw [if_pos (by decide), noinitrd]
    exact yields_ret
  rw [if_neg (by simpa using unequal)]
  have video (notEfi : name ≠ efiText ∨ val = 0) :
      Yields (Call.accesses region) (strcmp m turns param videoText >>= fun order =>
        if order == 0 && val != 0 then strstarts m val efifbText >>= fun _ => return flags
        else return flags) (applyArg flags (name, seen)) := by
    have unchanged : applyArg flags (name, seen) = flags := by
      simp only [applyArg, if_neg notNokaslr, if_neg notQuiet, if_neg notNoinitrd]
      rcases notEfi with notEfi | null
      · rw [if_neg notEfi]
      · rw [atHand.unseen.mpr null, Option.elim_none, ite_self]
    rw [unchanged] at compare ⊢
    have looks (order : Int) : Yields (Call.accesses region)
        (if order == 0 && val != 0 then strstarts m val efifbText >>= fun _ => return flags
          else return flags) flags := by
      by_cases given : (order == 0 && val != 0) = true
      · rw [if_pos given]
        rw [Bool.and_eq_true, bne_iff_ne] at given
        cases held : seen with
        | none => exact absurd (atHand.unseen.mp held) given.2
        | some value =>
          obtain ⟨string, -⟩ := atHand.valueIn value held
          obtain ⟨order, compares, -⟩ := strncmp_yields string (show 0 ∉ efifbText by decide)
          have starts : Yields (Call.accesses region) (strstarts m val efifbText) (order == 0) :=
            compares.bind yields_ret
          exact starts.bind yields_ret
      · rw [if_neg given]
        exact yields_ret
    exact compare (by decide) (fun _ => looks 0) fun _ order _ => looks order
  refine compare (by decide) (fun efi => ?_) fun notEfi order unequal => ?_
  · by_cases null : val = 0
    · rw [if_neg (by simp [null])]
      exact video (.inr null)
    · cases held : seen with
      | none => exact absurd (atHand.unseen.mp held) null
      | some value =>
        obtain ⟨string, short⟩ := atHand.valueIn value held
        rw [if_pos (by simp [null]), efi]
        exact parseEfiValue_yields string short
  · rw [if_neg (by simp [unequal])]
    exact video (.inl notEfi)

/-- A bare `--` is told from other arguments. -/
theorem isDashes_yields (atHand : AtHand m region param val name seen turns) :
    Yields (Call.accesses region) (isDashes m turns param val)
      (decide ((name, seen) = (dashes, none))) := by
  unfold isDashes
  by_cases null : val = 0
  · have unseen := atHand.unseen.mpr null
    rw [if_pos (by simpa using null), unseen]
    refine yields_strcmp atHand.nameIn (by decide) atHand.nameShort (fun same => ?_)
      fun other order unequal => ?_
    · rw [decide_eq_true (by rw [same])]
      exact yields_ret
    · rw [decide_eq_false (by simpa using other), beq_eq_false_iff_ne.mpr unequal]
      exact yields_ret
  · rw [if_neg (by simpa using null), decide_eq_false]
    · exact yields_ret
    · intro bare
      rw [Prod.mk.injEq] at bare
      exact null (atHand.unseen.mp bare.2)

/-- The value that is seen of an argument: none when its pointer is null. -/
def seenValue (text : List UInt8) (arg : Arg) : Option (List UInt8) :=
  if arg.val = 0 then none else (firstArg text).2

/-- The bytes that an argument of a text may end in: those it takes, and the NUL of the text. -/
def argRegion (str : UInt64) (text : List UInt8) : Set UInt64 :=
  window str (taken text) ∪ {str + UInt64.ofNat text.length}

/-- An argument lies in the window of the string. -/
theorem argRegion_subset (short : text.length < 2 ^ 64) :
    argRegion str text ⊆ window str (text.length + 1) := by
  rintro x (inside | rfl)
  · have fewer : taken text ≤ text.length := Nat.sub_le _ _
    exact window_mono (by omega) inside
  · rw [mem_window, sub_add_self, UInt64.toNat_ofNat', Nat.mod_eq_of_lt short]
    exact Nat.lt_succ_self _

/-- A string that was taken ends in what its argument takes, or with the text. -/
theorem PartOf.inside (partOf : PartOf m str text k part) (nonempty : text ≠ [])
    (short : text.length < 2 ^ 64) :
    window (str + UInt64.ofNat k) (part.length + 1) ⊆ argRegion str text := by
  have within := partOf.within nonempty
  have offset : (UInt64.ofNat k).toNat = k := by
    rw [UInt64.toNat_ofNat', Nat.mod_eq_of_lt (by omega)]
  have fewer : taken text ≤ text.length := Nat.sub_le _ _
  rcases partOf.ends with before | ⟨last, none⟩
  · exact (window_subset_of_le (by omega) (by omega)).trans Set.subset_union_left
  · have all : taken text = text.length := by
      rw [taken, none, List.length_nil, Nat.sub_zero]
    intro x inside
    have place : x ∈ window str (text.length + 1) :=
      window_subset_of_le (by omega) (by omega) inside
    rw [mem_window, Nat.lt_succ_iff_lt_or_eq] at place
    rcases place with early | atEnd
    · left
      rwa [mem_window, all]
    · right
      have distance : x - str = UInt64.ofNat text.length := by
        rw [← atEnd, UInt64.ofNat_toNat]
      rwa [UInt64.sub_eq_iff_eq_add, UInt64.add_comm] at distance

/-- An argument that was taken is at hand, within the bytes it may end in. -/
theorem Takes.atHand (takes : Takes m region str text arg) (nonempty : text ≠ [])
    (short : text.length < 2 ^ 64) (enough : text.length < turns) :
    AtHand arg.memory (argRegion str text) arg.param arg.val (firstArg text).1
      (seenValue text arg) turns := by
  obtain ⟨k, param, name⟩ := takes.name
  have value := takes.value
  have within := name.within nonempty
  refine ⟨⟨param ▸ name.held, param ▸ name.inside nonempty short⟩, by omega, ?_, ?_⟩
  · unfold seenValue
    by_cases null : arg.val = 0
    · simp [null]
    · rw [if_neg null]
      constructor
      · intro none
        rw [none] at value
        exact value
      · intro zero
        exact absurd zero null
  · intro bytes seen
    unfold seenValue at seen
    split at seen
    · cases seen
    · rw [Option.mem_def.mp seen] at value
      obtain ⟨place, -, val, partOf⟩ := value
      have fits := partOf.within nonempty
      exact ⟨⟨val ▸ partOf.held, val ▸ partOf.inside nonempty short⟩, by omega⟩

/-- What is at hand in a region is at hand in a wider one. -/
theorem AtHand.mono {wider : Set UInt64}
    (atHand : AtHand m region param val name seen turns) (wide : region ⊆ wider) :
    AtHand m wider param val name seen turns where
  nameIn := ⟨atHand.nameIn.held, atHand.nameIn.inside.trans wide⟩
  nameShort := atHand.nameShort
  unseen := atHand.unseen
  valueIn := by
    intro value given
    obtain ⟨string, short⟩ := atHand.valueIn value given
    exact ⟨⟨string.held, string.inside.trans wide⟩, short⟩

/-- The value of an argument is seen when the text lies within the address space. -/
theorem Takes.seenValue_eq (takes : Takes m region str text arg) (nonempty : text ≠ [])
    (object : str.toNat + text.length < 2 ^ 64) : seenValue text arg = (firstArg text).2 := by
  have shown := (takes.shows nonempty object fun _ _ => rfl).2
  unfold seenValue
  by_cases null : arg.val = 0
  · rw [if_pos null]
    cases has : (firstArg text).2 with
    | none => rfl
    | some value =>
      rw [has] at shown
      exact absurd null shown.1
  · rw [if_neg null]

/-- The loop ends for every string, and sets the variables by its arguments. -/
theorem parseLoop_yields (flags : OptionFlags) (string : StringIn m region str text)
    (short : text.length < 2 ^ 32) (enough : text.length < turns) : ∃ flags' final,
    Yields (Call.accesses region) (parseLoop m turns str flags) (flags', final) ∧
      (str.toNat + text.length < 2 ^ 64 → flags' = (optionArgs text).foldl applyArg flags) ∧
      ∀ x ∉ window str text.length, final x = m x := by
  induction turns generalizing m str text flags with
  | zero => omega
  | succ turns ih =>
    by_cases nonempty : text = []
    · subst nonempty
      refine ⟨flags, m, ?_, fun _ => ?_, fun _ _ => rfl⟩
      · rw [parseLoop]
        apply yields_read string.mem
        rw [string.nul, if_pos (by decide)]
        exact yields_ret
      · rw [optionArgs, arguments_nil, List.takeWhile_nil, List.foldl_nil]
    have fewer := behindArg_length nonempty
    obtain ⟨yields, takes⟩ := nextArg_yields string nonempty short enough
    have atHand := (takes.atHand nonempty (by omega) enough).mono
      ((argRegion_subset (by omega)).trans string.inside)
    have kept := takes.outside (takenArg m str text).memory nonempty (by omega)
      fun _ _ => rfl
    have turn {after : OptionFlags × Memory} (rest : Yields (Call.accesses region)
        (if decide (((firstArg text).1, seenValue text (takenArg m str text)) = (dashes, none)) then
          return (flags, (takenArg m str text).memory)
        else
          parseOption (takenArg m str text).memory (turns + 1) (takenArg m str text).param
              (takenArg m str text).val flags >>= fun flags =>
            parseLoop (takenArg m str text).memory turns (takenArg m str text).next flags)
        after) : Yields (Call.accesses region) (parseLoop m (turns + 1) str flags) after := by
      rw [parseLoop]
      apply yields_read string.mem
      rw [if_neg (by simpa using string.ne_nul nonempty)]
      exact yields.bind ((isDashes_yields atHand).bind rest)
    by_cases bare : ((firstArg text).1, seenValue text (takenArg m str text)) = (dashes, none)
    · refine ⟨flags, (takenArg m str text).memory, turn ?_, fun object => ?_, kept⟩
      · rw [decide_eq_true bare, if_pos rfl]
        exact yields_ret
      · rw [takes.seenValue_eq nonempty object] at bare
        have stops : firstArg text = (dashes, none) := bare
        rw [optionArgs_stop nonempty stops, List.foldl_nil]
    · obtain ⟨flags', final, loops, folds, same⟩ :=
        ih (applyArg flags ((firstArg text).1, seenValue text (takenArg m str text)))
          takes.rest (by omega) (show (behindArg text).length < turns by omega)
      refine ⟨flags', final, turn ?_, fun object => ?_, takes.outside final nonempty (by omega) same⟩
      · rw [decide_eq_false bare, if_neg (by decide)]
        exact (parseOption_yields atHand).bind loops
      · rw [takes.seenValue_eq nonempty object] at bare folds
        rw [folds (takes.next_object nonempty object), optionArgs_step nonempty bare,
          List.foldl_cons]

variable {cmdline buf : UInt64} {n : Nat} {events : List Event}

/-- `strnlen` always ends, and gives the length of a string up to its bound. -/
theorem strnlenLoop_yields (m : Memory) (es : UInt64) (maxlen : Nat) : ∃ n ≤ maxlen,
    Yields (Call.accesses Set.univ) (strnlenLoop m es maxlen) (es + UInt64.ofNat n) ∧
      ∀ text, HoldsString m es text → n = min text.length maxlen := by
  induction maxlen generalizing es with
  | zero =>
    have start : es + UInt64.ofNat 0 = es := UInt64.add_zero es
    refine ⟨0, le_rfl, ?_, fun text _ => (Nat.min_zero _).symm⟩
    rw [strnlenLoop, start]
    exact yields_read (Set.mem_univ _) yields_ret
  | succ maxlen ih =>
    by_cases nul : m es = 0
    · have start : es + UInt64.ofNat 0 = es := UInt64.add_zero es
      refine ⟨0, Nat.zero_le _, ?_, fun text held => ?_⟩
      · rw [strnlenLoop, start]
        apply yields_read (Set.mem_univ _)
        rw [nul, if_neg (by decide)]
        exact yields_ret
      · rw [held.eq (holdsString_nil.mpr nul), List.length_nil, Nat.zero_min]
    · obtain ⟨n, within, yields, counts⟩ := ih (es + 1)
      refine ⟨n + 1, Nat.succ_le_succ within, ?_, fun text held => ?_⟩
      · rw [strnlenLoop, add_succ]
        apply yields_read (Set.mem_univ _)
        rw [if_pos (by simpa using nul)]
        exact yields
      · cases text with
        | nil => exact absurd (holdsString_nil.mp held) nul
        | cons c rest =>
          rw [counts rest (holdsString_cons.mp held).2.2, List.length_cons]
          omega

/-- The bounded length reads up to the bound or the end of the string. -/
theorem strnlen_yields (m : Memory) (s : UInt64) (maxlen : Nat) : ∃ n ≤ maxlen,
    Yields (Call.accesses Set.univ) (strnlen m s maxlen) (UInt64.ofNat n) ∧
      ∀ text, HoldsString m s text → n = min text.length maxlen := by
  obtain ⟨n, within, yields, counts⟩ := strnlenLoop_yields m s maxlen
  refine ⟨n, within, yields.bind ?_, counts⟩
  rw [sub_add_self]
  exact yields_ret

/-- Memory once the first bytes of the command line are copied, with a NUL behind them. -/
def copyLine (m : Memory) (buf cmdline : UInt64) (n : Nat) : Memory :=
  store (memcpy m buf cmdline n) (buf + UInt64.ofNat n) 0

/-- The copy is a string. -/
theorem copyLine_string (m : Memory) (buf cmdline : UInt64) (n : Nat) :
    ∃ text, HoldsString (copyLine m buf cmdline n) buf text ∧ text.length ≤ n :=
  exists_holdsString (store_same _ _ _)

/-- Copying the line leaves what lies outside the copy. -/
theorem copyLine_outside {x : UInt64} (small : n < 2 ^ 64) (outside : x ∉ window buf (n + 1)) :
    copyLine m buf cmdline n x = m x := by
  have last : x ≠ buf + UInt64.ofNat n := by
    rintro rfl
    apply outside
    rw [mem_window, sub_add_self, UInt64.toNat_ofNat', Nat.mod_eq_of_lt small]
    exact Nat.lt_succ_self n
  rw [copyLine, store_other _ _ last]
  exact memcpy_outside small.le fun inside => outside (window_mono (Nat.le_succ n) inside)

/-- Away from the command line, the copy has its first bytes. -/
theorem copyLine_held (held : HoldsString m cmdline text) (within : n ≤ text.length)
    (apart : Disjoint (window buf (n + 1)) (window cmdline (text.length + 1))) :
    HoldsString (copyLine m buf cmdline n) buf (text.take n) := by
  have short := held.length_lt
  have length : (text.take n).length = n := by
    rw [List.length_take]
    omega
  refine ⟨fun index inside => ?_, fun member => held.noNul (List.mem_of_mem_take member), ?_⟩
  · rw [length] at inside
    have other : buf + UInt64.ofNat index ≠ buf + UInt64.ofNat n := by
      rw [ne_eq, offset_inj (by omega) (by omega)]
      omega
    have place : buf + UInt64.ofNat index ∈ window buf n := by
      rw [mem_window, sub_add_self, UInt64.toNat_ofNat', Nat.mod_eq_of_lt (by omega)]
      exact inside
    have within : Disjoint (window buf n) (window cmdline n) :=
      apart.mono (window_mono (by omega)) (window_mono (by omega))
    rw [copyLine, store_other _ _ other, memcpy_inside (by omega) within place, sub_add_self,
      held.bytes _ (by omega), List.getElem_take]
  · rw [length]
    exact store_same _ _ _

/-- The part of a command line that is parsed. -/
def optionLine (text : List UInt8) : List UInt8 :=
  (text.take (commandLineSize - 1)).dropWhile isspace

/-- What is known of the parsed copy: only its block is changed, and away from the command line the
variables are set by the arguments of the line. -/
structure Parsed (m : Memory) (flags : OptionFlags) (cmdline buf : UInt64) (n : Nat)
    (flags' : OptionFlags) (final : Memory) : Prop where
  /-- No byte outside the copy changes. -/
  same : ∀ x ∉ window buf (n + 1), final x = m x
  /-- The flags are set by the options of the line, one after the other. -/
  folds : ∀ text, HoldsString m cmdline text →
    Disjoint (window buf (n + 1)) (window cmdline (text.length + 1)) →
      buf.toNat + (n + 1) ≤ 2 ^ 64 → flags' = (optionArgs (optionLine text)).foldl applyArg flags

/-- The copy is parsed, whatever is in it. -/
theorem parseCopy_yields (flags : OptionFlags) (buf : UInt64) (within : n ≤ commandLineSize - 1)
    (counts : ∀ text, HoldsString m cmdline text → n = min text.length (commandLineSize - 1)) :
    ∃ flags' final, Yields (Call.accesses Set.univ)
      (parseCopy m flags cmdline buf (UInt64.ofNat n + 1)) (flags', final) ∧
        Parsed m flags cmdline buf n flags' final := by
  have limit : commandLineSize - 1 = 1023 := rfl
  have length : (UInt64.ofNat n).toNat = n := by
    rw [UInt64.toNat_ofNat']
    omega
  obtain ⟨text, held, short⟩ := copyLine_string m buf cmdline n
  have string : StringIn (copyLine m buf cmdline n) Set.univ buf text := ⟨held, Set.subset_univ _⟩
  have parts : text.takeWhile isspace ++ text.dropWhile isspace = text :=
    List.takeWhile_append_dropWhile
  have lengths := congrArg List.length parts
  rw [List.length_append] at lengths
  have split : StringIn (copyLine m buf cmdline n) Set.univ buf
      (text.takeWhile isspace ++ text.dropWhile isspace) := parts.symm ▸ string
  have skips := skipSpaces_yields string (show text.length < commandLineSize by omega)
  obtain ⟨flags', final, loops, folds, same⟩ := parseLoop_yields flags split.append
    (by omega) (show (text.dropWhile isspace).length < commandLineSize by omega)
  refine ⟨flags', final, ?_, ?_, ?_⟩
  · unfold parseCopy
    rw [UInt64.add_sub_cancel, length]
    refine yields_call ⟨()⟩ (Set.subset_univ _) fun _ =>
      yields_call ⟨()⟩ (Set.subset_univ _) fun _ => yields_write (Set.mem_univ _) ?_
    exact skips.bind loops
  · intro x outside
    have offset : (UInt64.ofNat (text.takeWhile isspace).length).toNat =
        (text.takeWhile isspace).length := by
      rw [UInt64.toNat_ofNat']
      omega
    have inside : window (buf + UInt64.ofNat (text.takeWhile isspace).length)
        (text.dropWhile isspace).length ⊆ window buf (n + 1) :=
      window_subset_of_le (by omega) (by omega)
    calc final x = copyLine m buf cmdline n x := same x fun held => outside (inside held)
      _ = m x := copyLine_outside (by omega) outside
  · intro line lineHeld apart object
    have counted := counts line lineHeld
    have kept : line.take n = line.take (commandLineSize - 1) := by
      rw [counted, List.take_eq_take_iff]
      omega
    have whole : text = line.take (commandLineSize - 1) := by
      rw [← kept]
      exact held.eq (copyLine_held lineHeld (by omega) apart)
    rw [optionLine, ← whole]
    apply folds
    rw [UInt64.toNat_add, UInt64.toNat_ofNat']
    omega

/-- The runs of `efi_parse_options` on a command line. -/
structure OptionsRun (m : Memory) (flags : OptionFlags) (cmdline : UInt64) (events : List Event)
    (outcome : Option (EfiStatus × OptionFlags × Memory)) (n : Nat) (first : List Event)
    (pool : WordReply) : Prop where
  /-- The line is no longer than the limit. -/
  within : n ≤ commandLineSize - 1
  /-- Its length is that of the string, up to the limit. -/
  counts : ∀ text, HoldsString m cmdline text → n = min text.length (commandLineSize - 1)
  /-- Nothing is asked of the firmware before the block. -/
  points : ∀ event ∈ first, event.op.isPoint = true
  /-- Without the block nothing is parsed. -/
  refused : pool.status ≠ efiSuccess → outcome = some (pool.status, flags, m) ∧
    events = first ++ [⟨.allocatePool efiLoaderData (UInt64.ofNat n + 1), pool⟩]
  /-- With the block the copy is parsed, and the block is freed. -/
  granted : pool.status = efiSuccess → ∃ flags' final parsing freed,
    outcome = some (efiSuccess, flags', final) ∧ Parsed m flags cmdline pool.value n flags' final ∧
      events = first ++ ⟨.allocatePool efiLoaderData (UInt64.ofNat n + 1), pool⟩ ::
        (parsing ++ [⟨.freePool pool.value, freed⟩]) ∧
      ∀ event ∈ parsing, event.op.isPoint = true

/-- An access of memory is a mark of the stub itself. -/
theorem Call.isPoint_of_accesses {call : Call} (accesses : call.accesses region) :
    call.isPoint = true := by
  cases call with
  | reach => rfl
  | _ => exact accesses.elim

/-- `efi_parse_options` always returns. -/
theorem optionsRun_of_exec {outcome : Option (EfiStatus × OptionFlags × Memory)}
    (given : cmdline ≠ 0) (run : Exec (efiParseOptions m flags cmdline) events outcome) :
    ∃ n first pool, OptionsRun m flags cmdline events outcome n first pool := by
  unfold efiParseOptions at run
  rw [if_neg (by simpa using given)] at run
  obtain ⟨n, within, measures, counts⟩ := strnlen_yields m cmdline (commandLineSize - 1)
  rcases exec_bind.mp run with ⟨count, first, rest, rfl, measured, asks⟩ | ⟨-, waits⟩
  swap
  · cases (measures _ _ waits).1
  obtain ⟨same, looks⟩ := measures _ _ measured
  cases same
  simp only [perform_bind, exec_call] at asks
  obtain ⟨pool, later, rfl, goesOn⟩ := asks
  refine ⟨n, first, pool, within, counts,
    fun event member => Call.isPoint_of_accesses (looks event member), fun refused => ?_,
    fun granted => ?_⟩
  · rw [if_pos (by simpa using refused)] at goesOn
    obtain ⟨rfl, rfl⟩ := exec_ret.mp goesOn
    exact ⟨rfl, rfl⟩
  · rw [if_neg (by simpa using granted)] at goesOn
    obtain ⟨flags', final, parses, parsed⟩ := parseCopy_yields flags pool.value within counts
    rcases exec_bind.mp goesOn with ⟨_, parsing, last, rfl, copied, frees⟩ | ⟨-, waits⟩
    swap
    · cases (parses _ _ waits).1
    obtain ⟨same, touches⟩ := parses _ _ copied
    cases same
    obtain ⟨freed, rest, rfl, returns⟩ := exec_call.mp frees
    obtain ⟨rfl, rfl⟩ := exec_ret.mp returns
    exact ⟨flags', final, parsing, freed, rfl, parsed, rfl,
      fun event member => Call.isPoint_of_accesses (touches event member)⟩

/-- `efi_parse_options` returns for every command line. -/
theorem efiParseOptions_returns {outcome : Option (EfiStatus × OptionFlags × Memory)}
    (run : Exec (efiParseOptions m flags cmdline) events outcome) :
    ∃ status flags' final, outcome = some (status, flags', final) := by
  by_cases null : cmdline = 0
  · rw [efiParseOptions, if_pos (by simpa using null)] at run
    obtain ⟨-, rfl⟩ := exec_ret.mp run
    exact ⟨_, _, _, rfl⟩
  · obtain ⟨n, first, pool, parses⟩ := optionsRun_of_exec null run
    by_cases granted : pool.status = efiSuccess
    · obtain ⟨flags', final, parsing, freed, returned, -⟩ := parses.granted granted
      exact ⟨_, _, _, returned⟩
    · exact ⟨_, _, _, (parses.refused granted).1⟩

/-- A program reads and writes only bytes of a region. -/
def SeesOnly (region : Set UInt64) (p : Stub α) : Prop :=
  ∀ events outcome, Exec p events outcome → ∀ event ∈ events, event.op.accesses region

/-- A place in a text holds a string that ends before the `k`th byte, or with the text when that is
all of it. -/
def EndsBefore (m : Memory) (args : UInt64) (text : List UInt8) (k : Nat) (place : UInt64) : Prop :=
  ∃ i part, place = args + UInt64.ofNat i ∧ HoldsString m place part ∧
    (i + part.length < k ∨ i + part.length = text.length ∧ k = text.length)

/-- An argument that takes the first `k` bytes of a text, and no others. -/
structure ArgWithin (m : Memory) (args : UInt64) (text : List UInt8) (k : Nat) (arg : Arg) :
    Prop where
  /-- Something is taken. -/
  positive : 0 < k
  /-- What is taken lies in the text. -/
  within : k ≤ text.length
  /-- The next argument is looked for behind it. -/
  next : arg.next = args + UInt64.ofNat k
  /-- There the text ends, or a byte stands that is not blank. -/
  stops : arg.memory arg.next = 0 ∨ isspace (arg.memory arg.next) = false
  /-- The name ends in what is taken. -/
  param : EndsBefore arg.memory args text k arg.param
  /-- So does the value, if there is one. -/
  val : arg.val = 0 ∨ EndsBefore arg.memory args text k arg.val
  /-- The rest of the text is there. -/
  rest : HoldsString arg.memory arg.next (text.drop k)
  /-- No byte behind what is taken changes. -/
  same : ∀ x ∉ window args k, arg.memory x = m x

/-- A part of an argument starts before the argument ends. -/
theorem PartOf.endsBefore (partOf : PartOf m str text k part) :
    EndsBefore m str text (taken text) (str + UInt64.ofNat k) := by
  refine ⟨k, part, rfl, partOf.held, partOf.ends.imp_right ?_⟩
  rintro ⟨last, none⟩
  exact ⟨last, by rw [taken, none, List.length_nil, Nat.sub_zero]⟩

/-- What is left of a text is its end. -/
theorem behindArg_eq_drop : behindArg text = text.drop (taken text) := by
  have body : bodyOf text <:+ text := by
    unfold bodyOf
    split
    · exact List.tail_suffix text
    · exact List.suffix_rfl
  have suffix : behindArg text <:+ text :=
    ((List.dropWhile_suffix _).trans (List.drop_suffix _ _)).trans body
  exact List.suffix_iff_eq_drop.mp suffix

/-- A taken argument lies in what it takes of the string. -/
theorem Takes.argWithin (takes : Takes m region str text arg) (nonempty : text ≠ []) :
    ArgWithin m str text (taken text) arg where
  positive := by
    have fewer := behindArg_length nonempty
    unfold taken
    omega
  within := Nat.sub_le _ _
  next := takes.next
  stops := by
    have behind := takes.rest
    cases left : behindArg text with
    | nil =>
      rw [left] at behind
      exact .inl behind.nul
    | cons c later =>
      have stops : isspace c = false := by
        have head := List.head?_dropWhile_not isspace
          ((bodyOf text).drop ((tokenOf (isQuoted text) (bodyOf text)).length + 1))
        rw [← behindArg, left] at head
        exact head
      rw [left] at behind
      rw [behind.first]
      exact .inr stops
  param := by
    obtain ⟨k, param, name⟩ := takes.name
    rw [param]
    exact name.endsBefore
  val := by
    have value := takes.value
    cases has : (firstArg text).2 with
    | none =>
      rw [has] at value
      exact .inl value
    | some bytes =>
      rw [has] at value
      obtain ⟨place, -, val, partOf⟩ := value
      rw [val]
      exact .inr partOf.endsBefore
  rest := behindArg_eq_drop ▸ takes.rest.held
  same := takes.same

/-- `next_arg` reads and writes only the text and its NUL, and gives an argument whose name and
value end before the rest of the text, so that its handling sees no byte of a later argument; and
`efi_parse_options` returns for every command line. -/
theorem nextArg_within :
    (∀ {m : Memory} {args : UInt64} {text : List UInt8} {turns : Nat} {events : List Event}
      {outcome : Option Arg}, HoldsString m args text → text ≠ [] → text.length < 2 ^ 32 →
      text.length < turns → Exec (nextArg m turns args) events outcome →
        (∀ event ∈ events, event.op.accesses (window args (text.length + 1))) ∧
        ∃ arg k, outcome = some arg ∧ ArgWithin m args text k arg ∧
          SeesOnly (window args k ∪ {args + UInt64.ofNat text.length})
            (isDashes arg.memory turns arg.param arg.val) ∧
          ∀ flags, SeesOnly (window args k ∪ {args + UInt64.ofNat text.length})
            (parseOption arg.memory turns arg.param arg.val flags)) ∧
    ∀ {m : Memory} {flags : OptionFlags} {cmdline : UInt64} {events : List Event}
      {outcome : Option (EfiStatus × OptionFlags × Memory)},
      Exec (efiParseOptions m flags cmdline) events outcome → outcome.isSome := by
  constructor
  · intro m args text turns events outcome held nonempty short enough run
    obtain ⟨yields, takes⟩ := nextArg_yields held.stringIn nonempty short enough
    obtain ⟨returned, accesses⟩ := yields _ _ run
    have atHand := takes.atHand nonempty (by omega) enough
    refine ⟨accesses, takenArg m args text, taken text, returned, takes.argWithin nonempty, ?_, ?_⟩
    · exact fun events outcome asks => (isDashes_yields atHand events outcome asks).2
    · exact fun flags events outcome handles => (parseOption_yields atHand events outcome handles).2
  · intro m flags cmdline events outcome run
    obtain ⟨status, flags', final, rfl⟩ := efiParseOptions_returns run
    rfl

/-- A lone quote is an argument, with nothing in its name. -/
theorem nextArg_within_quote : ∃ arg k,
    (nextArg (bytesAt 0x1000 [doubleQuote]) 2 0x1000).valueWith toldFirmware = some arg ∧
      ArgWithin (bytesAt 0x1000 [doubleQuote]) 0x1000 [doubleQuote] k arg := by
  have held : HoldsString (bytesAt 0x1000 [doubleQuote]) 0x1000 [doubleQuote] :=
    holdsString_bytesAt (by decide) (by decide)
  have run : Exec (nextArg (bytesAt 0x1000 [doubleQuote]) 2 0x1000)
      ((nextArg (bytesAt 0x1000 [doubleQuote]) 2 0x1000).eventsWith toldFirmware) _ :=
    exec_eventsWith (by decide +kernel)
  obtain ⟨-, arg, k, returned, within, -⟩ := nextArg_within.1 held (by decide) (by decide)
    (by decide) run
  exact ⟨arg, k, returned, within⟩

end DragonStub

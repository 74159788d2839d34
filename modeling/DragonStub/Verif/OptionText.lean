import DragonStub.Base.CString
import DragonStub.Boot.Options
import DragonStub.Verif.HeaderRuns
import Mathlib.Data.List.TakeWhile

/-!
# Strings of options

What the string functions of the parser return of a string in memory, given as the list of its
bytes, and that they read nothing but the string and its NUL.
-/

namespace DragonStub

open ByteMemory Interaction Prog

/-- A byte of a region is read or written. -/
def Call.accesses (region : Set UInt64) : Call → Prop
  | .reach (.read address length) => window address length ⊆ region
  | .reach (.write address length) => window address length ⊆ region
  | _ => False

variable {α : Type} {m : Memory} {region : Set UInt64} {address str : UInt64} {turns : Nat}
  {text front rest option : List UInt8} {result : α}

/-- A region that holds an address holds its byte. -/
theorem window_one_subset (inside : address ∈ region) : window address 1 ⊆ region := by
  intro x same
  have equal : x = address := by
    rw [mem_window, Nat.lt_one_iff] at same
    have zero : x - address = 0 := UInt64.toNat_inj.mp same
    rwa [UInt64.sub_eq_iff_eq_add, UInt64.zero_add] at zero
  rwa [equal]

/-- A byte of the region can be read first. -/
theorem yields_read {next : UInt8 → Stub α} (inside : address ∈ region)
    (rest : Yields (Call.accesses region) (next (m address)) result) :
    Yields (Call.accesses region) (readByte m address >>= next) result := by
  unfold readByte reading
  exact yields_call ⟨()⟩ (window_one_subset inside) fun _ => rest

/-- A byte of the region can be written first. -/
theorem yields_write {byte : UInt8} {next : Memory → Stub α} (inside : address ∈ region)
    (rest : Yields (Call.accesses region) (next (store m address byte)) result) :
    Yields (Call.accesses region) (writeByte m address byte >>= next) result := by
  unfold writeByte writing
  exact yields_call ⟨()⟩ (window_one_subset inside) fun _ => rest

/-- A zero byte is no blank. -/
theorem isspace_nul : isspace 0 = false := rfl

/-- The blanks in front of a text are skipped. -/
theorem skipSpaces_yields (string : StringIn m region str text) (enough : text.length < turns) :
    Yields (Call.accesses region) (skipSpaces m turns str)
      (str + UInt64.ofNat (text.takeWhile isspace).length) := by
  induction turns generalizing str text with
  | zero => omega
  | succ turns ih =>
    rw [skipSpaces]
    apply yields_read string.mem
    cases text with
    | nil =>
      rw [string.nul, isspace_nul, if_neg (by decide), List.takeWhile_nil]
      have start : str + UInt64.ofNat 0 = str := UInt64.add_zero str
      rw [List.length_nil, start]
      exact yields_ret
    | cons c rest =>
      rw [string.first]
      by_cases space : isspace c = true
      · rw [if_pos space, List.takeWhile_cons_of_pos space, List.length_cons, add_succ]
        exact ih string.tail (by simpa using enough)
      · rw [if_neg space, List.takeWhile_cons_of_neg space]
        have start : str + UInt64.ofNat 0 = str := UInt64.add_zero str
        rw [List.length_nil, start]
        exact yields_ret

/-- `strcmp` stops at the first byte that differs. -/
theorem strcmp_differs (turns : Nat) (option : List UInt8) (inside : str ∈ region)
    (different : m str ≠ option.headD 0) : ∃ order,
      Yields (Call.accesses region) (strcmp m (turns + 1) str option) order ∧ order ≠ 0 := by
  have unequal : ((m str).toNat : Int) - (option.headD 0).toNat ≠ 0 := by
    intro same
    apply different
    rw [← UInt8.toNat_inj]
    omega
  have either : (m str != 0 || option.headD 0 != 0) = true := by
    rw [Bool.or_eq_true, bne_iff_ne, bne_iff_ne]
    by_contra neither
    rw [not_or, not_not, not_not] at neither
    exact different (neither.1.trans neither.2.symm)
  refine ⟨_, ?_, unequal⟩
  rw [strcmp]
  apply yields_read inside
  rw [if_pos either]
  simp only [bne_iff_ne, ne_eq, unequal, not_false_eq_true, if_true]
  exact yields_ret

/-- `strcmp` tells whether a string is the literal. -/
theorem strcmp_yields (string : StringIn m region str text) (noNul : 0 ∉ option)
    (enough : text.length < turns) : ∃ order,
    Yields (Call.accesses region) (strcmp m turns str option) order ∧
      (order = 0 ↔ text = option) := by
  induction turns generalizing str text option with
  | zero => omega
  | succ turns ih =>
    cases text with
    | nil =>
      cases option with
      | nil =>
        refine ⟨0, ?_, by simp⟩
        rw [strcmp]
        apply yields_read string.mem
        rw [string.nul]
        exact yields_ret
      | cons d later =>
        have nonzero : (0 : UInt8) ≠ d := fun zero => noNul (by simp [zero])
        obtain ⟨order, yields, unequal⟩ := strcmp_differs turns (d :: later) string.mem
          (string.nul ▸ nonzero)
        exact ⟨order, yields, by simp [unequal]⟩
    | cons c rest =>
      by_cases same : c = option.headD 0
      · cases option with
        | nil => exact absurd same string.first_ne
        | cons d later =>
          rw [List.headD_cons] at same
          subst same
          obtain ⟨order, yields, equal⟩ := ih string.tail
            (fun member => noNul (List.mem_cons_of_mem _ member)) (by simpa using enough)
          refine ⟨order, ?_, by simpa using equal⟩
          rw [strcmp]
          apply yields_read string.mem
          rw [string.first, if_pos (by simp [string.first_ne])]
          simpa using yields
      · obtain ⟨order, yields, unequal⟩ := strcmp_differs turns option string.mem
          (string.first ▸ same)
        refine ⟨order, yields, ?_⟩
        have other : c :: rest ≠ option := by
          rintro rfl
          exact same rfl
        simp [unequal, other]

/-- `strncmp` over the length of a literal tells whether a string begins with it. -/
theorem strncmp_yields (string : StringIn m region str text) (noNul : 0 ∉ option) : ∃ order,
    Yields (Call.accesses region) (strncmp m str option option.length) order ∧
      (order = 0 ↔ option <+: text) := by
  induction option generalizing str text with
  | nil => exact ⟨0, yields_ret, by simp⟩
  | cons d later ih =>
    have unequal (c : UInt8) : (if c < d then (-1 : Int) else 1) ≠ 0 := by
      split <;> decide
    cases text with
    | nil =>
      have nonzero : 0 ≠ d := fun zero => noNul (by simp [zero])
      refine ⟨if 0 < d then -1 else 1, ?_, by simp [unequal]⟩
      rw [List.length_cons, strncmp]
      apply yields_read string.mem
      rw [string.nul, if_pos (by simpa using nonzero)]
      exact yields_ret
    | cons c rest =>
      by_cases same : c = d
      · subst same
        obtain ⟨order, yields, equal⟩ := ih string.tail
          fun member => noNul (List.mem_cons_of_mem _ member)
        refine ⟨order, ?_, by simpa using equal⟩
        rw [List.length_cons, strncmp]
        apply yields_read string.mem
        rw [string.first, if_neg (by simp), if_neg (by simpa using string.first_ne)]
        exact yields
      · refine ⟨if c < d then -1 else 1, ?_, ?_⟩
        · rw [List.length_cons, strncmp]
          apply yields_read string.mem
          rw [string.first, if_pos (by simpa using same)]
          exact yields_ret
        · simp [unequal, List.cons_prefix_cons, Ne.symm same]

/-- What stands behind the first separator of a text. -/
def afterFirst (separator : UInt8) (text : List UInt8) : List UInt8 :=
  (text.dropWhile (· != separator)).drop 1

/-- A text has no separator, or is what stands before the first one and behind it. -/
theorem afterFirst_split (separator : UInt8) (text : List UInt8) :
    (separator ∉ text ∧ text.takeWhile (· != separator) = text ∧ afterFirst separator text = []) ∨
      text = text.takeWhile (· != separator) ++ separator :: afterFirst separator text := by
  have whole : text.takeWhile (· != separator) ++ text.dropWhile (· != separator) = text :=
    List.takeWhile_append_dropWhile
  cases split : text.dropWhile (· != separator) with
  | nil =>
    left
    rw [split, List.append_nil] at whole
    refine ⟨fun member => ?_, whole, by rw [afterFirst, split, List.drop_nil]⟩
    rw [List.dropWhile_eq_nil_iff] at split
    simpa using split _ member
  | cons c rest =>
    right
    have same : c = separator := by
      have stops := List.head_dropWhile_not (· != separator) (l := text) (by simp [split])
      simpa [split] using stops
    rw [afterFirst, split, List.drop_succ_cons, List.drop_zero]
    rw [split, same] at whole
    exact whole.symm

/-- An element of a list is its first one, or one behind the first comma. -/
theorem mem_elements (nonempty : option ≠ []) : option ∈ text.splitOn 0x2c ↔
    text.takeWhile (· != 0x2c) = option ∨ option ∈ (afterFirst 0x2c text).splitOn 0x2c := by
  rcases afterFirst_split 0x2c text with ⟨noComma, first, behind⟩ | split
  · rw [List.splitOn_eq_singleton noComma, first, behind, List.splitOn_nil]
    simp [nonempty, eq_comm]
  · have first : 0x2c ∉ text.takeWhile (· != 0x2c) := by
      intro member
      simpa using List.mem_takeWhile_imp member
    conv_lhs => rw [split, List.splitOn_append_cons_self_of_not_mem first, List.mem_cons]
    rw [eq_comm]

/-- An element is skipped up to its comma. -/
theorem skipElement_yields (string : StringIn m region str text) (enough : text.length < turns) :
    Yields (Call.accesses region) (skipElement m turns str)
      (str + UInt64.ofNat (text.takeWhile (· != 0x2c)).length) := by
  induction turns generalizing str text with
  | zero => omega
  | succ turns ih =>
    have start : str + UInt64.ofNat 0 = str := UInt64.add_zero str
    rw [skipElement]
    apply yields_read string.mem
    cases text with
    | nil =>
      rw [string.nul, if_neg (by decide), List.takeWhile_nil, List.length_nil, start]
      exact yields_ret
    | cons c rest =>
      rw [string.first]
      by_cases comma : c = 0x2c
      · rw [if_neg (by simp [comma]), List.takeWhile_cons_of_neg (by simp [comma]),
          List.length_nil, start]
        exact yields_ret
      · rw [if_pos (by simp [comma, string.first_ne]),
          List.takeWhile_cons_of_pos (by simpa using comma), List.length_cons, add_succ]
        exact ih string.tail (by simpa using enough)

/-- The next element begins behind the first comma. -/
theorem nextElement_yields (string : StringIn m region str text) (enough : text.length < turns) :
    ∃ next, Yields (Call.accesses region) (nextElement m turns str) next ∧
      StringIn m region next (afterFirst 0x2c text) := by
  rcases afterFirst_split 0x2c text with ⟨noComma, first, behind⟩ | split
  · have last : StringIn m region (str + UInt64.ofNat text.length) [] :=
      StringIn.append ((List.append_nil text).symm ▸ string)
    refine ⟨str + UInt64.ofNat text.length, ?_, behind ▸ last⟩
    have skips := skipElement_yields string enough
    rw [first] at skips
    refine skips.bind (yields_read last.mem ?_)
    rw [last.nul]
    exact yields_ret
  · have comma := StringIn.append (split ▸ string)
    refine ⟨_, (skipElement_yields string enough).bind (yields_read comma.mem ?_), comma.tail⟩
    rw [comma.first]
    exact yields_ret

/-- What follows the first element is shorter. -/
theorem afterFirst_length (separator : UInt8) (nonempty : text ≠ []) :
    (afterFirst separator text).length < text.length := by
  have positive : 0 < text.length := List.length_pos_iff.mpr nonempty
  rcases afterFirst_split separator text with ⟨-, -, behind⟩ | split
  · rw [behind]
    exact positive
  · have lengths := congrArg List.length split
    rw [List.length_append, List.length_cons] at lengths
    omega

/-- A comma in the rest of a list is the first one behind an option. -/
theorem afterFirst_append (noComma : 0x2c ∉ option) :
    afterFirst 0x2c (option ++ rest) = afterFirst 0x2c rest := by
  have passes : ∀ c ∈ option, (c != 0x2c) = true := by
    intro c member
    rw [bne_iff_ne]
    rintro rfl
    exact noComma member
  rw [afterFirst, List.dropWhile_append_of_pos passes, afterFirst]

/-- The first element of a list that begins with an option is the option, if it ends there. -/
theorem takeWhile_append (noComma : 0x2c ∉ option) :
    (option ++ rest).takeWhile (· != 0x2c) = option ↔ rest = [] ∨ rest.head? = some 0x2c := by
  have passes : ∀ c ∈ option, (c != 0x2c) = true := by
    intro c member
    rw [bne_iff_ne]
    rintro rfl
    exact noComma member
  rw [List.takeWhile_append_of_pos passes, List.append_right_eq_self]
  cases rest with
  | nil => simp
  | cons c rest =>
    by_cases comma : c = 0x2c <;> simp [comma]

/-- `parse_option_str` tells whether an option is an element of a list. -/
theorem parseOptionStr_yields (string : StringIn m region str text) (nonempty : option ≠ [])
    (noComma : 0x2c ∉ option) (noNul : 0 ∉ option) (enough : text.length < turns) : ∃ found,
    Yields (Call.accesses region) (parseOptionStr m option turns str) found ∧
      (found = true ↔ option ∈ text.splitOn 0x2c) := by
  induction turns generalizing str text with
  | zero => omega
  | succ turns ih =>
    have goesOn {place : UInt64} {later : List UInt8} (string : StringIn m region place later)
        (short : later.length < turns + 1) (fewer : (afterFirst 0x2c later).length < turns) :
        ∃ found, Yields (Call.accesses region)
          (nextElement m (turns + 1) place >>= fun str => parseOptionStr m option turns str) found ∧
            (found = true ↔ option ∈ (afterFirst 0x2c later).splitOn 0x2c) := by
      obtain ⟨next, skips, behind⟩ := nextElement_yields string short
      obtain ⟨found, yields, member⟩ := ih behind fewer
      exact ⟨found, skips.bind yields, member⟩
    cases text with
    | nil =>
      refine ⟨false, ?_, by simpa [List.splitOn_nil] using nonempty⟩
      rw [parseOptionStr]
      apply yields_read string.mem
      rw [string.nul, if_pos (by decide)]
      exact yields_ret
    | cons c others =>
      have fewer := afterFirst_length 0x2c (List.cons_ne_nil c others)
      obtain ⟨order, compares, equal⟩ := strncmp_yields string noNul
      have turn {found : Bool} (rest : Yields (Call.accesses region)
          (if order == 0 then
            readByte m (str + UInt64.ofNat option.length) >>= fun c =>
              if c == 0 || c == 0x2c then return true
              else nextElement m (turns + 1) (str + UInt64.ofNat option.length) >>= fun str =>
                parseOptionStr m option turns str
          else nextElement m (turns + 1) str >>= fun str => parseOptionStr m option turns str)
          found) : Yields (Call.accesses region) (parseOptionStr m option (turns + 1) str) found := by
        rw [parseOptionStr]
        apply yields_read string.mem
        rw [string.first, if_neg (by simpa using string.first_ne)]
        exact compares.bind rest
      rw [mem_elements nonempty]
      by_cases begins : option <+: c :: others
      · obtain ⟨rest, split⟩ := begins
        have behind : StringIn m region (str + UInt64.ofNat option.length) rest :=
          StringIn.append (split ▸ string)
        have shorter : rest.length ≤ (c :: others).length := by
          rw [← split, List.length_append]
          omega
        have zero : (order == 0) = true := by simpa using equal.mpr ⟨rest, split⟩
        rw [zero, if_pos rfl] at turn
        rw [← split, afterFirst_append noComma, split] at fewer
        rw [← split, afterFirst_append noComma]
        rw [takeWhile_append noComma]
        cases rest with
        | nil =>
          refine ⟨true, turn (yields_read behind.mem ?_), by simp⟩
          rw [behind.nul]
          exact yields_ret
        | cons d rest =>
          by_cases comma : d = 0x2c
          · refine ⟨true, turn (yields_read behind.mem ?_), by simp [comma]⟩
            rw [behind.first, if_pos (by simp [comma])]
            exact yields_ret
          · obtain ⟨found, yields, member⟩ := goesOn behind (by omega) (by omega)
            refine ⟨found, turn (yields_read behind.mem ?_), by simp [member, comma]⟩
            rw [behind.first, if_neg (by simp [comma, behind.first_ne])]
            exact yields
      · have differs : (c :: others).takeWhile (· != 0x2c) ≠ option := by
          rintro rfl
          exact begins (List.takeWhile_prefix _)
        obtain ⟨found, yields, member⟩ := goesOn string enough (by omega)
        refine ⟨found, turn ?_, by simp [member, differs]⟩
        rw [if_neg (by simpa using fun zero => begins (equal.mp zero))]
        exact yields

/-- `parse_option_str` ends, tells whether an option is an element of a list, and reads nothing but
the list. -/
theorem parseOptionStr_mem {events : List Event} {outcome : Option Bool}
    (held : HoldsString m str text) (nonempty : option ≠ []) (noComma : 0x2c ∉ option)
    (noNul : 0 ∉ option) (enough : text.length < turns)
    (run : Exec (parseOptionStr m option turns str) events outcome) :
    (∃ found, outcome = some found ∧ (found = true ↔ option ∈ text.splitOn 0x2c)) ∧
      ∀ event ∈ events, event.op.accesses (window str (text.length + 1)) := by
  obtain ⟨found, yields, member⟩ :=
    parseOptionStr_yields held.stringIn nonempty noComma noNul enough
  obtain ⟨returned, accesses⟩ := yields _ _ run
  exact ⟨⟨found, returned, member⟩, accesses⟩

/-- A list with an element that begins with its last one. -/
def letterList : List UInt8 := Vsprintf.chars ['a', 'b', ',', 'a']

/-- The last element of the list is found. -/
theorem parseOptionStr_mem_last : ∃ found,
    (parseOptionStr (bytesAt 0x1000 letterList) (Vsprintf.chars ['a']) 5 0x1000).valueWith
      toldFirmware = some found ∧
        (found = true ↔ Vsprintf.chars ['a'] ∈ letterList.splitOn 0x2c) := by
  have held : HoldsString (bytesAt 0x1000 letterList) 0x1000 letterList :=
    holdsString_bytesAt (by decide) (by decide)
  exact (parseOptionStr_mem held (by decide) (by decide) (by decide) (by decide)
    (exec_eventsWith (by decide +kernel))).1

end DragonStub

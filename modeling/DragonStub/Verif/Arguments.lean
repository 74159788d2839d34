import DragonStub.Verif.NextArg

/-!
# All arguments of a string

Taking arguments off a string until it is empty gives the arguments of its text, one after the
other, as strings that stay where they are. Every way to write a list of names and values down is
undone by it.
-/

namespace DragonStub

open ByteMemory Interaction Prog

/-- Take arguments off a string until it is empty. -/
def takeArgs (m : Memory) : Nat → UInt64 → Stub (List (UInt64 × UInt64) × Memory)
  | 0, _ => endless
  | turns + 1, str => do
    let c ← readByte m str
    if c == 0 then return ([], m)
    else
      let arg ← nextArg m (turns + 1) str
      let (args, m) ← takeArgs arg.memory turns arg.next
      return ((arg.param, arg.val) :: args, m)

/-- Skip the spaces in front of a string, and take its arguments. -/
def parseArgs (m : Memory) (turns : Nat) (str : UInt64) :
    Stub (List (UInt64 × UInt64) × Memory) := do
  let str ← skipSpaces m turns str
  takeArgs m turns str

variable {m : Memory} {region : Set UInt64} {str : UInt64} {turns k : Nat}
  {text part : List UInt8} {arg : Arg}

/-- What follows an argument is shorter. -/
theorem behindArg_length (nonempty : text ≠ []) : (behindArg text).length < text.length := by
  have positive := List.length_pos_iff.mpr nonempty
  have body := bodyStart_length nonempty
  have dropped := List.length_dropWhile_le isspace
    ((bodyOf text).drop ((tokenOf (isQuoted text) (bodyOf text)).length + 1))
  rw [List.length_drop] at dropped
  unfold behindArg
  omega

/-- The arguments of a text. -/
def arguments : List UInt8 → List (List UInt8 × Option (List UInt8))
  | [] => []
  | c :: rest => firstArg (c :: rest) :: arguments (behindArg (c :: rest))
termination_by text => text.length
decreasing_by exact behindArg_length (List.cons_ne_nil c rest)

/-- An empty text has no arguments. -/
theorem arguments_nil : arguments [] = [] := by
  rw [arguments]

/-- A text that is not empty has its first argument and those behind it. -/
theorem arguments_step (nonempty : text ≠ []) :
    arguments text = firstArg text :: arguments (behindArg text) := by
  cases text with
  | nil => exact absurd rfl nonempty
  | cons c rest => rw [arguments]

/-- Memory shows an argument at the places of its name and value. -/
def Shows (m : Memory) (places : UInt64 × UInt64) (argument : List UInt8 × Option (List UInt8)) :
    Prop :=
  HoldsString m places.1 argument.1 ∧
    match argument.2 with
    | none => places.2 = 0
    | some value => places.2 ≠ 0 ∧ HoldsString m places.2 value

/-- What an argument takes and what follows it make the text. -/
theorem taken_add (text : List UInt8) (nonempty : text ≠ []) :
    taken text + (behindArg text).length = text.length := by
  have fewer := behindArg_length nonempty
  unfold taken
  omega

/-- A part of a text ends in it. -/
theorem PartOf.within (partOf : PartOf m str text k part) (nonempty : text ≠ []) :
    k + part.length ≤ text.length := by
  have whole := taken_add text nonempty
  have ends := partOf.ends
  omega

/-- A string that was taken stays when only the rest of the text is changed. -/
theorem PartOf.stays {m' : Memory} (partOf : PartOf m str text k part) (nonempty : text ≠ [])
    (short : text.length < 2 ^ 64)
    (same : ∀ x ∉ window (str + UInt64.ofNat (taken text)) (behindArg text).length, m' x = m x) :
    HoldsString m' (str + UInt64.ofNat k) part := by
  have whole := taken_add text nonempty
  have ends := partOf.ends
  refine partOf.held.congr partOf.held.length_lt fun x inside => same x fun later => ?_
  rcases ends with before | ⟨-, none⟩
  · have place : (UInt64.ofNat k).toNat = k := by
      rw [UInt64.toNat_ofNat', Nat.mod_eq_of_lt (by omega)]
    have next : (UInt64.ofNat (taken text)).toNat = taken text := by
      rw [UInt64.toNat_ofNat', Nat.mod_eq_of_lt (by omega)]
    have apart : Disjoint (window (str + UInt64.ofNat k) (part.length + 1))
        (window (str + UInt64.ofNat (taken text)) (behindArg text).length) :=
      window_disjoint_of_offsets (by omega) (by omega) (.inl (by omega))
    exact Set.disjoint_left.mp apart inside later
  · rw [none] at later
    simp at later

/-- An argument that was taken is shown by any memory that differs in the rest of the text. -/
theorem Takes.shows {m' : Memory} (takes : Takes m region str text arg) (nonempty : text ≠ [])
    (object : str.toNat + text.length < 2 ^ 64)
    (same : ∀ x ∉ window (str + UInt64.ofNat (taken text)) (behindArg text).length,
      m' x = arg.memory x) : Shows m' (arg.param, arg.val) (firstArg text) := by
  obtain ⟨k, param, name⟩ := takes.name
  refine ⟨?_, ?_⟩
  · rw [param]
    exact name.stays nonempty (by omega) same
  · have value := takes.value
    cases has : (firstArg text).2 with
    | none =>
      rw [has] at value
      exact value
    | some bytes =>
      rw [has] at value
      obtain ⟨place, positive, val, partOf⟩ := value
      have within := partOf.within nonempty
      refine ⟨?_, ?_⟩
      · have number : arg.val.toNat = str.toNat + place := by
          rw [val, UInt64.toNat_add, UInt64.toNat_ofNat']
          omega
        intro zero
        have none := congrArg UInt64.toNat zero
        rw [number, UInt64.toNat_zero] at none
        omega
      · change HoldsString m' arg.val bytes
        rw [val]
        exact partOf.stays nonempty (by omega) same

/-- The rest of a text lies within the address space when the text does. -/
theorem Takes.next_object (takes : Takes m region str text arg) (nonempty : text ≠ [])
    (object : str.toNat + text.length < 2 ^ 64) :
    arg.next.toNat + (behindArg text).length < 2 ^ 64 := by
  have whole := taken_add text nonempty
  have next : arg.next.toNat = str.toNat + taken text := by
    rw [takes.next, UInt64.toNat_add, UInt64.toNat_ofNat']
    omega
  omega

/-- What changes an argument and then only the rest of the text changes only the text. -/
theorem Takes.outside (final : Memory) (takes : Takes m region str text arg)
    (nonempty : text ≠ []) (short : text.length < 2 ^ 64)
    (same : ∀ x ∉ window arg.next (behindArg text).length, final x = arg.memory x) :
    ∀ x ∉ window str text.length, final x = m x := by
  intro x outside
  have whole := taken_add text nonempty
  have offset : (UInt64.ofNat (taken text)).toNat = taken text := by
    rw [UInt64.toNat_ofNat', Nat.mod_eq_of_lt (by omega)]
  have behind : window arg.next (behindArg text).length ⊆ window str text.length := by
    rw [takes.next]
    exact window_subset_of_le (by omega) (by omega)
  calc final x = arg.memory x := same x fun inside => outside (behind inside)
    _ = m x := takes.same x fun inside => outside (window_mono (by omega) inside)

/-- Taking all arguments of a string gives those of its text, and changes nothing else. -/
theorem takeArgs_yields (string : StringIn m region str text) (short : text.length < 2 ^ 32)
    (object : str.toNat + text.length < 2 ^ 64) (enough : text.length < turns) : ∃ args final,
    Yields (Call.accesses region) (takeArgs m turns str) (args, final) ∧
      List.Forall₂ (Shows final) args (arguments text) ∧
      ∀ x ∉ window str text.length, final x = m x := by
  induction turns generalizing m str text with
  | zero => omega
  | succ turns ih =>
    by_cases nonempty : text = []
    · subst nonempty
      refine ⟨[], m, ?_, ?_, fun _ _ => rfl⟩
      · rw [takeArgs]
        apply yields_read string.mem
        rw [string.nul, if_pos (by decide)]
        exact yields_ret
      · rw [arguments_nil]
        exact .nil
    have fewer := behindArg_length nonempty
    obtain ⟨yields, takes⟩ := nextArg_yields string nonempty short enough
    obtain ⟨args, final, others, shows, same⟩ := ih takes.rest (by omega)
      (takes.next_object nonempty object) (show (behindArg text).length < turns by omega)
    refine ⟨((takenArg m str text).param, (takenArg m str text).val) :: args, final, ?_, ?_,
      takes.outside final nonempty (by omega) same⟩
    · rw [takeArgs]
      apply yields_read string.mem
      rw [if_neg (by simpa using string.ne_nul nonempty)]
      exact yields.bind (others.bind yields_ret)
    · rw [arguments_step nonempty]
      exact .cons (takes.shows nonempty object fun x outside => same x (takes.next ▸ outside)) shows

/-- Parsing a string yields its arguments in order, each shown in the memory at the end. -/
theorem parseArgs_yields (string : StringIn m region str text) (short : text.length < 2 ^ 32)
    (object : str.toNat + text.length < 2 ^ 64) (enough : text.length < turns) : ∃ args final,
    Yields (Call.accesses region) (parseArgs m turns str) (args, final) ∧
      List.Forall₂ (Shows final) args (arguments (text.dropWhile isspace)) := by
  have skips := skipSpaces_yields string enough
  have parts : text.takeWhile isspace ++ text.dropWhile isspace = text :=
    List.takeWhile_append_dropWhile
  have lengths := congrArg List.length parts
  rw [List.length_append] at lengths
  have split : StringIn m region str (text.takeWhile isspace ++ text.dropWhile isspace) :=
    parts.symm ▸ string
  have behind := split.append
  have place : (str + UInt64.ofNat (text.takeWhile isspace).length).toNat =
      str.toNat + (text.takeWhile isspace).length := by
    rw [UInt64.toNat_add, UInt64.toNat_ofNat']
    omega
  obtain ⟨args, final, takes, shows, -⟩ := takeArgs_yields behind (by omega) (by omega)
    (show (text.dropWhile isspace).length < turns by omega)
  exact ⟨args, final, skips.bind takes, shows⟩

/-- A name that can be written down. -/
structure IsName (name : List UInt8) : Prop where
  /-- The name is not empty. -/
  nonempty : name ≠ []
  /-- None of its bytes ends, separates or quotes it. -/
  plain : ∀ c ∈ name, c ≠ 0 ∧ isspace c = false ∧ c ≠ 0x3d ∧ c ≠ doubleQuote

/-- A value that can be written down in quotes. -/
def IsValue (value : List UInt8) : Prop := ∀ c ∈ value, c ≠ 0 ∧ c ≠ doubleQuote

/-- The ways to write an argument. -/
inductive Rendered : List UInt8 × Option (List UInt8) → List UInt8 → Prop where
  /-- A name alone. -/
  | bare {name : List UInt8} (isName : IsName name) : Rendered (name, none) name
  /-- `name=value` -/
  | plain {name value : List UInt8} (isName : IsName name) (isValue : IsValue value)
      (noSpace : ∀ c ∈ value, isspace c = false) :
      Rendered (name, some value) (name ++ 0x3d :: value)
  /-- `name="value"` -/
  | value {name value : List UInt8} (isName : IsName name) (isValue : IsValue value) :
      Rendered (name, some value) (name ++ 0x3d :: doubleQuote :: (value ++ [doubleQuote]))
  /-- `"name=value"` -/
  | whole {name value : List UInt8} (isName : IsName name) (isValue : IsValue value) :
      Rendered (name, some value) (doubleQuote :: (name ++ 0x3d :: (value ++ [doubleQuote])))

/-- A list of arguments is written as a line, with spaces between them. -/
inductive Renders : List (List UInt8 × Option (List UInt8)) → List UInt8 → Prop where
  /-- No argument. -/
  | nil : Renders [] []
  /-- One more argument; only behind the last one there may be no space. -/
  | cons {argument : List UInt8 × Option (List UInt8)} {text spaces line : List UInt8}
      {others : List (List UInt8 × Option (List UInt8))} (rendered : Rendered argument text)
      (blank : ∀ c ∈ spaces, isspace c = true) (apart : others ≠ [] → spaces ≠ [])
      (rest : Renders others line) : Renders (argument :: others) (text ++ (spaces ++ line))

variable {argument : List UInt8 × Option (List UInt8)} {front tail line spaces name value : List UInt8}
  {listed : List (List UInt8 × Option (List UInt8))} {inQuote closes : Bool} {c : UInt8}

/-- Bytes that are no quotes, and no spaces outside quotes, belong to an argument. -/
theorem tokenOf_append (noQuote : ∀ c ∈ front, c ≠ doubleQuote)
    (kept : inQuote = true ∨ ∀ c ∈ front, isspace c = false) :
    tokenOf inQuote (front ++ tail) = front ++ tokenOf inQuote tail := by
  induction front with
  | nil => rfl
  | cons c front ih =>
    have same : (if c == doubleQuote then !inQuote else inQuote) = inQuote :=
      if_neg (by simpa using noQuote c List.mem_cons_self)
    have inside : ¬(isspace c && !inQuote) = true := by
      rcases kept with quoted | plain
      · simp [quoted]
      · simp [plain c List.mem_cons_self]
    have others : inQuote = true ∨ ∀ c ∈ front, isspace c = false :=
      kept.imp_right fun plain c member => plain c (List.mem_cons_of_mem _ member)
    rw [List.cons_append, tokenOf, if_neg inside, same,
      ih (fun c member => noQuote c (List.mem_cons_of_mem _ member)) others, List.cons_append]

/-- A quote belongs to an argument, and turns the quoting. -/
theorem tokenOf_quote : tokenOf inQuote (doubleQuote :: tail) =
    doubleQuote :: tokenOf (!inQuote) tail := by
  have noSpace : isspace doubleQuote = false := by decide
  rw [tokenOf, noSpace, Bool.false_and, if_neg (by decide), if_pos (by simp)]

/-- The end of a line, or a space. -/
def Ends (tail : List UInt8) : Prop := ∀ c ∈ tail.head?, isspace c = true

/-- A token ends at a blank and at the end of the text. -/
theorem tokenOf_ends (ends : Ends tail) : tokenOf false tail = [] := by
  cases tail with
  | nil => rfl
  | cons c rest => rw [tokenOf, ends c rfl, Bool.not_false, Bool.and_self, if_pos rfl]

/-- A name and an equals sign are split there. -/
theorem nameOf_append (tail : List UInt8) (isName : IsName name) : nameOf (name ++ 0x3d :: tail) = name ∧
    valueOf (name ++ 0x3d :: tail) = tail := by
  obtain ⟨nonempty, plain⟩ := isName
  cases name with
  | nil => exact absurd rfl nonempty
  | cons c rest =>
    have passes : ∀ c ∈ rest, (c != 0x3d) = true := by
      intro c member
      simpa using (plain c (List.mem_cons_of_mem _ member)).2.2.1
    constructor
    · rw [nameOf, List.cons_append, List.take_succ_cons, List.take_zero, List.tail_cons,
        List.takeWhile_append_of_pos passes, List.takeWhile_cons_of_neg (by simp),
        List.append_nil, List.singleton_append]
    · rw [valueOf, List.cons_append, List.tail_cons, afterFirst,
        List.dropWhile_append_of_pos passes, List.dropWhile_cons_of_neg (by simp),
        List.drop_succ_cons, List.drop_zero]

/-- The closing quote is dropped. -/
theorem dropQuote_concat : dropQuote true (front ++ [doubleQuote]) = front := by
  rw [dropQuote, List.getLast?_concat, if_pos (by simp), List.dropLast_concat]

/-- A value that needs no quotes does not start with one. -/
theorem isValue_head (isValue : IsValue value) : value.head? ≠ some doubleQuote := by
  intro first
  exact (isValue _ (List.mem_of_head? first)).2 rfl

/-- The bytes of an argument are read as its name and value. -/
theorem splitToken_append (isName : IsName name) : splitToken inQuote (name ++ 0x3d :: tail) =
    (name, some (if tail.head? = some doubleQuote then dropQuote true tail.tail
      else dropQuote inQuote tail)) := by
  obtain ⟨named, valued⟩ := nameOf_append tail isName
  have has : name ≠ name ++ 0x3d :: tail := by
    intro same
    have lengths := congrArg List.length same
    simp at lengths
  rw [splitToken, named, valued, if_neg has]
  split <;> rfl

/-- A line is read up to the end of its first argument. -/
theorem reads_token {quoted : Bool} {token : List UInt8} (first : isQuoted text = quoted)
    (body : bodyOf text = token ++ tail) (whole : tokenOf quoted (token ++ tail) = token) :
    firstArg text = splitToken quoted token ∧ behindArg text = (tail.drop 1).dropWhile isspace := by
  rw [firstArg, behindArg, first, body, whole]
  have rest : (token ++ tail).drop (token.length + 1) = tail.drop 1 := by
    rw [← List.drop_drop, List.drop_left]
  rw [rest]
  exact ⟨rfl, rfl⟩

/-- A text that begins with a name is in no quotes. -/
theorem isQuoted_name (tail : List UInt8) (isName : IsName name) : isQuoted (name ++ tail) = false := by
  obtain ⟨nonempty, plain⟩ := isName
  cases name with
  | nil => exact absurd rfl nonempty
  | cons c rest => simpa [isQuoted] using (plain c List.mem_cons_self).2.2.2

/-- A name belongs to its argument, in quotes and outside. -/
theorem IsName.token (isName : IsName name) :
    tokenOf inQuote (name ++ tail) = name ++ tokenOf inQuote tail :=
  tokenOf_append (fun c member => (isName.plain c member).2.2.2)
    (.inr fun c member => (isName.plain c member).2.1)

/-- So does an equals sign. -/
theorem tokenOf_equals : tokenOf inQuote (0x3d :: tail) = 0x3d :: tokenOf inQuote tail := by
  have notQuote : (0x3d : UInt8) ≠ doubleQuote := by decide
  have noSpace : isspace 0x3d = false := by decide
  exact tokenOf_append (List.forall_mem_singleton.mpr notQuote)
    (.inr (List.forall_mem_singleton.mpr noSpace))

/-- So does a value, in quotes or without spaces. -/
theorem tokenOf_value (isValue : IsValue value)
    (kept : inQuote = true ∨ ∀ c ∈ value, isspace c = false) :
    tokenOf inQuote (value ++ tail) = value ++ tokenOf inQuote tail :=
  tokenOf_append (fun c member => (isValue c member).2) kept

/-- A name alone is read back. -/
theorem reads_bare (isName : IsName name) (ends : Ends tail) : firstArg (name ++ tail) = (name, none) ∧
    behindArg (name ++ tail) = (tail.drop 1).dropWhile isspace := by
  have quoted := isQuoted_name tail isName
  have whole : tokenOf false (name ++ tail) = name := by
    rw [isName.token, tokenOf_ends ends, List.append_nil]
  have alone : nameOf name = name := by
    rw [nameOf_eq]
    exact fun member => (isName.plain _ (List.mem_of_mem_tail member)).2.2.1 rfl
  have reads := reads_token quoted (by rw [bodyOf, quoted, if_neg (by decide)]) whole
  rw [splitToken, if_pos alone] at reads
  exact reads

/-- A name and what follows its equals sign, up to the end of the argument, are read as they are
split. -/
theorem reads_named (isName : IsName name) (token : tokenOf false (value ++ tail) = value) :
    firstArg (name ++ 0x3d :: value ++ tail) = (name, some (if value.head? = some doubleQuote then
      dropQuote true value.tail else dropQuote false value)) ∧
    behindArg (name ++ 0x3d :: value ++ tail) = (tail.drop 1).dropWhile isspace := by
  have quoted := isQuoted_name (0x3d :: value ++ tail) isName
  rw [← List.append_assoc] at quoted
  have whole : tokenOf false (name ++ 0x3d :: value ++ tail) = name ++ 0x3d :: value := by
    rw [List.append_assoc, List.cons_append, isName.token, tokenOf_equals, token]
  have reads := reads_token quoted (by rw [bodyOf, quoted, if_neg (by decide)]) whole
  rwa [splitToken_append isName] at reads

/-- A value without spaces is read back. -/
theorem reads_plain (isName : IsName name) (isValue : IsValue value)
    (noSpace : ∀ c ∈ value, isspace c = false) (ends : Ends tail) :
    firstArg (name ++ 0x3d :: value ++ tail) = (name, some value) ∧
      behindArg (name ++ 0x3d :: value ++ tail) = (tail.drop 1).dropWhile isspace := by
  have token : tokenOf false (value ++ tail) = value := by
    rw [tokenOf_value isValue (.inr noSpace), tokenOf_ends ends, List.append_nil]
  have reads := reads_named isName token
  rw [if_neg (isValue_head isValue)] at reads
  exact reads

/-- A value in quotes of its own is read back. -/
theorem reads_value (isName : IsName name) (isValue : IsValue value) (ends : Ends tail) :
    firstArg (name ++ 0x3d :: doubleQuote :: (value ++ [doubleQuote]) ++ tail) =
        (name, some value) ∧
      behindArg (name ++ 0x3d :: doubleQuote :: (value ++ [doubleQuote]) ++ tail) =
        (tail.drop 1).dropWhile isspace := by
  have token : tokenOf false (doubleQuote :: (value ++ [doubleQuote]) ++ tail) =
      doubleQuote :: (value ++ [doubleQuote]) := by
    rw [List.cons_append, List.append_assoc, List.singleton_append, tokenOf_quote, Bool.not_false,
      tokenOf_value isValue (.inl rfl), tokenOf_quote, Bool.not_true, tokenOf_ends ends]
  have reads := reads_named isName token
  rw [List.head?_cons, if_pos rfl, List.tail_cons, dropQuote_concat] at reads
  exact reads

/-- A value behind which the quotes of the whole argument close is read without them. -/
theorem closed_value (isValue : IsValue value) :
    (if (value ++ [doubleQuote]).head? = some doubleQuote then
      dropQuote true (value ++ [doubleQuote]).tail else dropQuote true (value ++ [doubleQuote])) =
        value := by
  cases value with
  | nil => rfl
  | cons c rest =>
    have other : ¬(c :: rest).head? = some doubleQuote := isValue_head isValue
    rw [List.cons_append, List.head?_cons, ← List.head?_cons, if_neg other, ← List.cons_append,
      dropQuote_concat]

/-- An argument that is quoted as a whole is read back. -/
theorem reads_whole (isName : IsName name) (isValue : IsValue value) (ends : Ends tail) :
    firstArg (doubleQuote :: (name ++ 0x3d :: (value ++ [doubleQuote])) ++ tail) =
        (name, some value) ∧
      behindArg (doubleQuote :: (name ++ 0x3d :: (value ++ [doubleQuote])) ++ tail) =
        (tail.drop 1).dropWhile isspace := by
  have whole : tokenOf true (name ++ 0x3d :: (value ++ [doubleQuote]) ++ tail) =
      name ++ 0x3d :: (value ++ [doubleQuote]) := by
    rw [List.append_assoc, List.cons_append, List.append_assoc, List.singleton_append, isName.token,
      tokenOf_equals, tokenOf_value isValue (.inl rfl), tokenOf_quote, Bool.not_true,
      tokenOf_ends ends]
  have quoted : isQuoted (doubleQuote :: (name ++ 0x3d :: (value ++ [doubleQuote])) ++ tail) =
      true := rfl
  have reads := reads_token quoted (by rw [bodyOf, quoted, if_pos rfl]; rfl) whole
  rwa [splitToken_append isName, closed_value isValue] at reads

/-- What was written is read back. -/
theorem Rendered.reads (rendered : Rendered argument text) (ends : Ends tail) :
    firstArg (text ++ tail) = argument ∧
      behindArg (text ++ tail) = (tail.drop 1).dropWhile isspace := by
  cases rendered with
  | bare isName => exact reads_bare isName ends
  | plain isName isValue noSpace => exact reads_plain isName isValue noSpace ends
  | value isName isValue => exact reads_value isName isValue ends
  | whole isName isValue => exact reads_whole isName isValue ends

/-- A rendering starts with a byte that is not blank. -/
theorem Rendered.first (rendered : Rendered argument text) :
    ∃ c rest, text = c :: rest ∧ isspace c = false := by
  have named {name : List UInt8} (isName : IsName name) (after : List UInt8) :
      ∃ c rest, name ++ after = c :: rest ∧ isspace c = false := by
    obtain ⟨nonempty, plain⟩ := isName
    cases name with
    | nil => exact absurd rfl nonempty
    | cons c rest => exact ⟨c, rest ++ after, rfl, (plain c List.mem_cons_self).2.1⟩
  cases rendered with
  | @bare name isName =>
    have whole := named isName []
    rwa [List.append_nil] at whole
  | plain isName => exact named isName _
  | value isName => exact named isName _
  | whole => exact ⟨doubleQuote, _, rfl, by decide⟩

/-- A line begins with no space. -/
theorem Renders.dropWhile (renders : Renders listed line) : line.dropWhile isspace = line := by
  cases renders with
  | nil => rfl
  | cons rendered =>
    obtain ⟨c, rest, rfl, noSpace⟩ := rendered.first
    rw [List.cons_append, List.dropWhile_cons_of_neg (by simp [noSpace])]

/-- The arguments of a line are those that were written. -/
theorem Renders.arguments (renders : Renders listed line) : arguments line = listed := by
  induction renders with
  | nil => exact arguments_nil
  | @cons argument text spaces line others rendered blank apart rest ih =>
    have ends : Ends (spaces ++ line) := by
      intro c first
      cases spaces with
      | nil =>
        have last : others = [] := by
          by_contra more
          exact apart more rfl
        rw [last] at rest
        cases rest
        cases first
      | cons space spaces =>
        cases first
        exact blank c List.mem_cons_self
    have behind : ((spaces ++ line).drop 1).dropWhile isspace = line := by
      cases spaces with
      | nil =>
        have last : others = [] := by
          by_contra more
          exact apart more rfl
        rw [last] at rest
        cases rest
        rfl
      | cons space spaces =>
        rw [List.cons_append, List.drop_succ_cons, List.drop_zero,
          List.dropWhile_append_of_pos fun c member => blank c (List.mem_cons_of_mem _ member),
          rest.dropWhile]
    obtain ⟨c, later, first, -⟩ := rendered.first
    have nonempty : text ++ (spaces ++ line) ≠ [] := by
      rw [first]
      exact List.cons_ne_nil _ _
    obtain ⟨reads, behindEq⟩ := rendered.reads ends
    rw [arguments_step nonempty, reads, behindEq, behind, ih]

/-- Skipping spaces and taking all arguments of a written line gives the names and values that were
written, in order. -/
theorem parseArgs_undoes {events : List Event}
    {outcome : Option (List (UInt64 × UInt64) × Memory)} (renders : Renders listed line)
    (blank : ∀ c ∈ spaces, isspace c = true) (held : HoldsString m str (spaces ++ line))
    (short : (spaces ++ line).length < 2 ^ 32)
    (object : str.toNat + (spaces ++ line).length < 2 ^ 64)
    (enough : (spaces ++ line).length < turns)
    (run : Exec (parseArgs m turns str) events outcome) :
    ∃ args final, outcome = some (args, final) ∧ List.Forall₂ (Shows final) args listed := by
  obtain ⟨args, final, yields, shows⟩ := parseArgs_yields held.stringIn short object enough
  rw [List.dropWhile_append_of_pos blank, renders.dropWhile, renders.arguments] at shows
  exact ⟨args, final, (yields _ _ run).1, shows⟩

/-- A name and a quoted value with a space and an equals sign in it. -/
def writtenLine : List UInt8 :=
  Vsprintf.chars ['a', ' ', 'b', '=', '"', ' ', '=', '"']

/-- The line is read as it was written. -/
theorem parseArgs_undoes_line : ∃ args final,
    (parseArgs (bytesAt 0x1000 writtenLine) 20 0x1000).valueWith toldFirmware = some (args, final) ∧
      List.Forall₂ (Shows final) args [(Vsprintf.chars ['a'], none),
        (Vsprintf.chars ['b'], some (Vsprintf.chars [' ', '=']))] := by
  have first : Rendered (Vsprintf.chars ['a'], none) _ :=
    .bare ⟨by decide, List.forall_mem_singleton.mpr (by decide)⟩
  have value : IsValue (Vsprintf.chars [' ', '=']) :=
    List.forall_mem_cons.mpr ⟨by decide, List.forall_mem_singleton.mpr (by decide)⟩
  have second : Rendered (Vsprintf.chars ['b'], some (Vsprintf.chars [' ', '='])) _ :=
    .value ⟨by decide, List.forall_mem_singleton.mpr (by decide)⟩ value
  have blank : ∀ c ∈ [(0x20 : UInt8)], isspace c = true :=
    List.forall_mem_singleton.mpr (by decide)
  have none : ∀ c ∈ ([] : List UInt8), isspace c = true := List.forall_mem_nil _
  have renders : Renders _ writtenLine := .cons first blank (by simp)
    (.cons second none (by simp) .nil)
  have held : HoldsString (bytesAt 0x1000 writtenLine) 0x1000 ([] ++ writtenLine) :=
    holdsString_bytesAt (by decide) (by decide)
  exact parseArgs_undoes renders none held (by decide) (by decide) (by decide)
    (exec_eventsWith (by decide +kernel))

end DragonStub

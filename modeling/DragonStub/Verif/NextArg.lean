import DragonStub.Verif.OptionText

/-!
# Arguments

`next_arg` cuts one argument off a string in place. The argument is found on the list of its bytes
first; the function then leaves the string as it is but for a NUL behind the name, one behind the
value, and one in place of the quote that closes either.
-/

namespace DragonStub

open ByteMemory Interaction Prog

/-- The bytes of an argument: a text up to a space outside quotes. -/
def tokenOf : Bool → List UInt8 → List UInt8
  | _, [] => []
  | inQuote, c :: rest =>
    if isspace c && !inQuote then []
    else c :: tokenOf (if c == doubleQuote then !inQuote else inQuote) rest

/-- The name of an argument: its bytes up to an equals sign that is not the first of them. -/
def nameOf (token : List UInt8) : List UInt8 := token.take 1 ++ token.tail.takeWhile (· != 0x3d)

/-- The bytes behind the equals sign. -/
def valueOf (token : List UInt8) : List UInt8 := afterFirst 0x3d token.tail

/-- A text without the quote at its end, where one closes it. -/
def dropQuote (closes : Bool) (text : List UInt8) : List UInt8 :=
  if closes && text.getLast? == some doubleQuote then text.dropLast else text

/-- The name and value of an argument. -/
def splitToken (quoted : Bool) (token : List UInt8) : List UInt8 × Option (List UInt8) :=
  if nameOf token = token then (dropQuote quoted token, none)
  else if (valueOf token).head? = some doubleQuote then
    (nameOf token, some (dropQuote true (valueOf token).tail))
  else (nameOf token, some (dropQuote quoted (valueOf token)))

/-- A text begins with a quote. -/
def isQuoted (text : List UInt8) : Bool := text.head? == some doubleQuote

/-- A text without the quote it begins with. -/
def bodyOf (text : List UInt8) : List UInt8 := if isQuoted text then text.tail else text

/-- The first argument of a text. -/
def firstArg (text : List UInt8) : List UInt8 × Option (List UInt8) :=
  splitToken (isQuoted text) (tokenOf (isQuoted text) (bodyOf text))

/-- What stands behind the first argument of a text and the spaces that follow it. -/
def behindArg (text : List UInt8) : List UInt8 :=
  ((bodyOf text).drop ((tokenOf (isQuoted text) (bodyOf text)).length + 1)).dropWhile isspace

variable {inQuote quoted : Bool} {text body token rest : List UInt8} {c : UInt8}

/-- Behind an argument is the end of the text, or a space. -/
theorem tokenOf_split (inQuote : Bool) (body : List UInt8) : ∃ behind,
    body = tokenOf inQuote body ++ behind ∧
      (behind = [] ∨ ∃ c later, behind = c :: later ∧ isspace c = true) := by
  induction body generalizing inQuote with
  | nil => exact ⟨[], rfl, .inl rfl⟩
  | cons c rest ih =>
    rw [tokenOf]
    by_cases stops : (isspace c && !inQuote) = true
    · rw [if_pos stops]
      rw [Bool.and_eq_true] at stops
      exact ⟨c :: rest, rfl, .inr ⟨c, rest, rfl, stops.1⟩⟩
    · rw [if_neg stops]
      obtain ⟨behind, split, space⟩ := ih (if c == doubleQuote then !inQuote else inQuote)
      exact ⟨behind, by rw [List.cons_append, ← split], space⟩

/-- A token is no longer than what it is taken from. -/
theorem tokenOf_length (inQuote : Bool) (body : List UInt8) :
    (tokenOf inQuote body).length ≤ body.length := by
  obtain ⟨behind, split, -⟩ := tokenOf_split inQuote body
  have lengths := congrArg List.length split
  rw [List.length_append] at lengths
  omega

/-- The index of the equals sign, as the loop finds it from an index on. -/
def equalsFrom : Nat → Nat → List UInt8 → Nat
  | _, equals, [] => equals
  | i, equals, c :: rest => equalsFrom (i + 1) (if equals = 0 ∧ c = 0x3d then i else equals) rest

/-- Once an equals sign is found, a later one is not looked for. -/
theorem equalsFrom_found {i equals : Nat} (found : equals ≠ 0) :
    equalsFrom i equals token = equals := by
  induction token generalizing i with
  | nil => rfl
  | cons c rest ih => rw [equalsFrom, if_neg (by simp [found]), ih]

/-- Behind the first byte of a token the first equals sign is looked for. -/
theorem equalsFrom_behind {i : Nat} (positive : 0 < i) : equalsFrom i 0 token =
    if 0x3d ∈ token then i + (token.takeWhile (· != 0x3d)).length else 0 := by
  induction token generalizing i with
  | nil => rfl
  | cons c rest ih =>
    rw [equalsFrom]
    by_cases equals : c = 0x3d
    · rw [if_pos ⟨rfl, equals⟩, equalsFrom_found (by omega), if_pos (by simp [equals]),
        List.takeWhile_cons_of_neg (by simp [equals]), List.length_nil, Nat.add_zero]
    · rw [if_neg (by simp [equals]), ih (Nat.succ_pos i)]
      simp only [List.mem_cons, Ne.symm equals, false_or]
      rw [List.takeWhile_cons_of_pos (by simpa using equals), List.length_cons]
      congr 1
      omega

/-- A token without an equals sign behind its first byte is all name. -/
theorem nameOf_eq : nameOf token = token ↔ 0x3d ∉ token.tail := by
  cases token with
  | nil => simp [nameOf]
  | cons c rest =>
    simp only [nameOf, List.take_succ_cons, List.take_zero, List.tail_cons, List.singleton_append,
      List.cons.injEq, true_and, List.takeWhile_eq_self_iff, bne_iff_ne]
    constructor
    · intro all member
      exact all _ member rfl
    · rintro absent c member rfl
      exact absent member

/-- The loop finds where the name ends. -/
theorem equalsFrom_start : equalsFrom 0 0 token =
    if nameOf token = token then 0 else (nameOf token).length := by
  cases token with
  | nil => rfl
  | cons c rest =>
    have first : (if 0 = 0 ∧ c = 0x3d then 0 else 0) = 0 := ite_self 0
    rw [equalsFrom, first, equalsFrom_behind Nat.one_pos]
    simp only [nameOf_eq, List.tail_cons]
    by_cases equals : 0x3d ∈ rest
    · rw [if_pos equals, if_neg (not_not.mpr equals), nameOf, List.length_append]
      rfl
    · rw [if_neg equals, if_pos equals]

/-- A name with a value behind it is not empty. -/
theorem nameOf_length_pos (has : nameOf token ≠ token) : 0 < (nameOf token).length := by
  cases token with
  | nil => exact absurd rfl has
  | cons c rest => simp [nameOf]

/-- A name is followed by the equals sign that ends it. -/
theorem nameOf_split (has : nameOf token ≠ token) :
    token = nameOf token ++ 0x3d :: valueOf token := by
  rw [ne_eq, nameOf_eq, not_not] at has
  cases token with
  | nil => cases has
  | cons c rest =>
    rw [List.tail_cons] at has
    rcases afterFirst_split 0x3d rest with ⟨absent, -⟩ | split
    · exact absurd has absent
    · rw [nameOf, valueOf, List.take_succ_cons, List.take_zero, List.tail_cons,
        List.singleton_append, List.cons_append, ← split]

variable {m : Memory} {region : Set UInt64} {args : UInt64} {turns n : Nat} {scan : Scan}

/-- A 32-bit index as an offset. -/
theorem toUInt64_eq (i : UInt32) : i.toUInt64 = UInt64.ofNat i.toNat := by
  have bound := i.toNat_lt
  rw [← UInt64.toNat_inj, UInt32.toNat_toUInt64, UInt64.toNat_ofNat', Nat.mod_eq_of_lt (by omega)]

/-- The loop stops behind the argument, and knows its equals sign. -/
theorem scanArg_yields (scan : Scan) (string : StringIn m region (args + UInt64.ofNat n) body)
    (index : scan.i.toNat = n) (short : n + body.length < 2 ^ 32) (enough : body.length < turns) :
    ∃ final, Yields (Call.accesses region) (scanArg m args turns scan) final ∧
      final.i.toNat = n + (tokenOf scan.inQuote body).length ∧
      final.equals.toNat = equalsFrom n scan.equals.toNat (tokenOf scan.inQuote body) := by
  induction turns generalizing n scan body with
  | zero => omega
  | succ turns ih =>
    have place : args + scan.i.toUInt64 = args + UInt64.ofNat n := by rw [toUInt64_eq, index]
    rw [scanArg, place]
    cases body with
    | nil =>
      refine ⟨scan, yields_read string.mem ?_, index, rfl⟩
      rw [string.nul, if_pos (by simp)]
      exact yields_ret
    | cons c rest =>
      rw [tokenOf]
      by_cases stops : (isspace c && !scan.inQuote) = true
      · rw [if_pos stops]
        refine ⟨scan, yields_read string.mem ?_, index, rfl⟩
        rw [string.first, if_pos (by simp [stops])]
        exact yields_ret
      · rw [List.length_cons] at short enough
        have nextIndex : (scan.next c).i.toNat = n + 1 := by
          rw [Scan.next, UInt32.toNat_add, index, UInt32.toNat_one, Nat.mod_eq_of_lt (by omega)]
        have nextEquals : (scan.next c).equals.toNat =
            if scan.equals.toNat = 0 ∧ c = 0x3d then n else scan.equals.toNat := by
          simp only [Scan.next, Bool.and_eq_true, beq_iff_eq, ← UInt32.toNat_inj, UInt32.toNat_zero]
          split
          · exact index
          · rfl
        have further : StringIn m region (args + UInt64.ofNat (n + 1)) rest :=
          add_offsets args n 1 ▸ string.tail
        obtain ⟨final, yields, i, equals⟩ := ih _ further nextIndex (by omega) (by omega)
        rw [if_neg stops, equalsFrom, ← nextEquals, List.length_cons]
        refine ⟨final, yields_read string.mem ?_, by rw [i]; exact Nat.add_right_comm _ _ _, equals⟩
        rw [string.first, if_neg (by simpa [string.first_ne] using stops)]
        exact yields

/-- The value of an argument begins with a quote. -/
def opens (token : List UInt8) : Bool := (valueOf token).head? == some doubleQuote

/-- Where an argument ends, without the quote that closes it. -/
def argEnd (quoted : Bool) (token : List UInt8) : Nat :=
  if (quoted || opens token) && token.getLast? == some doubleQuote then token.length - 1
  else token.length

/-- Where the value of an argument starts. -/
def valueStart (token : List UInt8) : Nat :=
  (nameOf token).length + (if opens token then 2 else 1)

/-- `*val` for an argument. -/
def valuePlace (args : UInt64) (token : List UInt8) : UInt64 :=
  if nameOf token = token then 0 else args + UInt64.ofNat (valueStart token)

/-- The place of a quote at the end of an argument. -/
def closers (token : List UInt8) : Set Nat :=
  {k | k = token.length - 1 ∧ token.getLast? = some doubleQuote}

/-- Where NULs are written for the value of an argument. -/
def valueCuts (token : List UInt8) : Set Nat :=
  if nameOf token = token then ∅
  else if (valueOf token).head? = some doubleQuote then {(nameOf token).length} ∪ closers token
  else {(nameOf token).length}

/-- Where NULs are written for an argument. -/
def argCuts (quoted : Bool) (token : List UInt8) (length : Nat) : Set Nat :=
  valueCuts token ∪ (if quoted then closers token else ∅) ∪
    (if token.length < length then {token.length} else ∅)

/-- An empty token has no closing quote. -/
theorem closers_nil : closers [] = ∅ := by
  simp [closers]

/-- The closing quote of a token lies in it. -/
theorem closers_lt : ∀ k ∈ closers token, k < token.length := by
  rintro k ⟨rfl, quote⟩
  cases token with
  | nil => cases quote
  | cons c rest => exact Nat.lt_succ_self _

/-- The name of a token with a value ends in it. -/
theorem nameOf_lt (has : nameOf token ≠ token) : (nameOf token).length < token.length := by
  have lengths := congrArg List.length (nameOf_split has)
  rw [List.length_append, List.length_cons] at lengths
  omega

/-- The cuts for a value lie in the token. -/
theorem valueCuts_lt : ∀ k ∈ valueCuts token, k < token.length := by
  intro k member
  unfold valueCuts at member
  split at member
  · exact member.elim
  · rename_i has
    split at member
    · rcases member with rfl | closes
      · exact nameOf_lt has
      · exact closers_lt k closes
    · rw [Set.mem_singleton_iff.mp member]
      exact nameOf_lt has

/-- The cuts for the name and the value lie within the argument. -/
theorem innerCuts_lt :
    ∀ k ∈ valueCuts token ∪ (if quoted then closers token else ∅), k < token.length := by
  rintro k (value | closes)
  · exact valueCuts_lt k value
  · split at closes
    · exact closers_lt k closes
    · exact closes.elim

variable {cuts : Set Nat} {k : Nat}

/-- A quote at a place is replaced by a NUL. -/
theorem closeQuote_yields (inside : args + UInt64.ofNat k ∈ region) (small : k < 2 ^ 64)
    (cutsSmall : ∀ j ∈ cuts, j < 2 ^ 64) :
    Yields (Call.accesses region) (closeQuote (cutAt m args cuts) (args + UInt64.ofNat k))
      (cutAt m args (cuts ∪ {j | j = k ∧ m (args + UInt64.ofNat k) = doubleQuote})) := by
  have noQuote : ¬(0 : UInt8) = doubleQuote := by decide
  unfold closeQuote
  apply yields_read inside
  rw [cutAt_offset cutsSmall small]
  by_cases cut : k ∈ cuts
  · have same : cuts ∪ {j | j = k ∧ m (args + UInt64.ofNat k) = doubleQuote} = cuts := by
      apply Set.union_eq_left.mpr
      rintro j ⟨rfl, -⟩
      exact cut
    rw [if_pos cut, if_neg (by simpa using noQuote), same]
    exact yields_ret
  rw [if_neg cut]
  by_cases quote : m (args + UInt64.ofNat k) = doubleQuote
  · have more : cuts ∪ {j | j = k ∧ m (args + UInt64.ofNat k) = doubleQuote} = insert k cuts := by
      simp only [quote, and_true, Set.ofPred_eq_eq_singleton, Set.union_singleton]
    rw [if_pos (by simpa using quote), more, ← store_cutAt]
    exact yields_write inside yields_ret
  · have same : cuts ∪ {j | j = k ∧ m (args + UInt64.ofNat k) = doubleQuote} = cuts := by
      simp [quote]
    rw [if_neg (by simpa using quote), same]
    exact yields_ret

/-- What `next_arg` has found when its loop ends. -/
structure Found (m : Memory) (region : Set UInt64) (args : UInt64) (body token behind : List UInt8)
    (scan : Scan) : Prop where
  /-- The body is a string in the region. -/
  string : StringIn m region args body
  /-- Its length fits the index. -/
  short : body.length < 2 ^ 32
  /-- The token is the front of the body. -/
  split : body = token ++ behind
  /-- A blank or the end follows the token. -/
  space : behind = [] ∨ ∃ c later, behind = c :: later ∧ isspace c = true
  /-- The index is at the end of the token. -/
  i : scan.i.toNat = token.length
  /-- The index of the equals sign is that of the end of the name, or zero without a value. -/
  equals : scan.equals.toNat = if nameOf token = token then 0 else (nameOf token).length

variable {behind : List UInt8}

namespace Found

/-- The body is the token and what lies behind it. -/
theorem length_eq (found : Found m region args body token behind scan) :
    body.length = token.length + behind.length := by
  rw [found.split, List.length_append]

/-- The byte behind an argument is no quote. -/
theorem behind_ne (found : Found m region args body token behind scan) :
    m (args + UInt64.ofNat token.length) ≠ doubleQuote := by
  have string := StringIn.append (found.split ▸ found.string)
  rcases found.space with rfl | ⟨c, later, rfl, space⟩
  · rw [string.nul]
    decide
  · rw [string.first]
    rintro rfl
    exact absurd space (by decide)

/-- The last byte of an argument is a quote when one is found before its end. -/
theorem last_quote (found : Found m region args body token behind scan)
    (nonempty : token ≠ []) :
    m (args + UInt64.ofNat (token.length - 1)) = doubleQuote ↔
      token.getLast? = some doubleQuote := by
  have positive := List.length_pos_iff.mpr nonempty
  have length := found.length_eq
  rw [found.string.held.bytes _ (by omega), List.getLast?_eq_some_getLast nonempty, Option.some.injEq,
    List.getLast_eq_getElem]
  simp only [found.split, List.getElem_append_left (show token.length - 1 < token.length by omega)]

/-- The byte behind the equals sign is a quote when the value begins with one. -/
theorem value_quote (found : Found m region args body token behind scan)
    (has : nameOf token ≠ token) :
    m (args + UInt64.ofNat ((nameOf token).length + 1)) = doubleQuote ↔
      (valueOf token).head? = some doubleQuote := by
  have whole : body = (nameOf token ++ [0x3d]) ++ (valueOf token ++ behind) := by
    calc body = token ++ behind := found.split
      _ = nameOf token ++ 0x3d :: valueOf token ++ behind := by rw [← nameOf_split has]
      _ = _ := by simp
  have string := StringIn.append (whole ▸ found.string)
  rw [List.length_append, List.length_singleton] at string
  cases value : valueOf token with
  | nil =>
    have last : (nameOf token).length + 1 = token.length := by
      conv_rhs => rw [nameOf_split has, value]
      simp
    rw [last]
    simp [found.behind_ne]
  | cons c rest =>
    rw [value] at string
    rw [string.first, List.head?_cons, Option.some.injEq]

/-- The quote at the end of an argument is replaced. -/
theorem closes (found : Found m region args body token behind scan) (nonempty : token ≠ [])
    (inside : ∀ j ∈ cuts, j ≤ body.length) :
    Yields (Call.accesses region)
      (closeQuote (cutAt m args cuts) (args + (scan.i - 1).toUInt64))
      (cutAt m args (cuts ∪ closers token)) := by
  have positive := List.length_pos_iff.mpr nonempty
  have short := found.short
  have length := found.length_eq
  have last : (scan.i - 1).toNat = token.length - 1 := by
    have index := found.i
    rw [UInt32.toNat_sub, UInt32.toNat_one]
    omega
  have same : closers token =
      {j | j = token.length - 1 ∧ m (args + UInt64.ofNat (token.length - 1)) = doubleQuote} := by
    rw [closers]
    simp only [found.last_quote nonempty]
  rw [toUInt64_eq, last, same]
  refine closeQuote_yields (found.string.drop (by omega)).mem (by omega) fun j member => ?_
  have below := inside j member
  omega

/-- The value begins behind the equals sign, and behind the quote that follows it. -/
theorem takesValue (found : Found m region args body token behind scan) :
    Yields (Call.accesses region) (takeValue m args scan)
      (valuePlace args token, cutAt m args (valueCuts token)) := by
  have equals := found.equals
  have short := found.short
  have length := found.length_eq
  unfold takeValue valueCuts valuePlace valueStart opens
  by_cases has : nameOf token = token
  · rw [if_pos has] at equals
    have none : scan.equals = 0 := UInt32.toNat_inj.mp equals
    rw [if_pos has, if_pos has, cutAt_empty, if_pos (by simp [none])]
    exact yields_ret
  have positive := nameOf_length_pos has
  have name := nameOf_lt has
  rw [if_neg has] at equals
  have found' : ¬(scan.equals == 0) = true := by
    rw [beq_iff_eq, ← UInt32.toNat_inj, equals]
    exact Nat.ne_of_gt positive
  have nonempty : token ≠ [] := by
    rintro rfl
    exact has rfl
  have wrote : store m (args + UInt64.ofNat (nameOf token).length) 0 =
      cutAt m args {(nameOf token).length} := by
    rw [← insert_empty_eq, ← store_cutAt, cutAt_empty]
  have next : args + UInt64.ofNat (nameOf token).length + 1 =
      args + UInt64.ofNat ((nameOf token).length + 1) := add_offsets args _ 1
  have read : cutAt m args {(nameOf token).length} (args + UInt64.ofNat ((nameOf token).length + 1)) =
      m (args + UInt64.ofNat ((nameOf token).length + 1)) := by
    rw [cutAt_offset (by simp; omega) (by omega), if_neg (by simp)]
  rw [if_neg has, if_neg has, if_neg found', cutValue, toUInt64_eq, equals]
  apply yields_write (found.string.drop (by omega)).mem
  rw [wrote, next]
  apply yields_read (found.string.drop (by omega)).mem
  rw [read]
  by_cases quote : (valueOf token).head? = some doubleQuote
  · rw [if_pos (by simpa using (found.value_quote has).mpr quote), if_pos quote,
      if_pos (by simpa using quote)]
    apply (found.closes nonempty (by simp; omega)).bind
    have second : args + UInt64.ofNat ((nameOf token).length + 1) + 1 =
        args + UInt64.ofNat ((nameOf token).length + 2) := add_offsets args _ 1
    rw [second]
    exact yields_ret
  · rw [if_neg (by simpa using fun held => quote ((found.value_quote has).mp held)), if_neg quote,
      if_neg (by simpa using quote)]
    exact yields_ret

/-- The closing quote of a quoted token is overwritten with a zero byte, and no other is. -/
theorem takesQuote (found : Found m region args body token behind scan) :
    Yields (Call.accesses region) (takeQuote (cutAt m args (valueCuts token)) args quoted scan.i)
      (cutAt m args (valueCuts token ∪ if quoted then closers token else ∅)) := by
  have index := found.i
  have length := found.length_eq
  unfold takeQuote
  by_cases quotes : quoted = true
  · rw [if_pos quotes]
    by_cases nonempty : token = []
    · have zero : ¬0 < scan.i := by
        rw [UInt32.lt_iff_toNat_lt, index, nonempty]
        exact Nat.lt_irrefl 0
      rw [if_neg (by simp [zero]), nonempty, closers_nil, Set.union_empty]
      exact yields_ret
    · have positive : 0 < scan.i := by
        rw [UInt32.lt_iff_toNat_lt, index]
        exact List.length_pos_iff.mpr nonempty
      rw [if_pos (by simp [quotes, positive])]
      refine found.closes nonempty fun j member => ?_
      have below := valueCuts_lt j member
      omega
  · rw [if_neg (by simp [quotes]), if_neg quotes, Set.union_empty]
    exact yields_ret

/-- The argument ends with a NUL. -/
theorem ends (found : Found m region args body token behind scan) :
    Yields (Call.accesses region)
      (endArg (cutAt m args (valueCuts token ∪ if quoted then closers token else ∅)) args scan.i)
      (args + UInt64.ofNat (min (token.length + 1) body.length),
        cutAt m args (argCuts quoted token body.length)) := by
  have index := found.i
  have short := found.short
  have length := found.length_eq
  have string := StringIn.append (found.split ▸ found.string)
  have place : args + scan.i.toUInt64 = args + UInt64.ofNat token.length := by
    rw [toUInt64_eq, index]
  have small : ∀ j ∈ valueCuts token ∪ (if quoted then closers token else ∅), j < 2 ^ 64 := by
    intro j member
    have below := innerCuts_lt j member
    omega
  have uncut : token.length ∉ valueCuts token ∪ (if quoted then closers token else ∅) :=
    fun member => Nat.lt_irrefl _ (innerCuts_lt _ member)
  unfold endArg argCuts
  rw [place]
  apply yields_read string.mem
  rw [cutAt_offset small (by omega), if_neg uncut]
  rcases found.space with rfl | ⟨c, later, rfl, space⟩
  · rw [List.length_nil] at length
    have last : min (token.length + 1) body.length = token.length := by
      rw [length, Nat.add_zero]
      exact Nat.min_eq_right (Nat.le_succ _)
    have noMore : ¬token.length < body.length := by omega
    rw [string.nul, if_neg (by decide), last, if_neg noMore, Set.union_empty]
    exact yields_ret
  · rw [List.length_cons] at length
    have next : (scan.i + 1).toUInt64 = UInt64.ofNat (token.length + 1) := by
      rw [toUInt64_eq, UInt32.toNat_add, index, UInt32.toNat_one, Nat.mod_eq_of_lt (by omega)]
    have more : token.length < body.length := by omega
    have last : min (token.length + 1) body.length = token.length + 1 := Nat.min_eq_left more
    rw [string.first, if_pos (by simpa using string.first_ne), last, if_pos more, next,
      Set.union_singleton, ← store_cutAt]
    exact yields_write string.mem yields_ret

end Found

/-- The argument ends in its token. -/
theorem argEnd_le (quoted : Bool) (token : List UInt8) : argEnd quoted token ≤ token.length := by
  unfold argEnd
  split
  · exact Nat.sub_le _ _
  · exact le_rfl

/-- A part of a token, less its closing quote. -/
theorem dropQuote_drop {closes : Bool} (start : Nat) : dropQuote closes (token.drop start) =
    (token.drop start).take ((if closes && token.getLast? == some doubleQuote then token.length - 1
      else token.length) - start) := by
  have length : (token.drop start).length = token.length - start := List.length_drop
  unfold dropQuote
  by_cases empty : token.length ≤ start
  · have none : token.drop start = [] := List.drop_eq_nil_of_le empty
    simp [none]
  · have last : (token.drop start).getLast? = token.getLast? := by
      rw [List.getLast?_drop, if_neg empty]
    rw [last]
    split
    · rw [List.dropLast_eq_take, length]
      congr 1
      omega
    · rw [List.take_of_length_le]
      omega

/-- A token that is all name has no value. -/
theorem valueOf_none (none : nameOf token = token) : valueOf token = [] := by
  rw [nameOf_eq] at none
  rcases afterFirst_split 0x3d token.tail with ⟨-, -, empty⟩ | split
  · exact empty
  · have member : 0x3d ∈ token.tail.takeWhile (· != 0x3d) ++ 0x3d :: afterFirst 0x3d token.tail :=
      List.mem_append_right _ List.mem_cons_self
    rw [← split] at member
    exact absurd member none

/-- The value starts behind the name and the equals sign. -/
theorem valueOf_drop (has : nameOf token ≠ token) :
    valueOf token = token.drop ((nameOf token).length + 1) := by
  have split : token = (nameOf token ++ [0x3d]) ++ valueOf token := by
    rw [List.append_assoc]
    exact nameOf_split has
  have dropped : ((nameOf token ++ [0x3d]) ++ valueOf token).drop
      (nameOf token ++ [0x3d]).length = valueOf token := List.drop_left
  rw [← split, List.length_append, List.length_singleton] at dropped
  exact dropped.symm

/-- The parts of an argument, by where they start and end. -/
theorem splitToken_eq : splitToken quoted token =
    if nameOf token = token then (token.take (argEnd quoted token), none)
    else (nameOf token, some ((token.drop (valueStart token)).take
      (argEnd quoted token - valueStart token))) := by
  unfold splitToken argEnd valueStart opens
  by_cases has : nameOf token = token
  · have whole : dropQuote quoted (token.drop 0) = _ := dropQuote_drop 0
    rw [List.drop_zero, Nat.sub_zero] at whole
    simp [has, valueOf_none has, whole]
  rw [if_neg has, if_neg has]
  by_cases quote : (valueOf token).head? = some doubleQuote
  · have behind : (valueOf token).tail = token.drop ((nameOf token).length + 2) := by
      rw [valueOf_drop has, List.tail_drop]
    rw [if_pos quote, behind, dropQuote_drop]
    simp [quote]
  · have shut : ((valueOf token).head? == some doubleQuote) = false := by simpa using quote
    rw [if_neg quote, shut]
    simp only [Bool.or_false, Bool.false_eq_true, if_false]
    rw [← dropQuote_drop, ← valueOf_drop has]

/-- Every cut lies in front of what stands behind the argument. -/
theorem argCuts_lt (quoted : Bool) (fits : token.length ≤ n) :
    ∀ k ∈ argCuts quoted token n, k < min (token.length + 1) n := by
  rintro k (inner | last)
  · exact lt_of_lt_of_le (innerCuts_lt k inner) (by omega)
  · split at last
    · rename_i more
      rw [Set.mem_singleton_iff.mp last, Nat.min_eq_left more]
      exact Nat.lt_succ_self _
    · exact last.elim

/-- A quote at the end of a token is its closing quote. -/
theorem mem_closers (closed : token.getLast? = some doubleQuote) : token.length - 1 ∈ closers token :=
  ⟨rfl, closed⟩

/-- Where an argument ends there is a cut, or the string ends there. -/
theorem argEnd_cut (fits : token.length ≤ n) :
    argEnd quoted token ∈ argCuts quoted token n ∨ argEnd quoted token = n := by
  unfold argEnd
  by_cases closed : ((quoted || opens token) && token.getLast? == some doubleQuote) = true
  · rw [if_pos closed]
    rw [Bool.and_eq_true, Bool.or_eq_true, beq_iff_eq] at closed
    obtain ⟨quotes | quotes, last⟩ := closed
    · refine .inl (.inl (.inr ?_))
      rw [if_pos quotes]
      exact mem_closers last
    · have has : nameOf token ≠ token := by
        intro none
        rw [opens, valueOf_none none] at quotes
        cases quotes
      refine .inl (.inl (.inl ?_))
      rw [valueCuts, if_neg has, if_pos (by simpa [opens] using quotes)]
      exact .inr (mem_closers last)
  · rw [if_neg closed]
    by_cases whole : token.length = n
    · exact .inr whole
    · refine .inl (.inr ?_)
      rw [if_pos (by omega)]
      exact rfl

/-- A cut is where the name ends, or not before the end of the argument. -/
theorem argCuts_apart : ∀ k ∈ argCuts quoted token n,
    (nameOf token ≠ token ∧ k = (nameOf token).length) ∨ argEnd quoted token ≤ k := by
  have closes (last : token.getLast? = some doubleQuote) (either : (quoted || opens token) = true) :
      argEnd quoted token = token.length - 1 := by
    rw [argEnd, either, last]
    rfl
  rintro k ((value | quotes) | last)
  · unfold valueCuts at value
    split at value
    · exact value.elim
    · rename_i has
      split at value
      · rename_i opened
        rcases value with name | ⟨rfl, last⟩
        · exact .inl ⟨has, name⟩
        · refine .inr (closes last ?_).le
          simp [opens, opened]
      · exact .inl ⟨has, value⟩
  · split at quotes
    · rename_i both
      obtain ⟨rfl, last⟩ := quotes
      refine .inr (closes last ?_).le
      rw [both, Bool.true_or]
    · exact quotes.elim
  · split at last
    · rw [Set.mem_singleton_iff.mp last]
      exact .inr (argEnd_le _ _)
    · exact last.elim

/-- The name ends before the argument does. -/
theorem nameOf_le_argEnd (has : nameOf token ≠ token) :
    (nameOf token).length ≤ argEnd quoted token := by
  have name := nameOf_lt has
  unfold argEnd
  split <;> omega

/-- The value of an argument starts behind its end only when it is a single quote. -/
theorem valueStart_le (quoted : Bool) (has : nameOf token ≠ token) :
    valueStart token ≤ argEnd quoted token ∨ valueStart token = token.length := by
  have lengths := congrArg List.length (nameOf_split has)
  rw [List.length_append, List.length_cons] at lengths
  unfold valueStart argEnd
  by_cases opened : opens token = true
  · have positive : 0 < (valueOf token).length := by
      rw [List.length_pos_iff]
      intro empty
      rw [opens, empty] at opened
      cases opened
    rw [if_pos opened]
    split <;> omega
  · rw [if_neg opened]
    split
    · rename_i closed
      rw [Bool.and_eq_true, beq_iff_eq] at closed
      have positive : 0 < (valueOf token).length := by
        rw [List.length_pos_iff]
        intro empty
        have last := nameOf_split has
        rw [empty] at last
        rw [last, List.getLast?_concat] at closed
        exact absurd closed.2 (by decide)
      left
      omega
    · left
      omega

namespace Found

/-- Between two places of an argument stands a string, once it is cut. -/
theorem cut (quoted : Bool) (found : Found m region args body token behind scan) {a b : Nat}
    (order : a ≤ b) (bound : b ≤ token.length)
    (apart : ∀ j ∈ argCuts quoted token body.length, j < a ∨ b ≤ j)
    (ends : b ∈ argCuts quoted token body.length ∨ b = body.length) :
    HoldsString (cutAt m args (argCuts quoted token body.length)) (args + UInt64.ofNat a)
      ((token.drop a).take (b - a)) := by
  have fits : token.length ≤ body.length := by
    rw [found.length_eq]
    exact Nat.le_add_right _ _
  have part : (body.drop a).take (b - a) = (token.drop a).take (b - a) := by
    have inside : b - a ≤ (token.drop a).length := by
      rw [List.length_drop]
      omega
    rw [found.split, List.drop_append_of_le_length (by omega),
      List.take_append_of_le_length inside]
  rw [← part]
  exact found.string.held.cut
    (fun j member => (lt_of_lt_of_le (argCuts_lt quoted fits j member) (Nat.min_le_right _ _)).le)
    order (le_trans bound fits) apart ends

/-- The token is no longer than the body. -/
theorem fits (found : Found m region args body token behind scan) :
    token.length ≤ body.length := by
  rw [found.length_eq]
  exact Nat.le_add_right _ _

/-- The name of an argument is a string. -/
theorem name (found : Found m region args body token behind scan) :
    HoldsString (cutAt m args (argCuts quoted token body.length)) args
      (splitToken quoted token).1 := by
  have start : args + UInt64.ofNat 0 = args := UInt64.add_zero args
  rw [splitToken_eq]
  by_cases has : nameOf token = token
  · have whole := found.cut quoted (Nat.zero_le (argEnd quoted token)) (argEnd_le _ _)
      (fun j member => .inr ((argCuts_apart j member).resolve_left fun cut => cut.1 has))
      (argEnd_cut found.fits)
    rw [List.drop_zero, Nat.sub_zero, start] at whole
    rw [if_pos has]
    exact whole
  · have named : (token.drop 0).take ((nameOf token).length - 0) = nameOf token := by
      rw [List.drop_zero, Nat.sub_zero]
      conv_lhs => arg 2; rw [nameOf_split has]
      exact List.take_left
    have cut : (nameOf token).length ∈ argCuts quoted token body.length := by
      refine .inl (.inl ?_)
      unfold valueCuts
      rw [if_neg has]
      split
      · exact .inl rfl
      · exact rfl
    have held := found.cut quoted (Nat.zero_le (nameOf token).length) (nameOf_lt has).le
      (fun j member => .inr ?_) (.inl cut)
    · rw [named, start] at held
      rw [if_neg has]
      exact held
    · rcases argCuts_apart j member with ⟨-, rfl⟩ | behind
      · exact le_rfl
      · exact le_trans (nameOf_le_argEnd has) behind

/-- The value of an argument is a string. -/
theorem value (quoted : Bool) (found : Found m region args body token behind scan)
    (has : nameOf token ≠ token) :
    HoldsString (cutAt m args (argCuts quoted token body.length))
      (args + UInt64.ofNat (valueStart token))
      ((token.drop (valueStart token)).take (argEnd quoted token - valueStart token)) := by
  have start : (nameOf token).length < valueStart token := by
    unfold valueStart
    split <;> omega
  rcases valueStart_le quoted has with within | single
  · refine found.cut quoted within (argEnd_le _ _) (fun j member => ?_) (argEnd_cut found.fits)
    rcases argCuts_apart j member with ⟨-, rfl⟩ | behind
    · exact .inl start
    · exact .inr behind
  · have ends : token.length ∈ argCuts quoted token body.length ∨ token.length = body.length := by
      by_cases whole : token.length = body.length
      · exact .inr whole
      · have fits := found.fits
        refine .inl (.inr ?_)
        rw [if_pos (by omega)]
        exact rfl
    have empty := found.cut quoted (le_refl token.length) le_rfl
      (fun j _ => Nat.lt_or_ge j token.length) ends
    rw [single]
    simpa using empty

/-- Behind an argument the string is as it was. -/
theorem remains (quoted : Bool) (found : Found m region args body token behind scan) :
    StringIn (cutAt m args (argCuts quoted token body.length)) region
      (args + UInt64.ofNat (min (token.length + 1) body.length)) (body.drop (token.length + 1)) := by
  have fits := found.fits
  have dropped : body.drop (min (token.length + 1) body.length) = body.drop (token.length + 1) := by
    by_cases more : token.length + 1 ≤ body.length
    · rw [Nat.min_eq_left more]
    · rw [Nat.min_eq_right (by omega), List.drop_length, List.drop_eq_nil_of_le (by omega)]
  have inside := (found.string.drop (Nat.min_le_right (token.length + 1) body.length)).inside
  rw [dropped] at inside
  refine ⟨?_, inside⟩
  have held := found.string.held.cut
    (fun j member => (lt_of_lt_of_le (argCuts_lt quoted fits j member) (Nat.min_le_right _ _)).le)
    (Nat.min_le_right (token.length + 1) body.length) le_rfl (fun j member => ?_) (.inr rfl)
  · rwa [dropped, List.take_of_length_le (by rw [List.length_drop]; omega)] at held
  · exact .inl (argCuts_lt quoted fits j member)

end Found

/-- How many bytes of a text its first argument takes, with the spaces behind it. -/
def taken (text : List UInt8) : Nat := text.length - (behindArg text).length

/-- A string at an offset of a text, which ends before the rest of the text, or with the text when
nothing is left of it. -/
structure PartOf (m : Memory) (args : UInt64) (text : List UInt8) (k : Nat) (part : List UInt8) :
    Prop where
  /-- The part is a string at its offset. -/
  held : HoldsString m (args + UInt64.ofNat k) part
  /-- It ends in what the argument takes, or at the end of the text. -/
  ends : k + part.length < taken text ∨ k + part.length = text.length ∧ behindArg text = []

/-- An argument is taken off a text: its name and value are strings within what is taken, the rest
of the text is left to be parsed, and nothing else is changed. -/
structure Takes (m : Memory) (region : Set UInt64) (args : UInt64) (text : List UInt8) (arg : Arg) :
    Prop where
  /-- The name is part of the text. -/
  name : ∃ k, arg.param = args + UInt64.ofNat k ∧
    PartOf arg.memory args text k (firstArg text).1
  /-- So is the value, if there is one. -/
  value : match (firstArg text).2 with
    | none => arg.val = 0
    | some value => ∃ k, 0 < k ∧ arg.val = args + UInt64.ofNat k ∧
        PartOf arg.memory args text k value
  /-- The next argument is looked for behind what is taken. -/
  next : arg.next = args + UInt64.ofNat (taken text)
  /-- The rest of the text is there. -/
  rest : StringIn arg.memory region arg.next (behindArg text)
  /-- No byte behind what is taken changes. -/
  same : ∀ x ∉ window args (taken text), arg.memory x = m x

/-- Where the body of a text starts. -/
def bodyStart (text : List UInt8) : Nat := if isQuoted text then 1 else 0

/-- The body starts at the first byte or the second. -/
theorem bodyStart_le (text : List UInt8) : bodyStart text ≤ 1 := by
  unfold bodyStart
  split <;> omega

/-- The text is the opening quote, where there is one, and the body. -/
theorem bodyStart_length (nonempty : text ≠ []) :
    bodyStart text + (bodyOf text).length = text.length := by
  have positive := List.length_pos_iff.mpr nonempty
  unfold bodyStart bodyOf
  split
  · rw [List.length_tail]
    omega
  · omega

/-- The body is a string in the region of the text. -/
theorem stringIn_bodyOf (string : StringIn m region args text) (nonempty : text ≠ []) :
    StringIn m region (args + UInt64.ofNat (bodyStart text)) (bodyOf text) := by
  have split : bodyOf text = text.drop (bodyStart text) := by
    unfold bodyOf bodyStart
    split
    · rw [List.drop_one]
    · rw [List.drop_zero]
  rw [split]
  apply string.drop
  rw [← bodyStart_length nonempty]
  exact Nat.le_add_right _ _

/-- What is taken of a text is its body up to the argument's end, and the spaces behind that. -/
theorem taken_eq (nonempty : text ≠ []) : taken text = bodyStart text +
    min ((tokenOf (isQuoted text) (bodyOf text)).length + 1) (bodyOf text).length +
      (((bodyOf text).drop ((tokenOf (isQuoted text) (bodyOf text)).length + 1)).takeWhile
        isspace).length := by
  have whole := bodyStart_length nonempty
  have token := tokenOf_length (isQuoted text) (bodyOf text)
  have parts := congrArg List.length (List.takeWhile_append_dropWhile (p := isspace)
    (l := (bodyOf text).drop ((tokenOf (isQuoted text) (bodyOf text)).length + 1)))
  rw [List.length_append, List.length_drop] at parts
  unfold taken behindArg
  omega

/-- A part of the body ends before the rest of the text, or with the text. -/
theorem partOf_ends (nonempty : text ≠ [])
    (within : n ≤ (tokenOf (isQuoted text) (bodyOf text)).length) :
    bodyStart text + n < taken text ∨ bodyStart text + n = text.length ∧ behindArg text = [] := by
  have whole := bodyStart_length nonempty
  have token := tokenOf_length (isQuoted text) (bodyOf text)
  have ends := taken_eq nonempty
  by_cases last : n = (bodyOf text).length
  · right
    refine ⟨by omega, ?_⟩
    rw [behindArg, List.drop_eq_nil_of_le (by omega), List.dropWhile_nil]
  · left
    omega

/-- What `next_arg` gives for a text, once its argument is cut. -/
noncomputable def takenArg (m : Memory) (args : UInt64) (text : List UInt8) : Arg where
  param := args + UInt64.ofNat (bodyStart text)
  val := valuePlace (args + UInt64.ofNat (bodyStart text)) (tokenOf (isQuoted text) (bodyOf text))
  next := args + UInt64.ofNat (taken text)
  memory := cutAt m (args + UInt64.ofNat (bodyStart text)) (argCuts (isQuoted text)
    (tokenOf (isQuoted text) (bodyOf text)) (bodyOf text).length)

/-- The name is no longer than its token. -/
theorem splitToken_name_le : (splitToken quoted token).1.length ≤ token.length := by
  rw [splitToken_eq]
  by_cases has : nameOf token = token
  · rw [if_pos has]
    exact List.length_take_le' _ _
  · rw [if_neg has]
    exact (nameOf_lt has).le

/-- What `next_arg` gives is an argument taken off the string. -/
theorem Found.takes (nonempty : text ≠ []) (found : Found m region
      (args + UInt64.ofNat (bodyStart text)) (bodyOf text)
      (tokenOf (isQuoted text) (bodyOf text)) behind scan) :
    Takes m region args text (takenArg m args text) := by
  refine ⟨⟨bodyStart text, rfl, found.name, partOf_ends nonempty splitToken_name_le⟩, ?_, rfl, ?_,
    ?_⟩
  · rw [firstArg, splitToken_eq]
    by_cases has : nameOf (tokenOf (isQuoted text) (bodyOf text)) =
        tokenOf (isQuoted text) (bodyOf text)
    · rw [if_pos has]
      exact if_pos has
    · have place : (takenArg m args text).val = args + UInt64.ofNat (bodyStart text +
          valueStart (tokenOf (isQuoted text) (bodyOf text))) := by
        rw [← add_offsets]
        exact if_neg has
      have positive : 0 < valueStart (tokenOf (isQuoted text) (bodyOf text)) := by
        unfold valueStart
        split <;> omega
      have held := found.value (isQuoted text) has
      rw [add_offsets] at held
      rw [if_neg has]
      refine ⟨_, by omega, place, held, ?_⟩
      rw [Nat.add_assoc]
      apply partOf_ends nonempty
      have within := argEnd_le (isQuoted text) (tokenOf (isQuoted text) (bodyOf text))
      have either := valueStart_le (isQuoted text) has
      rw [List.length_take, List.length_drop]
      omega
  · have remains := found.remains (isQuoted text)
    rw [← List.takeWhile_append_dropWhile (p := isspace)
      (l := (bodyOf text).drop _)] at remains
    have behind := remains.append
    rw [add_offsets, add_offsets, ← Nat.add_assoc, ← taken_eq nonempty] at behind
    exact behind
  · intro x outside
    have fits := found.fits
    have short := found.short
    have whole := taken_eq nonempty
    have total : taken text ≤ text.length := Nat.sub_le _ _
    have length := bodyStart_length nonempty
    have start := bodyStart_le text
    have offset : (UInt64.ofNat (bodyStart text)).toNat = bodyStart text := by
      rw [UInt64.toNat_ofNat']
      omega
    refine cutAt_outside (fun j member => argCuts_lt _ fits j member) (fun inside => outside ?_) ?_
    · exact window_subset_of_le (by omega) (by omega) inside
    · omega

/-- `next_arg` takes an argument off a string, and touches nothing but the string and its NUL. -/
theorem nextArg_yields (string : StringIn m region args text) (nonempty : text ≠ [])
    (short : text.length < 2 ^ 32) (enough : text.length < turns) :
    Yields (Call.accesses region) (nextArg m turns args) (takenArg m args text) ∧
      Takes m region args text (takenArg m args text) := by
  have whole := bodyStart_length nonempty
  have first : (m args == doubleQuote) = isQuoted text := by
    cases text with
    | nil => exact absurd rfl nonempty
    | cons c rest =>
      rw [string.first]
      rfl
  have place : (if isQuoted text then args + 1 else args) =
      args + UInt64.ofNat (bodyStart text) := by
    unfold bodyStart
    split
    · rfl
    · exact (UInt64.add_zero args).symm
  have body := stringIn_bodyOf string nonempty
  have begins : StringIn m region (args + UInt64.ofNat (bodyStart text) + UInt64.ofNat 0)
      (bodyOf text) := by
    have zero : args + UInt64.ofNat (bodyStart text) + UInt64.ofNat 0 =
        args + UInt64.ofNat (bodyStart text) := UInt64.add_zero _
    rwa [zero]
  obtain ⟨scan, scans, i, equals⟩ := scanArg_yields ⟨0, 0, isQuoted text⟩ begins rfl (by omega)
    (show (bodyOf text).length < turns by omega)
  obtain ⟨behind, split, space⟩ := tokenOf_split (isQuoted text) (bodyOf text)
  have found : Found m region (args + UInt64.ofNat (bodyStart text)) (bodyOf text)
      (tokenOf (isQuoted text) (bodyOf text)) behind scan := by
    refine ⟨body, by omega, split, space, ?_, ?_⟩
    · rw [i, Nat.zero_add]
    · rw [equals]
      exact equalsFrom_start
  refine ⟨?_, found.takes nonempty⟩
  have fewer : ((bodyOf text).drop ((tokenOf (isQuoted text) (bodyOf text)).length + 1)).length <
      turns := by
    rw [List.length_drop]
    omega
  have skips := skipSpaces_yields (found.remains (isQuoted text)) fewer
  rw [add_offsets, add_offsets, ← taken_eq nonempty, ← add_offsets] at skips
  unfold nextArg
  apply yields_read string.mem
  simp only [first, place]
  exact scans.bind (found.takesValue.bind (found.takesQuote.bind (found.ends.bind
    (skips.bind yields_ret))))

end DragonStub

import DragonStub.Verif.VsprintfOutput
import Mathlib.Logic.Relation

/-!
# Progress of the formatter

A format is a sequence of directives, and a directive that stops at a `*` is taken up again behind
it. The check behind an integer conversion loops whatever its condition, so a call returns, with
progress at every directive, unless it comes to such a conversion or to a directive whose length
does not fit in an `int`.
-/

namespace DragonStub.Vsprintf

open BoundedOutput

/-- What the next directive of a format is. -/
inductive Directive
  /-- A text without conversions. -/
  | literal
  /-- The flags of a conversion whose width is an argument. -/
  | starWidth
  /-- A conversion up to its precision, which is an argument. -/
  | starPrecision
  /-- A conversion of a pointer. -/
  | pointer
  /-- An integer conversion behind a check, without a qualifier or with `l`, `h` or `hh`. -/
  | checked
  /-- Another conversion. -/
  | other
  /-- No conversion. -/
  | invalid
deriving DecidableEq

/-- Where a directive is taken up. -/
inductive Stage
  | start | afterWidth | afterPrecision
deriving DecidableEq

/-- What an integer conversion with a qualifier is. -/
def integerDirective (qualifier : UInt8) : Directive :=
  match Char.ofUInt8 qualifier with
  | 'L' | 'z' | 't' => .other
  | _ => .checked

/-- The directive that a conversion makes, and what follows it. -/
def atConversion (qualifier : UInt8) (fmt : List UInt8) : Directive × List UInt8 :=
  match Char.ofUInt8 (star fmt) with
  | 'c' | 's' | '%' => (.other, fmt.tail)
  | 'p' => (.pointer, fmt.tail)
  | 'o' | 'x' | 'X' | 'd' | 'i' | 'u' => (integerDirective qualifier, fmt.tail)
  | _ => (.invalid, fmt)

/-- Whether a character is one of `h`, `l`, `L`, `z` and `t`. -/
def isQualifier (c : UInt8) : Bool :=
  c == 'h'.toUInt8 || toLower c == 'l'.toUInt8 || c == 'z'.toUInt8 || c == 't'.toUInt8

/-- The directive from its qualifier on. A doubled `l` is an `L`. -/
def atQualifier (fmt : List UInt8) : Directive × List UInt8 :=
  if isQualifier (star fmt) then
    if star fmt = star fmt.tail ∧ star fmt = 'l'.toUInt8 then
      atConversion 'L'.toUInt8 fmt.tail.tail
    else if star fmt = star fmt.tail ∧ star fmt = 'h'.toUInt8 then
      atConversion 'H'.toUInt8 fmt.tail.tail
    else atConversion (star fmt) fmt.tail
  else atConversion 0 fmt

/-- The directive from its precision on. -/
def atPrecision (fmt : List UInt8) : Directive × List UInt8 :=
  if star fmt = '.'.toUInt8 then
    if star fmt.tail = '*'.toUInt8 then (.starPrecision, fmt.tail.tail)
    else atQualifier (fmt.tail.dropWhile isDigit)
  else atQualifier fmt

/-- The directive from its width on. -/
def atWidth (fmt : List UInt8) : Directive × List UInt8 :=
  if star fmt = '*'.toUInt8 then (.starWidth, fmt.tail) else atPrecision (fmt.dropWhile isDigit)

/-- The next directive of a format, and what follows it. -/
def directive : Stage → List UInt8 → Directive × List UInt8
  | .start, fmt =>
    if star fmt = '%'.toUInt8 then atWidth (fmt.tail.dropWhile fun c => (flagOf c).isSome)
    else (.literal, fmt.dropWhile (· != '%'.toUInt8))
  | .afterWidth, fmt => atPrecision fmt
  | .afterPrecision, fmt => atQualifier fmt

/-- Where the directive after this one is taken up. -/
def Directive.stage : Directive → Stage
  | .starWidth => .afterWidth
  | .starPrecision => .afterPrecision
  | _ => .start

/-- What is left behind a directive. The letters and digits behind a pointer belong to it. -/
def Directive.behind (kind : Directive) (fmt : List UInt8) : List UInt8 :=
  if kind = .pointer then fmt.dropWhile isAlnum else fmt

/-- The length of a directive, as an `int`. -/
def intLength (fmt rest : List UInt8) : Int := (Int32.ofNat (fmt.length - rest.length)).toInt

/-- A directive at which a call fails: an integer conversion behind a check, or a directive whose
length is no positive `int`. -/
def Fails (kind : Directive) (fmt rest : List UInt8) : Prop :=
  kind = .checked ∨ (kind ≠ .invalid ∧ intLength fmt rest ≤ 0)

/-- Reading a format directive by directive comes to one at which a call fails. -/
inductive Stuck : Stage → List UInt8 → Prop
  | here {stage : Stage} {fmt rest : List UInt8} {kind : Directive} (more : fmt ≠ [])
      (next : directive stage fmt = (kind, rest)) (fails : Fails kind fmt rest) : Stuck stage fmt
  | later {stage : Stage} {fmt rest : List UInt8} {kind : Directive} (more : fmt ≠ [])
      (next : directive stage fmt = (kind, rest)) (passes : ¬Fails kind fmt rest)
      (valid : kind ≠ .invalid)
      (stuck : Stuck kind.stage (kind.behind (fmt.drop (intLength fmt rest).toNat))) :
      Stuck stage fmt

/-- The stage at which a call of `format_decode` takes up its directive. -/
def FormatType.stage : FormatType → Stage
  | .width => .afterWidth
  | .precision => .afterPrecision
  | _ => .start

/-- The directive that a type stands for. -/
def FormatType.directive : FormatType → Directive
  | .none => .literal
  | .width => .starWidth
  | .precision => .starPrecision
  | .ptr => .pointer
  | .invalid => .invalid
  | _ => .other

/-- How `format_decode` answers to a directive: it never ends at a check, and otherwise stops
where the directive does. -/
def Answers (start : List UInt8) (found : Directive × List UInt8)
    (answer : Except Fault (Int32 × PrintfSpec)) : Prop :=
  if found.1 = .checked then answer = .error .hang
  else ∃ later, answer = .ok (distance start found.2, later) ∧ later.type.directive = found.1

variable {start fmt : List UInt8} {spec : PrintfSpec}

/-- A character that stands in the format can be skipped. -/
theorem next_of_star (notEnd : star fmt ≠ 0) : next fmt = .ok fmt.tail := by
  cases fmt with
  | nil => exact absurd rfl notEnd
  | cons first rest => rfl

/-- A known character is not the end of the format. -/
theorem next_of_char {c : Char} (here : Char.ofUInt8 (star fmt) = c)
    (notEnd : Char.ofUInt8 0 ≠ c) : next fmt = .ok fmt.tail := by
  apply next_of_star
  intro ended
  rw [ended] at here
  exact notEnd here

/-- A conversion that is no integer stops behind its character. -/
theorem decodeOther_answers {c : Char} {kind : Directive} {type : FormatType}
    (here : Char.ofUInt8 (star fmt) = c) (notEnd : Char.ofUInt8 0 ≠ c)
    (stands : type.directive = kind) (ends : kind ≠ .checked) :
    Answers start (kind, fmt.tail) (decodeOther start fmt type spec) := by
  rw [Answers, if_neg ends, decodeOther, next_of_char here notEnd]
  exact ⟨{ spec with type := type }, rfl, stands⟩

/-- An integer conversion loops at its check or has a type. -/
theorem integerType_directive (qualifier : UInt8) (spec : PrintfSpec) :
    if integerDirective qualifier = .checked then integerType qualifier spec = .error .hang
    else ∃ type, integerType qualifier spec = .ok type ∧
      type.directive = integerDirective qualifier := by
  unfold integerType integerDirective
  generalize Char.ofUInt8 qualifier = c
  split
  · exact ⟨.longLong, rfl, rfl⟩
  · exact ⟨.sizeT, rfl, rfl⟩
  · exact ⟨.ptrdiff, rfl, rfl⟩
  · rw [if_pos rfl]
    split
    all_goals first
      | contradiction
      | rfl

/-- An integer conversion loops at its check or stops behind its character. -/
theorem decodeInteger_answers {c : Char} (qualifier : UInt8)
    (here : Char.ofUInt8 (star fmt) = c) (notEnd : Char.ofUInt8 0 ≠ c) :
    Answers start (integerDirective qualifier, fmt.tail)
      (decodeInteger start fmt qualifier spec) := by
  have types := integerType_directive qualifier spec
  rw [Answers, decodeInteger, next_of_char here notEnd]
  by_cases checked : integerDirective qualifier = .checked
  · rw [if_pos checked] at types ⊢
    rw [types]
    rfl
  · rw [if_neg checked] at types ⊢
    obtain ⟨type, typed, stands⟩ := types
    rw [typed]
    exact ⟨{ spec with type := type }, rfl, stands⟩

/-- A conversion is answered as its directive is. -/
theorem decodeConversion_answers (qualifier : UInt8) :
    Answers start (atConversion qualifier fmt) (decodeConversion start fmt qualifier spec) := by
  unfold atConversion decodeConversion
  dsimp only
  generalize here : Char.ofUInt8 (star fmt) = c
  split
  · exact decodeOther_answers here (by decide) rfl (by decide)
  · exact decodeOther_answers here (by decide) rfl (by decide)
  · exact decodeOther_answers here (by decide) rfl (by decide)
  · exact decodeOther_answers here (by decide) rfl (by decide)
  · exact decodeInteger_answers qualifier here (by decide)
  · exact decodeInteger_answers qualifier here (by decide)
  · exact decodeInteger_answers qualifier here (by decide)
  · exact decodeInteger_answers qualifier here (by decide)
  · exact decodeInteger_answers qualifier here (by decide)
  · exact decodeInteger_answers qualifier here (by decide)
  · -- No conversion stands here, so the switch takes its default too.
    split
    all_goals first
      | contradiction
      | exact ⟨_, rfl, rfl⟩

/-- The label `qualifier` answers to the directive from its qualifier on. -/
theorem decodeQualifier_answers :
    Answers start (atQualifier fmt) (decodeQualifier start fmt spec) := by
  have condition : (star fmt == 'h'.toUInt8 || toLower (star fmt) == 'l'.toUInt8 ||
      star fmt == 'z'.toUInt8 || star fmt == 't'.toUInt8) = isQualifier (star fmt) := rfl
  rw [decodeQualifier, atQualifier, condition]
  by_cases qualified : isQualifier (star fmt) = true
  · have notEnd : star fmt ≠ 0 := by
      intro ended
      rw [ended] at qualified
      revert qualified
      decide
    rw [if_pos qualified, if_pos qualified, next_of_star notEnd]
    simp only [bind, Except.bind, beq_iff_eq]
    by_cases doubled : star fmt = star fmt.tail
    · have notLast : star fmt.tail ≠ 0 := by
        rw [← doubled]
        exact notEnd
      rw [if_pos doubled, next_of_star notLast]
      by_cases long : star fmt = 'l'.toUInt8
      · rw [if_pos long, if_pos ⟨doubled, long⟩]
        exact decodeConversion_answers _
      rw [if_neg long, if_neg fun both => long both.2]
      by_cases short : star fmt = 'h'.toUInt8
      · rw [if_pos short, if_pos ⟨doubled, short⟩]
        exact decodeConversion_answers _
      · rw [if_neg short, if_neg fun both => short both.2]
        exact decodeConversion_answers _
    · rw [if_neg doubled, if_neg fun both => doubled both.1, if_neg fun both => doubled both.1]
      exact decodeConversion_answers _
  · rw [if_neg qualified, if_neg qualified]
    exact decodeConversion_answers _

/-- A character that is no digit ends the digits. -/
theorem dropWhile_digit (digit : isDigit (star fmt) = false) : fmt.dropWhile isDigit = fmt := by
  cases fmt with
  | nil => rfl
  | cons c rest => exact List.dropWhile_cons_of_neg (by simpa [star] using digit)

/-- `skip_atoi` stops behind the digits. -/
theorem skipAtoi_ok (value : Int32) (digit : isDigit (star fmt) = true) :
    ∃ number, skipAtoi fmt value = .ok (number, fmt.dropWhile isDigit) := by
  induction fmt generalizing value with
  | nil => exact absurd digit (by decide)
  | cons c rest ih =>
    have dropped : (c :: rest).dropWhile isDigit = rest.dropWhile isDigit :=
      List.dropWhile_cons_of_pos digit
    rw [skipAtoi, dropped]
    by_cases more : isDigit (star rest) = true
    · rw [if_pos more]
      exact ih _ more
    · rw [if_neg more, dropWhile_digit (by simpa using more)]
      exact ⟨_, rfl⟩

/-- The label `precision` answers to the directive from its precision on. -/
theorem decodePrecision_answers :
    Answers start (atPrecision fmt) (decodePrecision start fmt spec) := by
  rw [decodePrecision, atPrecision]
  simp only [beq_iff_eq]
  by_cases point : star fmt = '.'.toUInt8
  · have notEnd : star fmt ≠ 0 := by
      rw [point]
      decide
    rw [if_pos point, if_pos point, next_of_star notEnd]
    simp only [bind, Except.bind]
    by_cases digit : isDigit (star fmt.tail) = true
    · have noStar : star fmt.tail ≠ '*'.toUInt8 := by
        intro here
        rw [here] at digit
        exact absurd digit (by decide)
      obtain ⟨number, skipped⟩ := skipAtoi_ok 0 digit
      rw [if_pos digit, if_neg noStar, skipped]
      exact decodeQualifier_answers
    · rw [if_neg digit, dropWhile_digit (by simpa using digit)]
      by_cases here : star fmt.tail = '*'.toUInt8
      · have notLast : star fmt.tail ≠ 0 := by
          rw [here]
          decide
        rw [if_pos here, if_pos here, next_of_star notLast]
        exact ⟨_, rfl, rfl⟩
      · rw [if_neg here, if_neg here]
        exact decodeQualifier_answers
  · rw [if_neg point, if_neg point]
    exact decodeQualifier_answers

/-- `format_decode` from its width on answers to the directive from there. -/
theorem decodeWidth_answers : Answers start (atWidth fmt) (decodeWidth start fmt spec) := by
  rw [decodeWidth, atWidth]
  simp only [beq_iff_eq]
  by_cases digit : isDigit (star fmt) = true
  · have noStar : star fmt ≠ '*'.toUInt8 := by
      intro here
      rw [here] at digit
      exact absurd digit (by decide)
    obtain ⟨number, skipped⟩ := skipAtoi_ok 0 digit
    rw [if_pos digit, if_neg noStar, skipped]
    exact decodePrecision_answers
  · rw [if_neg digit, dropWhile_digit (by simpa using digit)]
    by_cases here : star fmt = '*'.toUInt8
    · have notEnd : star fmt ≠ 0 := by
        rw [here]
        decide
      rw [if_pos here, if_pos here, next_of_star notEnd]
      exact ⟨_, rfl, rfl⟩
    · rw [if_neg here, if_neg here]
      exact decodePrecision_answers

/-- The loop over the flags stops behind them. -/
theorem skipFlags_ok (fmt : List UInt8) (c flags : UInt8) : ∃ all, skipFlags (c :: fmt) flags =
    .ok (fmt.dropWhile fun c => (flagOf c).isSome, all) := by
  induction fmt generalizing c flags with
  | nil => exact ⟨flags, rfl⟩
  | cons first rest ih =>
    rw [skipFlags]
    cases here : flagOf first with
    | none =>
      rw [List.dropWhile_cons_of_neg (by simp [here])]
      simp only [star, List.headD_cons, here]
      exact ⟨flags, rfl⟩
    | some flag =>
      rw [List.dropWhile_cons_of_pos (by simp [here])]
      simp only [star, List.headD_cons, here]
      exact ih first (flags ||| flag)

/-- `format_decode` answers to the directive at its stage. -/
theorem formatDecode_answers (spec : PrintfSpec) (more : fmt ≠ []) :
    Answers fmt (directive spec.type.stage fmt) (formatDecode fmt spec) := by
  unfold formatDecode
  split
  · rename_i width
    rw [width]
    exact decodePrecision_answers
  · rename_i precision
    rw [precision]
    exact decodeQualifier_answers
  · rename_i notWidth notPrecision
    have stage : spec.type.stage = .start := by
      unfold FormatType.stage
      split
      · contradiction
      · contradiction
      · rfl
    cases fmt with
    | nil => exact absurd rfl more
    | cons c rest =>
      have head : star (c :: rest) = c := rfl
      rw [stage, directive, head]
      by_cases percent : c = '%'.toUInt8
      · have stays : (c :: rest).dropWhile (· != '%'.toUInt8) = c :: rest :=
          List.dropWhile_cons_of_neg (by simp [percent])
        obtain ⟨flags, skipped⟩ := skipFlags_ok rest c 0
        rw [if_pos percent]
        simp only [stays]
        rw [if_neg (by simp), skipped]
        exact decodeWidth_answers
      · have passed : (c :: rest).dropWhile (· != '%'.toUInt8) =
            rest.dropWhile (· != '%'.toUInt8) :=
          List.dropWhile_cons_of_pos (by simpa using percent)
        have shorter := (List.dropWhile_sublist (l := rest) (· != '%'.toUInt8)).length_le
        rw [if_neg percent]
        simp only [passed]
        rw [if_pos (by left; rw [List.length_cons]; omega)]
        exact ⟨{ spec with type := .none }, rfl, rfl⟩

/-- A checked directive hangs. -/
theorem decode_checked {rest : List UInt8} (more : fmt ≠ [])
    (next : directive spec.type.stage fmt = (.checked, rest)) :
    formatDecode fmt spec = .error .hang := by
  have answers := formatDecode_answers spec more
  rw [next] at answers
  exact answers

/-- A directive without a check is decoded, and ends where the directive does. -/
theorem decode_unchecked {kind : Directive} {rest : List UInt8} (more : fmt ≠ [])
    (next : directive spec.type.stage fmt = (kind, rest)) (unchecked : kind ≠ .checked) :
    ∃ later, formatDecode fmt spec = .ok (distance fmt rest, later) ∧
      later.type.directive = kind := by
  have answers := formatDecode_answers spec more
  rw [next, Answers, if_neg unchecked] at answers
  exact answers

/-- The stage behind a decoded directive is that of its kind. -/
theorem directive_stage (type : FormatType) : type.directive.stage = type.stage := by
  cases type <;> rfl

/-- Only a pointer reads on behind its directive. -/
theorem directive_behind {type : FormatType} (noPointer : type ≠ .ptr) :
    type.directive.behind fmt = fmt := by
  apply if_neg
  cases type <;> first
    | exact absurd rfl noPointer
    | decide

/-- Setting the width keeps the kind of the directive. -/
theorem setFieldWidth_type (width : Int32) : (setFieldWidth spec width).type = spec.type := by
  unfold setFieldWidth
  split <;> rfl

/-- Setting the precision keeps the kind of the directive. -/
theorem setPrecision_type (prec : Int32) : (setPrecision spec prec).type = spec.type := by
  unfold setPrecision
  split <;> rfl

/-- A cursor stands within the format, before some text. -/
structure Cursor.Before (cursor : Cursor) (call : Call) (fmt : List UInt8) : Prop where
  /-- The position is in the format. -/
  inside : 0 ≤ cursor.position
  /-- The rest stands behind it. -/
  left : call.format.text.drop cursor.position.toNat = fmt

variable {call : Call} {finish : Nat} {cursor : Cursor} {out : Sink}

/-- A cursor in front of a rest of the format finds that rest. -/
theorem Cursor.Before.remaining (before : cursor.Before call fmt) :
    remaining call cursor.position = .ok fmt := by
  have inside := before.inside
  rw [Vsprintf.remaining, if_neg (by omega), before.left]

/-- Moving on within the format leaves what follows. -/
theorem Cursor.Before.moved {later : Cursor} (before : cursor.Before call fmt) (length : Nat)
    (moved : later.position = cursor.position + length) :
    later.Before call (fmt.drop length) := by
  have inside := before.inside
  have index : later.position.toNat = cursor.position.toNat + length := by omega
  refine ⟨by omega, ?_⟩
  rw [index, ← List.drop_drop, before.left]

/-- Skipping what is taken leaves what is dropped. -/
theorem drop_takeWhile (p : UInt8 → Bool) :
    fmt.drop (fmt.takeWhile p).length = fmt.dropWhile p := by
  calc fmt.drop (fmt.takeWhile p).length
      = (fmt.takeWhile p ++ fmt.dropWhile p).drop (fmt.takeWhile p).length := by
        rw [List.takeWhile_append_dropWhile]
    _ = fmt.dropWhile p := List.drop_left

/-- Behind a directive of positive length the loop goes on, at its stage. -/
theorem dispatch_goes_on (finish : Nat) (out : Sink) (oldFmt : List UInt8) {read : Int32}
    (before : cursor.Before call fmt) (forward : 0 ≤ read.toInt) (valid : cursor.spec.type ≠ .invalid) :
    ∃ later written, dispatch call finish oldFmt read cursor out = .ok (some later, written) ∧
      later.spec.type = cursor.spec.type ∧
      later.Before call (cursor.spec.type.directive.behind fmt) := by
  unfold dispatch
  dsimp only
  have stays (type : cursor.spec.type ≠ .ptr) (later : Cursor)
      (same : later.position = cursor.position) :
      later.Before call (cursor.spec.type.directive.behind fmt) := by
    rw [directive_behind type]
    exact ⟨same ▸ before.inside, same ▸ before.left⟩
  split
  · rename_i kind
    rw [copyLiteral_puts oldFmt forward]
    exact ⟨cursor, _, rfl, rfl, stays (by rw [kind]; decide) _ rfl⟩
  · rename_i kind
    exact ⟨_, _, rfl, setFieldWidth_type _, stays (by rw [kind]; decide) _ rfl⟩
  · rename_i kind
    exact ⟨_, _, rfl, setPrecision_type _, stays (by rw [kind]; decide) _ rfl⟩
  · rename_i kind
    exact ⟨_, _, rfl, rfl, stays (by rw [kind]; decide) _ rfl⟩
  · rename_i kind
    exact ⟨_, _, rfl, rfl, stays (by rw [kind]; decide) _ rfl⟩
  · rename_i kind
    have behind : cursor.spec.type.directive.behind fmt = fmt.dropWhile isAlnum := by
      rw [kind]
      rfl
    rw [before.remaining, behind, ← drop_takeWhile]
    exact ⟨_, _, rfl, rfl, before.moved _ rfl⟩
  · rename_i kind
    exact ⟨_, _, rfl, rfl, stays (by rw [kind]; decide) _ rfl⟩
  · rename_i kind
    exact absurd kind valid
  · rename_i notNone notWidth notPrecision notChar notStr notPtr notPercent notInvalid
    exact ⟨_, _, rfl, rfl, stays notPtr _ rfl⟩

/-- A turn decodes the directive at its stage and does what it says. -/
theorem step_decoded {read : Int32} {later : PrintfSpec} (before : cursor.Before call fmt)
    (more : fmt ≠ []) (decoded : formatDecode fmt cursor.spec = .ok (read, later)) :
    step call finish cursor out =
      dispatch call finish fmt read ⟨cursor.position + read.toInt, later, cursor.taken⟩ out := by
  rw [step, before.remaining]
  simp only [bind, Except.bind, if_neg more, decoded]

/-- A directive of positive length leads on to what follows it. -/
theorem step_goes_on (finish : Nat) (out : Sink) {kind : Directive} {rest : List UInt8}
    (before : cursor.Before call fmt) (more : fmt ≠ [])
    (next : directive cursor.spec.type.stage fmt = (kind, rest))
    (passes : ¬Fails kind fmt rest) (valid : kind ≠ .invalid) :
    ∃ later written, step call finish cursor out = .ok (some later, written) ∧
      later.spec.type.stage = kind.stage ∧
      later.Before call (kind.behind (fmt.drop (intLength fmt rest).toNat)) := by
  have forward : 0 < intLength fmt rest := by
    by_contra short
    exact passes (.inr ⟨valid, by omega⟩)
  obtain ⟨spec, decoded, stands⟩ := decode_unchecked more next fun checked => passes (.inl checked)
  have length : (distance fmt rest).toInt = intLength fmt rest := rfl
  have validType : spec.type ≠ .invalid := by
    intro invalid
    rw [invalid] at stands
    exact valid stands.symm
  have moved : Cursor.Before ⟨cursor.position + (distance fmt rest).toInt, spec, cursor.taken⟩ call
      (fmt.drop (intLength fmt rest).toNat) := by
    apply before.moved
    dsimp only
    omega
  obtain ⟨later, written, turned, type, place⟩ :=
    dispatch_goes_on finish out fmt moved (show 0 ≤ (distance fmt rest).toInt by omega) validType
  refine ⟨later, written, ?_, ?_, ?_⟩
  · rw [step_decoded before more decoded, turned]
  · rw [type, ← stands, directive_stage]
  · rw [← stands]
    exact place

/-- An invalid directive comes from an invalid kind alone. -/
theorem directive_invalid {type : FormatType} (stands : type.directive = .invalid) :
    type = .invalid := by
  cases type <;> first
    | rfl
    | cases stands

/-- A directive that is no conversion ends the loop. -/
theorem step_invalid (finish : Nat) (out : Sink) {rest : List UInt8}
    (before : cursor.Before call fmt) (more : fmt ≠ [])
    (next : directive cursor.spec.type.stage fmt = (.invalid, rest)) :
    step call finish cursor out = .ok (none, out) := by
  obtain ⟨spec, decoded, stands⟩ := decode_unchecked more next (by decide)
  rw [step_decoded before more decoded, dispatch]
  simp only [directive_invalid stands]

/-- A length is at least the `int` that it wraps to. -/
theorem intLength_le (fmt rest : List UInt8) : intLength fmt rest ≤ fmt.length := by
  have size : Int32.size = 2 ^ 32 := rfl
  rw [intLength, Int32.toInt_ofNat', Int.bmod_def, size]
  split <;> omega

/-- One turn of the loop that goes on. -/
def Turn (call : Call) (finish : Nat) (before after : Cursor × Sink) : Prop :=
  step call finish before.1 before.2 = .ok (some after.1, after.2)

/-- A call of `format_decode` finishes within the format, and further on unless it finds no
conversion. -/
def Progress (fmt : List UInt8) (spec : PrintfSpec) : Prop :=
  ∃ read later, formatDecode fmt spec = .ok (read, later) ∧ read.toInt ≤ fmt.length ∧
    (later.type = .invalid ∨ 0 < read.toInt)

/-- A call of `format_decode` makes progress unless it comes to a directive that fails. -/
theorem progress_iff {kind : Directive} {rest : List UInt8} (more : fmt ≠ [])
    (next : directive spec.type.stage fmt = (kind, rest)) :
    Progress fmt spec ↔ ¬Fails kind fmt rest := by
  by_cases checked : kind = .checked
  · rw [checked] at next
    rw [Progress, decode_checked more next]
    constructor
    · rintro ⟨read, later, decoded, _⟩
      cases decoded
    · intro passes
      exact absurd (.inl checked) passes
  obtain ⟨later, decoded, stands⟩ := decode_unchecked more next checked
  have length : (distance fmt rest).toInt = intLength fmt rest := rfl
  rw [Progress, decoded]
  constructor
  · rintro ⟨read, found, same, _, forward⟩ fails
    cases same
    cases fails with
    | inl isChecked => exact checked isChecked
    | inr short =>
      cases forward with
      | inl invalid =>
        rw [invalid] at stands
        exact short.1 stands.symm
      | inr positive => exact absurd short.2 (not_le.mpr positive)
  · intro passes
    refine ⟨_, later, rfl, intLength_le fmt rest, ?_⟩
    by_cases invalid : kind = .invalid
    · left
      exact directive_invalid (stands.trans invalid)
    · right
      by_contra short
      exact passes (.inr ⟨invalid, not_lt.mp short⟩)

/-- Every call of `format_decode` that a run comes to makes progress. -/
def ProgressFrom (call : Call) (finish : Nat) (cursor : Cursor) (out : Sink) : Prop :=
  ∀ later written fmt, Relation.ReflTransGen (Turn call finish) (cursor, out) (later, written) →
    remaining call later.position = .ok fmt → fmt ≠ [] → Progress fmt later.spec

/-- A call of `vsnprintf` returns, and makes progress at every directive. -/
structure ReturnsProgressing (call : Call) (buf size : UInt64) (memory : Nat → UInt8) : Prop where
  /-- Some number of turns is enough. -/
  returns : ∃ turns result, vsnprintf call turns buf size memory = .ok result
  /-- Every call of `format_decode` makes progress. -/
  progress : size.toNat ≤ intMax →
    ProgressFrom call (bufferEnd buf size).toNat Cursor.initial ⟨buf.toNat, memory⟩

/-- A stuck format is no place from where every directive makes progress. -/
theorem Stuck.no_progress {stage : Stage} (stuck : Stuck stage fmt)
    (before : cursor.Before call fmt) (resumed : cursor.spec.type.stage = stage) :
    ¬ProgressFrom call finish cursor out := by
  induction stuck generalizing cursor out with
  | here more next fails =>
    intro progress
    rw [← resumed] at next
    exact (progress_iff more next).mp (progress cursor out _ .refl before.remaining more) fails
  | later more next passes valid stuck ih =>
    intro progress
    rw [← resumed] at next
    obtain ⟨later, written, turned, stageLater, place⟩ :=
      step_goes_on finish out before more next passes valid
    have turn : Turn call finish (cursor, out) (later, written) := turned
    apply ih place stageLater
    intro last left fmt run
    exact progress last left fmt (.head turn run)

/-- The text behind a directive is shorter than before it. -/
theorem behind_length (fmt : List UInt8) {kind : Directive} {rest : List UInt8}
    (passes : ¬Fails kind fmt rest) (valid : kind ≠ .invalid) :
    (kind.behind (fmt.drop (intLength fmt rest).toNat)).length < fmt.length := by
  have forward : 0 < intLength fmt rest := by
    by_contra short
    exact passes (.inr ⟨valid, by omega⟩)
  have within := intLength_le fmt rest
  have dropped : (kind.behind (fmt.drop (intLength fmt rest).toNat)).length ≤
      (fmt.drop (intLength fmt rest).toNat).length := by
    unfold Directive.behind
    split
    · exact (List.dropWhile_sublist _).length_le
    · exact le_rfl
  rw [List.length_drop] at dropped
  omega

/-- A run that stops at once makes progress if its only call does. -/
theorem progressFrom_stop {left : Sink} (stops : step call finish cursor out = .ok (none, left))
    (progress : ∀ fmt, remaining call cursor.position = .ok fmt → fmt ≠ [] →
      Progress fmt cursor.spec) : ProgressFrom call finish cursor out := by
  intro later written fmt run
  cases run.cases_head with
  | inl same =>
    cases same
    exact progress fmt
  | inr goesOn =>
    obtain ⟨between, turn, _⟩ := goesOn
    rw [Turn, stops] at turn
    cases turn

/-- A turn that stops ends the loop. -/
theorem loop_stop {left : Sink} (stops : step call finish cursor out = .ok (none, left)) :
    loop call finish 1 cursor out = .ok left := by
  simp only [loop, stops, bind, Except.bind]
  rfl

/-- A turn that goes on leaves the rest to the loop. -/
theorem loop_turn {later : Cursor} {written : Sink} (turns : Nat)
    (turned : step call finish cursor out = .ok (some later, written)) :
    loop call finish (turns + 1) cursor out = loop call finish turns later written := by
  simp only [loop, turned, bind, Except.bind]

/-- Where no directive fails, the loop ends. -/
theorem loop_returns (finish : Nat) (out : Sink) (before : cursor.Before call fmt)
    (free : ¬Stuck cursor.spec.type.stage fmt) :
    (∃ turns left, loop call finish turns cursor out = .ok left) ∧
      ProgressFrom call finish cursor out := by
  induction length : fmt.length using Nat.strong_induction_on generalizing fmt cursor out with
  | h bound ih =>
    by_cases more : fmt = []
    · have stops : step call finish cursor out = .ok (none, out) := by
        rw [step, before.remaining]
        exact if_pos more
      refine ⟨⟨1, out, loop_stop stops⟩, progressFrom_stop stops fun found here nonempty => ?_⟩
      rw [before.remaining] at here
      cases here
      exact absurd more nonempty
    cases next : directive cursor.spec.type.stage fmt with
    | mk kind rest =>
      have passes : ¬Fails kind fmt rest := fun fails => free (.here more next fails)
      have progress : Progress fmt cursor.spec := (progress_iff more next).mpr passes
      by_cases invalid : kind = .invalid
      · rw [invalid] at next
        have stops := step_invalid finish out before more next
        refine ⟨⟨1, out, loop_stop stops⟩, progressFrom_stop stops fun found here _ => ?_⟩
        rw [before.remaining] at here
        cases here
        exact progress
      · obtain ⟨later, written, turned, stage, place⟩ :=
          step_goes_on finish out before more next passes invalid
        have shorter := behind_length fmt passes invalid
        have freeLater : ¬Stuck later.spec.type.stage
            (kind.behind (fmt.drop (intLength fmt rest).toNat)) := by
          rw [stage]
          exact fun stuck => free (.later more next passes invalid stuck)
        obtain ⟨⟨turns, left, ends⟩, progressLater⟩ :=
          ih _ (length ▸ shorter) written place freeLater rfl
        refine ⟨⟨turns + 1, left, ?_⟩, ?_⟩
        · rw [loop_turn turns turned, ends]
        · intro last result found run
          cases run.cases_head with
          | inl same =>
            cases same
            intro here _
            rw [before.remaining] at here
            cases here
            exact progress
          | inr goesOn =>
            obtain ⟨between, turn, rest⟩ := goesOn
            rw [Turn, turned] at turn
            cases turn
            exact progressLater last result found rest

/-- The loop starts in front of the whole format. -/
theorem before_initial (call : Call) : Cursor.initial.Before call call.format.text :=
  ⟨le_rfl, rfl⟩

/-- A call returns with progress at every directive exactly when its size is refused, or no
directive of its format fails. -/
theorem vsnprintf_returns_iff (call : Call) (buf size : UInt64) (memory : Nat → UInt8) :
    ReturnsProgressing call buf size memory ↔
      (intMax < size.toNat ∨ ¬Stuck .start call.format.text) := by
  by_cases refused : intMax < size.toNat
  · have returned (turns : Nat) : vsnprintf call turns buf size memory = .ok (0, memory) :=
      if_pos refused
    refine ⟨fun _ => .inl refused, fun _ => ⟨⟨0, _, returned 0⟩, fun accepted => ?_⟩⟩
    exact absurd refused (not_lt.mpr accepted)
  constructor
  · intro returns
    right
    intro stuck
    exact stuck.no_progress (before_initial call) rfl (returns.progress (not_lt.mp refused))
  · intro condition
    have free := condition.resolve_left refused
    obtain ⟨⟨turns, left, ends⟩, progress⟩ := loop_returns (bufferEnd buf size).toNat
      ⟨buf.toNat, memory⟩ (before_initial call) free
    have returned : ∃ result, vsnprintf call turns buf size memory = .ok result := by
      rw [vsnprintf, if_neg refused]
      simp only [ends, bind, Except.bind]
      exact ⟨_, rfl⟩
    exact ⟨⟨turns, returned⟩, fun _ => progress⟩

/-- `"%d"`, with any arguments. -/
def decimalCall : Call where
  format := ⟨chars ['%', 'd'], by decide⟩
  arguments := fun _ => 0
  reading := fun _ => 0

/-- A decimal conversion does not return. -/
theorem vsnprintf_hangs_decimal :
    ¬ReturnsProgressing decimalCall 0x1000 16 (fun _ => 0) := by
  intro returns
  obtain ⟨turns, result, returned⟩ := returns.returns
  have hangs : vsnprintf decimalCall turns 0x1000 16 (fun _ => 0) = .error .hang := by
    cases turns with
    | zero => rfl
    | succ turns => rfl
  rw [hangs] at returned
  cases returned

end DragonStub.Vsprintf

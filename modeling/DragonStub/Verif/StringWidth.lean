import DragonStub.Base.CString
import DragonStub.Verif.VsprintfOutput

/-!
# Width of a string

A width that is an argument is stored into a field of 24 bits, which is clamped when it has lost
something, and is negated when it is negative. The least value of that field is stored as it is, and
negating it gives it back.
-/

namespace DragonStub.Vsprintf

open BoundedOutput ByteMemory

variable {call : Call} {text : List UInt8} {turns : Nat} {w : Int32}

/-- What `set_field_width` leaves in the field. -/
def keptWidth (w : Int32) : Int :=
  if field 24 w.toInt ≠ w.toInt then min (max w.toInt (-fieldWidthMax)) fieldWidthMax
  else field 24 w.toInt

/-- Setting the width changes it alone. -/
theorem setFieldWidth_eq (spec : PrintfSpec) (w : Int32) :
    setFieldWidth spec w = { spec with fieldWidth := keptWidth w } := by
  unfold setFieldWidth keptWidth
  split <;> rfl

/-- A field of 24 bits keeps what lies in its range. -/
theorem field_of_le {value : Int} (lower : -2 ^ 23 ≤ value) (upper : value < 2 ^ 23) :
    field 24 value = value :=
  Int.bmod_eq_of_le lower upper

/-- Only the least value of the field escapes the clamp. -/
theorem keptWidth_eq (w : Int32) : keptWidth w =
    if w.toInt = -2 ^ 23 then -2 ^ 23 else min (max w.toInt (-fieldWidthMax)) fieldWidthMax := by
  have range : -2 ^ 23 ≤ field 24 w.toInt ∧ field 24 w.toInt < 2 ^ 23 :=
    ⟨Int.le_bmod (by decide), Int.bmod_lt (by decide)⟩
  unfold keptWidth fieldWidthMax
  by_cases least : w.toInt = -2 ^ 23
  · rw [if_pos least, least, if_neg (not_not.mpr (field_of_le (by decide) (by decide)))]
    exact field_of_le (by decide) (by decide)
  rw [if_neg least]
  by_cases same : field 24 w.toInt = w.toInt
  · rw [if_neg (not_not.mpr same)]
    omega
  · rw [if_pos same]

/-- The conversion of `%*s`. -/
def starSpec (w : Int32) : PrintfSpec :=
  if keptWidth w < 0 then ⟨.str, field 24 (-keptWidth w), flagLeft, 10, -1⟩
  else ⟨.str, keptWidth w, 0, 10, -1⟩

/-- A negative width sets the flag for the left. -/
theorem starSpec_left (w : Int32) : (starSpec w).has flagLeft = decide (w.toInt < 0) := by
  have sign : keptWidth w < 0 ↔ w.toInt < 0 := by
    rw [keptWidth_eq]
    unfold fieldWidthMax
    split <;> omega
  unfold starSpec
  by_cases negative : w.toInt < 0
  · rw [if_pos (sign.mpr negative), decide_eq_true negative]
    change (flagLeft &&& flagLeft != 0) = true
    decide
  · rw [if_neg (mt sign.mp negative), decide_eq_false negative]
    change (0 &&& flagLeft != 0) = false
    decide

/-- The field has the width that was asked for, as far as it goes, unless that is the least one. -/
theorem starSpec_width (w : Int32) : (starSpec w).fieldWidth =
    if w.toInt = -2 ^ 23 then -2 ^ 23 else min |w.toInt| fieldWidthMax := by
  have kept := keptWidth_eq w
  unfold starSpec
  by_cases least : w.toInt = -2 ^ 23
  · rw [if_pos least] at kept ⊢
    rw [kept]
    rfl
  rw [if_neg least] at kept ⊢
  unfold fieldWidthMax at kept ⊢
  by_cases negative : keptWidth w < 0
  · rw [if_pos negative, abs_of_neg (by omega)]
    change field 24 (-keptWidth w) = _
    rw [field_of_le (by omega) (by omega)]
    omega
  · rw [if_neg negative, abs_of_nonneg (by omega)]
    change keptWidth w = _
    omega

/-- The format `%*s`. -/
def starFormat : List UInt8 := chars ['%', '*', 's']

/-- The format behind a position. -/
theorem remaining_star (format : call.format.text = starFormat) (position : Nat) :
    remaining call position = .ok (starFormat.drop position) := by
  rw [← format]
  exact if_neg (by omega)

/-- The width is decoded first. -/
theorem step_width (format : call.format.text = starFormat) (finish : Nat) (out : Sink) :
    step call finish Cursor.initial out =
      .ok (some ⟨2, ⟨.width, keptWidth (Word.toInt (call.arguments 0)), 0, 0, 0⟩, 1⟩, out) := by
  have rest : remaining call Cursor.initial.position = .ok starFormat := remaining_star format 0
  have more : starFormat ≠ [] := List.cons_ne_nil _ _
  have decoded : formatDecode starFormat Cursor.initial.spec = .ok (2, ⟨.width, -1, 0, 0, 0⟩) := rfl
  simp only [step, rest, bind, Except.bind, if_neg more, decoded]
  change Except.ok (Option.some (Cursor.mk 2 (setFieldWidth _ _) 1), out) = _
  rw [setFieldWidth_eq]
  rfl

/-- Then the conversion, with the width negated if it is negative. -/
theorem step_string (format : call.format.text = starFormat) (finish : Nat) (out : Sink) :
    step call finish ⟨2, ⟨.width, keptWidth w, 0, 0, 0⟩, 1⟩ out =
      .ok (some ⟨3, starSpec w, 2⟩,
        string finish call.reading (call.arguments 1) (starSpec w) out) := by
  have rest : remaining call 2 = .ok (chars ['s']) := remaining_star format 2
  have more : chars ['s'] ≠ [] := List.cons_ne_nil _ _
  have decoded : formatDecode (chars ['s']) ⟨.width, keptWidth w, 0, 0, 0⟩ = .ok (1, starSpec w) := by
    unfold starSpec
    by_cases negative : keptWidth w < 0
    · simp only [formatDecode, if_pos negative]
      rfl
    · simp only [formatDecode, if_neg negative]
      rfl
  have type : (starSpec w).type = .str := by
    unfold starSpec
    split <;> rfl
  simp only [step, rest, bind, Except.bind, if_neg more, decoded, dispatch, type]
  rfl

/-- The width is decoded, then the conversion, and then the format is at its end. -/
theorem loop_star (format : call.format.text = starFormat) (finish : Nat) (out : Sink) :
    loop call finish (turns + 3) Cursor.initial out =
      .ok (string finish call.reading (call.arguments 1) (starSpec (Word.toInt (call.arguments 0)))
        out) := by
  have rest : remaining call 3 = .ok [] := remaining_star format 3
  have last (spec : PrintfSpec) (out : Sink) : step call finish ⟨3, spec, 2⟩ out = .ok (none, out) := by
    simp only [step, rest, bind, Except.bind, if_true]
  simp only [loop, step_width format, step_string format, last, bind, Except.bind]
  rfl

/-- A copy ends at the NUL, if its limit does not come first. -/
theorem copied_eq {s : Nat → UInt8} {limit index : Nat} (noNul : 0 ∉ text)
    (bytes : ∀ position byte, text[position]? = some byte → s (index + position) = byte)
    (nul : s (index + text.length) = 0) (room : text.length < limit) :
    copied s limit index = text := by
  induction text generalizing index limit with
  | nil =>
    obtain ⟨limit, rfl⟩ : ∃ more, limit = more + 1 := ⟨limit - 1, by simp at room; omega⟩
    have last : s index = 0 := nul
    rw [copied, if_pos (beq_iff_eq.mpr last)]
  | cons c rest ih =>
    obtain ⟨limit, rfl⟩ : ∃ more, limit = more + 1 := ⟨limit - 1, by omega⟩
    have first : s index = c := bytes 0 c rfl
    have goesOn : ¬(s index == 0) = true := by
      rw [first, beq_iff_eq]
      exact fun zero => noNul (by simp [zero])
    rw [List.length_cons] at nul room
    rw [copied, if_neg goesOn, first,
      ih (fun member => noNul (List.mem_cons_of_mem c member)) ?_ ?_ (by omega)]
    · intro position byte held
      have next := bytes (position + 1) byte held
      rwa [← Nat.add_assoc, Nat.add_right_comm] at next
    · rwa [Nat.add_right_comm]

/-- A string is shown whole when no precision cuts it. -/
theorem shown_star {s : UInt64} (held : HoldsString call.reading s text)
    (short : text.length < 2 ^ 23) : shown (starSpec w) (pointee call.reading s) = text := by
  have precision : (starSpec w).precision = -1 := by
    unfold starSpec
    split <;> rfl
  refine copied_eq held.noNul (fun position byte found => ?_) ?_ ?_
  · obtain ⟨inside, rfl⟩ := List.getElem?_eq_some_iff.mp found
    rw [Nat.zero_add]
    exact held.bytes position inside
  · rw [Nat.zero_add]
    exact held.nul
  · rw [precision]
    change _ < 2 ^ 32 - 1
    omega

/-- What `%*s` writes of a string. -/
theorem star_output (format : call.format.text = starFormat)
    (good : checkPointerMsg (call.arguments 1) = none)
    (held : HoldsString call.reading (call.arguments 1) text) (short : text.length < 2 ^ 23) :
    UnboundedOutput call (turns + 3) (justified (starSpec (Word.toInt (call.arguments 0))) text) := by
  apply unboundedOutput_of_writes
  intro finish out
  rw [loop_star format, string]
  simp only [checkPointer, good, Option.map_none]
  rw [stringNocheck_eq, shown_star held short]

/-- A string in the width that was asked for: to the left in a negative one. -/
def inWidth (w : Int32) (text : List UInt8) : List UInt8 :=
  let spaces := List.replicate (min |w.toInt| fieldWidthMax - text.length).toNat ' '.toUInt8
  if w.toInt < 0 then text ++ spaces else spaces ++ text

/-- A text takes its own length or the width, up to the largest one. -/
theorem inWidth_length (w : Int32) (text : List UInt8) :
    ((inWidth w text).length : Int) = max (text.length : Int) (min |w.toInt| fieldWidthMax) := by
  unfold inWidth
  dsimp only
  split <;> rw [List.length_append, List.length_replicate] <;> omega

/-- The string is put into its width, unless that is the least value of the field and the string is
shorter than the field goes. -/
theorem justified_star (short : text.length < 2 ^ 23) : justified (starSpec w) text = inWidth w text ↔
    w.toInt ≠ -2 ^ 23 ∨ text.length = 2 ^ 23 - 1 := by
  have width := starSpec_width w
  have left := starSpec_left w
  unfold justified inWidth
  dsimp only
  by_cases least : w.toInt = -2 ^ 23
  · have negative : w.toInt < 0 := by omega
    rw [if_pos least] at width
    have none : ((starSpec w).fieldWidth - text.length).toNat = 0 := by omega
    have wide : min |w.toInt| fieldWidthMax = 2 ^ 23 - 1 := by
      rw [least]
      rfl
    rw [left, decide_eq_true negative, if_pos rfl, if_pos negative, none, wide, List.append_right_inj]
    constructor
    · intro same
      have lengths := congrArg List.length same
      rw [List.length_replicate, List.length_replicate] at lengths
      omega
    · rintro (other | full)
      · exact absurd least other
      · congr 1
        omega
  · rw [if_neg least] at width
    refine iff_of_true ?_ (.inl least)
    rw [width, left]
    by_cases negative : w.toInt < 0
    · rw [decide_eq_true negative, if_pos rfl, if_pos negative]
    · rw [decide_eq_false negative, if_neg (by decide), if_neg negative]

/-- Into an unbounded buffer `%*s` puts a string in the width that is asked for, as far as the field
goes. The exception is the least value that the field holds: it is not clamped, and negated it is
itself, so that nothing is padded. -/
theorem star_width (w : Int32) (width : Word.toInt (call.arguments 0) = w)
    (format : call.format.text = starFormat) (good : checkPointerMsg (call.arguments 1) = none)
    (held : HoldsString call.reading (call.arguments 1) text) (short : text.length < 2 ^ 23) :
    ((inWidth w text).length : Int) = max (text.length : Int) (min |w.toInt| fieldWidthMax) ∧
      (UnboundedOutput call (turns + 3) (inWidth w text) ↔
        w.toInt ≠ -2 ^ 23 ∨ text.length = 2 ^ 23 - 1) := by
  have output : UnboundedOutput call (turns + 3) _ := star_output format good held short
  rw [width] at output
  refine ⟨inWidth_length w text, ?_⟩
  rw [← justified_star short]
  constructor
  · intro filled
    exact filled.eq_text output.writes
  · intro same
    exact same ▸ output

/-- A call that puts a short string into some width. -/
def starCall (width : UInt64) : Call where
  format := ⟨starFormat, by decide⟩
  arguments := fun index => if index = 0 then width else 0x5000
  reading := bytesAt 0x5000 (chars ['h', 'e', 'y'])

/-- The string of the call is in the memory that it reads. -/
theorem starCall_held (width : UInt64) :
    HoldsString (starCall width).reading ((starCall width).arguments 1) (chars ['h', 'e', 'y']) :=
  holdsString_bytesAt (by decide) (by decide)

/-- In a width of -7 the string stands to the left. -/
theorem star_width_left :
    UnboundedOutput (starCall 0xfffffff9) 4 (chars ['h', 'e', 'y', ' ', ' ', ' ', ' ']) := by
  have filled : _ ∧ (UnboundedOutput (starCall 0xfffffff9) (1 + 3) _ ↔ _) :=
    star_width (Word.toInt 0xfffffff9) rfl rfl (by decide) (starCall_held _) (by decide)
  exact filled.2.mpr (.inl (by decide))

/-- In a width of -8388608 nothing is padded. -/
theorem star_width_least : UnboundedOutput (starCall 0xff800000) 4 (chars ['h', 'e', 'y']) ∧
    ¬UnboundedOutput (starCall 0xff800000) 4
      (inWidth (Word.toInt 0xff800000) (chars ['h', 'e', 'y'])) := by
  have output : UnboundedOutput (starCall 0xff800000) 4
      (justified (starSpec (Word.toInt 0xff800000)) (chars ['h', 'e', 'y'])) :=
    star_output rfl (by decide) (starCall_held _) (by decide)
  have bare : justified (starSpec (Word.toInt 0xff800000)) (chars ['h', 'e', 'y']) =
      chars ['h', 'e', 'y'] := by
    decide +kernel
  rw [bare] at output
  refine ⟨output, fun filled => ?_⟩
  have length := inWidth_length (Word.toInt 0xff800000) (chars ['h', 'e', 'y'])
  rw [← filled.eq_text output.writes] at length
  revert length
  decide

end DragonStub.Vsprintf

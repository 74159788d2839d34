import DragonStub.Boot.Vsprintf

/-!
# Output of the formatter

Every conversion writes a text that depends neither on the buffer nor on where it ends: padding and
sign and digits one after the other, a string first and its padding moved in before it. So a whole
call writes one text, and the buffer holds as much of it as it has room for.
-/

namespace DragonStub.Vsprintf

open BoundedOutput

/-- A conversion that writes a text which depends on nothing else. -/
def Writes (convert : Nat → Sink → Sink) : Prop :=
  ∃ text, ∀ finish out, convert finish out = puts finish text out

/-- Putting a text writes it. -/
theorem writes_puts (text : List UInt8) : Writes fun finish out => puts finish text out :=
  ⟨text, fun _ _ => rfl⟩

/-- One text after the other is one text. -/
theorem Writes.comp {first second : Nat → Sink → Sink} (before : Writes first)
    (after : Writes second) : Writes fun finish out => second finish (first finish out) := by
  obtain ⟨text, written⟩ := before
  obtain ⟨later, writtenLater⟩ := after
  refine ⟨text ++ later, fun finish out => ?_⟩
  simp only [written, writtenLater, puts_append]

/-- A number is written piece after piece. -/
theorem writes_number (num : UInt64) (spec : PrintfSpec) :
    Writes fun finish out => number finish num spec out := by
  apply Writes.comp _ (writes_puts _)
  apply Writes.comp _ (writes_puts _)
  apply Writes.comp _ (writes_puts _)
  apply Writes.comp _ (writes_puts _)
  apply Writes.comp _ (writes_puts _)
  apply Writes.comp (writes_puts _) (writes_puts _)

/-- A text in its field. -/
def justified (spec : PrintfSpec) (text : List UInt8) : List UInt8 :=
  let spaces := List.replicate (spec.fieldWidth - text.length).toNat ' '.toUInt8
  if spec.has flagLeft then text ++ spaces else spaces ++ text

variable {finish : Nat} {spec : PrintfSpec} {text : List UInt8} {out : Sink}

/-- Moving right leaves spaces, then what stood at the start, as far as they fit. -/
theorem moveRight_apply (start len spaces address : Nat) (memory : Nat → UInt8) :
    moveRight finish start len spaces memory address =
      if start ≤ address ∧ address < start + spaces ∧ address < finish then ' '.toUInt8
      else if start + spaces ≤ address ∧ address < start + spaces + len ∧ address < finish then
        memory (address - spaces)
      else memory address := by
  rw [moveRight]
  by_cases full : finish ≤ start
  · rw [if_pos full, if_neg (by omega), if_neg (by omega)]
  rw [if_neg full]
  by_cases narrow : finish - start ≤ spaces
  · rw [if_pos narrow, fill]
    by_cases inside : start ≤ address ∧ address < finish
    · rw [if_pos (by omega), if_pos (by omega)]
    · rw [if_neg (by omega), if_neg (by omega), if_neg (by omega)]
  rw [if_neg narrow, fill]
  by_cases blank : start ≤ address ∧ address < start + spaces
  · rw [if_pos blank, if_pos (by omega)]
  have text : ¬(start ≤ address ∧ address < start + spaces ∧ address < finish) := by omega
  rw [if_neg blank, if_neg text]
  by_cases empty : len = 0
  · have stays : ¬(start + spaces ≤ address ∧ address < start + spaces + len ∧
        address < finish) := by omega
    rw [if_neg (not_not.mpr empty), if_neg stays]
  rw [if_pos empty, move]
  by_cases moved : start + spaces ≤ address ∧ address < start + spaces + len ∧ address < finish
  · have source : address - (start + spaces) + start = address - spaces := by omega
    rw [if_pos (by omega), if_pos moved, source]
  · rw [if_neg (by omega), if_neg moved]

/-- A text moved to the right is the text after spaces. -/
theorem moveRight_puts (spaces : Nat) :
    moveRight finish out.position text.length spaces (puts finish text out).memory =
      (puts finish (List.replicate spaces ' '.toUInt8 ++ text) out).memory := by
  funext address
  rw [moveRight_apply, puts_memory, puts_memory, puts_memory, List.length_append,
    List.length_replicate]
  by_cases blank : out.position ≤ address ∧ address < out.position + spaces ∧ address < finish
  · have early : address - out.position < spaces := by omega
    rw [if_pos blank, if_pos (by omega), List.getD_append _ _ _ _ (by simpa using early),
      List.getD_replicate _ early]
  rw [if_neg blank]
  by_cases moved : out.position + spaces ≤ address ∧
      address < out.position + spaces + text.length ∧ address < finish
  · have late : (List.replicate spaces ' '.toUInt8).length ≤ address - out.position := by
      rw [List.length_replicate]
      omega
    have index : address - out.position - (List.replicate spaces ' '.toUInt8).length =
        address - spaces - out.position := by
      rw [List.length_replicate]
      omega
    rw [if_pos moved, if_pos (by omega), if_pos (by omega), List.getD_append_right _ _ _ _ late,
      index]
  · rw [if_neg moved, if_neg (by omega), if_neg (by omega)]

/-- Widening a text just written is writing it in its field. -/
theorem widenString_puts :
    widenString finish text.length spec (puts finish text out) =
      puts finish (justified spec text) out := by
  rw [widenString]
  by_cases wide : spec.fieldWidth ≤ text.length
  · have none : (spec.fieldWidth - text.length).toNat = 0 := by omega
    rw [if_pos wide, justified, none, List.replicate_zero, List.append_nil, List.nil_append,
      ite_self]
  rw [if_neg wide, justified]
  by_cases left : spec.has flagLeft = true
  · rw [if_neg (by simp [left]), if_pos left, puts_append]
  · rw [if_pos (by simp [left]), if_neg left, puts_position, Nat.add_sub_cancel, moveRight_puts]
    apply Sink.ext
    · change out.position + text.length + (spec.fieldWidth - text.length).toNat = _
      rw [puts_position, List.length_append, List.length_replicate]
      omega
    · rfl

/-- What the loop of `string_nocheck` copies from an index on. -/
def copied (s : Nat → UInt8) : Nat → Nat → List UInt8
  | 0, _ => []
  | lim + 1, index => if s index == 0 then [] else s index :: copied s lim (index + 1)

/-- The copying loop puts what it copies and counts it. -/
theorem copyString_eq (s : Nat → UInt8) (lim len : Nat) : copyString finish s lim len out =
    (len + (copied s lim len).length, puts finish (copied s lim len) out) := by
  induction lim generalizing len out with
  | zero => rfl
  | succ lim ih =>
    rw [copyString, copied]
    by_cases last : (s len == 0) = true
    · rw [if_pos last, if_pos last]
      rfl
    · rw [if_neg last, if_neg last, ih, List.length_cons, puts_cons]
      congr 1
      omega

/-- No more is copied than the limit. -/
theorem copied_length_le (s : Nat → UInt8) (lim index : Nat) : (copied s lim index).length ≤ lim := by
  induction lim generalizing index with
  | zero => exact le_rfl
  | succ lim ih =>
    have rest := ih (index + 1)
    rw [copied]
    split
    · exact Nat.zero_le _
    · rw [List.length_cons]
      omega

/-- No zero byte is copied. -/
theorem copied_noNul (s : Nat → UInt8) (lim index : Nat) : 0 ∉ copied s lim index := by
  induction lim generalizing index with
  | zero => exact List.not_mem_nil
  | succ lim ih =>
    rw [copied]
    split
    · exact List.not_mem_nil
    · rename_i goesOn
      intro member
      cases List.mem_cons.mp member with
      | inl first => exact goesOn (beq_iff_eq.mpr first.symm)
      | inr later => exact ih (index + 1) later

/-- A string that holds the bytes of a text is copied as that text. -/
theorem copied_eq_iff {s : Nat → UInt8} {text : List UInt8} (noNul : 0 ∉ text) (index : Nat) :
    copied s text.length index = text ↔
      ∀ position byte, text[position]? = some byte → s (index + position) = byte := by
  induction text generalizing index with
  | nil => simp [copied]
  | cons first rest ih =>
    have notFirst : first ≠ 0 := fun zero => noNul (by simp [zero])
    have tail := ih (fun member => noNul (List.mem_cons_of_mem first member)) (index + 1)
    rw [List.length_cons, copied]
    constructor
    · intro same
      by_cases last : (s index == 0) = true
      · rw [if_pos last] at same
        cases same
      · rw [if_neg last, List.cons.injEq] at same
        intro position byte held
        cases position with
        | zero =>
          cases held
          exact same.1
        | succ position =>
          have next := tail.mp same.2 position byte held
          rwa [Nat.add_assoc, Nat.add_comm 1] at next
    · intro agrees
      have start : s index = first := agrees 0 first rfl
      have goesOn : ¬(s index == 0) = true := by simp [start, notFirst]
      rw [if_neg goesOn, start, List.cons.injEq]
      refine ⟨rfl, tail.mpr fun position byte held => ?_⟩
      have next := agrees (position + 1) byte held
      rwa [Nat.add_assoc, Nat.add_comm 1]

/-- As many bytes are read as are copied, unless the copy ends at a NUL. -/
theorem copyReads_full {s : Nat → UInt8} {lim index : Nat}
    (full : (copied s lim index).length = lim) : copyReads s lim index = lim := by
  induction lim generalizing index with
  | zero => rfl
  | succ lim ih =>
    rw [copied] at full
    rw [copyReads]
    by_cases last : (s index == 0) = true
    · rw [if_pos last] at full
      cases full
    · rw [if_neg last, List.length_cons, Nat.add_right_cancel_iff] at full
      rw [if_neg last, ih full]

/-- What a string conversion shows of a string. -/
def shown (spec : PrintfSpec) (s : Nat → UInt8) : List UInt8 :=
  copied s (spec.precision % 2 ^ 32).toNat 0

/-- A string conversion puts the shown part of the string in its field. -/
theorem stringNocheck_eq (s : Nat → UInt8) :
    stringNocheck finish s spec out = puts finish (justified spec (shown spec s)) out := by
  rw [stringNocheck, copyString_eq, Nat.zero_add]
  exact widenString_puts

/-- A string conversion writes a text that depends on no buffer. -/
theorem writes_stringNocheck (s : Nat → UInt8) (spec : PrintfSpec) :
    Writes fun finish out => stringNocheck finish s spec out :=
  ⟨_, fun _ _ => stringNocheck_eq s⟩

/-- An error string is written. -/
theorem writes_errorString (s : List UInt8) (spec : PrintfSpec) :
    Writes fun finish out => errorString finish s spec out :=
  writes_stringNocheck _ _

/-- A conversion of a pointer writes a message if it is a bad one. -/
theorem writes_checked {convert : Nat → Sink → Sink} (ptr : UInt64) (spec : PrintfSpec)
    (good : Writes convert) :
    Writes fun finish out => match checkPointer finish ptr spec out with
      | some out => out
      | none => convert finish out := by
  cases message : checkPointerMsg ptr with
  | none =>
    simp only [checkPointer, message, Option.map_none]
    exact good
  | some text =>
    simp only [checkPointer, message, Option.map_some]
    exact writes_errorString text spec

/-- A checked string conversion writes the string or an error string. -/
theorem writes_string (reading : UInt64 → UInt8) (s : UInt64) (spec : PrintfSpec) :
    Writes fun finish out => string finish reading s spec out :=
  writes_checked s spec (writes_stringNocheck _ spec)

/-- One character is written. -/
theorem writes_put (c : UInt8) : Writes fun finish out => put finish c out :=
  writes_puts [c]

/-- Nothing is written. -/
theorem writes_keep : Writes fun _ out => out :=
  writes_puts []

/-- A conversion that goes through a list writes one text. -/
theorem writes_foldl {α : Type} {convert : α → Nat → Sink → Sink}
    (each : ∀ item, Writes (convert item)) (items : List α) :
    Writes fun finish out => items.foldl (fun out item => convert item finish out) out := by
  induction items with
  | nil => exact writes_keep
  | cons item rest ih => exact (each item).comp ih

/-- A conversion of a buffer to hexadecimal writes its digits. -/
theorem writes_hexString (reading : UInt64 → UInt8) (addr : UInt64) (spec : PrintfSpec)
    (fmt : List UInt8) : Writes fun finish out => hexString finish reading addr spec fmt out := by
  unfold hexString
  by_cases nothing : (spec.fieldWidth == 0) = true
  · simp only [if_pos nothing]
    exact writes_keep
  · simp only [if_neg nothing]
    apply writes_checked
    apply writes_foldl
    intro i
    exact (writes_puts _).comp (writes_puts _)

/-- A conversion of a hardware address writes its digits. -/
theorem writes_macAddressString (reading : UInt64 → UInt8) (addr : UInt64) (spec : PrintfSpec)
    (fmt : List UInt8) :
    Writes fun finish out => macAddressString finish reading addr spec fmt out :=
  writes_checked addr spec (writes_stringNocheck _ spec)

/-- A plain pointer writes its digits. -/
theorem writes_pointerString (ptr : UInt64) (spec : PrintfSpec) :
    Writes fun finish out => pointerString finish ptr spec out :=
  writes_number _ _

/-- Every pointer conversion writes a text that depends on no buffer. -/
theorem writes_pointer (reading : UInt64 → UInt8) (fmt : List UInt8) (ptr : UInt64)
    (spec : PrintfSpec) : Writes fun finish out => pointer finish reading fmt ptr spec out := by
  unfold pointer
  split
  · exact writes_hexString reading ptr spec fmt
  · exact writes_macAddressString reading ptr spec fmt
  · exact writes_macAddressString reading ptr spec fmt
  · exact writes_pointerString ptr spec
  · split
    · exact writes_number _ _
    · exact writes_pointerString ptr spec
  · split
    · exact writes_string reading ptr spec
    · exact writes_errorString _ spec
  · split
    · exact writes_string reading ptr spec
    · exact writes_errorString _ spec
  · exact writes_pointerString ptr spec

/-- A character conversion writes the character in its field. -/
theorem writes_character (c : UInt8) (spec : PrintfSpec) :
    Writes fun finish out => character finish c spec out := by
  apply Writes.comp _ (writes_puts _)
  exact (writes_puts _).comp (writes_put c)

/-- The characters of a format that a literal of some length copies. -/
def literal (oldFmt : List UInt8) (length : Nat) : List UInt8 :=
  (List.range length).map fun index => oldFmt.getD index 0

/-- A literal of a length that is not negative is written. -/
theorem copyLiteral_puts (oldFmt : List UInt8) {read : Int32} (forward : 0 ≤ read.toInt) :
    copyLiteral finish oldFmt read out =
      .ok (puts finish (literal oldFmt read.toInt.toNat) out) := by
  have notNegative : ¬read < 0 := by
    rw [Int32.lt_iff_toInt_lt, Int32.toInt_zero]
    omega
  have length : (literal oldFmt read.toInt.toNat).length = read.toInt.toNat := by
    rw [literal, List.length_map, List.length_range]
  rw [copyLiteral]
  by_cases room : out.position < finish
  · rw [if_pos room, if_neg notNegative]
    apply congrArg Except.ok
    apply eq_puts
    · rw [length]
    · intro address
      rw [length]
      dsimp only
      rw [store]
      by_cases inside : out.position ≤ address ∧ address < out.position + read.toInt.toNat ∧
          address < finish
      · have early : address - out.position < (literal oldFmt read.toInt.toNat).length := by omega
        rw [if_pos inside, if_pos (by omega), List.getD_eq_getElem _ _ early]
        simp only [literal, List.getElem_map, List.getElem_range]
      · rw [if_neg inside, if_neg (by omega)]
  · rw [if_neg room]
    apply congrArg Except.ok
    apply eq_puts
    · change (out.position + read.toInt).toNat = _
      omega
    · intro address
      rw [if_neg (by omega)]

/-- A directive writes a text that depends on no buffer, or faults wherever there is room left. -/
def WritesOrFaults (convert : Nat → Sink → Except Fault (Option Cursor × Sink)) : Prop :=
  (∃ later text, ∀ finish out, convert finish out = .ok (later, puts finish text out)) ∨
    ∀ finish out, out.position < finish → ∃ fault, convert finish out = .error fault

/-- A conversion that writes lets the formatting go on. -/
theorem Writes.turn {convert : Nat → Sink → Sink} (writes : Writes convert)
    (later : Option Cursor) : WritesOrFaults fun finish out => .ok (later, convert finish out) := by
  obtain ⟨text, written⟩ := writes
  exact .inl ⟨later, text, fun finish out => by simp only [written]⟩

/-- A fault is one wherever it happens. -/
theorem writesOrFaults_error (fault : Fault) : WritesOrFaults fun _ _ => .error fault :=
  .inr fun _ _ _ => ⟨fault, rfl⟩

/-- Each directive writes a text that depends on no buffer, or faults. -/
theorem dispatch_writes (call : Call) (oldFmt : List UInt8) (read : Int32) (cursor : Cursor) :
    WritesOrFaults fun finish out => dispatch call finish oldFmt read cursor out := by
  unfold dispatch
  dsimp only
  split
  · by_cases forward : 0 ≤ read.toInt
    · left
      refine ⟨some cursor, literal oldFmt read.toInt.toNat, fun finish out => ?_⟩
      simp only [copyLiteral_puts oldFmt forward]
      rfl
    · right
      intro finish out room
      have negative : read < 0 := by
        rw [Int32.lt_iff_toInt_lt, Int32.toInt_zero]
        omega
      refine ⟨.outside, ?_⟩
      simp only [copyLiteral, if_pos room, if_pos negative]
      rfl
  · exact writes_keep.turn _
  · exact writes_keep.turn _
  · exact (writes_character _ _).turn _
  · exact (writes_string _ _ _).turn _
  · cases remaining call cursor.position with
    | error fault => exact writesOrFaults_error fault
    | ok fmt => exact (writes_pointer _ fmt _ _).turn _
  · exact (writes_put _).turn _
  · exact writes_keep.turn _
  · exact (writes_number _ _).turn _

/-- Each turn of the formatting loop writes a text that depends on no buffer, or faults. -/
theorem step_writes (call : Call) (cursor : Cursor) :
    WritesOrFaults fun finish out => step call finish cursor out := by
  unfold step
  cases remaining call cursor.position with
  | error fault => exact writesOrFaults_error fault
  | ok oldFmt =>
    simp only [bind, Except.bind]
    by_cases ended : oldFmt = []
    · simp only [if_pos ended]
      exact writes_keep.turn none
    simp only [if_neg ended]
    cases formatDecode oldFmt cursor.spec with
    | error fault => exact writesOrFaults_error fault
    | ok result => exact dispatch_writes call oldFmt result.1 _

/-- A loop that ends wherever its buffer ends, from some address on, writes one text into every
buffer. -/
theorem loop_writes (call : Call) (turns : Nat) {cursor : Cursor} {position limit : Nat}
    (ends : ∀ finish, limit ≤ finish →
      ∃ memory left, loop call finish turns cursor ⟨position, memory⟩ = .ok left) :
    ∃ text, ∀ finish out, loop call finish turns cursor out = .ok (puts finish text out) := by
  induction turns generalizing cursor position limit with
  | zero =>
    obtain ⟨memory, left, ended⟩ := ends limit le_rfl
    cases ended
  | succ turns ih =>
    cases step_writes call cursor with
    | inr faults =>
      obtain ⟨memory, left, ended⟩ := ends (max limit (position + 1)) (by omega)
      have room : position < max limit (position + 1) := by omega
      obtain ⟨fault, faulted⟩ := faults _ ⟨position, memory⟩ room
      simp only [loop, faulted, bind, Except.bind] at ended
      cases ended
    | inl writes =>
      obtain ⟨later, text, written⟩ := writes
      cases later with
      | none =>
        refine ⟨text, fun finish out => ?_⟩
        simp only [loop, written, bind, Except.bind]
        rfl
      | some cursor =>
        simp only [loop, written, bind, Except.bind] at ends ⊢
        have endsLater (finish : Nat) (reached : limit ≤ finish) : ∃ memory left,
            loop call finish turns cursor ⟨position + text.length, memory⟩ = .ok left := by
          obtain ⟨memory, left, ended⟩ := ends finish reached
          refine ⟨(puts finish text ⟨position, memory⟩).memory, left, ?_⟩
          rw [← ended]
          congr 1
          apply Sink.ext
          · rw [puts_position]
          · rfl
        obtain ⟨rest, writtenLater⟩ := ih endsLater
        refine ⟨text ++ rest, fun finish out => ?_⟩
        rw [writtenLater, puts_append]

/-- What a call writes when its buffer never ends: wherever the end lies, from some address on, the
text is the same. -/
def UnboundedOutput (call : Call) (turns : Nat) (text : List UInt8) : Prop :=
  ∃ limit, ∀ finish, limit ≤ finish →
    ∃ left, loop call finish turns Cursor.initial ⟨0, fun _ => 0⟩ = .ok left ∧
      left.position = text.length ∧
      ∀ index, index < text.length → left.memory index = text.getD index 0

/-- A text that a call writes into every sink is the only unbounded output that it has. -/
theorem UnboundedOutput.eq_text {call : Call} {turns : Nat} {text written : List UInt8}
    (output : UnboundedOutput call turns text)
    (writes : ∀ finish out, loop call finish turns Cursor.initial out =
      .ok (puts finish written out)) : written = text := by
  obtain ⟨limit, ends⟩ := output
  obtain ⟨left, ended, position, memory⟩ := ends (max limit written.length) (by omega)
  rw [writes] at ended
  cases ended
  have lengths : written.length = text.length := by
    rw [puts_position, Nat.zero_add] at position
    exact position
  apply List.ext_getElem lengths
  intro index inWritten inText
  have held := memory index inText
  rw [puts_memory, if_pos ⟨Nat.zero_le _, by omega, by omega⟩, Nat.sub_zero] at held
  simpa [inWritten, inText] using held

/-- A call with an unbounded output writes it into every buffer. -/
theorem UnboundedOutput.writes {call : Call} {turns : Nat} {text : List UInt8}
    (output : UnboundedOutput call turns text) (finish : Nat) (out : Sink) :
    loop call finish turns Cursor.initial out = .ok (puts finish text out) := by
  have returns : ∃ limit, ∀ finish, limit ≤ finish →
      ∃ memory left, loop call finish turns Cursor.initial ⟨0, memory⟩ = .ok left := by
    obtain ⟨limit, ends⟩ := output
    refine ⟨limit, fun finish reached => ?_⟩
    obtain ⟨left, ended, _⟩ := ends finish reached
    exact ⟨_, left, ended⟩
  obtain ⟨limit, ends⟩ := returns
  obtain ⟨written, writes⟩ := loop_writes call turns ends
  rw [← output.eq_text writes]
  exact writes finish out

/-- A text that a call writes into every sink is its unbounded output. -/
theorem unboundedOutput_of_writes {call : Call} {turns : Nat} {text : List UInt8}
    (writes : ∀ finish out, loop call finish turns Cursor.initial out =
      .ok (puts finish text out)) : UnboundedOutput call turns text := by
  refine ⟨text.length, fun finish reached => ⟨_, writes finish _, ?_, ?_⟩⟩
  · rw [puts_position, Nat.zero_add]
  · intro index inside
    rw [puts_memory, if_pos ⟨Nat.zero_le _, by omega, by omega⟩, Nat.sub_zero]

/-- The NUL stands behind the text, or in the last byte. -/
theorem terminate_memory {finish size buf : Nat} (text : List UInt8) (memory : Nat → UInt8)
    (ends : finish = buf + size) (address : Nat) :
    terminate finish size (puts finish text ⟨buf, memory⟩) address =
      if buf ≤ address ∧ address < buf + min text.length (size - 1) then
        text.getD (address - buf) 0
      else if 0 < size ∧ address = buf + min text.length (size - 1) then 0
      else memory address := by
  have position : (puts finish text ⟨buf, memory⟩).position = buf + text.length := puts_position
  have written : (puts finish text ⟨buf, memory⟩).memory address =
      if buf ≤ address ∧ address < buf + text.length ∧ address < finish then
        text.getD (address - buf) 0
      else memory address := puts_memory address
  rw [terminate, position]
  by_cases empty : size = 0
  · rw [if_neg (by omega), written, if_neg (by omega), if_neg (by omega), if_neg (by omega)]
  rw [if_pos (by omega)]
  by_cases fits : buf + text.length < finish
  · have shown : min text.length (size - 1) = text.length := by omega
    rw [if_pos fits, fill, written, shown]
    by_cases inText : buf ≤ address ∧ address < buf + text.length
    · rw [if_neg (by omega), if_pos (by omega), if_pos inText]
    by_cases last : address = buf + text.length
    · rw [if_pos (by omega), if_neg inText, if_pos ⟨by omega, last⟩]
    · rw [if_neg (by omega), if_neg (by omega), if_neg inText, if_neg (by omega)]
  · have shown : min text.length (size - 1) = size - 1 := by omega
    rw [if_neg fits, fill, written, shown]
    by_cases inText : buf ≤ address ∧ address < buf + (size - 1)
    · rw [if_neg (by omega), if_pos (by omega), if_pos inText]
    by_cases last : address = buf + (size - 1)
    · rw [if_pos (by omega), if_neg inText, if_pos ⟨by omega, last⟩]
    · rw [if_neg (by omega), if_neg (by omega), if_neg inText, if_neg (by omega)]

/-- `str - buf` of a short text is its length. -/
theorem returned_toInt {buf : Nat} (short : text.length ≤ intMax) :
    (Int32.ofInt (((buf + text.length : Nat) : Int) - buf)).toInt = text.length := by
  have difference : ((buf + text.length : Nat) : Int) - buf = text.length := by omega
  have bound : (text.length : Int) ≤ 2 ^ 31 - 1 := by
    unfold intMax at short
    omega
  rw [difference, Int32.toInt_ofInt_of_le (by omega) (by omega)]

/-- A call that writes a text into every sink writes it into its buffer. -/
theorem vsnprintf_writes {call : Call} {turns : Nat} {buf size : UInt64} (memory : Nat → UInt8)
    (writes : ∀ finish out, loop call finish turns Cursor.initial out = .ok (puts finish text out))
    (sizeFits : size.toNat ≤ intMax) (object : buf.toNat + size.toNat < 2 ^ 64) :
    vsnprintf call turns buf size memory =
      .ok (Int32.ofInt (((buf.toNat + text.length : Nat) : Int) - buf.toNat),
        terminate (buf.toNat + size.toNat) size.toNat
          (puts (buf.toNat + size.toNat) text ⟨buf.toNat, memory⟩)) := by
  have finish : (buf + size).toNat = buf.toNat + size.toNat := by
    rw [UInt64.toNat_add, Nat.mod_eq_of_lt object]
  have straight : ¬buf + size < buf := by
    rw [UInt64.lt_iff_toNat_lt, finish]
    omega
  have bound : bufferEnd buf size = buf + size := if_neg straight
  rw [vsnprintf, if_neg (by omega)]
  simp only [if_neg straight, bound, writes, bind, Except.bind, puts_position, finish]
  rfl

/-- The buffer of every size holds the output cut to its room and a NUL, nothing else is written,
and the length returned is that of the whole output. Positions do not wrap here: behind a buffer at
the end of the addresses the pointer of the source does, when the output is long enough. -/
theorem vsnprintf_cuts (call : Call) (turns : Nat) (text : List UInt8) (buf size : UInt64)
    (memory : Nat → UInt8) (output : UnboundedOutput call turns text)
    (short : text.length ≤ intMax) (sizeFits : size.toNat ≤ intMax)
    (object : buf.toNat + size.toNat < 2 ^ 64) :
    ∃ result held, vsnprintf call turns buf size memory = .ok (result, held) ∧
      result.toInt = text.length ∧
      (∀ address, ¬(buf.toNat ≤ address ∧ address < buf.toNat + size.toNat) →
        held address = memory address) ∧
      (0 < size.toNat →
        (∀ index, index < min text.length (size.toNat - 1) →
          held (buf.toNat + index) = text.getD index 0) ∧
        held (buf.toNat + min text.length (size.toNat - 1)) = 0) := by
  have held (address : Nat) := terminate_memory text memory (rfl : _ = buf.toNat + size.toNat) address
  refine ⟨_, _, vsnprintf_writes memory output.writes sizeFits object, returned_toInt short, ?_, ?_⟩
  · intro address outside
    rw [held, if_neg (by omega), if_neg (by omega)]
  · intro positive
    constructor
    · intro index inside
      rw [held, if_pos (by omega), Nat.add_sub_cancel_left]
    · rw [held, if_neg (by omega), if_pos ⟨positive, rfl⟩]

/-- A call with a string in a field of seven. -/
def fieldCall : Call where
  format := ⟨chars ['%', '7', 's'], by decide⟩
  arguments := fun _ => 0x5000
  reading := fun address => (chars ['h', 'e', 'y']).getD (address - 0x5000).toNat 0

/-- The string of three characters stands at the right of its field of seven. -/
theorem fieldCall_output :
    UnboundedOutput fieldCall 2 (chars [' ', ' ', ' ', ' ', 'h', 'e', 'y']) := by
  apply unboundedOutput_of_writes
  intro finish out
  have run : loop fieldCall finish 2 Cursor.initial out =
      .ok (stringNocheck finish (pointee fieldCall.reading 0x5000) ⟨.str, 7, 0, 10, -1⟩ out) := rfl
  rw [run, stringNocheck_eq]
  rfl

/-- In a buffer of six the field is cut within the text that has been moved. -/
theorem vsnprintf_cuts_field : ∃ result held,
    vsnprintf fieldCall 2 0x1000 6 (fun _ => 0) = .ok (result, held) ∧
      result.toInt = 7 ∧ held 0x1004 = 'h'.toUInt8 ∧ held 0x1005 = 0 := by
  obtain ⟨result, held, returned, length, _, buffer⟩ :=
    vsnprintf_cuts fieldCall 2 (chars [' ', ' ', ' ', ' ', 'h', 'e', 'y']) 0x1000 6 (fun _ => 0)
      fieldCall_output (by decide) (by decide) (by decide)
  obtain ⟨text, last⟩ := buffer (by decide)
  exact ⟨result, held, returned, length, text 4 (by decide), last⟩

end DragonStub.Vsprintf

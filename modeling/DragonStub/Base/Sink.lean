import Mathlib.Tactic.Common

/-!
# Bounded output

A sink takes characters one after the other: it writes those that lie before its end, and counts
them all. However the characters come, the sink is left with their text cut at the end, so a program
that writes through a sink is determined by the text it produces.
-/

namespace BoundedOutput

/-- What memory holds, and the address of the next character. A position is a number without an end,
so that it does not wrap; the pointer of a program is one while it counts within the addresses. -/
@[ext] structure Sink where
  /-- The next address. -/
  position : Nat
  /-- The bytes of memory. -/
  memory : Nat → UInt8

/-- Set `count` bytes. -/
def fill (memory : Nat → UInt8) (start count : Nat) (c : UInt8) : Nat → UInt8 :=
  fun address => if start ≤ address ∧ address < start + count then c else memory address

/-- Move `count` bytes, as if through a copy. -/
def move (memory : Nat → UInt8) (target source count : Nat) : Nat → UInt8 :=
  fun address => if target ≤ address ∧ address < target + count then
    memory (address - target + source) else memory address

/-- Store `count` bytes from elsewhere. -/
def store (memory : Nat → UInt8) (start count : Nat) (bytes : Nat → UInt8) : Nat → UInt8 :=
  fun address => if start ≤ address ∧ address < start + count then bytes (address - start)
    else memory address

/-- Write a character, unless it lies behind the end. -/
def put (finish : Nat) (c : UInt8) (out : Sink) : Sink where
  position := out.position + 1
  memory := if out.position < finish then fill out.memory out.position 1 c else out.memory

/-- Write a text. -/
def puts (finish : Nat) (text : List UInt8) (out : Sink) : Sink :=
  text.foldl (fun out c => put finish c out) out

variable {finish : Nat} {text later : List UInt8} {out : Sink} {c : UInt8}

/-- Each byte moves the position by one. -/
@[simp] theorem put_position : (put finish c out).position = out.position + 1 := rfl

/-- A character before the end is held at its address. -/
theorem put_memory_self (room : out.position < finish) :
    (put finish c out).memory out.position = c := by
  have shape : (put finish c out).memory = fill out.memory out.position 1 c := if_pos room
  rw [shape, fill, if_pos (by omega)]

/-- Behind the end, and away from its address, a character changes nothing. -/
theorem put_memory_other {address : Nat} (apart : address = out.position → finish ≤ address) :
    (put finish c out).memory address = out.memory address := by
  by_cases room : out.position < finish
  · have shape : (put finish c out).memory = fill out.memory out.position 1 c := if_pos room
    rw [shape, fill, if_neg (by omega)]
  · have shape : (put finish c out).memory = out.memory := if_neg room
    rw [shape]

/-- An empty text leaves the output. -/
@[simp] theorem puts_nil : puts finish [] out = out := rfl

/-- A text is put from its first byte on. -/
theorem puts_cons : puts finish (c :: text) out = puts finish text (put finish c out) := rfl

/-- Two texts are put one after the other. -/
theorem puts_append : puts finish (text ++ later) out = puts finish later (puts finish text out) :=
  List.foldl_append

/-- A sink counts every character. -/
@[simp] theorem puts_position : (puts finish text out).position = out.position + text.length := by
  induction text generalizing out with
  | nil => rfl
  | cons c rest ih =>
    rw [puts_cons, ih, put_position, List.length_cons]
    omega

/-- A sink holds the text up to its end, and nothing else has changed. -/
theorem puts_memory (address : Nat) : (puts finish text out).memory address =
    if out.position ≤ address ∧ address < out.position + text.length ∧ address < finish then
      text.getD (address - out.position) 0
    else out.memory address := by
  induction text generalizing out with
  | nil =>
    rw [puts_nil, if_neg]
    simp only [List.length_nil]
    omega
  | cons c rest ih =>
    rw [puts_cons, ih, put_position, List.length_cons]
    by_cases here : address = out.position
    · subst here
      rw [if_neg (by omega)]
      by_cases room : out.position < finish
      · rw [put_memory_self room, if_pos (by omega), Nat.sub_self, List.getD_cons_zero]
      · rw [put_memory_other (by omega), if_neg (by omega)]
    · rw [put_memory_other (by omega)]
      by_cases inside : out.position + 1 ≤ address ∧ address < out.position + 1 + rest.length ∧
          address < finish
      · have distance : address - out.position = address - (out.position + 1) + 1 := by omega
        rw [if_pos inside, if_pos (by omega), distance, List.getD_cons_succ]
      · rw [if_neg inside, if_neg (by omega)]

/-- A sink that holds the text up to its end, and nothing else new, has had the text written. -/
theorem eq_puts {left : Sink} (position : left.position = out.position + text.length)
    (memory : ∀ address, left.memory address =
      if out.position ≤ address ∧ address < out.position + text.length ∧ address < finish then
        text.getD (address - out.position) 0
      else out.memory address) : left = puts finish text out := by
  have positions : left.position = (puts finish text out).position := by
    rw [position, puts_position]
  have memories : left.memory = (puts finish text out).memory := by
    funext address
    rw [memory, puts_memory]
  exact Sink.ext positions memories

end BoundedOutput

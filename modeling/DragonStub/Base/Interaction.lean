import Mathlib.Tactic.Common

/-!
# Programs that call an environment

A program either returns or performs one operation and continues with the environment's reply.
Nothing is assumed of the replies, so a statement about every run is a statement about every
environment. `Exec` relates a program to the events of a run and its outcome; a run that waits
for a reply no environment can give ends there, without a value.

The rules for runs follow the constructors of a program, so a run is taken apart one call at a time.
`Calls` bounds what a program may ask, and `Yields` says what it returns whatever it is answered.
-/

namespace Interaction

variable {Op : Type} {Reply : Op → Type} {α β : Type}

/-- A program over an interface whose operation `op` is answered by a value of `Reply op`. -/
inductive Prog (Reply : Op → Type) (α : Type) : Type where
  /-- Return a value. -/
  | ret (value : α)
  /-- Perform an operation and continue with its reply. -/
  | call (op : Op) (next : Reply op → Prog Reply α)

/-- One operation of a run with the reply it received. -/
structure Event (Reply : Op → Type) where
  /-- The operation. -/
  op : Op
  /-- What the environment answered. -/
  reply : Reply op

namespace Prog

/-- Run a program, then a continuation of its value. -/
protected def bind : Prog Reply α → (α → Prog Reply β) → Prog Reply β
  | ret value, rest => rest value
  | call op next, rest => call op fun reply => (next reply).bind rest

/-- Programs are sequenced by what they answer. -/
instance : Monad (Prog Reply) where
  pure := ret
  bind := Prog.bind

/-- Perform one operation and return its reply. -/
def perform (op : Op) : Prog Reply (Reply op) := call op ret

/-- A constant program returns at once. -/
@[simp] theorem pure_eq_ret (value : α) : (pure value : Prog Reply α) = ret value := rfl

/-- Behind a program that returns at once stands the rest. -/
@[simp] theorem ret_bind (value : α) (rest : α → Prog Reply β) : ret value >>= rest = rest value :=
  rfl

/-- Behind a call the rest stands behind each reply. -/
@[simp] theorem call_bind (op : Op) (next : Reply op → Prog Reply α) (rest : α → Prog Reply β) :
    call op next >>= rest = call op fun reply => next reply >>= rest := rfl

/-- A performed operation hands its reply to the rest. -/
@[simp] theorem perform_bind (op : Op) (rest : Reply op → Prog Reply β) :
    perform op >>= rest = call op rest := rfl

/-- Sequencing is associative. -/
theorem bind_assoc {γ : Type} (p : Prog Reply α) (f : α → Prog Reply β) (g : β → Prog Reply γ) :
    p >>= f >>= g = p >>= fun value => f value >>= g := by
  induction p with
  | ret value => rfl
  | call op next ih =>
    simp only [call_bind]
    congr 1
    funext reply
    exact ih reply

/-- Returning the value of a program is the program. -/
theorem bind_ret (p : Prog Reply α) : p >>= ret = p := by
  induction p with
  | ret value => rfl
  | call op next ih =>
    rw [call_bind]
    congr 1
    funext reply
    exact ih reply

/-- The laws of sequencing hold. -/
instance : LawfulMonad (Prog Reply) :=
  LawfulMonad.mk' _ bind_ret (fun _ _ => rfl) bind_assoc

end Prog

open Prog

/-- `Exec p events outcome`: `p` can perform exactly `events`, then return the value of `outcome`,
or wait forever for a reply that does not exist when there is none. -/
inductive Exec : Prog Reply α → List (Event Reply) → Option α → Prop where
  /-- A returned program performs nothing. -/
  | ret (value : α) : Exec (ret value) [] (some value)
  /-- Any reply continues the run. -/
  | call {op : Op} {next : Reply op → Prog Reply α} {events : List (Event Reply)}
      {outcome : Option α} (reply : Reply op) (rest : Exec (next reply) events outcome) :
      Exec (call op next) (⟨op, reply⟩ :: events) outcome
  /-- An operation that is never answered ends the run. -/
  | blocked {op : Op} {next : Reply op → Prog Reply α} (never : Reply op → False) :
      Exec (call op next) [] none

/-- A program that returns at once makes no events. -/
@[simp] theorem exec_ret {value : α} {events : List (Event Reply)} {outcome : Option α} :
    Exec (ret value) events outcome ↔ events = [] ∧ outcome = some value := by
  constructor
  · rintro ⟨⟩
    exact ⟨rfl, rfl⟩
  · rintro ⟨rfl, rfl⟩
    exact .ret value

/-- A run of a call that can be answered received some reply. -/
theorem exec_call {op : Op} [answered : Nonempty (Reply op)] {next : Reply op → Prog Reply α}
    {events : List (Event Reply)} {outcome : Option α} : Exec (call op next) events outcome ↔
      ∃ reply rest, events = ⟨op, reply⟩ :: rest ∧ Exec (next reply) rest outcome := by
  constructor
  · intro run
    cases run with
    | call reply rest => exact ⟨reply, _, rfl, rest⟩
    | blocked never => exact (never answered.some).elim
  · rintro ⟨reply, rest, rfl, run⟩
    exact .call reply run

/-- A call that cannot be answered ends the run. -/
theorem exec_never {op : Op} [never : IsEmpty (Reply op)] {next : Reply op → Prog Reply α}
    {events : List (Event Reply)} {outcome : Option α} :
    Exec (call op next) events outcome ↔ events = [] ∧ outcome = none := by
  constructor
  · intro run
    cases run with
    | call reply rest => exact never.elim reply
    | blocked _ => exact ⟨rfl, rfl⟩
  · rintro ⟨rfl, rfl⟩
    exact .blocked never.elim

/-- A run of a conditional is a run of the branch it takes. -/
theorem exec_ite {p q : Prog Reply α} {condition : Prop} [Decidable condition]
    {events : List (Event Reply)} {outcome : Option α} :
    Exec (if condition then p else q) events outcome ↔
      condition ∧ Exec p events outcome ∨ ¬condition ∧ Exec q events outcome := by
  by_cases holds : condition <;> simp [holds]

/-- A run of a sequence is a run of the first part followed by a run of the second, or a run of
the first part that never returns. -/
theorem exec_bind {p : Prog Reply α} {f : α → Prog Reply β} {events : List (Event Reply)}
    {outcome : Option β} : Exec (p >>= f) events outcome ↔
      (∃ value first second, events = first ++ second ∧ Exec p first (some value) ∧
        Exec (f value) second outcome) ∨ (outcome = none ∧ Exec p events none) := by
  induction p generalizing events with
  | ret value => simp
  | call op next ih =>
    constructor
    · intro run
      cases run with
      | call reply rest =>
        rcases (ih reply).mp rest with ⟨value, first, second, rfl, left, right⟩ | ⟨rfl, waits⟩
        · exact .inl ⟨value, ⟨op, reply⟩ :: first, second, rfl, .call reply left, right⟩
        · exact .inr ⟨rfl, .call reply waits⟩
      | blocked never => exact .inr ⟨rfl, .blocked never⟩
    · rintro (⟨value, first, second, rfl, left, right⟩ | ⟨rfl, waits⟩)
      · cases left with
        | call reply rest =>
          exact .call reply ((ih reply).mpr (.inl ⟨value, _, second, rfl, rest, right⟩))
      · cases waits with
        | call reply rest => exact .call reply ((ih reply).mpr (.inr ⟨rfl, rest⟩))
        | blocked never => exact .blocked never

/-- A run that returns from a sequence splits at the value of the first part. -/
theorem exec_bind_some {p : Prog Reply α} {f : α → Prog Reply β} {events : List (Event Reply)}
    {value : β} : Exec (p >>= f) events (some value) ↔
      ∃ middle first second, events = first ++ second ∧ Exec p first (some middle) ∧
        Exec (f middle) second (some value) := by
  simp [exec_bind]

/-- Follow one environment, given as a function of the events so far; it may not answer. -/
def Prog.runWith (env : List (Event Reply) → (op : Op) → Option (Reply op)) :
    Prog Reply α → List (Event Reply) → Option (List (Event Reply) × α)
  | ret value, _ => some ([], value)
  | call op next, past =>
    match env past op with
    | none => none
    | some reply =>
      ((next reply).runWith env (past ++ [⟨op, reply⟩])).map fun (rest, value) =>
        (⟨op, reply⟩ :: rest, value)

/-- Following an environment that answers is a run. -/
theorem exec_of_runWith {env : List (Event Reply) → (op : Op) → Option (Reply op)}
    {p : Prog Reply α} {past events : List (Event Reply)} {value : α}
    (follows : p.runWith env past = some (events, value)) : Exec p events (some value) := by
  induction p generalizing past events with
  | ret result =>
    cases follows
    exact .ret value
  | call op next ih =>
    rw [Prog.runWith] at follows
    cases answer : env past op with
    | none => simp [answer] at follows
    | some reply =>
      simp only [answer, Option.map_eq_some_iff] at follows
      obtain ⟨⟨rest, _⟩, follows, ⟨⟩⟩ := follows
      exact .call reply (ih reply follows)

/-- The events of the run against an environment that answers. -/
def Prog.eventsWith (env : List (Event Reply) → (op : Op) → Option (Reply op)) (p : Prog Reply α) :
    List (Event Reply) :=
  (p.runWith env []).elim [] Prod.fst

/-- The value of the run against an environment, if it answers. -/
def Prog.valueWith (env : List (Event Reply) → (op : Op) → Option (Reply op)) (p : Prog Reply α) :
    Option α :=
  (p.runWith env []).map Prod.snd

/-- What an environment is seen to answer is a run of the program. -/
theorem exec_eventsWith {env : List (Event Reply) → (op : Op) → Option (Reply op)}
    {p : Prog Reply α} (returns : (p.valueWith env).isSome = true) :
    Exec p (p.eventsWith env) (p.valueWith env) := by
  obtain ⟨value, returns⟩ := Option.isSome_iff_exists.mp returns
  obtain ⟨⟨events, _⟩, follows, rfl⟩ := Option.map_eq_some_iff.mp returns
  have same : p.eventsWith env = events := by
    rw [Prog.eventsWith, follows]
    rfl
  rw [same, returns]
  exact exec_of_runWith follows

/-- A run against an environment, of whose value a part is known. -/
theorem exec_of_seen {env : List (Event Reply) → (op : Op) → Option (Reply op)} {p : Prog Reply α}
    {β : Type} {observe : α → β} {seen : β} (value : (p.valueWith env).map observe = some seen) :
    ∃ result, observe result = seen ∧ Exec p (p.eventsWith env) (some result) := by
  obtain ⟨result, returned, same⟩ := Option.map_eq_some_iff.mp value
  have run := exec_eventsWith (Option.isSome_iff_exists.mpr ⟨result, returned⟩)
  rw [returned] at run
  exact ⟨result, same, run⟩

/-- What the events of a run against an environment are answered with comes from it. -/
theorem answered_eventsWith {env : List (Event Reply) → (op : Op) → Option (Reply op)}
    {p : Prog Reply α} :
    ∀ event ∈ p.eventsWith env, ∃ past, env past event.op = some event.reply := by
  have follow : ∀ past events value, p.runWith env past = some (events, value) →
      ∀ event ∈ events, ∃ past, env past event.op = some event.reply := by
    induction p with
    | ret result =>
      rintro past events value ⟨⟩
      simp
    | call op next ih =>
      intro past events value follows
      rw [Prog.runWith] at follows
      cases answer : env past op with
      | none => simp [answer] at follows
      | some reply =>
        simp only [answer, Option.map_eq_some_iff] at follows
        obtain ⟨⟨rest, _⟩, follows, ⟨⟩⟩ := follows
        intro event member
        rcases List.mem_cons.mp member with rfl | member
        · exact ⟨past, answer⟩
        · exact ih reply _ _ _ follows event member
  intro event member
  unfold Prog.eventsWith at member
  cases run : p.runWith env [] with
  | none => simp [run] at member
  | some pair =>
    rw [run] at member
    exact follow _ _ _ run event member

/-- Every operation a program can perform is allowed. -/
def Calls (allowed : Op → Prop) : Prog Reply α → Prop
  | .ret _ => True
  | .call op next => allowed op ∧ ∀ reply, Calls allowed (next reply)

/-- Every event of a run of such a program is an allowed operation. -/
theorem Calls.events {allowed : Op → Prop} {p : Prog Reply α} (uses : Calls allowed p)
    {events : List (Event Reply)} {outcome : Option α} (run : Exec p events outcome) :
    ∀ event ∈ events, allowed event.op := by
  induction run with
  | ret value => simp
  | call reply rest ih =>
    intro event member
    rcases List.mem_cons.mp member with rfl | member
    · exact uses.1
    · exact ih (uses.2 reply) event member
  | blocked never => simp

/-- A program that returns at once makes no calls. -/
@[simp] theorem calls_ret {allowed : Op → Prop} {value : α} :
    Calls allowed (ret value : Prog Reply α) := trivial

/-- A call is allowed when it is, and the rest is behind every reply. -/
@[simp] theorem calls_call {allowed : Op → Prop} {op : Op} {next : Reply op → Prog Reply α} :
    Calls allowed (call op next) ↔ allowed op ∧ ∀ reply, Calls allowed (next reply) := Iff.rfl

/-- A choice makes allowed calls when both branches do. -/
theorem calls_ite {allowed : Op → Prop} {p q : Prog Reply α} {condition : Prop}
    [Decidable condition] (first : Calls allowed p) (second : Calls allowed q) :
    Calls allowed (if condition then p else q) := by
  by_cases holds : condition <;> simp [holds, first, second]

/-- A program whose operations can all be answered returns. -/
theorem Calls.returns {allowed : Op → Prop} {p : Prog Reply α} (uses : Calls allowed p)
    (answered : ∀ op, allowed op → Nonempty (Reply op)) {events : List (Event Reply)}
    {outcome : Option α} (run : Exec p events outcome) : ∃ value, outcome = some value := by
  induction run with
  | ret value => exact ⟨value, rfl⟩
  | call reply rest ih => exact ih (uses.2 reply)
  | blocked never => exact (never (answered _ uses.1).some).elim

/-- A program whose operations can all be answered has a run. -/
theorem Calls.runs {allowed : Op → Prop} {p : Prog Reply α} (uses : Calls allowed p)
    (answered : ∀ op, allowed op → Nonempty (Reply op)) :
    ∃ events value, Exec p events (some value) := by
  induction p with
  | ret value => exact ⟨[], value, .ret value⟩
  | call op next ih =>
    obtain ⟨reply⟩ := answered op uses.1
    obtain ⟨events, value, run⟩ := ih reply (uses.2 reply)
    exact ⟨_, value, .call reply run⟩

/-- The allowed operations of a sequence are those of its parts. -/
theorem Calls.bind {allowed : Op → Prop} {p : Prog Reply α} {f : α → Prog Reply β}
    (first : Calls allowed p) (second : ∀ value, Calls allowed (f value)) :
    Calls allowed (p >>= f) := by
  induction p with
  | ret value => exact second value
  | call op next ih => exact ⟨first.1, fun reply => ih reply (first.2 reply)⟩

/-- Every run of `p` returns `value` and performs only allowed operations. -/
def Yields (allowed : Op → Prop) (p : Prog Reply α) (value : α) : Prop :=
  ∀ events outcome, Exec p events outcome →
    outcome = some value ∧ ∀ event ∈ events, allowed event.op

variable {allowed : Op → Prop} {p : Prog Reply α} {value : α}

/-- A program that returns at once yields its value. -/
theorem yields_ret : Yields allowed (ret value : Prog Reply α) value := by
  intro events outcome run
  obtain ⟨rfl, rfl⟩ := exec_ret.mp run
  simp

/-- An allowed operation whose reply does not matter can come first. -/
theorem yields_call {op : Op} {next : Reply op → Prog Reply α} (answered : Nonempty (Reply op))
    (permitted : allowed op) (rest : ∀ reply, Yields allowed (next reply) value) :
    Yields allowed (call op next) value := by
  intro events outcome run
  obtain ⟨reply, later, rfl, goesOn⟩ := exec_call.mp run
  obtain ⟨returned, uses⟩ := rest reply _ _ goesOn
  refine ⟨returned, fun event member => ?_⟩
  rcases List.mem_cons.mp member with rfl | member
  · exact permitted
  · exact uses event member

/-- The value of a sequence is that of the second part, given the value of the first. -/
theorem Yields.bind {f : α → Prog Reply β} {result : β} (first : Yields allowed p value)
    (second : Yields allowed (f value) result) : Yields allowed (p >>= f) result := by
  intro events outcome run
  rcases exec_bind.mp run with ⟨middle, before, later, rfl, left, right⟩ | ⟨-, waits⟩
  · obtain ⟨same, uses⟩ := first _ _ left
    cases same
    obtain ⟨returned, others⟩ := second _ _ right
    refine ⟨returned, fun event member => ?_⟩
    rcases List.mem_append.mp member with member | member
    · exact uses event member
    · exact others event member
  · cases (first _ _ waits).1

end Interaction

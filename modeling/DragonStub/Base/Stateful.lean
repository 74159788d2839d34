import Mathlib.Tactic.Common

/-!
# Programs on a state that may stop

Rules for programs that change a state and stop at the first error: what holds of the value and the
state when such a program comes through, and when it is sure to come through.
-/

namespace Stateful

variable {σ ε α β : Type} {s : σ}

/-- Whenever the program comes through from state `s`, its value and the state it leaves satisfy
`post`. -/
def Ends (program : ExceptT ε (StateM σ) α) (s : σ) (post : α → σ → Prop) : Prop :=
  ∀ value left, program.run.run s = (.ok value, left) → post value left

/-- The program comes through from state `s`, with a value and a state that satisfy `post`. -/
def Returns (program : ExceptT ε (StateM σ) α) (s : σ) (post : α → σ → Prop) : Prop :=
  ∃ value left, program.run.run s = (.ok value, left) ∧ post value left

/-- A sequence runs its second part when the first comes through. -/
theorem run_bind {program : ExceptT ε (StateM σ) α} {next : α → ExceptT ε (StateM σ) β} :
    (program >>= next).run.run s = match program.run.run s with
      | (.ok value, left) => (next value).run.run left
      | (.error failure, left) => (.error failure, left) := by
  simp only [bind, ExceptT.bind, ExceptT.mk, ExceptT.run, StateT.bind, StateT.run]
  cases program s with
  | mk result left => cases result <;> rfl

/-- The program stops from state `s` with an error, in a state that satisfies `post`. -/
def Aborts (program : ExceptT ε (StateM σ) α) (s : σ) (failure : ε) (post : σ → Prop) : Prop :=
  ∃ left, program.run.run s = (.error failure, left) ∧ post left

/-- Reading the state comes through with it and leaves it. -/
theorem run_get : (MonadState.get : ExceptT ε (StateM σ) σ).run.run s = (.ok s, s) := rfl

variable {program : ExceptT ε (StateM σ) α} {next : α → ExceptT ε (StateM σ) β}

/-- A sequence ends as its second part does from every state its first part leaves. -/
theorem Ends.bind {post : β → σ → Prop}
    (holds : Ends program s fun value left => Ends (next value) left post) :
    Ends (program >>= next) s post := by
  intro last final run
  rw [run_bind] at run
  cases first : program.run.run s with
  | mk result left =>
    rw [first] at run
    cases result with
    | ok value => exact holds value left first last final run
    | error => cases run

/-- A constant program ends with its value in the same state. -/
theorem Ends.pure {value : α} {post : α → σ → Prop} (holds : post value s) :
    Ends (pure value : ExceptT ε (StateM σ) α) s post := by
  rintro _ _ ⟨⟩
  exact holds

/-- Reading the state ends with it in the same state. -/
theorem Ends.get {post : σ → σ → Prop} (holds : post s s) :
    Ends (MonadState.get : ExceptT ε (StateM σ) σ) s post := by
  rintro _ _ ⟨⟩
  exact holds

/-- A program that stops never comes through. -/
theorem Ends.throw {failure : ε} {post : α → σ → Prop} :
    Ends (MonadExcept.throw failure : ExceptT ε (StateM σ) α) s post := by
  rintro _ _ ⟨⟩

/-- What a program ends with may be weakened. -/
theorem Ends.mono {post weaker : α → σ → Prop} (holds : Ends program s post)
    (implies : ∀ value left, post value left → weaker value left) : Ends program s weaker :=
  fun value left run => implies value left (holds value left run)

/-- A sequence comes through when both of its parts do. -/
theorem Returns.bind {post : β → σ → Prop}
    (holds : Returns program s fun value left => Returns (next value) left post) :
    Returns (program >>= next) s post := by
  obtain ⟨value, left, first, last, final, second, holds⟩ := holds
  refine ⟨last, final, ?_, holds⟩
  rw [run_bind, first]
  exact second

/-- What a program comes through with may be weakened. -/
theorem Returns.mono {post weaker : α → σ → Prop} (holds : Returns program s post)
    (implies : ∀ value left, post value left → weaker value left) : Returns program s weaker := by
  obtain ⟨value, left, run, holds⟩ := holds
  exact ⟨value, left, run, implies value left holds⟩

/-- A run that is known by its result comes through. -/
theorem Returns.of_run {value : α} {left : σ} {post : α → σ → Prop}
    (run : program.run.run s = (.ok value, left)) (holds : post value left) :
    Returns program s post :=
  ⟨value, left, run, holds⟩

/-- A constant program comes through with its value in the same state. -/
theorem Returns.pure {value : α} {post : α → σ → Prop} (holds : post value s) :
    Returns (pure value : ExceptT ε (StateM σ) α) s post :=
  ⟨value, s, rfl, holds⟩

/-- Reading the state comes through with it in the same state. -/
theorem Returns.get {post : σ → σ → Prop} (holds : post s s) :
    Returns (MonadState.get : ExceptT ε (StateM σ) σ) s post :=
  ⟨s, s, rfl, holds⟩

/-- Writing the state comes through in the state that is written. -/
theorem Returns.set {left : σ} {post : PUnit → σ → Prop} (holds : post ⟨⟩ left) :
    Returns (MonadState.set left : ExceptT ε (StateM σ) PUnit) s post :=
  ⟨⟨⟩, left, rfl, holds⟩

/-- A change of the state comes through in the changed state. -/
theorem Returns.modify {change : σ → σ} {post : PUnit → σ → Prop} (holds : post ⟨⟩ (change s)) :
    Returns (modify change : ExceptT ε (StateM σ) PUnit) s post :=
  ⟨⟨⟩, change s, rfl, holds⟩

variable {failure : ε} {handler : ε → ExceptT ε (StateM σ) α}

/-- An error stops in the state it is raised in. -/
theorem Aborts.throw {post : σ → Prop} (holds : post s) :
    Aborts (MonadExcept.throw failure : ExceptT ε (StateM σ) α) s failure post :=
  ⟨s, rfl, holds⟩

/-- What holds of the state a program stops in may be weakened. -/
theorem Aborts.mono {post weaker : σ → Prop} (holds : Aborts program s failure post)
    (implies : ∀ left, post left → weaker left) : Aborts program s failure weaker := by
  obtain ⟨left, run, holds⟩ := holds
  exact ⟨left, run, implies left holds⟩

/-- A sequence stops where its first part does. -/
theorem Aborts.bind {post : σ → Prop} (holds : Aborts program s failure post) :
    Aborts (program >>= next) s failure post := by
  obtain ⟨left, run, holds⟩ := holds
  refine ⟨left, ?_, holds⟩
  rw [run_bind, run]

/-- A sequence stops where its second part does. -/
theorem Returns.aborts {post : σ → Prop}
    (holds : Returns program s fun value left => Aborts (next value) left failure post) :
    Aborts (program >>= next) s failure post := by
  obtain ⟨value, left, first, last, second, holds⟩ := holds
  refine ⟨last, ?_, holds⟩
  rw [run_bind, first]
  exact second

/-- What stops is handled in the state it leaves. -/
theorem run_tryCatch : (tryCatch program handler).run.run s = match program.run.run s with
      | (.ok value, left) => (.ok value, left)
      | (.error failure, left) => (handler failure).run.run left := by
  simp only [tryCatch, tryCatchThe, MonadExceptOf.tryCatch, ExceptT.tryCatch, ExceptT.mk, ExceptT.run,
    StateT.run, bind, StateT.bind]
  cases program s with
  | mk result left => cases result <;> rfl

/-- A program that comes through needs no handler. -/
theorem Returns.tryCatch {post : α → σ → Prop} (holds : Returns program s post) :
    Returns (MonadExcept.tryCatch program handler) s post := by
  obtain ⟨value, left, run, holds⟩ := holds
  refine ⟨value, left, ?_, holds⟩
  rw [run_tryCatch, run]

/-- A program that stops comes through with its handler. -/
theorem Aborts.tryCatch {post : α → σ → Prop}
    (holds : Aborts program s failure fun left => Returns (handler failure) left post) :
    Returns (MonadExcept.tryCatch program handler) s post := by
  obtain ⟨left, run, value, last, second, holds⟩ := holds
  refine ⟨value, last, ?_, holds⟩
  rw [run_tryCatch, run]
  exact second

/-- A program that stops, and whose handler stops, stops with the handler's error. -/
theorem Aborts.rethrow {other : ε} {post : σ → Prop}
    (holds : Aborts program s failure fun left => Aborts (handler failure) left other post) :
    Aborts (MonadExcept.tryCatch program handler) s other post := by
  obtain ⟨left, run, last, second, holds⟩ := holds
  refine ⟨last, ?_, holds⟩
  rw [run_tryCatch, run]
  exact second

end Stateful

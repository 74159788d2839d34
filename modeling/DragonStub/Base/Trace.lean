import Mathlib.Data.Set.Lattice
import Mathlib.Order.CompletePartialOrder
import Mathlib.Tactic.Common

/-!
# Properties of event lists

Two kinds of property of a finite list of events: what may happen once a trigger has happened, and
which resources the events acquire and release. Both split at an append, so a run is checked part
by part.
-/

namespace Trace

variable {E A : Type}

/-- Once an event triggers, only allowed events follow. -/
def After (trigger allowed : E → Prop) (events : List E) : Prop :=
  ∀ before first later, events = before ++ first :: later → trigger first →
    ∀ event ∈ later, allowed event

variable {trigger allowed : E → Prop} {first second : List E}

/-- Nothing is forbidden when nothing triggers. -/
theorem after_of_none (none : ∀ event ∈ first, ¬trigger event) : After trigger allowed first := by
  rintro before event later rfl triggers
  exact absurd triggers (none event (by simp))

/-- Nothing is broken when everything is allowed. -/
theorem after_of_all (all : ∀ event ∈ first, allowed event) : After trigger allowed first := by
  rintro before event later rfl -
  exact fun last member => all last (by simp [member])

/-- Behind a part that may trigger, everything has to be allowed. -/
theorem After.append (before : After trigger allowed first)
    (follows : ∀ event ∈ second, allowed event) : After trigger allowed (first ++ second) := by
  induction first with
  | nil => exact after_of_all follows
  | cons event rest ih =>
    have tail : After trigger allowed rest := fun start head later split =>
      before (event :: start) head later (by rw [split, List.cons_append])
    intro start head later split triggers
    cases start with
    | nil =>
      obtain ⟨rfl, rfl⟩ := List.cons_eq_cons.mp split
      intro last member
      rcases List.mem_append.mp member with member | member
      · exact before [] event rest rfl triggers last member
      · exact follows last member
    | cons _ start =>
      obtain ⟨rfl, inner⟩ := List.cons_eq_cons.mp split
      exact ih tail start head later inner triggers

/-- A part that does not trigger can be left out. -/
theorem after_append_of_none (none : ∀ event ∈ first, ¬trigger event) :
    After trigger allowed (first ++ second) ↔ After trigger allowed second := by
  constructor
  · rintro after before event later rfl
    exact after (first ++ before) event later (List.append_assoc ..).symm
  · intro after before event later split triggers
    rcases List.append_eq_append_iff.mp split with ⟨middle, rfl, rfl⟩ | ⟨middle, rfl, tail⟩
    · exact after middle event later rfl triggers
    · cases middle with
      | nil => exact after [] event later (by simpa using tail.symm) triggers
      | cons head rest =>
        obtain ⟨rfl, -⟩ := List.cons_eq_cons.mp tail
        exact absurd triggers (none event (by simp))

/-- An event that is not allowed breaks the property behind a trigger. -/
theorem not_after {event : E} (triggers : ∃ head ∈ first, trigger head)
    (member : event ∈ second) (forbidden : ¬allowed event) :
    ¬After trigger allowed (first ++ second) := by
  intro after
  obtain ⟨head, listed, triggers⟩ := triggers
  obtain ⟨before, later, rfl⟩ := List.append_of_mem listed
  exact forbidden (after before head (later ++ second) (by simp) triggers event (by simp [member]))

/-- Which resources an event acquires, and which it releases. -/
structure Effects (E A : Type) where
  /-- Resources that become held. -/
  acquired : E → Set A
  /-- Resources that stop being held. -/
  released : E → Set A

namespace Effects

variable (effects : Effects E A)

/-- The resources held after an event. -/
def after (live : Set A) (event : E) : Set A :=
  (live \ effects.released event) ∪ effects.acquired event

/-- The resources held after a list of events. -/
def held (live : Set A) (events : List E) : Set A := events.foldl effects.after live

/-- Every event releases only what is held. -/
def ReleasesHeld : Set A → List E → Prop
  | _, [] => True
  | live, event :: rest =>
    effects.released event ⊆ live ∧ ReleasesHeld (effects.after live event) rest

/-- No event acquires what is held or reserved. -/
def AcquiresFresh (reserved : Set A) : Set A → List E → Prop
  | _, [] => True
  | live, event :: rest => Disjoint (effects.acquired event) (live ∪ reserved) ∧
    AcquiresFresh reserved (effects.after live event) rest

/-- Events of a kind happen only while nothing is held. -/
def OnlyIdle (kind : E → Prop) : Set A → List E → Prop
  | _, [] => True
  | live, event :: rest => (kind event → live = ∅) ∧ OnlyIdle kind (effects.after live event) rest

variable {effects} {live reserved : Set A} {kind : E → Prop}

/-- No events release only what is held. -/
@[simp] theorem releasesHeld_nil : effects.ReleasesHeld live [] := trivial

/-- A trace releases what is held when its first event does and the rest does after it. -/
@[simp] theorem releasesHeld_cons {event : E} {rest : List E} :
    effects.ReleasesHeld live (event :: rest) ↔ effects.released event ⊆ live ∧
      effects.ReleasesHeld (effects.after live event) rest := Iff.rfl

/-- What is held is followed through two parts of a trace. -/
theorem held_append : effects.held live (first ++ second) =
    effects.held (effects.held live first) second :=
  List.foldl_append

/-- Releases are looked for through two parts of a trace. -/
theorem releasesHeld_append : effects.ReleasesHeld live (first ++ second) ↔
    effects.ReleasesHeld live first ∧ effects.ReleasesHeld (effects.held live first) second := by
  induction first generalizing live with
  | nil => simp [held]
  | cons event rest ih => simp [ih, held, and_assoc]

/-- Acquisitions are looked for through two parts of a trace. -/
theorem acquiresFresh_append : effects.AcquiresFresh reserved live (first ++ second) ↔
    effects.AcquiresFresh reserved live first ∧
      effects.AcquiresFresh reserved (effects.held live first) second := by
  induction first generalizing live with
  | nil => simp [held, AcquiresFresh]
  | cons event rest ih => simp [ih, held, AcquiresFresh, and_assoc]

/-- Events of a kind are looked for through two parts of a trace. -/
theorem onlyIdle_append : effects.OnlyIdle kind live (first ++ second) ↔
    effects.OnlyIdle kind live first ∧ effects.OnlyIdle kind (effects.held live first) second := by
  induction first generalizing live with
  | nil => simp [held, OnlyIdle]
  | cons event rest ih => simp [ih, held, OnlyIdle, and_assoc]

/-- A part without events of a kind has them only while nothing is held. -/
theorem onlyIdle_of_none (none : ∀ event ∈ first, ¬kind event) :
    effects.OnlyIdle kind live first := by
  induction first generalizing live with
  | nil => trivial
  | cons event rest ih =>
    refine ⟨fun now => absurd now (none event List.mem_cons_self), ih fun later member => ?_⟩
    exact none later (List.mem_cons_of_mem _ member)

/-- A part that acquires nothing acquires only what is fresh. -/
theorem acquiresFresh_of_none (none : ∀ event ∈ first, effects.acquired event = ∅) :
    effects.AcquiresFresh reserved live first := by
  induction first generalizing live with
  | nil => trivial
  | cons event rest ih =>
    refine ⟨by simp [none event List.mem_cons_self], ih fun later member => ?_⟩
    exact none later (List.mem_cons_of_mem _ member)

/-- Resources that are held and that no event releases stay held. -/
theorem spared_held {spared : Set A} (held : spared ⊆ live)
    (kept : ∀ event ∈ first, Disjoint (effects.released event) spared) :
    spared ⊆ effects.held live first := by
  induction first generalizing live with
  | nil => exact held
  | cons event rest ih =>
    have now : spared ⊆ effects.after live event := by
      intro resource member
      have apart := Set.disjoint_left.mp (kept event List.mem_cons_self)
      exact .inl ⟨held member, fun released => apart released member⟩
    exact ih now fun later member => kept later (List.mem_cons_of_mem _ member)

/-- What is not released stays held. -/
theorem subset_held (kept : ∀ event ∈ first, effects.released event = ∅) :
    live ⊆ effects.held live first :=
  spared_held subset_rfl fun event member => by simp [kept event member]

/-- A part that releases nothing releases only what is held. -/
theorem releasesHeld_of_none (kept : ∀ event ∈ first, effects.released event = ∅) :
    effects.ReleasesHeld live first := by
  induction first generalizing live with
  | nil => trivial
  | cons event rest ih =>
    refine ⟨by simp [kept event List.mem_cons_self], ih fun later member => ?_⟩
    exact kept later (List.mem_cons_of_mem _ member)

/-- A part that acquires and releases nothing changes nothing. -/
theorem held_of_none (gained : ∀ event ∈ first, effects.acquired event = ∅)
    (kept : ∀ event ∈ first, effects.released event = ∅) : effects.held live first = live := by
  induction first generalizing live with
  | nil => rfl
  | cons event rest ih =>
    have now : effects.after live event = live := by
      rw [after, gained event List.mem_cons_self, kept event List.mem_cons_self, Set.sdiff_empty,
        Set.union_empty]
    change effects.held (effects.after live event) rest = live
    rw [now]
    exact ih (fun later member => gained later (List.mem_cons_of_mem _ member))
      fun later member => kept later (List.mem_cons_of_mem _ member)

/-- What is held behind a part that acquires nothing was held before it. -/
theorem held_subset (gained : ∀ event ∈ first, effects.acquired event = ∅) :
    effects.held live first ⊆ live := by
  induction first generalizing live with
  | nil => exact subset_rfl
  | cons event rest ih =>
    have now : effects.after live event ⊆ live := by
      rw [after, gained event List.mem_cons_self, Set.union_empty]
      exact Set.sdiff_subset
    exact (ih fun later member => gained later (List.mem_cons_of_mem _ member)).trans now

/-- A part that takes something and gives the same back changes nothing. -/
theorem held_borrow {middle : List E} {take give : E} (takeKept : effects.released take = ∅)
    (gained : ∀ event ∈ middle, effects.acquired event = ∅)
    (kept : ∀ event ∈ middle, effects.released event = ∅)
    (returned : effects.released give = effects.acquired take)
    (giveGained : effects.acquired give = ∅) (new : Disjoint (effects.acquired take) live) :
    effects.held live (take :: (middle ++ [give])) = live := by
  have taken : effects.after live take = live ∪ effects.acquired take := by
    rw [after, takeKept, Set.sdiff_empty]
  change effects.held (effects.after live take) (middle ++ [give]) = live
  rw [held_append, held_of_none gained kept, taken]
  change effects.after (live ∪ effects.acquired take) give = live
  rw [after, giveGained, returned, Set.union_empty, Set.union_sdiff_cancel_right]
  exact Set.disjoint_iff.mp new.symm

/-- A part that takes something and later gives back no more than that leaves everything held that
was held before. -/
theorem borrow {before middle : List E} {take give : E}
    (beforeKept : ∀ event ∈ before, effects.released event = ∅)
    (takeKept : effects.released take = ∅)
    (middleKept : ∀ event ∈ middle, effects.released event = ∅)
    (returned : effects.released give ⊆ effects.acquired take)
    (fresh : effects.AcquiresFresh reserved live (before ++ take :: (middle ++ [give]))) :
    effects.ReleasesHeld live (before ++ take :: (middle ++ [give])) ∧
      live ⊆ effects.held live (before ++ take :: (middle ++ [give])) := by
  have start : live ⊆ effects.held live before := subset_held beforeKept
  have new := (acquiresFresh_append.mp fresh).2.1
  have taken : effects.acquired take ⊆ effects.held (effects.after (effects.held live before) take)
      middle := Set.subset_union_right.trans (subset_held middleKept)
  refine ⟨releasesHeld_append.mpr ⟨releasesHeld_of_none beforeKept, by simp [takeKept],
    releasesHeld_append.mpr ⟨releasesHeld_of_none middleKept, returned.trans taken, trivial⟩⟩, ?_⟩
  intro resource member
  have still : resource ∈ effects.held (effects.after (effects.held live before) take) middle :=
    subset_held middleKept (.inl ⟨start member, by simp [takeKept]⟩)
  have other : resource ∉ effects.released give := fun released =>
    Set.disjoint_left.mp new (returned released) (.inl (start member))
  rw [held_append]
  change resource ∈ effects.held (effects.after (effects.held live before) take) (middle ++ [give])
  rw [held_append]
  exact .inl ⟨still, other⟩

/-- Reserved resources are never released by a run that acquires fresh ones and releases what it
holds. -/
theorem ReleasesHeld.spares (owns : effects.ReleasesHeld live first)
    (fresh : effects.AcquiresFresh reserved live first) (outside : Disjoint live reserved) :
    ∀ event ∈ first, Disjoint (effects.released event) reserved := by
  induction first generalizing live with
  | nil => simp
  | cons event rest ih =>
    intro other member
    rcases List.mem_cons.mp member with rfl | member
    · exact outside.mono_left owns.1
    · refine ih owns.2 fresh.2 ?_ other member
      have new := Set.disjoint_union_right.mp fresh.1
      exact Set.disjoint_union_left.mpr ⟨outside.mono_left Set.sdiff_subset, new.2⟩

end Effects

end Trace

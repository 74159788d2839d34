import Mathlib.Tactic.Common
import Mathlib.Data.Nat.Basic

/-!
# Serial layouts

Items are placed one after another from a cursor, each at the next multiple of its unit. Everything
is in natural numbers: a machine that lays items out with wrapping words is compared with the layout
here, and the layout says how far the comparison goes.
-/

namespace Layout

/-- The least multiple of `unit` that is at least `n`. -/
def ceilTo (n unit : Nat) : Nat := n + (unit - 1) - (n + (unit - 1)) % unit

variable {n m unit granule : Nat}

/-- Rounding up gives a multiple of the unit, less than one unit above the argument. -/
theorem ceilTo_spec (positive : 0 < unit) :
    n ≤ ceilTo n unit ∧ ceilTo n unit < n + unit ∧ ceilTo n unit % unit = 0 := by
  have remainder := Nat.mod_lt (n + (unit - 1)) positive
  have divided := Nat.div_add_mod (n + (unit - 1)) unit
  have exact : ceilTo n unit = unit * ((n + (unit - 1)) / unit) := by
    unfold ceilTo
    omega
  refine ⟨?_, ?_, ?_⟩
  · unfold ceilTo
    omega
  · unfold ceilTo
    omega
  · rw [exact]
    exact Nat.mul_mod_right _ _

/-- No multiple of the unit lies between a number and its rounding. -/
theorem ceilTo_le (positive : 0 < unit) (bound : n ≤ m) (whole : m % unit = 0) :
    ceilTo n unit ≤ m := by
  obtain ⟨-, near, multiple⟩ := ceilTo_spec (n := n) positive
  by_contra failure
  have gap : unit ∣ ceilTo n unit - m :=
    Nat.dvd_sub (Nat.dvd_of_mod_eq_zero multiple) (Nat.dvd_of_mod_eq_zero whole)
  have zero := Nat.eq_zero_of_dvd_of_lt gap (by omega)
  omega

/-- A multiple of the unit is its own rounding. -/
theorem ceilTo_of_multiple (positive : 0 < unit) (multiple : n % unit = 0) : ceilTo n unit = n :=
  Nat.le_antisymm (ceilTo_le positive (Nat.le_refl n) multiple) (ceilTo_spec positive).1

/-- Any other number is rounded to the unit after the one it is in. -/
theorem ceilTo_of_rest (rest : n % unit ≠ 0) : ceilTo n unit = n - n % unit + unit := by
  have divided := Nat.div_add_mod n unit
  by_cases none : unit = 0
  · subst none
    rw [Nat.mod_zero] at rest
    unfold ceilTo
    simp
  have remainder := Nat.mod_lt n (Nat.pos_of_ne_zero none)
  have split : n + (unit - 1) = n % unit - 1 + unit * (n / unit + 1) := by
    rw [Nat.mul_add]
    omega
  have excess : (n + (unit - 1)) % unit = n % unit - 1 := by
    rw [split, Nat.add_mul_mod_self_left, Nat.mod_eq_of_lt (by omega)]
  unfold ceilTo
  omega

/-- Something to place: its alignment unit and how much room it takes from there. -/
structure Item where
  /-- Alignment of the start. -/
  unit : Nat
  /-- Room taken from the start. -/
  extent : Nat
  deriving DecidableEq, Repr

/-- Where an item goes when the cursor is at `cursor`. -/
def Item.start (item : Item) (cursor : Nat) : Nat := ceilTo cursor item.unit

/-- The cursor after an item. -/
def Item.finish (item : Item) (cursor : Nat) : Nat := item.start cursor + item.extent

variable {α : Type} (shape : α → Item)

/-- Objects placed one after another from a cursor, each with its start. -/
def placed : List α → Nat → List (α × Nat)
  | [], _ => []
  | object :: rest, cursor =>
    (object, (shape object).start cursor) :: placed rest ((shape object).finish cursor)

/-- The cursor after all objects. -/
def ending (objects : List α) (cursor : Nat) : Nat :=
  objects.foldl (fun reached object => (shape object).finish reached) cursor

variable {shape} {objects : List α} {cursor : Nat}

/-- Nothing is placed without objects. -/
@[simp] theorem placed_nil : placed shape [] cursor = [] := rfl

/-- An object is placed, and the rest behind it. -/
@[simp] theorem placed_cons (object : α) (rest : List α) :
    placed shape (object :: rest) cursor =
      (object, (shape object).start cursor) ::
        placed shape rest ((shape object).finish cursor) := rfl

/-- Nothing moves the cursor without objects. -/
@[simp] theorem ending_nil : ending shape [] cursor = cursor := rfl

/-- The cursor moves behind an object, and then behind the rest. -/
@[simp] theorem ending_cons (object : α) (rest : List α) :
    ending shape (object :: rest) cursor = ending shape rest ((shape object).finish cursor) := rfl

/-- Every object is placed, in order. -/
theorem placed_objects : (placed shape objects cursor).map Prod.fst = objects := by
  induction objects generalizing cursor with
  | nil => rfl
  | cons object rest ih => rw [placed_cons, List.map_cons, ih]

/-- The cursor never moves back. -/
theorem le_ending (positive : ∀ object, 0 < (shape object).unit) :
    cursor ≤ ending shape objects cursor := by
  induction objects generalizing cursor with
  | nil => exact Nat.le_refl cursor
  | cons object rest ih =>
    have first := (ceilTo_spec (n := cursor) (positive object)).1
    have later : (shape object).finish cursor ≤ ending shape rest ((shape object).finish cursor) :=
      ih
    rw [ending_cons]
    unfold Item.finish Item.start at later ⊢
    omega

/-- A placed object lies between the cursor before the layout and the one after it, at a multiple
of its unit. -/
theorem placed_within (positive : ∀ object, 0 < (shape object).unit) :
    ∀ spot ∈ placed shape objects cursor, cursor ≤ spot.2 ∧
      spot.2 + (shape spot.1).extent ≤ ending shape objects cursor ∧
      spot.2 % (shape spot.1).unit = 0 := by
  induction objects generalizing cursor with
  | nil => simp
  | cons object rest ih =>
    have start := ceilTo_spec (n := cursor) (positive object)
    intro spot member
    rw [placed_cons] at member
    rcases List.mem_cons.mp member with rfl | member
    · exact ⟨start.1, le_ending positive, start.2.2⟩
    · obtain ⟨after, before, aligned⟩ := ih spot member
      have moved : cursor ≤ (shape object).finish cursor := by
        unfold Item.finish Item.start
        omega
      exact ⟨Nat.le_trans moved after, before, aligned⟩

/-- Objects whose units are multiples of a granule stay apart when the ends are widened to whole
granules. -/
theorem placed_apart (fine : 0 < granule)
    (whole : ∀ object, 0 < (shape object).unit ∧ granule ∣ (shape object).unit) :
    (placed shape objects cursor).Pairwise fun first second =>
      ceilTo (first.2 + (shape first.1).extent) granule ≤ second.2 := by
  induction objects generalizing cursor with
  | nil => exact List.Pairwise.nil
  | cons object rest ih =>
    rw [placed_cons]
    refine List.Pairwise.cons ?_ ih
    intro second member
    have within := placed_within (fun object => (whole object).1) second member
    have multiple : granule ∣ second.2 :=
      Nat.dvd_trans (whole second.1).2 (Nat.dvd_of_mod_eq_zero within.2.2)
    exact ceilTo_le fine within.1 (Nat.mod_eq_zero_of_dvd multiple)

end Layout

import Mathlib.Data.Set.Lattice
import Mathlib.Order.CompletePartialOrder
import Mathlib.Tactic.Ring

/-!
# Byte memory with 64-bit addresses

A memory gives every 64-bit address a byte. Address arithmetic wraps, so a range of bytes is a
window: the addresses whose distance above a base is below a length. Two facts carry every bounds
argument: which windows lie inside another one (`window_subset_iff`), and what a fill leaves in a
window and around it.
-/

namespace ByteMemory

/-- A byte at every address. -/
abbrev Memory := UInt64 → UInt8

/-- Write one byte. -/
def store (m : Memory) (address : UInt64) (byte : UInt8) : Memory :=
  fun x => if x = address then byte else m x

/-- A byte that is written is read back. -/
@[simp] theorem store_same (m : Memory) (address : UInt64) (byte : UInt8) :
    store m address byte address = byte := if_pos rfl

/-- Writing a byte leaves every other one. -/
theorem store_other (m : Memory) {address x : UInt64} (byte : UInt8) (apart : x ≠ address) :
    store m address byte x = m x := if_neg apart

/-- The `length` addresses from `base` upward, wrapping at the end of the address space. -/
def window (base : UInt64) (length : Nat) : Set UInt64 := {x | (x - base).toNat < length}

variable {base x y : UInt64} {length : Nat}

/-- An address lies in a window when it is less than the length above its base. -/
@[simp] theorem mem_window : x ∈ window base length ↔ (x - base).toNat < length := Iff.rfl

/-- A window without a length is empty. -/
@[simp] theorem window_zero (base : UInt64) : window base 0 = ∅ := by
  ext x
  simp

/-- A window that ends before the end of the address space is an interval. -/
theorem mem_window_of_fits (fits : base.toNat + length ≤ 2 ^ 64) :
    x ∈ window base length ↔ base.toNat ≤ x.toNat ∧ x.toNat < base.toNat + length := by
  have bound := x.toNat_lt
  rw [mem_window, UInt64.toNat_sub]
  omega

/-- A window holds every shorter one of its base. -/
theorem window_mono {shorter : Nat} (fits : shorter ≤ length) :
    window base shorter ⊆ window base length :=
  fun _ inside => Nat.lt_of_lt_of_le inside fits

/-- The distance of an address from a base that lies `offset` below another base. -/
theorem toNat_sub_add (base x : UInt64) (offset : UInt64) :
    (x - base).toNat = ((x - (base + offset)).toNat + offset.toNat) % 2 ^ 64 := by
  have shift : x - base = (x - (base + offset)) + offset := by
    rw [UInt64.sub_eq_iff_eq_add, UInt64.add_assoc, UInt64.add_comm offset base,
      UInt64.sub_add_cancel]
  rw [shift, UInt64.toNat_add]

/-- The addresses `offset` above a base are at that distance from it. -/
theorem sub_add_self (base offset : UInt64) : base + offset - base = offset := by
  rw [UInt64.add_comm, UInt64.add_sub_cancel]

/-- A window of positive length inside another starts at an offset that leaves room for it. The
outer length is a word, so a window that wraps around the outer base is never inside it. -/
theorem window_subset_iff {offset size : UInt64} {inner : Nat} :
    window (base + offset) inner ⊆ window base size.toNat ↔
      inner = 0 ∨ offset.toNat + inner ≤ size.toNat := by
  have sizeBound := size.toNat_lt
  have offsetBound := offset.toNat_lt
  constructor
  · intro inside
    by_cases none : inner = 0
    · exact .inl none
    · refine .inr (Nat.le_of_not_lt fun tooLong => ?_)
      -- the first address of the inner window that is not below the outer end
      let step : UInt64 := UInt64.ofNat (size.toNat - offset.toNat)
      have stepValue : step.toNat = size.toNat - offset.toNat := by
        rw [UInt64.toNat_ofNat']
        omega
      have distance : base + offset + step - (base + offset) = step := sub_add_self _ _
      have inInner : base + offset + step ∈ window (base + offset) inner := by
        rw [mem_window, distance, stepValue]
        omega
      have inOuter := inside inInner
      rw [mem_window, toNat_sub_add base _ offset, distance, stepValue] at inOuter
      omega
  · rintro (rfl | fits)
    · simp
    · intro address inInner
      rw [mem_window] at inInner ⊢
      rw [toNat_sub_add base address offset, Nat.mod_eq_of_lt (by omega)]
      omega

/-- A window at an offset that leaves room for it is inside, up to the whole address space. -/
theorem window_subset_of_le {offset : UInt64} {inner : Nat} (fits : offset.toNat + inner ≤ length)
    (bound : length ≤ 2 ^ 64) : window (base + offset) inner ⊆ window base length := by
  intro address inside
  rw [mem_window] at inside ⊢
  rw [toNat_sub_add base address offset, Nat.mod_eq_of_lt (by omega)]
  omega

/-- The rest of a window, behind its first bytes. -/
theorem window_behind {region : Set UInt64} {k : Nat} (bound : length ≤ 2 ^ 64)
    (inside : window base length ⊆ region) (some : k ≤ length) :
    window (base + UInt64.ofNat k) (length - k) ⊆ region := by
  refine Set.Subset.trans ?_ inside
  by_cases none : length - k = 0
  · rw [none, window_zero]
    exact Set.empty_subset _
  · refine window_subset_of_le ?_ bound
    rw [UInt64.toNat_ofNat']
    omega

/-- A region that holds a window holds its base. -/
theorem mem_of_window {region : Set UInt64} (inside : window base (length + 1) ⊆ region) :
    base ∈ region :=
  inside (by simp)

/-- A region that holds a window holds what lies behind its base. -/
theorem window_tail {region : Set UInt64} (bound : length + 1 ≤ 2 ^ 64)
    (inside : window base (length + 1) ⊆ region) : window (base + 1) length ⊆ region :=
  window_behind (k := 1) bound inside (by omega)

/-- Two windows at offsets from one base are apart when their offset ranges are. -/
theorem window_disjoint_of_offsets {first second : UInt64} {n k : Nat}
    (firstFits : first.toNat + n ≤ 2 ^ 64) (secondFits : second.toNat + k ≤ 2 ^ 64)
    (apart : first.toNat + n ≤ second.toNat ∨ second.toNat + k ≤ first.toNat) :
    Disjoint (window (base + first) n) (window (base + second) k) := by
  rw [Set.disjoint_left]
  intro address inFirst inSecond
  rw [mem_window] at inFirst inSecond
  have one := toNat_sub_add base address first
  have two := toNat_sub_add base address second
  rw [Nat.mod_eq_of_lt (by omega)] at one two
  omega

/-- Two windows of numbers in order are apart. -/
theorem window_apart {first second : UInt64} {n k : Nat} (order : first.toNat + n ≤ second.toNat)
    (bound : second.toNat + k ≤ 2 ^ 64) : Disjoint (window first n) (window second k) := by
  have apart : Disjoint (window (0 + first) n) (window (0 + second) k) :=
    window_disjoint_of_offsets (by omega) bound (.inl order)
  rwa [UInt64.zero_add, UInt64.zero_add] at apart

/-- The memory after `length` bytes from `base` are set to one value. -/
def fill (m : Memory) (base : UInt64) (byte : UInt8) (length : Nat) : Memory :=
  fun x => if (x - base).toNat < length then byte else m x

/-- A filled window holds the byte. -/
theorem fill_inside (m : Memory) (byte : UInt8) (inside : x ∈ window base length) :
    fill m base byte length x = byte := if_pos inside

/-- Filling a window leaves what lies outside. -/
theorem fill_outside (m : Memory) (byte : UInt8) (outside : x ∉ window base length) :
    fill m base byte length x = m x := if_neg outside

/-- Filling no bytes changes nothing. -/
@[simp] theorem fill_zero (m : Memory) (base : UInt64) (byte : UInt8) : fill m base byte 0 = m := by
  funext x
  simp [fill]

/-- An address at distance `count + 1` or less from a base is the base itself or at distance
`count` or less from the next address. -/
theorem distance_succ {count : Nat} (fits : count + 1 ≤ 2 ^ 64) (x base : UInt64) :
    (x - base).toNat < count + 1 ↔ x = base ∨ (x - (base + 1)).toNat < count ∧ x ≠ base := by
  have next := toNat_sub_add base x 1
  have bound := (x - (base + 1)).toNat_lt
  rw [UInt64.toNat_one] at next
  by_cases same : x = base
  · subst same
    simp
  · have nonzero : (x - base).toNat ≠ 0 := by
      intro zero
      apply same
      have : x - base = 0 := UInt64.toNat_inj.mp zero
      rwa [UInt64.sub_eq_iff_eq_add, UInt64.zero_add] at this
    simp only [same, false_or, ne_eq, not_false_eq_true, and_true]
    omega

/-- Filling one byte, then the rest upward, fills the window. -/
theorem fill_store (m : Memory) (base : UInt64) (byte : UInt8) {count : Nat}
    (fits : count + 1 ≤ 2 ^ 64) :
    fill (store m base byte) (base + 1) byte count = fill m base byte (count + 1) := by
  funext x
  simp only [fill, store, distance_succ fits]
  by_cases same : x = base <;> simp [same]

/-- Memory with some bytes moved, as if through a copy. -/
def moved (m : Memory) (dst src : UInt64) (n : Nat) : Memory :=
  fun x => if (x - dst).toNat < n then m (src + (x - dst)) else m x

/-- A moved byte stands at the same distance in its new window. -/
theorem moved_inside {m : Memory} {dst src : UInt64} {n : Nat} (inside : x ∈ window dst n) :
    moved m dst src n x = m (src + (x - dst)) := if_pos inside

/-- Moving bytes leaves what lies outside their new window. -/
theorem moved_outside {m : Memory} {dst src : UInt64} {n : Nat} (outside : x ∉ window dst n) :
    moved m dst src n x = m x := if_neg outside

/-- Moving no bytes changes nothing. -/
theorem moved_zero {m : Memory} {dst src : UInt64} : moved m dst src 0 = m := by
  funext x
  exact moved_outside (by simp)

/-- The number stored little-endian in `count` bytes from an address. -/
def readLe (m : Memory) (address : UInt64) : Nat → Nat
  | 0 => 0
  | count + 1 => (m address).toNat + 256 * readLe m (address + 1) count

/-- A stored number depends only on the bytes of its window. -/
theorem readLe_congr {m m' : Memory} {address : UInt64} {count : Nat} (fits : count ≤ 2 ^ 64)
    (same : ∀ x ∈ window address count, m x = m' x) :
    readLe m address count = readLe m' address count := by
  induction count generalizing address with
  | zero => rfl
  | succ count ih =>
    have first : m address = m' address := same address (by simp)
    have rest : readLe m (address + 1) count = readLe m' (address + 1) count := by
      refine ih (by omega) fun x inside => same x ?_
      rw [mem_window, distance_succ fits]
      by_cases start : x = address
      · exact .inl start
      · exact .inr ⟨inside, start⟩
    simp only [readLe, first, rest]

/-- A number of so many bytes. -/
theorem readLe_lt (m : Memory) (address : UInt64) (count : Nat) :
    readLe m address count < 256 ^ count := by
  induction count generalizing address with
  | zero => exact Nat.one_pos
  | succ count ih =>
    have byte := (m address).toNat_lt
    have rest := ih (address + 1)
    rw [readLe, Nat.pow_succ]
    omega

/-- Write a number little-endian in `count` bytes from an address. -/
def writeLe (m : Memory) (address : UInt64) (value : Nat) : Nat → Memory
  | 0 => m
  | count + 1 => writeLe (store m address (UInt8.ofNat value)) (address + 1) (value / 256) count

/-- Writing a number leaves every byte outside its window. -/
theorem writeLe_outside (m : Memory) {address x : UInt64} (value count : Nat)
    (fits : count ≤ 2 ^ 64) (outside : x ∉ window address count) :
    writeLe m address value count x = m x := by
  induction count generalizing m address value with
  | zero => rfl
  | succ count ih =>
    rw [mem_window, distance_succ fits, not_or] at outside
    have notNext : x ∉ window (address + 1) count := fun inside => outside.2 ⟨inside, outside.1⟩
    rw [writeLe, ih _ _ (by omega) notNext, store_other _ _ outside.1]

/-- Reading a written number back returns it. -/
theorem readLe_writeLe (m : Memory) (address : UInt64) (value count : Nat) (fits : count < 2 ^ 64)
    (small : value < 256 ^ count) : readLe (writeLe m address value count) address count = value := by
  induction count generalizing m address value with
  | zero =>
    rw [Nat.pow_zero] at small
    simp only [readLe]
    omega
  | succ count ih =>
    have low : writeLe (store m address (UInt8.ofNat value)) (address + 1) (value / 256) count address
        = UInt8.ofNat value := by
      rw [writeLe_outside _ _ _ (by omega), store_same]
      rw [mem_window]
      have distance := toNat_sub_add address address 1
      have bound := (address - (address + 1)).toNat_lt
      rw [UInt64.toNat_one, UInt64.sub_self, UInt64.toNat_zero] at distance
      omega
    rw [Nat.pow_succ] at small
    have tail := ih (store m address (UInt8.ofNat value)) (address + 1) (value / 256) (by omega)
      (by omega)
    simp only [readLe, writeLe, low, tail, UInt8.toNat_ofNat']
    omega

end ByteMemory

import DragonStub.Boot.Routines
import DragonStub.Verif.ProgramBounds

/-!
# Moving bytes

`memmove` copies upward when the target lies below the source, and downward when it lies above. Either
way no byte is overwritten before it has been read, so the target holds what the source held,
however the two overlap.
-/

namespace DragonStub

open ByteMemory

variable {m : Memory} {dst src x : UInt64} {n : Nat}

/-- Copying downward moves, when no byte is written below one that is still to be read. -/
theorem copyDown_eq_moved (behind : (dst - src).toNat + n ≤ 2 ^ 64) :
    copyDown m (dst + UInt64.ofNat n) (src + UInt64.ofNat n) n = moved m dst src n := by
  induction n generalizing m with
  | zero => rw [copyDown, moved_zero]
  | succ n ih =>
    have last (p : UInt64) : p + UInt64.ofNat (n + 1) - 1 = p + UInt64.ofNat n := by
      rw [UInt64.ofNat_add]
      grind
    rw [copyDown, last, last, ih (by omega)]
    funext x
    have distance : (dst + UInt64.ofNat n - dst).toNat = n := by
      rw [sub_add_self, UInt64.toNat_ofNat']
      omega
    by_cases top : x = dst + UInt64.ofNat n
    · have outside : x ∉ window dst n := by
        rw [top, mem_window, distance]
        omega
      have inside : x ∈ window dst (n + 1) := by
        rw [top, mem_window, distance]
        omega
      rw [moved_outside outside, moved_inside inside, top, store_same, sub_add_self]
    have other : (x - dst).toNat ≠ n := by
      intro same
      apply top
      rw [← same, UInt64.ofNat_toNat]
      grind
    by_cases inside : x ∈ window dst n
    · -- What is read lies below the byte just written.
      have unread : src + (x - dst) ≠ dst + UInt64.ofNat n := by
        intro written
        have value := congrArg UInt64.toNat written
        rw [UInt64.toNat_add, UInt64.toNat_add, UInt64.toNat_ofNat'] at value
        rw [UInt64.toNat_sub] at behind
        rw [mem_window] at inside
        have bounds := And.intro dst.toNat_lt src.toNat_lt
        omega
      rw [moved_inside inside, moved_inside (window_mono (by omega) inside), store_other _ _ unread]
    · have outside : x ∉ window dst (n + 1) := by
        rw [mem_window] at inside ⊢
        omega
      rw [moved_outside inside, moved_outside outside, store_other _ _ top]

/-- `memmove` moves the bytes between ranges that do not wrap. -/
theorem memmove_eq {size : UInt64} (dstFits : dst.toNat + size.toNat ≤ 2 ^ 64)
    (srcFits : src.toNat + size.toNat ≤ 2 ^ 64) :
    memmove m dst src size = (dst, moved m dst src size.toNat) := by
  rw [memmove]
  by_cases none : size = 0
  · rw [if_pos (by simpa using none), none, UInt64.toNat_zero, moved_zero]
  rw [if_neg (by simpa using none)]
  have bounds := And.intro dst.toNat_lt src.toNat_lt
  by_cases upward : dst ≤ src
  · have order := UInt64.le_iff_toNat_le.mp upward
    rw [if_pos upward, memcpy_eq_moved]
    rw [UInt64.toNat_sub_of_le _ _ upward]
    omega
  · have above : src ≤ dst := UInt64.le_of_lt (UInt64.not_le.mp upward)
    have order := UInt64.le_iff_toNat_le.mp above
    have behind : (dst - src).toNat + size.toNat ≤ 2 ^ 64 := by
      rw [UInt64.toNat_sub_of_le _ _ above]
      omega
    have downward := copyDown_eq_moved (m := m) behind
    rw [UInt64.ofNat_toNat] at downward
    rw [if_neg upward, downward]

/-- The formatter moves text within its buffer as `memmove` does. -/
theorem memmove_buffer {target source count address : Nat} (targetFits : target + count < 2 ^ 64)
    (sourceFits : source + count < 2 ^ 64) (inMemory : address < 2 ^ 64) :
    (memmove m (UInt64.ofNat target) (UInt64.ofNat source) (UInt64.ofNat count)).2
        (UInt64.ofNat address) =
      BoundedOutput.move (fun place => m (UInt64.ofNat place)) target source count address := by
  have word {place : Nat} (low : place < 2 ^ 64) : (UInt64.ofNat place).toNat = place := by
    rw [UInt64.toNat_ofNat', Nat.mod_eq_of_lt low]
  have start := word (show target < 2 ^ 64 by omega)
  have origin := word (show source < 2 ^ 64 by omega)
  have length := word (show count < 2 ^ 64 by omega)
  have here := word inMemory
  have fits : (UInt64.ofNat target).toNat + count ≤ 2 ^ 64 := by omega
  rw [memmove_eq (by omega) (by omega), BoundedOutput.move]
  dsimp only
  rw [length]
  by_cases inside : UInt64.ofNat address ∈ window (UInt64.ofNat target) count
  · have within := (mem_window_of_fits fits).mp inside
    rw [start, here] at within
    have place : UInt64.ofNat source + (UInt64.ofNat address - UInt64.ofNat target) =
        UInt64.ofNat (address - target + source) := by
      apply UInt64.toNat_inj.mp
      rw [UInt64.toNat_add, UInt64.toNat_sub, start, origin, here, word (by omega)]
      omega
    rw [moved_inside inside, if_pos within, place]
  · have without := mt (mem_window_of_fits fits).mpr inside
    rw [start, here] at without
    rw [moved_outside inside, if_neg without]

/-- After `memmove` the target holds the bytes that the source had before the call, however the two
overlap, and nothing else has changed. -/
theorem memmove_moves (m : Memory) (dst src size : UInt64)
    (dstFits : dst.toNat + size.toNat ≤ 2 ^ 64) (srcFits : src.toNat + size.toNat ≤ 2 ^ 64) :
    (memmove m dst src size).1 = dst ∧
      (∀ k < size, (memmove m dst src size).2 (dst + k) = m (src + k)) ∧
      ∀ x ∉ window dst size.toNat, (memmove m dst src size).2 x = m x := by
  rw [memmove_eq dstFits srcFits]
  refine ⟨rfl, fun k inside => ?_, fun x outside => moved_outside outside⟩
  have target : dst + k ∈ window dst size.toNat := by
    rw [mem_window, sub_add_self]
    exact UInt64.lt_iff_toNat_lt.mp inside
  calc moved m dst src size.toNat (dst + k) = m (src + (dst + k - dst)) := moved_inside target
    _ = m (src + k) := by rw [sub_add_self]

/-- Eight bytes move by four in either direction. -/
theorem memmove_moves_overlapping :
    (∀ k < (8 : UInt64), (memmove UInt64.toUInt8 0x1004 0x1000 8).2 (0x1004 + k) =
      (0x1000 + k).toUInt8) ∧
    ∀ k < (8 : UInt64), (memmove UInt64.toUInt8 0x1000 0x1004 8).2 (0x1000 + k) =
      (0x1004 + k).toUInt8 :=
  ⟨(memmove_moves UInt64.toUInt8 0x1004 0x1000 8 (by decide) (by decide)).2.1,
    (memmove_moves UInt64.toUInt8 0x1000 0x1004 8 (by decide) (by decide)).2.1⟩

end DragonStub

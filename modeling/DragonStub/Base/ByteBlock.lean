import DragonStub.Base.CString

/-!
# Blocks of bytes

A block is a list of bytes that memory holds from an address on. A write replaces a part of a block
by one of the same length, and a move of what stands behind a part makes the block longer or shorter
there. Both leave memory outside the block.
-/

namespace ByteMemory

variable {m : Memory} {base x : UInt64} {bytes other front old back : List UInt8} {n : Nat}

/-- The bytes in memory from an address on. -/
def load (m : Memory) (base : UInt64) : Nat → List UInt8
  | 0 => []
  | n + 1 => m base :: load m (base + 1) n

/-- As many bytes are loaded as are asked for. -/
@[simp] theorem length_load : (load m base n).length = n := by
  induction n generalizing base with
  | zero => rfl
  | succ n ih => rw [load, List.length_cons, ih]

/-- Loaded bytes are held where they are loaded from. -/
theorem holds_load : Holds m base (load m base n) := by
  induction n generalizing base with
  | zero => trivial
  | succ n ih => exact ⟨rfl, ih⟩

/-- Two blocks at one address begin alike. -/
theorem Holds.begins (held : Holds m base bytes) (too : Holds m base other)
    (shorter : bytes.length ≤ other.length) : bytes <+: other := by
  induction bytes generalizing base other with
  | nil => exact List.nil_prefix
  | cons c rest ih =>
    cases other with
    | nil => simp at shorter
    | cons d behind =>
      have first : c = d := held.1.symm.trans too.1
      rw [first, List.prefix_cons_inj]
      exact ih held.2 too.2 (Nat.le_of_succ_le_succ shorter)

/-- One address holds one block of a length. -/
theorem Holds.eq (held : Holds m base bytes) (too : Holds m base other)
    (same : bytes.length = other.length) : bytes = other :=
  (held.begins too same.le).eq_of_length same

/-- Addresses that do not wrap. -/
theorem toNat_offset (fits : base.toNat + n < 2 ^ 64) : (base + UInt64.ofNat n).toNat = base.toNat + n := by
  rw [UInt64.toNat_add, UInt64.toNat_ofNat', Nat.mod_eq_of_lt (show n < 2 ^ 64 by omega),
    Nat.mod_eq_of_lt fits]

/-- A part of a window is a window. -/
theorem window_part {start inner size : Nat} (fits : start + inner ≤ size) (bound : size ≤ 2 ^ 64) :
    window (base + UInt64.ofNat start) inner ⊆ window base size := by
  rcases Nat.eq_zero_or_pos inner with none | some
  · rw [none, window_zero]
    exact Set.empty_subset _
  · refine window_subset_of_le ?_ bound
    rw [UInt64.toNat_ofNat', Nat.mod_eq_of_lt (by omega)]
    exact fits

/-- The parts of a window before and behind one of its offsets are apart. -/
theorem not_mem_window_of_lt {start inner index : Nat} (before : index < start)
    (fits : start + inner ≤ 2 ^ 64) :
    base + UInt64.ofNat index ∉ window (base + UInt64.ofNat start) inner := by
  intro inside
  have distance := toNat_sub_add base (base + UInt64.ofNat index) (UInt64.ofNat start)
  rw [mem_window] at inside
  rw [sub_add_self, UInt64.toNat_ofNat', UInt64.toNat_ofNat', Nat.mod_eq_of_lt (by omega)] at distance
  by_cases edge : start = 2 ^ 64
  · omega
  · rw [Nat.mod_eq_of_lt (show start < 2 ^ 64 by omega), Nat.mod_eq_of_lt (by omega)] at distance
    omega

/-- An offset behind a window lies outside it. -/
theorem not_mem_window_of_le {inner index : Nat} (behind : inner ≤ index) (bound : index < 2 ^ 64) :
    base + UInt64.ofNat index ∉ window base inner := by
  rw [mem_window, sub_add_self, UInt64.toNat_ofNat', Nat.mod_eq_of_lt bound]
  omega

/-- Write bytes from an address on. -/
def storeAll (m : Memory) (address : UInt64) : List UInt8 → Memory
  | [] => m
  | c :: rest => storeAll (store m address c) (address + 1) rest

/-- Storing bytes leaves what lies outside their window. -/
theorem storeAll_outside (short : bytes.length ≤ 2 ^ 64) (outside : x ∉ window base bytes.length) :
    storeAll m base bytes x = m x := by
  induction bytes generalizing m base with
  | nil => rfl
  | cons c rest ih =>
    rw [List.length_cons] at short outside
    rw [mem_window, distance_succ short, not_or] at outside
    have behind : x ∉ window (base + 1) rest.length := fun inside => outside.2 ⟨inside, outside.1⟩
    rw [storeAll, ih (by omega) behind, store_other _ _ outside.1]

/-- Stored bytes are held where they are stored. -/
theorem holds_storeAll (short : bytes.length ≤ 2 ^ 64) : Holds (storeAll m base bytes) base bytes := by
  induction bytes generalizing m base with
  | nil => trivial
  | cons c rest ih =>
    rw [List.length_cons] at short
    refine ⟨?_, ih (by omega)⟩
    have behind : base ∉ window (base + 1) rest.length := by
      intro inside
      have start : (base - base).toNat < rest.length + 1 := by simp
      rcases (distance_succ short base base).mp start with same | ⟨-, other⟩
      · rw [mem_window] at inside
        have distance := toNat_sub_add base base 1
        have bound := (base - (base + 1)).toNat_lt
        rw [UInt64.toNat_one, UInt64.sub_self, UInt64.toNat_zero] at distance
        omega
      · exact other rfl
    rw [storeAll, storeAll_outside (by omega) behind, store_same]

/-- A window that is filled holds as many copies of the byte. -/
theorem holds_fill {c : UInt8} (short : n ≤ 2 ^ 64) :
    Holds (fill m base c n) base (List.replicate n c) := by
  refine holds_iff.mpr fun index inside => ?_
  rw [List.length_replicate] at inside
  rw [List.getElem_replicate, fill_inside]
  rw [mem_window, sub_add_self, UInt64.toNat_ofNat', Nat.mod_eq_of_lt (by omega)]
  exact inside

/-- Memory changes nowhere but in a region. -/
def ChangedIn (region : Set UInt64) (m m' : Memory) : Prop := ∀ x ∉ region, m' x = m x

/-- A memory has changed nowhere from itself. -/
theorem ChangedIn.refl (region : Set UInt64) (m : Memory) : ChangedIn region m m := fun _ _ => rfl

/-- Two changes in a region, one after the other, are one in it. -/
theorem ChangedIn.trans {region : Set UInt64} {m m' m'' : Memory} (first : ChangedIn region m m')
    (second : ChangedIn region m' m'') : ChangedIn region m m'' :=
  fun x outside => (second x outside).trans (first x outside)

/-- A change in a region is one in a wider region. -/
theorem ChangedIn.mono {region wider : Set UInt64} {m m' : Memory} (changed : ChangedIn region m m')
    (inside : region ⊆ wider) : ChangedIn wider m m' :=
  fun x outside => changed x fun within => outside (inside within)

/-- Storing bytes changes their window alone. -/
theorem changedIn_storeAll (short : bytes.length ≤ 2 ^ 64) :
    ChangedIn (window base bytes.length) m (storeAll m base bytes) :=
  fun _ outside => storeAll_outside short outside

/-- A block that a change does not reach is left. -/
theorem Holds.of_changedIn {region : Set UInt64} {m' : Memory} (held : Holds m base bytes)
    (changed : ChangedIn region m m') (apart : Disjoint (window base bytes.length) region)
    (short : bytes.length ≤ 2 ^ 64) : Holds m' base bytes := by
  refine holds_iff.mpr fun index inside => ?_
  have within : base + UInt64.ofNat index ∈ window base bytes.length := by
    rw [mem_window, sub_add_self, UInt64.toNat_ofNat', Nat.mod_eq_of_lt (by omega)]
    exact inside
  rw [changed _ (Set.disjoint_left.mp apart within)]
  exact holds_iff.mp held index inside

/-- A block in two parts, the second one at an offset. -/
theorem Holds.before (held : Holds m base (front ++ back)) : Holds m base front :=
  (holds_append.mp held).1

/-- Bytes behind a first part are held behind it. -/
theorem Holds.behind (held : Holds m base (front ++ back)) :
    Holds m (base + UInt64.ofNat front.length) back :=
  (holds_append.mp held).2

/-- Two blocks, one behind the other, are a block. -/
theorem Holds.join (held : Holds m base front) (behind : Holds m (base + UInt64.ofNat n) back)
    (length : front.length = n) : Holds m base (front ++ back) := by
  subst length
  exact holds_append.mpr ⟨held, behind⟩

/-- Write over a part of a block. -/
theorem Holds.overwrite (held : Holds m base (front ++ old ++ back))
    (same : bytes.length = old.length) (short : (front ++ old ++ back).length ≤ 2 ^ 64) :
    Holds (storeAll m (base + UInt64.ofNat front.length) bytes) base (front ++ bytes ++ back) := by
  rw [List.length_append, List.length_append] at short
  rw [holds_append, holds_append] at held ⊢
  obtain ⟨⟨before, -⟩, behind⟩ := held
  refine ⟨⟨holds_iff.mpr fun index inside => ?_, holds_storeAll (by omega)⟩, ?_⟩
  · rw [storeAll_outside (by omega) (not_mem_window_of_lt inside (by omega))]
    exact holds_iff.mp before index inside
  · rw [List.length_append, same, ← List.length_append]
    refine holds_iff.mpr fun index inside => ?_
    have apart : base + UInt64.ofNat (front ++ old).length + UInt64.ofNat index ∉
        window (base + UInt64.ofNat front.length) bytes.length := by
      rw [List.length_append, ← add_offsets, add_offsets (base + UInt64.ofNat front.length)]
      exact not_mem_window_of_le (by omega) (by omega)
    rw [storeAll_outside (by omega) apart]
    exact holds_iff.mp behind index inside

/-- A block that is inside of what is moved. -/
theorem Holds.moved_within {src dst : UInt64} (held : Holds m src bytes) (inside : bytes.length ≤ n)
    (short : n ≤ 2 ^ 64) : Holds (moved m dst src n) dst bytes := by
  refine holds_iff.mpr fun index within => ?_
  have target : dst + UInt64.ofNat index ∈ window dst n := by
    rw [mem_window, sub_add_self, UInt64.toNat_ofNat', Nat.mod_eq_of_lt (by omega)]
    omega
  rw [moved_inside target, sub_add_self]
  exact holds_iff.mp held index within

/-- Moved bytes are held where they are moved to. -/
theorem Holds.moved {src dst : UInt64} (held : Holds m src bytes) (short : bytes.length ≤ 2 ^ 64) :
    Holds (moved m dst src bytes.length) dst bytes :=
  held.moved_within le_rfl short

/-- Move a block over a part of another one. -/
theorem Holds.replace {src : UInt64} (held : Holds m base (front ++ old ++ back))
    (there : Holds m src bytes) (same : bytes.length = old.length)
    (short : (front ++ old ++ back).length ≤ 2 ^ 64) :
    Holds (ByteMemory.moved m (base + UInt64.ofNat front.length) src bytes.length) base
      (front ++ bytes ++ back) := by
  rw [List.length_append, List.length_append] at short
  rw [holds_append, holds_append] at held ⊢
  obtain ⟨⟨before, -⟩, behind⟩ := held
  refine ⟨⟨holds_iff.mpr fun index inside => ?_, there.moved (by omega)⟩,
    holds_iff.mpr fun index inside => ?_⟩
  · rw [moved_outside (not_mem_window_of_lt inside (by omega))]
    exact holds_iff.mp before index inside
  · have apart : base + UInt64.ofNat (front ++ bytes).length + UInt64.ofNat index ∉
        window (base + UInt64.ofNat front.length) bytes.length := by
      rw [List.length_append, ← add_offsets, add_offsets (base + UInt64.ofNat front.length)]
      exact not_mem_window_of_le (by omega) (by omega)
    rw [moved_outside apart, List.length_append, same, ← List.length_append]
    exact holds_iff.mp behind index inside

/-- Move what stands behind a part of a block, so that another number of bytes fits there. -/
theorem Holds.splice (held : Holds m base (front ++ old ++ back)) (size : Nat)
    (fits : front.length + size + back.length ≤ 2 ^ 64) :
    ∃ gap, gap.length = size ∧
      Holds (ByteMemory.moved m (base + UInt64.ofNat (front.length + size))
        (base + UInt64.ofNat (front.length + old.length)) back.length) base
          (front ++ gap ++ back) := by
  rw [holds_append, holds_append, List.length_append] at held
  obtain ⟨⟨before, -⟩, behind⟩ := held
  refine ⟨load (ByteMemory.moved m (base + UInt64.ofNat (front.length + size))
    (base + UInt64.ofNat (front.length + old.length)) back.length)
      (base + UInt64.ofNat front.length) size, length_load, ?_⟩
  rw [holds_append, holds_append, List.length_append, length_load]
  refine ⟨⟨holds_iff.mpr fun index inside => ?_, holds_load⟩, behind.moved (by omega)⟩
  rw [moved_outside (not_mem_window_of_lt (by omega) (by omega))]
  exact holds_iff.mp before index inside

/-- Move a part of a block down over a gap before it; the bytes behind it stay. -/
theorem Holds.moveDown {gap part : List UInt8} (held : Holds m base (front ++ gap ++ part ++ back))
    (short : (front ++ gap ++ part ++ back).length ≤ 2 ^ 64) :
    ∃ rest, rest.length = gap.length ∧
      Holds (ByteMemory.moved m (base + UInt64.ofNat front.length)
        (base + UInt64.ofNat (front.length + gap.length)) part.length) base
          (front ++ part ++ rest ++ back) := by
  simp only [List.length_append] at short
  rw [holds_append, holds_append, holds_append] at held
  obtain ⟨⟨⟨before, -⟩, held⟩, behind⟩ := held
  rw [List.length_append] at held
  refine ⟨load (ByteMemory.moved m (base + UInt64.ofNat front.length)
    (base + UInt64.ofNat (front.length + gap.length)) part.length)
      (base + UInt64.ofNat (front ++ part).length) gap.length, length_load, ?_⟩
  rw [holds_append, holds_append, holds_append]
  refine ⟨⟨⟨holds_iff.mpr fun index inside => ?_, held.moved (by omega)⟩, holds_load⟩,
    holds_iff.mpr fun index inside => ?_⟩
  · rw [moved_outside (not_mem_window_of_lt inside (by omega))]
    exact holds_iff.mp before index inside
  · have same : (front ++ part ++ load (ByteMemory.moved m (base + UInt64.ofNat front.length)
        (base + UInt64.ofNat (front.length + gap.length)) part.length)
          (base + UInt64.ofNat (front ++ part).length) gap.length).length =
        (front ++ gap ++ part).length := by
      simp only [List.length_append, length_load]
      omega
    have apart : base + UInt64.ofNat (front ++ gap ++ part).length + UInt64.ofNat index ∉
        window (base + UInt64.ofNat front.length) part.length := by
      rw [List.append_assoc, List.length_append, ← add_offsets,
        add_offsets (base + UInt64.ofNat front.length), List.length_append]
      exact not_mem_window_of_le (by omega) (by omega)
    rw [same, moved_outside apart]
    exact holds_iff.mp behind index inside

end ByteMemory

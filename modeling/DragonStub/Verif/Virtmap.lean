import DragonStub.Boot.Virtmap
import Mathlib.Data.UInt

/-!
# The virtual addresses of the runtime services

`efi_get_virtmap` places the runtime descriptors one after another from 512 MiB on. Its loop is
compared with a sweep over the list of descriptors, and the running base with a serial layout in
natural numbers; the layout has the alignment and disjointness the kernel relies on.
-/

namespace DragonStub

open Layout Word

section Loop

variable {σ : Type} (body : EfiMemoryDescriptor → σ → EfiMemoryDescriptor × σ)

/-- The loop body on each descriptor of a list in turn. -/
def sweep : List EfiMemoryDescriptor → σ → List EfiMemoryDescriptor × σ
  | [], s => ([], s)
  | entry :: rest, s =>
    ((body entry s).1 :: (sweep rest (body entry s).2).1, (sweep rest (body entry s).2).2)

/-- The size of a map is that of its `count` descriptors, and the offsets the loop steps through are
`int` values: each descriptor starts below 2^31, and the map ends below 2^32. -/
structure IntOffsets (count : Nat) (mapSize descSize : UInt64) : Prop where
  /-- The map holds whole descriptors. -/
  whole : mapSize.toNat = count * descSize.toNat
  /-- A descriptor has a size. -/
  stride : 0 < descSize.toNat
  /-- Every descriptor starts within reach of an `int`. -/
  starts : ∀ i < count, i * descSize.toNat < 2 ^ 31
  /-- The map ends before the offset wraps. -/
  size : mapSize.toNat < 2 ^ 32

variable {body} {mapSize descSize : UInt64} {count k : Nat}

/-- The word at which the descriptor with index `k` starts. -/
def offsetAt (descSize : UInt64) (k : Nat) : UInt64 := UInt64.ofNat (k * descSize.toNat)

/-- The offset of a descriptor is exact. -/
theorem IntOffsets.offset (fits : IntOffsets count mapSize descSize) (index : k ≤ count) :
    (offsetAt descSize k).toNat = k * descSize.toNat := by
  have below : k * descSize.toNat ≤ count * descSize.toNat := Nat.mul_le_mul_right _ index
  have size := fits.size
  rw [fits.whole] at size
  rw [offsetAt, UInt64.toNat_ofNat', Nat.mod_eq_of_lt (by omega)]

/-- The next offset, taken through an `int`. -/
theorem IntOffsets.next (fits : IntOffsets count mapSize descSize) (index : k < count) :
    toInt (ofInt (toInt (offsetAt descSize k)) + descSize) = toInt (offsetAt descSize (k + 1)) := by
  rw [toInt_ofInt_add]
  congr 1
  apply UInt64.toNat_inj.mp
  have succ : k + 1 ≤ count := index
  have size := fits.size
  have below : (k + 1) * descSize.toNat ≤ count * descSize.toNat := Nat.mul_le_mul_right _ succ
  rw [fits.whole] at size
  rw [Nat.add_mul, Nat.one_mul] at below
  rw [UInt64.toNat_add, fits.offset (Nat.le_of_lt index), fits.offset succ, Nat.add_mul, Nat.one_mul]
  apply Nat.mod_eq_of_lt
  omega

/-- An offset within the map survives the conversion to `int` and back. -/
theorem IntOffsets.kept (fits : IntOffsets count mapSize descSize) (index : k < count) :
    ofInt (toInt (offsetAt descSize k)) = offsetAt descSize k := by
  apply UInt64.toNat_inj.mp
  have start := fits.starts k index
  rw [ofInt_toInt_toNat, fits.offset (Nat.le_of_lt index), Nat.mod_eq_of_lt (by omega), if_pos start]

/-- The offset behind the last descriptor ends the loop, kept or not. -/
theorem IntOffsets.ends (fits : IntOffsets count mapSize descSize) :
    ¬ofInt (toInt (offsetAt descSize count)) < mapSize := by
  have size := fits.size
  rw [UInt64.lt_iff_toNat_lt, ofInt_toInt_toNat, fits.offset (Nat.le_refl count), ← fits.whole,
    Nat.mod_eq_of_lt size]
  split <;> omega

/-- The loop from the descriptor behind `done` on, with fuel for the rest. -/
theorem descriptorLoop_eq {done rest : List EfiMemoryDescriptor} {s : σ} {fuel : Nat}
    (fits : IntOffsets (done.length + rest.length) mapSize descSize) (enough : rest.length < fuel) :
    descriptorLoop mapSize descSize body fuel (toInt (offsetAt descSize done.length))
        (done ++ rest, s) = some (done ++ (sweep body rest s).1, (sweep body rest s).2) := by
  induction rest generalizing done s fuel with
  | nil =>
    obtain ⟨fuel, rfl⟩ := Nat.exists_eq_add_one_of_ne_zero (Nat.ne_of_gt enough)
    have ends : ¬ofInt (toInt (offsetAt descSize done.length)) < mapSize := fits.ends
    rw [descriptorLoop, if_neg ends]
    rfl
  | cons entry rest ih =>
    obtain ⟨fuel, rfl⟩ := Nat.exists_eq_add_one_of_ne_zero (Nat.ne_zero_of_lt enough)
    have index : done.length < done.length + (entry :: rest).length := by simp
    have inside : offsetAt descSize done.length < mapSize := by
      rw [UInt64.lt_iff_toNat_lt, fits.offset (Nat.le_of_lt index), fits.whole]
      exact Nat.mul_lt_mul_of_pos_right index fits.stride
    have position : (offsetAt descSize done.length / descSize).toNat = done.length := by
      rw [UInt64.toNat_div, fits.offset (Nat.le_of_lt index), Nat.mul_div_cancel _ fits.stride]
    have visited : visit body done.length (done ++ entry :: rest, s) =
        ((done ++ [(body entry s).1]) ++ rest, (body entry s).2) := by
      simp [visit]
    have length : (done ++ [(body entry s).1]).length = done.length + 1 := by simp
    have moved : IntOffsets ((done ++ [(body entry s).1]).length + rest.length) mapSize descSize := by
      simpa [Nat.add_assoc, Nat.add_comm 1] using fits
    have later := ih moved (s := (body entry s).2) (Nat.lt_of_succ_lt_succ enough)
    rw [descriptorLoop, fits.kept index, if_pos inside, position, visited, ← fits.kept index,
      fits.next index, ← length, later]
    simp [sweep]

/-- The loop over a map whose offsets fit ends, and has swept the descriptors. -/
theorem forEachDescriptor_eq {map : List EfiMemoryDescriptor} {s : σ}
    (fits : IntOffsets map.length mapSize descSize) :
    forEachDescriptor mapSize descSize body map s = some (sweep body map s) := by
  have enough : map.length < 2 ^ 32 := by
    have size := fits.size
    have unit : map.length * 1 ≤ map.length * descSize.toNat := Nat.mul_le_mul_left _ fits.stride
    rw [fits.whole] at size
    omega
  have start : (0 : Int32) = toInt (offsetAt descSize 0) := by
    simp [offsetAt, toInt]
  have whole : IntOffsets (([] : List EfiMemoryDescriptor).length + map.length) mapSize descSize := by
    simpa using fits
  rw [forEachDescriptor, start]
  exact descriptorLoop_eq whole enough

end Loop

/-- The room a runtime descriptor takes from the start of its first 64 KiB granule. -/
def EfiMemoryDescriptor.room (entry : EfiMemoryDescriptor) : Nat :=
  entry.numberOfPages.toNat * 4096 + entry.physicalStart.toNat % 2 ^ 16

/-- A runtime descriptor as an item of a layout: on 2 MiB when it starts there and is that large, on
64 KiB otherwise. -/
def runtimeItem (entry : EfiMemoryDescriptor) : Item where
  unit := if entry.physicalStart.toNat % 2 ^ 21 = 0 ∧ 2 ^ 21 ≤ entry.room then 2 ^ 21 else 2 ^ 16
  extent := entry.room

/-- A descriptor is placed at a multiple of sixty-four kilobytes. -/
theorem runtimeItem_unit (entry : EfiMemoryDescriptor) :
    0 < (runtimeItem entry).unit ∧ 2 ^ 16 ∣ (runtimeItem entry).unit := by
  by_cases large : entry.physicalStart.toNat % 2 ^ 21 = 0 ∧ 2 ^ 21 ≤ entry.room
  · have unit : (runtimeItem entry).unit = 2 ^ 21 := if_pos large
    rw [unit]
    decide
  · have unit : (runtimeItem entry).unit = 2 ^ 16 := if_neg large
    rw [unit]
    decide

/-- A descriptor whose first granule is placed at `start`. -/
def placeAt (entry : EfiMemoryDescriptor) (start : Nat) : EfiMemoryDescriptor :=
  { entry with virtualStart := UInt64.ofNat (start + entry.physicalStart.toNat % 2 ^ 16) }

variable {entry : EfiMemoryDescriptor} {base : UInt64} {cursor : Nat}

/-- The distance of a descriptor from the start of its first granule. -/
theorem granuleOffset_toNat :
    (entry.physicalStart - roundDown entry.physicalStart sz64K).toNat =
      entry.physicalStart.toNat % 2 ^ 16 := by
  have granule : sz64K.toNat = 2 ^ 16 := sz64K_pow.2
  have down := roundDown_toNat (x := entry.physicalStart) sz64K_pow
  have below : roundDown entry.physicalStart sz64K ≤ entry.physicalStart := by
    rw [UInt64.le_iff_toNat_le, down]
    exact Nat.sub_le _ _
  have remainder := Nat.mod_le entry.physicalStart.toNat (2 ^ 16)
  rw [UInt64.toNat_sub_of_le _ _ below, down, granule]
  omega

/-- The size of a descriptor, extended to its first granule, is its room. -/
theorem room_toNat (entry : EfiMemoryDescriptor) (fits : entry.room < 2 ^ 64) :
    (entry.numberOfPages * efiPageSize +
      (entry.physicalStart - roundDown entry.physicalStart sz64K)).toNat = entry.room := by
  have page : efiPageSize.toNat = 4096 := rfl
  unfold EfiMemoryDescriptor.room at fits ⊢
  rw [UInt64.toNat_add, UInt64.toNat_mul, granuleOffset_toNat, page]
  omega

/-- The unit chosen for a descriptor is that of its item. -/
theorem virtmapUnit_toNat {size : UInt64} (extended : size.toNat = entry.room) :
    (virtmapUnit entry size).toNat = (runtimeItem entry).unit ∧
      ∃ k, IsPow (virtmapUnit entry size) k := by
  have aligned : isAligned entry.physicalStart sz2M = true ↔
      entry.physicalStart.toNat % 2 ^ 21 = 0 := isAligned_iff sz2M_pow
  have large : sz2M ≤ size ↔ 2 ^ 21 ≤ entry.room := by
    rw [UInt64.le_iff_toNat_le, extended]
    rfl
  unfold virtmapUnit runtimeItem
  by_cases whole : entry.physicalStart.toNat % 2 ^ 21 = 0 ∧ 2 ^ 21 ≤ entry.room
  · rw [if_pos (by simpa [aligned, large] using whole), if_pos whole]
    exact ⟨sz2M_pow.2, 21, sz2M_pow⟩
  · rw [if_neg (by simpa [aligned, large] using whole), if_neg whole]
    exact ⟨sz64K_pow.2, 16, sz64K_pow⟩

/-- The base is the cursor until it reaches the end of the address space, where it becomes zero. -/
def AtCursor (base : UInt64) (cursor : Nat) : Prop := base.toNat = cursor % 2 ^ 64

/-- With room left, the placement of a descriptor is that of its item. -/
theorem virtmapPlace_eq (reached : AtCursor base cursor) (positive : 0 < cursor)
    (nonempty : 0 < entry.numberOfPages.toNat)
    (fits : (runtimeItem entry).finish cursor ≤ 2 ^ 64) :
    (virtmapPlace { entry with virtualStart := entry.physicalStart + efiRtVirtualOffset } base).1 =
        placeAt entry ((runtimeItem entry).start cursor) ∧
      AtCursor (virtmapPlace { entry with
          virtualStart := entry.physicalStart + efiRtVirtualOffset } base).2
        ((runtimeItem entry).finish cursor) := by
  have after : cursor ≤ (runtimeItem entry).start cursor :=
    (ceilTo_spec (runtimeItem_unit entry).1).1
  have finish : (runtimeItem entry).finish cursor =
      (runtimeItem entry).start cursor + entry.room := rfl
  have room : 4096 + entry.physicalStart.toNat % 2 ^ 16 ≤ entry.room := by
    unfold EfiMemoryDescriptor.room
    omega
  have size := room_toNat entry (by omega)
  obtain ⟨unit, k, pow⟩ := virtmapUnit_toNat size
  have cursorWord : base.toNat = cursor := by
    unfold AtCursor at reached
    omega
  have rounded := roundUp_toNat (x := base) pow
  rw [unit, cursorWord] at rounded
  have startWord : (roundUp base (virtmapUnit entry (entry.numberOfPages * efiPageSize +
      (entry.physicalStart - roundDown entry.physicalStart sz64K)))).toNat =
      (runtimeItem entry).start cursor := by
    rw [rounded]
    apply Nat.mod_eq_of_lt
    change (runtimeItem entry).start cursor < 2 ^ 64
    omega
  have address : efiRtVirtualOffset = 0 := rfl
  have placedAt : entry.physicalStart + efiRtVirtualOffset +
      (roundUp base (virtmapUnit entry (entry.numberOfPages * efiPageSize +
        (entry.physicalStart - roundDown entry.physicalStart sz64K))) -
        roundDown entry.physicalStart sz64K) =
      UInt64.ofNat ((runtimeItem entry).start cursor + entry.physicalStart.toNat % 2 ^ 16) := by
    rw [UInt64.ofNat_add, ← startWord, ← granuleOffset_toNat, UInt64.ofNat_toNat,
      UInt64.ofNat_toNat, address]
    grind
  constructor
  · unfold placeAt
    rw [← placedAt]
    rfl
  · change (_ + _ : UInt64).toNat = _
    rw [UInt64.toNat_add, finish, ← startWord, ← size]
    rfl

/-- The map with each runtime descriptor placed in turn. -/
def assign : List EfiMemoryDescriptor → Nat → List EfiMemoryDescriptor
  | [], _ => []
  | entry :: rest, cursor =>
    if entry.isRuntime then
      placeAt entry ((runtimeItem entry).start cursor) ::
        assign rest ((runtimeItem entry).finish cursor)
    else entry :: assign rest cursor

/-- The runtime descriptors of a map. -/
def runtime (map : List EfiMemoryDescriptor) : List EfiMemoryDescriptor :=
  map.filter EfiMemoryDescriptor.isRuntime

variable {map : List EfiMemoryDescriptor} {out : Virtmap}

/-- The runtime descriptors are placed as a layout of their items. -/
theorem runtime_assign (cursor : Nat) : runtime (assign map cursor) =
    (placed runtimeItem (runtime map) cursor).map fun spot => placeAt spot.1 spot.2 := by
  induction map generalizing cursor with
  | nil => rfl
  | cons entry rest ih =>
    cases kind : entry.isRuntime with
    | true =>
      have kept : (placeAt entry ((runtimeItem entry).start cursor)).isRuntime = true := kind
      have later := ih ((runtimeItem entry).finish cursor)
      unfold runtime at later ⊢
      simp [assign, kind, kept, later]
    | false =>
      have later := ih cursor
      unfold runtime at later ⊢
      simp [assign, kind, later]

/-- Nothing but the virtual start of runtime descriptors changes. -/
theorem assign_frame : List.Forall₂
    (fun before after => after = { before with virtualStart := after.virtualStart } ∧
      (before.isRuntime = false → after = before)) map (assign map cursor) := by
  induction map generalizing cursor with
  | nil => exact List.Forall₂.nil
  | cons entry rest ih =>
    cases kind : entry.isRuntime with
    | true =>
      rw [assign, if_pos kind]
      exact List.Forall₂.cons ⟨rfl, fun plain => absurd kind (by simp [plain])⟩ ih
    | false =>
      rw [assign, if_neg (by simp [kind])]
      exact List.Forall₂.cons ⟨rfl, fun _ => rfl⟩ ih

/-- The sweep of the loop body assigns the layout and collects the runtime descriptors. -/
theorem sweep_virtmapEntry (out : Virtmap) (reached : AtCursor out.efiVirtBase cursor)
    (positive : 0 < cursor)
    (nonempty : ∀ entry ∈ runtime map, 0 < entry.numberOfPages.toNat)
    (fits : ending runtimeItem (runtime map) cursor ≤ 2 ^ 64) :
    (sweep (virtmapEntry false) map out).1 = assign map cursor ∧
      (sweep (virtmapEntry false) map out).2.runtimeMap =
        out.runtimeMap ++ runtime (assign map cursor) := by
  induction map generalizing cursor out with
  | nil => simp [sweep, assign, runtime]
  | cons entry rest ih =>
    cases kind : entry.isRuntime with
    | true =>
      have first : runtime (entry :: rest) = entry :: runtime rest := by simp [runtime, kind]
      rw [first] at nonempty fits
      rw [ending_cons] at fits
      have pages : 0 < entry.numberOfPages.toNat := nonempty entry List.mem_cons_self
      have later : (runtimeItem entry).finish cursor ≤ 2 ^ 64 :=
        Nat.le_trans (le_ending fun item => (runtimeItem_unit item).1) fits
      obtain ⟨place, next⟩ := virtmapPlace_eq reached positive pages later
      have after : cursor ≤ (runtimeItem entry).start cursor :=
        (ceilTo_spec (runtimeItem_unit entry).1).1
      have moved : 0 < (runtimeItem entry).finish cursor := by
        unfold Item.finish
        omega
      have kept : (placeAt entry ((runtimeItem entry).start cursor)).isRuntime = true := kind
      have body : (virtmapEntry false entry out).1 =
            placeAt entry ((runtimeItem entry).start cursor) ∧
          (virtmapEntry false entry out).2.runtimeMap =
            out.runtimeMap ++ [placeAt entry ((runtimeItem entry).start cursor)] := by
        rw [← place]
        simp [virtmapEntry, kind, flatVaMapping, efiRtVirtualOffset]
      have base : (virtmapEntry false entry out).2.efiVirtBase = (virtmapPlace { entry with
          virtualStart := entry.physicalStart + efiRtVirtualOffset } out.efiVirtBase).2 := by
        simp [virtmapEntry, kind, flatVaMapping, efiRtVirtualOffset]
      rw [← base] at next
      obtain ⟨entries, copies⟩ := ih _ next moved
        (fun item member => nonempty item (List.mem_cons_of_mem _ member)) fits
      constructor
      · simp [sweep, assign, kind, body.1, entries]
      · rw [sweep, copies, body.2]
        simp [assign, runtime, kind, kept]
    | false =>
      have skipped : virtmapEntry false entry out = (entry, out) := by simp [virtmapEntry, kind]
      have same : runtime (entry :: rest) = runtime rest := by simp [runtime, kind]
      rw [same] at nonempty fits
      obtain ⟨entries, copies⟩ := ih out reached positive nonempty fits
      constructor
      · simp [sweep, assign, kind, skipped, entries]
      · simp [sweep, assign, runtime, kind, skipped, copies]

/-- The size of a descriptor in bytes. -/
def EfiMemoryDescriptor.bytes (entry : EfiMemoryDescriptor) : Nat :=
  entry.numberOfPages.toNat * 4096

/-- What the kernel expects of the virtual range of one runtime descriptor. -/
structure WellPlaced (entry : EfiMemoryDescriptor) : Prop where
  /-- It starts at 512 MiB or above. -/
  above : 2 ^ 29 ≤ entry.virtualStart.toNat
  /-- It ends within the address space. -/
  below : entry.virtualStart.toNat + entry.bytes ≤ 2 ^ 64
  /-- It is congruent to the physical range modulo 64 KiB. -/
  granule : entry.virtualStart.toNat % 2 ^ 16 = entry.physicalStart.toNat % 2 ^ 16
  /-- A large aligned range is congruent to the physical one modulo 2 MiB. -/
  block : entry.physicalStart.toNat % 2 ^ 21 = 0 → 2 ^ 21 ≤ entry.bytes →
    entry.virtualStart.toNat % 2 ^ 21 = entry.physicalStart.toNat % 2 ^ 21

/-- The ranges of two descriptors, widened to 64 KiB granules, follow each other. -/
def Follows (first second : EfiMemoryDescriptor) : Prop :=
  first.virtualStart.toNat < second.virtualStart.toNat ∧
    ceilTo (first.virtualStart.toNat + first.bytes) (2 ^ 16) ≤
      second.virtualStart.toNat - second.virtualStart.toNat % 2 ^ 16

/-- A descriptor placed at a spot of the layout. -/
theorem placeAt_virtualStart {start : Nat} (fits : start + (runtimeItem entry).extent ≤ 2 ^ 64)
    (nonempty : 0 < entry.numberOfPages.toNat) :
    (placeAt entry start).virtualStart.toNat = start + entry.physicalStart.toNat % 2 ^ 16 := by
  have room : (runtimeItem entry).extent =
      entry.numberOfPages.toNat * 4096 + entry.physicalStart.toNat % 2 ^ 16 := rfl
  change (UInt64.ofNat _).toNat = _
  rw [UInt64.toNat_ofNat', Nat.mod_eq_of_lt (by omega)]

variable {entries : List EfiMemoryDescriptor}

/-- Every spot of a layout starts a granule, and its descriptor has pages and its address there. -/
theorem placed_spot (nonempty : ∀ entry ∈ entries, 0 < entry.numberOfPages.toNat)
    (fits : ending runtimeItem entries cursor ≤ 2 ^ 64) {entry : EfiMemoryDescriptor} {start : Nat}
    (member : (entry, start) ∈ placed runtimeItem entries cursor) :
    0 < entry.numberOfPages.toNat ∧ start % 2 ^ 16 = 0 ∧
      (placeAt entry start).virtualStart.toNat = start + entry.physicalStart.toNat % 2 ^ 16 := by
  obtain ⟨-, below, aligned⟩ := placed_within (fun item => (runtimeItem_unit item).1) _ member
  have listed : entry ∈ entries := by
    have objects : (placed runtimeItem entries cursor).map Prod.fst = entries := placed_objects
    rw [← objects]
    exact List.mem_map_of_mem member
  have granule : 2 ^ 16 ∣ start :=
    Nat.dvd_trans (runtimeItem_unit entry).2 (Nat.dvd_of_mod_eq_zero aligned)
  exact ⟨nonempty entry listed, Nat.mod_eq_zero_of_dvd granule,
    placeAt_virtualStart (Nat.le_trans below fits) (nonempty entry listed)⟩

/-- Every spot of a layout from 512 MiB on is well placed. -/
theorem placed_wellPlaced (nonempty : ∀ entry ∈ entries, 0 < entry.numberOfPages.toNat)
    (fits : ending runtimeItem entries (2 ^ 29) ≤ 2 ^ 64) {entry : EfiMemoryDescriptor}
    {start : Nat} (member : (entry, start) ∈ placed runtimeItem entries (2 ^ 29)) :
    WellPlaced (placeAt entry start) := by
  obtain ⟨-, whole, address⟩ := placed_spot nonempty fits member
  have within := placed_within (fun item => (runtimeItem_unit item).1) _ member
  have above : 2 ^ 29 ≤ start := within.1
  have below : start + (runtimeItem entry).extent ≤ 2 ^ 64 := Nat.le_trans within.2.1 fits
  have aligned : start % (runtimeItem entry).unit = 0 := within.2.2
  have room : (runtimeItem entry).extent =
      entry.bytes + entry.physicalStart.toNat % 2 ^ 16 := rfl
  have physical : (placeAt entry start).physicalStart = entry.physicalStart := rfl
  have bytes : (placeAt entry start).bytes = entry.bytes := rfl
  refine ⟨?_, ?_, ?_, ?_⟩
  · omega
  · omega
  · rw [physical]
    omega
  · rw [physical, bytes]
    intro block large
    have unit : (runtimeItem entry).unit = 2 ^ 21 :=
      if_pos ⟨block, Nat.le_trans large (Nat.le_add_right _ _)⟩
    rw [unit] at aligned
    omega

/-- The descriptors at the spots of a layout follow each other. -/
theorem placed_follows (nonempty : ∀ entry ∈ entries, 0 < entry.numberOfPages.toNat)
    (fits : ending runtimeItem entries cursor ≤ 2 ^ 64) :
    ((placed runtimeItem entries cursor).map fun spot => placeAt spot.1 spot.2).Pairwise
      Follows := by
  have apart : (placed runtimeItem entries cursor).Pairwise fun first second =>
      ceilTo (first.2 + (runtimeItem first.1).extent) (2 ^ 16) ≤ second.2 :=
    placed_apart (by decide) runtimeItem_unit
  rw [List.pairwise_map]
  refine List.Pairwise.imp_of_mem ?_ apart
  intro first second firstMember secondMember order
  obtain ⟨pages, -, firstAt⟩ := placed_spot nonempty fits firstMember
  obtain ⟨-, whole, secondAt⟩ := placed_spot nonempty fits secondMember
  have bytes : 0 < (placeAt first.1 first.2).bytes := Nat.mul_pos pages (by decide)
  have room : first.2 + (runtimeItem first.1).extent =
      (placeAt first.1 first.2).virtualStart.toNat + (placeAt first.1 first.2).bytes := by
    rw [firstAt, Nat.add_assoc, Nat.add_comm (_ % _)]
    rfl
  have floor : (placeAt second.1 second.2).virtualStart.toNat -
      (placeAt second.1 second.2).virtualStart.toNat % 2 ^ 16 = second.2 := by omega
  have widened : (placeAt first.1 first.2).virtualStart.toNat + (placeAt first.1 first.2).bytes ≤
      ceilTo ((placeAt first.1 first.2).virtualStart.toNat + (placeAt first.1 first.2).bytes)
        (2 ^ 16) := (ceilTo_spec (by decide)).1
  rw [room] at order
  constructor
  · omega
  · rw [floor]
    exact order

/-- With the map within the reach of the offsets and room above 512 MiB, `efi_get_virtmap` changes
nothing but virtual starts, and gives the runtime descriptors well placed ranges that follow each
other. -/
theorem efi_get_virtmap_placed {globals : Globals} {mapSize descSize : UInt64}
    (offsets : IntOffsets map.length mapSize descSize)
    (nonempty : ∀ entry ∈ map, 1 ≤ entry.numberOfPages.toNat)
    (fits : ending runtimeItem (runtime map) (2 ^ 29) ≤ 2 ^ 64)
    (mapped : globals.efiNovamap = false) :
    ∃ assigned out, efiGetVirtmap globals map mapSize descSize = some (assigned, out) ∧
      List.Forall₂ (fun before after =>
        after = { before with virtualStart := after.virtualStart } ∧
          (before.isRuntime = false → after = before)) map assigned ∧
      out.runtimeMap = runtime assigned ∧
      (∀ entry ∈ runtime assigned, WellPlaced entry) ∧
      (runtime assigned).Pairwise Follows := by
  have start : AtCursor efiRtVirtualBase (2 ^ 29) := rfl
  have pages : ∀ entry ∈ runtime map, 0 < entry.numberOfPages.toNat :=
    fun entry member => nonempty entry (List.mem_filter.mp member).1
  obtain ⟨entries, copies⟩ :=
    sweep_virtmapEntry ⟨[], 0, efiRtVirtualBase⟩ start (by decide) pages fits
  refine ⟨assign map (2 ^ 29), (sweep (virtmapEntry false) map ⟨[], 0, efiRtVirtualBase⟩).2, ?_,
    assign_frame, ?_, ?_, ?_⟩
  · rw [efiGetVirtmap, mapped, forEachDescriptor_eq offsets, ← entries]
  · exact copies
  · rw [runtime_assign]
    intro entry member
    obtain ⟨spot, listed, rfl⟩ := List.mem_map.mp member
    exact placed_wellPlaced pages fits listed
  · rw [runtime_assign]
    exact placed_follows pages fits

/-- Globals of a stub that maps the runtime services. -/
def mappingGlobals : Globals := ⟨false, false, 0, 0x1000, 0x2000⟩

/-- A runtime descriptor of one page. -/
def pageOfServices (physicalStart : UInt64) : EfiMemoryDescriptor :=
  ⟨5, 0, physicalStart, 0, 1, efiMemoryRuntime, []⟩

/-- One page of runtime services, one of plain memory, and 2 MiB of runtime services. -/
def mixedMap : List EfiMemoryDescriptor :=
  [pageOfServices 0x80003000, ⟨7, 0, 0x80004000, 0, 1, 0, []⟩,
    ⟨5, 0, 0x80200000, 0, 512, efiMemoryRuntime, []⟩]

/-- The 2 MiB of services behind the page of them are placed at the next 2 MiB. -/
theorem efi_get_virtmap_placed_block :
    ∃ assigned out, efiGetVirtmap mappingGlobals mixedMap 144 48 = some (assigned, out) ∧
      (runtime assigned).map EfiMemoryDescriptor.virtualStart = [0x20003000, 0x20200000] ∧
      (∀ entry ∈ runtime assigned, WellPlaced entry) ∧ (runtime assigned).Pairwise Follows := by
  have offsets : IntOffsets mixedMap.length 144 48 := ⟨by decide, by decide, by decide, by decide⟩
  have mapped : mappingGlobals.efiNovamap = false := rfl
  obtain ⟨assigned, out, result, -, -, placed, apart⟩ :=
    efi_get_virtmap_placed offsets (by decide) (by decide) mapped
  refine ⟨assigned, out, result, ?_, placed, apart⟩
  have computed : (efiGetVirtmap mappingGlobals mixedMap 144 48).map (fun result =>
      (runtime result.1).map EfiMemoryDescriptor.virtualStart) = some [0x20003000, 0x20200000] := by
    decide +kernel
  rw [result] at computed
  exact Option.some.inj computed

/-- With descriptors of 1 GiB the third one starts past the largest `int`: the loop ends before it,
and it has no address, although there is room for all three. -/
theorem efi_get_virtmap_out_of_reach :
    ending runtimeItem (runtime [pageOfServices 0x1000, pageOfServices 0x2000,
        pageOfServices 0x3000]) (2 ^ 29) ≤ 2 ^ 64 ∧
      ¬∃ assigned out, efiGetVirtmap mappingGlobals [pageOfServices 0x1000, pageOfServices 0x2000,
          pageOfServices 0x3000] (3 * 2 ^ 30) (2 ^ 30) = some (assigned, out) ∧
        ∀ entry ∈ runtime assigned, WellPlaced entry := by
  refine ⟨by decide, ?_⟩
  rintro ⟨assigned, out, result, placed⟩
  have computed : (efiGetVirtmap mappingGlobals [pageOfServices 0x1000, pageOfServices 0x2000,
      pageOfServices 0x3000] (3 * 2 ^ 30) (2 ^ 30)).map (fun result => runtime result.1) =
      some [{ pageOfServices 0x1000 with virtualStart := 0x20001000 },
        { pageOfServices 0x2000 with virtualStart := 0x20012000 }, pageOfServices 0x3000] := by
    decide +kernel
  rw [result] at computed
  have listed : runtime assigned = _ := Option.some.inj computed
  have third : pageOfServices 0x3000 ∈ runtime assigned := by
    rw [listed]
    simp
  have above := (placed _ third).above
  exact absurd above (by decide)

end DragonStub

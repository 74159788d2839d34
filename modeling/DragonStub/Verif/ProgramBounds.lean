import DragonStub.Verif.ElfRuns

/-!
# Where a program is loaded

The region of the kernel is sized by one loop over the segments and filled by another. A segment is
copied into the region exactly when its offset leaves room for its bytes, which is so whenever no end
of a segment wraps.
-/

namespace DragonStub

open ByteMemory Interaction Layout Prog Word

variable {m m' : Memory} {events : List Event} {payloadStart payloadSize base minPaddr x : UInt64}

/-- `memset` fills a window. -/
theorem memset_eq_fill (m : Memory) (s : UInt64) (c : UInt8) {n : Nat} (fits : n ≤ 2 ^ 64) :
    memset m s c n = fill m s c n := by
  induction n generalizing m s with
  | zero => rw [memset, fill_zero]
  | succ n ih => rw [memset, ih _ _ (by omega), fill_store m s c fits]

/-- `memset` over the length of a word. -/
theorem memset_word (m : Memory) (s : UInt64) (c : UInt8) (n : UInt64) :
    memset m s c n.toNat = fill m s c n.toNat :=
  memset_eq_fill m s c n.toNat_lt.le

/-- Filling a window twice is filling it once. -/
theorem memset_twice (m : Memory) (s : UInt64) (c : UInt8) (n : UInt64) :
    memset (memset m s c n.toNat) s c n.toNat = memset m s c n.toNat := by
  rw [memset_word, memset_word]
  funext x
  by_cases inside : x ∈ window s n.toNat
  · rw [fill_inside _ _ inside, fill_inside _ _ inside]
  · rw [fill_outside _ _ inside]

/-- `memcpy` changes nothing outside its target. -/
theorem memcpy_outside {dest src : UInt64} {n : Nat} (fits : n ≤ 2 ^ 64)
    (outside : x ∉ window dest n) : memcpy m dest src n x = m x := by
  induction n generalizing m dest src with
  | zero => rfl
  | succ n ih =>
    rw [mem_window, distance_succ fits, not_or] at outside
    have notNext : x ∉ window (dest + 1) n := fun inside => outside.2 ⟨inside, outside.1⟩
    rw [memcpy, ih (by omega) notNext, store_other _ _ outside.1]

/-- Copying upward moves, when no byte is written above one that is still to be read. -/
theorem memcpy_eq_moved {dst src : UInt64} {n : Nat}
    (ahead : (src - dst).toNat + n ≤ 2 ^ 64) : memcpy m dst src n = moved m dst src n := by
  induction n generalizing m dst src with
  | zero => rw [memcpy, moved_zero]
  | succ n ih =>
    have same : src + 1 - (dst + 1) = src - dst := by grind
    rw [memcpy, ih (by rw [same]; omega)]
    funext x
    have near := distance_succ (show n + 1 ≤ 2 ^ 64 by omega) x dst
    by_cases first : x = dst
    · have outside : x ∉ window (dst + 1) n := by
        rw [first, mem_window, UInt64.toNat_sub, UInt64.toNat_add, UInt64.toNat_one]
        have bound := dst.toNat_lt
        omega
      rw [moved_outside outside, moved_inside (near.mpr (.inl first)), first, store_same,
        UInt64.sub_self, UInt64.add_zero]
    by_cases inside : x ∈ window (dst + 1) n
    · have place : src + 1 + (x - (dst + 1)) = src + (x - dst) := by grind
      -- What is read lies above the byte just written.
      have unread : src + (x - dst) ≠ dst := by
        intro written
        rw [mem_window, UInt64.toNat_sub, UInt64.toNat_add, UInt64.toNat_one] at inside
        rw [UInt64.toNat_sub] at ahead
        have value := congrArg UInt64.toNat written
        rw [UInt64.toNat_add, UInt64.toNat_sub] at value
        have differs : x.toNat ≠ dst.toNat := fun equal => first (UInt64.toNat_inj.mp equal)
        have bounds := And.intro x.toNat_lt (And.intro dst.toNat_lt src.toNat_lt)
        omega
      rw [moved_inside inside, moved_inside (near.mpr (.inr ⟨inside, first⟩)), place,
        store_other _ _ unread]
    · have outside : x ∉ window dst (n + 1) := fun hit =>
        (near.mp hit).elim first fun later => inside later.1
      rw [moved_outside inside, moved_outside outside, store_other _ _ first]

/-- `memcpy` between windows that are apart moves the bytes. -/
theorem memcpy_inside {dest src : UInt64} {n : Nat} (fits : n ≤ 2 ^ 64)
    (apart : Disjoint (window dest n) (window src n)) (inside : x ∈ window dest n) :
    memcpy m dest src n x = m (src + (x - dest)) := by
  have some : 0 < n := Nat.zero_lt_of_lt inside
  have start : dest ∈ window dest n := by simpa using some
  have ahead : (src - dest).toNat + n ≤ 2 ^ 64 := by
    have beyond := Set.disjoint_left.mp apart start
    rw [mem_window, UInt64.toNat_sub] at beyond
    rw [UInt64.toNat_sub]
    have bounds := And.intro dest.toNat_lt src.toNat_lt
    omega
  rw [memcpy_eq_moved ahead, moved_inside inside]

/-- A stored word depends only on its bytes. -/
theorem wordAt_congr {address : UInt64} {length : Nat} (fits : length ≤ 2 ^ 64)
    (same : ∀ x ∈ window address length, m x = m' x) :
    wordAt m address length = wordAt m' address length := by
  rw [wordAt, wordAt, readLe_congr fits same]

/-- A header depends only on its bytes. -/
theorem phdrAt_congr {phdr : UInt64} (same : ∀ x ∈ window phdr 56, m x = m' x) :
    phdrAt m phdr = phdrAt m' phdr := by
  have field {offset : UInt64} {length : Nat} (fits : offset.toNat + length ≤ 56) :
      wordAt m (phdr + offset) length = wordAt m' (phdr + offset) length := by
    refine wordAt_congr (by omega) fun x inside => same x ?_
    exact window_subset_of_le fits (by decide) inside
  have first : wordAt m phdr 4 = wordAt m' phdr 4 :=
    wordAt_congr (by decide) fun x inside => same x (window_mono (by decide) inside)
  unfold phdrAt
  rw [first, field (by decide), field (by decide), field (by decide), field (by decide),
    field (by decide), field (by decide)]

/-- The window of a table. -/
def tableWindow (phdr : UInt64) (count : Nat) : Set UInt64 := window phdr (count * 56)

variable {phdr : UInt64} {count : Nat}

/-- The first header of a table, and the rest of it. -/
theorem tableWindow_succ (phdr : UInt64) (small : count + 1 ≤ 2 ^ 32) :
    window phdr 56 ⊆ tableWindow phdr (count + 1) ∧
      tableWindow (phdr + elf64PhdrSize) count ⊆ tableWindow phdr (count + 1) := by
  have entry : elf64PhdrSize.toNat = 56 := rfl
  constructor
  · exact window_mono (by omega)
  · exact window_subset_of_le (by omega) (by omega)

/-- Both values are at most the larger one. -/
theorem le_max_word (a b : UInt64) : a ≤ max a b ∧ b ≤ max a b := by
  have value : max a b = if a ≤ b then b else a := rfl
  rw [value]
  by_cases order : a ≤ b
  · rw [if_pos order]
    exact ⟨order, UInt64.le_refl b⟩
  · rw [if_neg order]
    exact ⟨UInt64.le_refl a, UInt64.le_of_lt (UInt64.not_le.mp order)⟩

/-- Widening reaches every segment, and keeps what was reached before. -/
theorem foldl_widen (headers : List Elf64Phdr) (extent : Extent) :
    (headers.foldl Extent.widen extent).minPaddr ≤ extent.minPaddr ∧
      extent.maxPaddr ≤ (headers.foldl Extent.widen extent).maxPaddr ∧
      ∀ header ∈ headers, (headers.foldl Extent.widen extent).minPaddr ≤ header.pPaddr ∧
        header.pPaddr + header.pMemsz ≤ (headers.foldl Extent.widen extent).maxPaddr := by
  induction headers generalizing extent with
  | nil => simp
  | cons header rest ih =>
    obtain ⟨low, high, reached⟩ := ih (extent.widen header)
    have lowest : (extent.widen header).minPaddr ≤ extent.minPaddr ∧
        (extent.widen header).minPaddr ≤ header.pPaddr := ⟨Std.min_le_left, Std.min_le_right⟩
    have highest : extent.maxPaddr ≤ (extent.widen header).maxPaddr ∧
        header.pPaddr + header.pMemsz ≤ (extent.widen header).maxPaddr :=
      le_max_word _ _
    refine ⟨UInt64.le_trans low lowest.1, UInt64.le_trans highest.1 high, ?_⟩
    exact List.forall_mem_cons.mpr
      ⟨⟨UInt64.le_trans low lowest.2, UInt64.le_trans highest.2 high⟩,
        fun header member => reached header member⟩

variable {headers : List Elf64Phdr} {extent : Extent} {header : Elf64Phdr}

/-- The size of the region is the span of the segments, rounded up while that leaves a unit. -/
theorem memSize_toNat (span : (extent.maxPaddr - extent.minPaddr).toNat ≤ 2 ^ 64 - 2 ^ 21) :
    (extent.maxPaddr - extent.minPaddr).toNat ≤ extent.memSize.toNat := by
  have unit : kernelMemAlign.toNat = 2 ^ 21 := sz2M_pow.2
  have rounded := alignUp_toNat (x := extent.maxPaddr - extent.minPaddr) sz2M_pow
  have above := ceilTo_spec (n := (extent.maxPaddr - extent.minPaddr).toNat) sz2M_pow.pos
  have below := ceilTo_le sz2M_pow.pos span (by decide)
  have size : extent.memSize = alignUp (extent.maxPaddr - extent.minPaddr) sz2M := rfl
  rw [size, rounded, Nat.mod_eq_of_lt (by omega)]
  exact above.1

/-- The bytes of a segment fit the region from its offset on. -/
def Elf64Phdr.Fits (header : Elf64Phdr) (extent : Extent) : Prop :=
  header.pFilesz = 0 ∨
    (header.pPaddr - extent.minPaddr).toNat + header.pFilesz.toNat ≤ extent.memSize.toNat

/-- Being copied into the region is fitting it. -/
theorem fits_iff (base : UInt64) : window (header.dest base extent.minPaddr) header.pFilesz.toNat ⊆
    window base extent.memSize.toNat ↔ header.Fits extent := by
  have zero : header.pFilesz.toNat = 0 ↔ header.pFilesz = 0 := by
    rw [← UInt64.toNat_inj, UInt64.toNat_zero]
  rw [Elf64Phdr.dest, window_subset_iff, zero]
  rfl

/-- No end of a segment wraps, and the segments span less than the address space by a unit. -/
structure NoWrap (headers : List Elf64Phdr) : Prop where
  /-- The end of each segment is its sum. -/
  ends : ∀ header ∈ loads headers, header.pPaddr.toNat + header.pMemsz.toNat < 2 ^ 64
  /-- Rounding the span up does not wrap. -/
  span : ((extentOf headers).maxPaddr - (extentOf headers).minPaddr).toNat ≤ 2 ^ 64 - 2 ^ 21

/-- Without a wrap the memory of every segment is inside the region. -/
theorem NoWrap.inside (plain : NoWrap headers) (member : header ∈ loads headers) :
    (header.pPaddr - (extentOf headers).minPaddr).toNat =
        header.pPaddr.toNat - (extentOf headers).minPaddr.toNat ∧
      (extentOf headers).minPaddr.toNat ≤ header.pPaddr.toNat ∧
      header.pPaddr.toNat - (extentOf headers).minPaddr.toNat + header.pMemsz.toNat ≤
        (extentOf headers).memSize.toNat := by
  obtain ⟨-, -, reached⟩ := foldl_widen (loads headers) Extent.none
  obtain ⟨low, high⟩ := reached header member
  have room := memSize_toNat plain.span
  have sum := plain.ends header member
  have low : (extentOf headers).minPaddr ≤ header.pPaddr := low
  have high : header.pPaddr + header.pMemsz ≤ (extentOf headers).maxPaddr := high
  rw [UInt64.le_iff_toNat_le, UInt64.toNat_add, Nat.mod_eq_of_lt sum] at high
  have order : (extentOf headers).minPaddr ≤ (extentOf headers).maxPaddr := by
    rw [UInt64.le_iff_toNat_le] at low ⊢
    omega
  rw [UInt64.toNat_sub_of_le _ _ order] at room
  rw [UInt64.toNat_sub_of_le _ _ low]
  rw [UInt64.le_iff_toNat_le] at low
  exact ⟨rfl, low, by omega⟩

/-- Without a wrap every accepted segment fits. -/
theorem NoWrap.fits (plain : NoWrap headers) (member : header ∈ loads headers)
    (accepted : header.Accepted payloadSize) : header.Fits (extentOf headers) := by
  obtain ⟨offset, -, room⟩ := plain.inside member
  have bytes : header.pFilesz.toNat ≤ header.pMemsz.toNat :=
    UInt64.le_iff_toNat_le.mp accepted.2
  refine .inr ?_
  omega

/-- The loaded headers of a table are the first one, if it is loaded, and those behind it. -/
theorem loads_cons : loads (header :: headers) =
    if header.pType = ptLoad then header :: loads headers else loads headers := by
  by_cases load : header.pType = ptLoad <;> simp [loads, load]

/-- The segments with memory that pass the tests: those that are copied when all pass. -/
def withMemory (headers : List Elf64Phdr) : List Elf64Phdr :=
  (loads headers).filter fun header => header.pMemsz ≠ 0

variable {status : EfiStatus} {final : Memory} {copies : List Elf64Phdr}

/-- A copy that stays off a region leaves it. -/
theorem copySegment_off {header : Elf64Phdr} {region : Set UInt64}
    (off : Disjoint (window (header.dest base minPaddr) header.pFilesz.toNat) region)
    (same : ∀ x ∈ region, m' x = m x) :
    ∀ x ∈ region, copySegment payloadStart base minPaddr m' header x = m x := by
  intro x inside
  have outside : x ∉ window (header.dest base minPaddr) header.pFilesz.toNat := fun hit =>
    Set.disjoint_left.mp off hit inside
  rw [copySegment, memcpy_outside (UInt64.toNat_lt _).le outside]
  exact same x inside

/-- While the copies stay off the table, the loop copies segments of the table, and all of them with
memory when it succeeds. -/
theorem CopyRun.of_table
    (run : CopyRun payloadStart payloadSize base minPaddr count phdr m' events copies status final)
    (small : count ≤ 2 ^ 32) (same : ∀ x ∈ tableWindow phdr count, m' x = m x)
    (apart : ∀ header ∈ loads (phdrs m phdr count), header.Accepted payloadSize →
      Disjoint (window (header.dest base minPaddr) header.pFilesz.toNat) (tableWindow phdr count)) :
    (∀ header ∈ copies, header ∈ loads (phdrs m phdr count)) ∧ (status = efiSuccess →
      copies = withMemory (phdrs m phdr count) ∧
        ∀ header ∈ loads (phdrs m phdr count), header.Accepted payloadSize) := by
  induction run with
  | done => simp [phdrs, withMemory, loads]
  | @skipped count phdr m' _ _ _ _ skips rest ih =>
    obtain ⟨first, later⟩ := tableWindow_succ phdr small
    have header : phdrAt m' phdr = phdrAt m phdr :=
      phdrAt_congr fun x inside => same x (first inside)
    rw [phdrs, loads_cons] at apart
    rw [phdrs, loads_cons, withMemory, loads_cons, ← header]
    rw [← header] at apart
    have tail := ih (by omega) (fun x inside => same x (later inside))
    by_cases load : (phdrAt m' phdr).pType = ptLoad
    · rw [if_pos load] at apart ⊢
      rcases skips with other | ⟨accepted, none⟩
      · exact absurd load other
      obtain ⟨listed, success⟩ := tail fun header member passed =>
        (apart header (List.mem_cons_of_mem _ member) passed).mono_right later
      refine ⟨fun header member => List.mem_cons_of_mem _ (listed header member), fun done => ?_⟩
      obtain ⟨all, passed⟩ := success done
      refine ⟨?_, List.forall_mem_cons.mpr ⟨accepted, passed⟩⟩
      rw [all, withMemory, List.filter_cons_of_neg (by simp [none])]
    · rw [if_neg load] at apart ⊢
      exact tail fun header member passed => (apart header member passed).mono_right later
  | @rejected count phdr m' load bad =>
    refine ⟨by simp, fun done => ?_⟩
    cases done
  | @copied count phdr m' _ _ _ _ load accepted memory rest ih =>
    obtain ⟨first, later⟩ := tableWindow_succ phdr small
    have header : phdrAt m' phdr = phdrAt m phdr :=
      phdrAt_congr fun x inside => same x (first inside)
    rw [phdrs, loads_cons] at apart
    rw [phdrs, loads_cons, withMemory, loads_cons, ← header]
    rw [← header, if_pos load] at apart
    rw [if_pos load]
    have off := apart (phdrAt m' phdr) List.mem_cons_self accepted
    have kept : ∀ x ∈ tableWindow (phdr + elf64PhdrSize) count,
        copySegment payloadStart base minPaddr m' (phdrAt m' phdr) x = m x :=
      copySegment_off (off.mono_right later) fun x inside => same x (later inside)
    obtain ⟨listed, success⟩ := ih (by omega) kept fun header member passed =>
      (apart header (List.mem_cons_of_mem _ member) passed).mono_right later
    refine ⟨List.forall_mem_cons.mpr ⟨List.mem_cons_self, fun header member =>
      List.mem_cons_of_mem _ (listed header member)⟩, fun done => ?_⟩
    obtain ⟨all, passed⟩ := success done
    refine ⟨?_, List.forall_mem_cons.mpr ⟨accepted, passed⟩⟩
    rw [all, withMemory, List.filter_cons_of_pos (by simp [memory])]

/-- A region of the kernel is shown in a run. -/
def Obtains (base size : UInt64) (events : List Event) : Prop :=
  (⟨.reach (.kernelRegion base size), ()⟩ : Event) ∈ events

variable {size phdrStart : UInt64} {phdrsNr : UInt32} {first second : List Event}

/-- A region is obtained in a trace when it is in one of its parts. -/
theorem obtains_append :
    Obtains base size (first ++ second) ↔ Obtains base size first ∨ Obtains base size second :=
  List.mem_append

/-- Looking at memory obtains no region. -/
theorem Looks.not_obtains {region : Set UInt64} (looks : Looks region events) :
    ¬Obtains base size events := fun shown => looks _ shown

/-- Calls of the firmware mark no region. -/
theorem not_obtains_of_lacks (plain : Lacks Call.isPoint events) : ¬Obtains base size events := by
  intro shown
  cases plain _ shown

/-- Copying the segments obtains no region. -/
theorem CopyRun.not_obtains
    (run : CopyRun payloadStart payloadSize base minPaddr count phdr m' events copies status final)
    {other : UInt64} : ¬Obtains other size events := by
  induction run with
  | done => simp [Obtains]
  | skipped _ _ ih => simpa [Obtains] using ih
  | rejected => simp [Obtains]
  | copied _ _ _ _ ih => simpa [Obtains] using ih

/-- The memory with a region zeroed. -/
def zeroed (m : Memory) (base size : UInt64) : Memory := memset m base 0 size.toNat

/-- A zeroed region is zero. -/
theorem zeroed_inside (inside : x ∈ window base size.toNat) : zeroed m base size x = 0 := by
  rw [zeroed, memset_word, fill_inside _ _ inside]

/-- Zeroing a region leaves what is apart from it. -/
theorem zeroed_outside {region : Set UInt64} (apart : Disjoint (window base size.toNat) region) :
    ∀ x ∈ region, zeroed m base size x = m x := by
  intro x inside
  have outside : x ∉ window base size.toNat := fun hit => Set.disjoint_left.mp apart hit inside
  rw [zeroed, memset_word, fill_outside _ _ outside]

/-- Copying segments leaves what none of their copies is written to. -/
theorem foldl_copySegment_outside (headers : List Elf64Phdr)
    (outside : ∀ header ∈ headers, x ∉ window (header.dest base minPaddr) header.pFilesz.toNat) :
    headers.foldl (copySegment payloadStart base minPaddr) m x = m x := by
  induction headers generalizing m with
  | nil => rfl
  | cons header rest ih =>
    rw [List.foldl_cons, ih fun other member => outside other (List.mem_cons_of_mem _ member)]
    exact memcpy_outside (UInt64.toNat_lt _).le (outside header List.mem_cons_self)

/-- A run of `efi_allocate_kernel_memory` that shows a region has sized it by the segments, and
writes it once. -/
theorem RegionRun.obtains {result : Except EfiStatus (KernelMemory × Memory)}
    (run : RegionRun m phdrStart phdrsNr events result) (shown : Obtains base size events) :
    size = (tableExtent m phdrStart phdrsNr).memSize ∧
      (tableExtent m phdrStart phdrsNr).Aligned ∧
      result = .ok (⟨base, size, (tableExtent m phdrStart phdrsNr).minPaddr,
        (tableExtent m phdrStart phdrsNr).maxPaddr, (tableExtent m phdrStart phdrsNr).minVaddr⟩,
        zeroed m base size) ∧
      ∀ region, Within .write region events ↔ window base size.toNat ⊆ region := by
  have table := tableReads_looks phdrStart phdrsNr.toNat
  cases run with
  | unaligned printed =>
    rcases obtains_append.mp shown with shown | shown
    · exact absurd shown table.not_obtains
    · exact absurd shown printed.not_obtains
  | refused asked _ printed =>
    rw [obtains_append, obtains_append] at shown
    rcases shown with shown | shown | shown
    · exact absurd shown table.not_obtains
    · exact absurd shown (not_obtains_of_lacks (allocateKernel_plain asked))
    · exact absurd shown printed.not_obtains
  | allocated measured aligned given mapped =>
    have plain := allocateKernel_plain given
    have remapped := efiRemapImageAllRwx_plain mapped
    rw [obtains_append, obtains_append, obtains_append] at shown
    rcases shown with shown | shown | shown | shown
    · exact absurd shown table.not_obtains
    · exact absurd shown (not_obtains_of_lacks plain)
    · simp only [Obtains, regionEvents, List.mem_cons, Interaction.Event.mk.injEq, Call.reach.injEq,
        Point.kernelRegion.injEq, reduceCtorEq, false_and, or_false, List.not_mem_nil] at shown
      obtain ⟨⟨rfl, rfl⟩, -⟩ := shown
      subst measured
      refine ⟨rfl, aligned, rfl, fun region => ?_⟩
      simp [regionEvents, table.writes, Within.of_lacks plain, Within.of_lacks remapped]
    · exact absurd shown (not_obtains_of_lacks remapped)

/-- What only prints reads nothing. -/
theorem Looks.none {region : Set UInt64} (printed : Looks ∅ events) : Within .read region events :=
  (printed.mono (Set.empty_subset region)).reads

/-- Reserving the region reads the table alone. -/
theorem RegionRun.reads {region : Set UInt64} {result : Except EfiStatus (KernelMemory × Memory)}
    (run : RegionRun m phdrStart phdrsNr events result) :
    Within .read region events ↔ Within .read region (tableReads phdrStart phdrsNr.toNat) := by
  cases run with
  | unaligned printed => simp [printed.none]
  | refused asked _ printed =>
    simp [printed.none, Within.of_lacks (allocateKernel_plain asked)]
  | allocated measured aligned given mapped =>
    simp [regionEvents, Within.of_lacks (allocateKernel_plain given),
      Within.of_lacks (efiRemapImageAllRwx_plain mapped)]

/-- A region that is given is shown. -/
theorem RegionRun.shows {kernel : KernelMemory} {zeroed : Memory}
    (run : RegionRun m phdrStart phdrsNr events (.ok (kernel, zeroed))) :
    Obtains kernel.paddr kernel.size events := by
  cases run with
  | allocated => simp [Obtains, regionEvents]

/-- A run of `load_program` that shows a region has copied segments into it, zeroed, and written
nothing else. -/
theorem ProgramRun.obtains {result : Except EfiStatus Program × Memory}
    (run : ProgramRun m payloadStart payloadSize phdrStart phdrsNr events result)
    (shown : Obtains base size events) :
    size = (tableExtent m phdrStart phdrsNr).memSize ∧ ∃ copy copies status,
      CopyRun payloadStart payloadSize base (tableExtent m phdrStart phdrsNr).minPaddr
        phdrsNr.toNat phdrStart (zeroed m base size) copy copies status result.2 ∧
      (status = efiSuccess → result.1 = .ok ⟨base, size,
        (tableExtent m phdrStart phdrsNr).minPaddr, (tableExtent m phdrStart phdrsNr).minVaddr⟩) ∧
      (∀ program, result.1 = .ok program → status = efiSuccess) ∧
      (∀ region, Within .write region events ↔
        window base size.toNat ⊆ region ∧ Within .write region copy) ∧
      ∀ region, Within .read region events ↔
        Within .read region (tableReads phdrStart phdrsNr.toNat) ∧ Within .read region copy := by
  have sameMemory : memset (zeroed m base size) base 0 size.toNat = zeroed m base size :=
    memset_twice ..
  have inner {region rest : List Event} {write : Event} (quiet : ¬Obtains base size rest)
      (other : ∀ b s, write.op ≠ .reach (.kernelRegion b s))
      (shown : Obtains base size (region ++ write :: rest)) : Obtains base size region := by
    rcases obtains_append.mp shown with shown | shown
    · exact shown
    · rcases List.mem_cons.mp shown with same | shown
      · exact absurd (congrArg Interaction.Event.op same).symm (other base size)
      · exact absurd shown quiet
  cases run with
  | refused run printed =>
    rcases obtains_append.mp shown with shown | shown
    · obtain ⟨-, -, impossible, -⟩ := run.obtains shown
      cases impossible
    · exact absurd shown printed.not_obtains
  | rejected run copies failed freed =>
    have free := efiFree_plain freed
    have quiet : ¬Obtains base size (_ ++ _) := fun shown =>
      (obtains_append.mp shown).elim copies.not_obtains (not_obtains_of_lacks free)
    obtain ⟨sized, -, same, writes⟩ := run.obtains (inner quiet (by simp) shown)
    obtain ⟨rfl, rfl⟩ := Prod.mk.inj (Except.ok.inj same)
    rw [sameMemory] at copies
    refine ⟨sized, _, _, _, copies, fun done => absurd done failed, by simp, fun region => ?_,
      fun region => ?_⟩
    · simp [writes, Within.of_lacks free]
    · simp [run.reads, Within.of_lacks free]
  | loaded run copies =>
    obtain ⟨sized, -, same, writes⟩ := run.obtains (inner copies.not_obtains (by simp) shown)
    obtain ⟨rfl, rfl⟩ := Prod.mk.inj (Except.ok.inj same)
    rw [sameMemory] at copies
    refine ⟨sized, _, _, _, copies, fun _ => rfl, fun _ _ => rfl, fun region => ?_,
      fun region => ?_⟩
    · simp [writes]
    · simp [run.reads]

/-- A program that is returned lies in the region that the run obtained. -/
theorem ProgramRun.loaded_region {program : Program}
    (run : ProgramRun m payloadStart payloadSize phdrStart phdrsNr events (.ok program, final)) :
    Obtains program.memPaddr program.memSize events := by
  cases run with
  | loaded run copies =>
    exact obtains_append.mpr (.inl run.shows)

/-- Without a region only the table is read. -/
theorem ProgramRun.reads_of_none {region : Set UInt64} {result : Except EfiStatus Program × Memory}
    (run : ProgramRun m payloadStart payloadSize phdrStart phdrsNr events result)
    (none : ∀ base size, ¬Obtains base size events) :
    Within .read region events ↔ Within .read region (tableReads phdrStart phdrsNr.toNat) := by
  cases run with
  | refused run printed => simp [run.reads, printed.none]
  | rejected run => exact absurd (obtains_append.mpr (.inl run.shows)) (none _ _)
  | loaded run => exact absurd (obtains_append.mpr (.inl run.shows)) (none _ _)

/-- The writes of a run of `load_program` stay in the region it obtained exactly when every segment
it copies fits there; without a wrap of an end of a segment they all do. -/
theorem load_program_writes_iff {outcome : Option (Except EfiStatus Program × Memory)}
    (run : Exec (loadProgram m payloadStart payloadSize phdrStart phdrsNr) events outcome)
    (shown : Obtains base size events) :
    (Within .write (window base size.toNat) events ↔
      ∀ header ∈ copied payloadStart payloadSize base (tableExtent m phdrStart phdrsNr).minPaddr
        phdrsNr.toNat phdrStart (zeroed m base size),
        header.Fits (tableExtent m phdrStart phdrsNr)) ∧
    (NoWrap (phdrs m phdrStart phdrsNr.toNat) →
      Disjoint (window base size.toNat) (tableWindow phdrStart phdrsNr.toNat) →
      Within .write (window base size.toNat) events) := by
  obtain ⟨result, rfl, ran⟩ := programRun_of_exec run
  obtain ⟨sized, copy, copies, status, copying, -, -, writes, -⟩ := ran.obtains shown
  have fits : Within .write (window base size.toNat) events ↔
      ∀ header ∈ copies, header.Fits (tableExtent m phdrStart phdrsNr) := by
    rw [writes, copying.writes, and_iff_right (Set.Subset.refl _)]
    refine forall₂_congr fun header _ => ?_
    rw [sized, fits_iff]
  refine ⟨by rw [fits, copying.headers_eq], fun plain apart => fits.mpr ?_⟩
  have kept : ∀ x ∈ tableWindow phdrStart phdrsNr.toNat, zeroed m base size x = m x :=
    zeroed_outside apart
  obtain ⟨listed, -⟩ := copying.of_table phdrsNr.toNat_lt.le kept fun header member accepted => by
    have within := (fits_iff base).mpr (plain.fits member accepted)
    exact apart.mono_left (sized ▸ within)
  intro header member
  have listing := member
  rw [copying.headers_eq] at listing
  exact plain.fits (listed header member) (copied_accepted listing)

/-- Little-endian bytes of a number. -/
def leBytes (value : Nat) : Nat → List UInt8
  | 0 => []
  | count + 1 => UInt8.ofNat value :: leBytes (value / 256) count

/-- The bytes of a program header, readable and executable. -/
def Elf64Phdr.bytes (header : Elf64Phdr) : List UInt8 :=
  leBytes header.pType.toNat 4 ++ leBytes 5 4 ++ leBytes header.pOffset.toNat 8 ++
    leBytes header.pVaddr.toNat 8 ++ leBytes header.pPaddr.toNat 8 ++
    leBytes header.pFilesz.toNat 8 ++ leBytes header.pMemsz.toNat 8 ++
    leBytes header.pAlign.toNat 8

/-- A RISC-V executable: header, program headers, data. -/
def elfFile (entry : UInt64) (headers : List Elf64Phdr) (data : List UInt8) : List UInt8 :=
  [0x7F, 0x45, 0x4C, 0x46, 2, 1, 1, 0, 0, 0, 0, 0, 0, 0, 0, 0] ++ leBytes 2 2 ++ leBytes 243 2 ++
    leBytes 1 4 ++ leBytes entry.toNat 8 ++ leBytes 64 8 ++ leBytes 0 8 ++ leBytes 0 4 ++
    leBytes 64 2 ++ leBytes 56 2 ++ leBytes headers.length 2 ++ leBytes 64 2 ++ leBytes 0 2 ++
    leBytes 0 2 ++ headers.flatMap Elf64Phdr.bytes ++ data

/-- A memory with bytes from an address on. -/
def memoryWith (base : UInt64) (bytes : List UInt8) : Memory := fun x => bytes.getD (x - base).toNat 0

/-- A firmware without memory attributes that answers a request for pages with the given status. -/
def loaderFirmware (pages : EfiStatus) (_ : List Event) : (call : Call) → Option call.Reply
  | .allocatePages .. => some ⟨pages, 0x40000000⟩
  | .freePages .. => some efiSuccess
  | .allocatePool .. => some ⟨efiSuccess, 0x3000⟩
  | .installConfigurationTable .. => some efiSuccess
  | .locateProtocol .. => some ⟨efiNotFound, 0⟩
  | .print .. => some ()
  | .reach .. => some ()
  | _ => none

/-- Whether an answer to a request for pages is a number of pages. -/
def givesPages : Event → Bool
  | ⟨.allocatePages _ _ pages _, reply⟩ =>
    reply.value.toNat % 4096 == 0 && reply.value.toNat + pages.toNat * 4096 ≤ 2 ^ 64
  | _ => true

/-- A point is in a run if its call is. -/
theorem point_mem {point : Point} (shown : Call.reach point ∈ events.map Interaction.Event.op) :
    (⟨.reach point, ()⟩ : Event) ∈ events := by
  obtain ⟨⟨op, reply⟩, member, same⟩ := List.mem_map.mp shown
  cases same
  exact member

/-- A kernel of two segments: four bytes of code with four more of memory, and four bytes of data a
page later. -/
def plainKernel : Memory := memoryWith 0x100000 (elfFile 0x200000
  [⟨1, 176, 0x200000, 0x200000, 4, 8, 4096⟩, ⟨1, 180, 0x201000, 0x201000, 4, 4096, 4096⟩]
  [0x13, 0, 0, 0, 0xEF, 0xBE, 0xAD, 0xDE])

/-- Loading the two segments. -/
def plainLoad : Stub (Except EfiStatus Program × Memory) :=
  loadProgram plainKernel 0x100000 184 0x100040 2

/-- What is seen of loading them: the program, and the region it obtains. -/
theorem plainLoad_seen :
    (plainLoad.valueWith (loaderFirmware efiSuccess)).map (fun result => result.1.toOption) =
        some (some ⟨0x40000000, 0x200000, 0x200000, 0x200000⟩) ∧
      Call.reach (.kernelRegion 0x40000000 0x200000) ∈
        (plainLoad.eventsWith (loaderFirmware efiSuccess)).map Interaction.Event.op := by
  simp only [plainLoad, loadProgram, efiAllocateKernelMemory, memset_word]
  decide +kernel

/-- The plain load returns. -/
theorem plainLoad_returns : (plainLoad.valueWith (loaderFirmware efiSuccess)).isSome = true := by
  obtain ⟨result, value, -⟩ := Option.map_eq_some_iff.mp plainLoad_seen.1
  exact Option.isSome_iff_exists.mpr ⟨result, value⟩

/-- The segments of the plain kernel fit in its region, which lies apart from the table. -/
theorem load_program_writes_iff_plain :
    (Within .write (window 0x40000000 (0x200000 : UInt64).toNat)
        (plainLoad.eventsWith (loaderFirmware efiSuccess)) ↔
      ∀ header ∈ copied 0x100000 184 0x40000000 (tableExtent plainKernel 0x100040 2).minPaddr 2
        0x100040 (zeroed plainKernel 0x40000000 0x200000),
        header.Fits (tableExtent plainKernel 0x100040 2)) ∧
    (NoWrap (phdrs plainKernel 0x100040 2) →
      Disjoint (window 0x40000000 (0x200000 : UInt64).toNat) (tableWindow 0x100040 2) →
      Within .write (window 0x40000000 (0x200000 : UInt64).toNat)
        (plainLoad.eventsWith (loaderFirmware efiSuccess))) := by
  exact load_program_writes_iff (exec_eventsWith plainLoad_returns) (point_mem plainLoad_seen.2)

/-- A segment of one byte that claims all memory but one byte: the span rounds up to zero. -/
def wrappingKernel : Memory := memoryWith 0x100000 (elfFile 0
  [⟨1, 0, 0, 0, 1, 0xFFFFFFFFFFFFFFFF, 4096⟩] [])

/-- Loading the segment. -/
def wrappingLoad : Stub (Except EfiStatus Program × Memory) :=
  loadProgram wrappingKernel 0x100000 120
    (0x100000 + fieldAt wrappingKernel 0x100000 ePhoff)
    (phdrCount wrappingKernel 0x100000).toUInt32

/-- A table that is accepted and a region that is given do not keep the copies in the region: the
region of the wrapping segment is empty, and its byte is copied behind it. -/
theorem load_program_writes_outside : ¬∀ (m : Memory) (payloadStart payloadSize : UInt64),
    TableAccepted m payloadStart payloadSize → ∀ events outcome,
      Exec (loadProgram m payloadStart payloadSize (payloadStart + fieldAt m payloadStart ePhoff)
        (phdrCount m payloadStart).toUInt32) events outcome →
      ∀ base size, Obtains base size events → Within .write (window base size.toNat) events := by
  intro claim
  have accepted : TableAccepted wrappingKernel 0x100000 120 :=
    ⟨⟨by decide +kernel, by decide +kernel⟩, fun extended => absurd extended (by decide +kernel),
      by decide +kernel⟩
  have returns : (wrappingLoad.valueWith (loaderFirmware efiSuccess)).isSome = true := by
    decide +kernel
  have shown : Obtains 0x40000000 0 (wrappingLoad.eventsWith (loaderFirmware efiSuccess)) :=
    point_mem (by decide +kernel)
  have written : (⟨.reach (.write 0x40000000 1), ()⟩ : Event) ∈
      wrappingLoad.eventsWith (loaderFirmware efiSuccess) := point_mem (by decide +kernel)
  have inside := claim wrappingKernel 0x100000 120 accepted _ _ (exec_eventsWith returns)
    0x40000000 0 shown
    _ written 0x40000000 1 rfl
  have first : (0x40000000 : UInt64) ∈ window 0x40000000 1 := by simp
  exact absurd (inside first) (by simp)

end DragonStub

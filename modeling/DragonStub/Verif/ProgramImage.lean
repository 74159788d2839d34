import DragonStub.Verif.ProgramBounds

/-!
# The loaded program

After a successful load of segments that do not overlap, the region holds the program: every byte of
a segment's file part at its offset from the lowest physical address, and zero everywhere else.
-/

namespace DragonStub

open ByteMemory Interaction Prog

variable {m m' : Memory} {events : List Event} {payloadStart payloadSize base minPaddr x : UInt64}
  {header : Elf64Phdr} {headers : List Elf64Phdr}

/-- Where the bytes of a segment go. -/
def Elf64Phdr.target (header : Elf64Phdr) (base minPaddr : UInt64) : Set UInt64 :=
  window (header.dest base minPaddr) header.pFilesz.toNat

/-- Where the bytes of a segment come from. -/
def Elf64Phdr.source (header : Elf64Phdr) (payloadStart : UInt64) : Set UInt64 :=
  window (header.src payloadStart) header.pFilesz.toNat

/-- Copying a segment leaves what lies outside its target. -/
theorem copySegment_outside (outside : x ∉ header.target base minPaddr) :
    copySegment payloadStart base minPaddr m header x = m x :=
  memcpy_outside header.pFilesz.toNat_lt.le outside

/-- A copied segment holds its source, where that lies apart from its target. -/
theorem copySegment_inside
    (apart : Disjoint (header.target base minPaddr) (header.source payloadStart))
    (inside : x ∈ header.target base minPaddr) : copySegment payloadStart base minPaddr m header x =
      m (header.src payloadStart + (x - header.dest base minPaddr)) :=
  memcpy_inside header.pFilesz.toNat_lt.le apart inside

/-- The bytes that a target takes are in the source. -/
theorem source_of_target (payloadStart : UInt64) (inside : x ∈ header.target base minPaddr) :
    header.src payloadStart + (x - header.dest base minPaddr) ∈ header.source payloadStart := by
  rw [Elf64Phdr.source, mem_window, sub_add_self]
  exact inside

/-- When no target meets a source or another target, each segment arrives as it was. -/
theorem foldl_copySegment_inside
    (sources : ∀ first ∈ headers, ∀ second ∈ headers,
      Disjoint (first.target base minPaddr) (second.source payloadStart))
    (targets : headers.Pairwise fun first second =>
      Disjoint (first.target base minPaddr) (second.target base minPaddr)) :
    ∀ header ∈ headers, ∀ x ∈ header.target base minPaddr,
      headers.foldl (copySegment payloadStart base minPaddr) m x =
        m (header.src payloadStart + (x - header.dest base minPaddr)) := by
  induction headers generalizing m with
  | nil => simp
  | cons header rest ih =>
    obtain ⟨first, later⟩ := List.pairwise_cons.mp targets
    have arrive := ih (m := copySegment payloadStart base minPaddr m header)
      (fun one member other listed => sources one (List.mem_cons_of_mem _ member) other
        (List.mem_cons_of_mem _ listed)) later
    intro segment member x inside
    rw [List.foldl_cons]
    rcases List.mem_cons.mp member with rfl | member
    · have others : ∀ other ∈ rest, x ∉ other.target base minPaddr := fun other listed hit =>
        Set.disjoint_left.mp (first other listed) inside hit
      rw [foldl_copySegment_outside rest others]
      exact copySegment_inside (sources _ List.mem_cons_self _ List.mem_cons_self) inside
    · have off := sources header List.mem_cons_self segment (List.mem_cons_of_mem _ member)
      rw [arrive segment member x inside]
      exact copySegment_outside fun hit =>
        Set.disjoint_left.mp off hit (source_of_target payloadStart inside)

/-- Segments that are apart in link addresses are apart in the region. -/
theorem target_disjoint {first second : Elf64Phdr}
    (apart : Disjoint (window first.pPaddr first.pFilesz.toNat)
      (window second.pPaddr second.pFilesz.toNat)) :
    Disjoint (first.target base minPaddr) (second.target base minPaddr) := by
  have moved (header : Elf64Phdr) (x : UInt64) : x ∈ header.target base minPaddr ↔
      x - base + minPaddr ∈ window header.pPaddr header.pFilesz.toNat := by
    have same : x - (base + (header.pPaddr - minPaddr)) = x - base + minPaddr - header.pPaddr := by
      grind
    rw [Elf64Phdr.target, Elf64Phdr.dest, mem_window, mem_window, same]
  rw [Set.disjoint_left] at apart ⊢
  intro x inFirst inSecond
  exact apart ((moved first x).mp inFirst) ((moved second x).mp inSecond)

variable {phdrStart : UInt64} {phdrsNr : UInt32} {program : Program} {final : Memory}

/-- The bytes of an accepted segment come from the payload. -/
theorem source_subset (accepted : header.Accepted payloadSize)
    (bounded : header.pOffset.toNat + header.pFilesz.toNat < 2 ^ 64) :
    header.source payloadStart ⊆ window payloadStart payloadSize.toNat := by
  have inside := accepted.1
  rw [UInt64.le_iff_toNat_le, UInt64.toNat_add, Nat.mod_eq_of_lt bounded] at inside
  exact window_subset_of_le inside payloadSize.toNat_lt.le

/-- The targets of accepted segments are apart when their memory is. -/
theorem targets_disjoint (accepted : ∀ header ∈ headers, header.Accepted payloadSize)
    (apart : headers.Pairwise fun first second =>
      Disjoint (window first.pPaddr first.pMemsz.toNat) (window second.pPaddr second.pMemsz.toNat)) :
    headers.Pairwise fun first second =>
      Disjoint (first.target base minPaddr) (second.target base minPaddr) := by
  refine List.Pairwise.imp_of_mem ?_ apart
  intro first second inFirst inSecond order
  have firstBytes := (accepted first inFirst).2
  have secondBytes := (accepted second inSecond).2
  exact target_disjoint ((order.mono_left (window_mono firstBytes)).mono_right
    (window_mono secondBytes))

/-- A segment with bytes in the file has memory for them. -/
theorem Elf64Phdr.Accepted.memory {k : UInt64} (accepted : header.Accepted payloadSize)
    (inside : k < header.pFilesz) : header.pMemsz ≠ 0 := by
  have bytes := accepted.2
  rintro none
  rw [none, UInt64.le_iff_toNat_le, UInt64.toNat_zero] at bytes
  rw [UInt64.lt_iff_toNat_lt] at inside
  omega

/-- The target is the file part's bytes, counted from the destination. -/
theorem mem_target_iff : x ∈ header.target base minPaddr ↔
    ∃ k < header.pFilesz, x = header.dest base minPaddr + k := by
  constructor
  · intro hit
    refine ⟨x - header.dest base minPaddr, UInt64.lt_iff_toNat_lt.mpr hit, ?_⟩
    grind
  · rintro ⟨k, inside, rfl⟩
    rw [Elf64Phdr.target, mem_window, sub_add_self]
    exact UInt64.lt_iff_toNat_lt.mp inside

/-- A segment that has memory is one that is loaded. -/
theorem mem_loads_of_withMemory (member : header ∈ withMemory headers) : header ∈ loads headers :=
  (List.mem_filter.mp member).1

/-- Accepted segments that go into a region apart from the payload arrive as they are in it. -/
theorem withMemory_arrive {region : Set UInt64}
    (accepted : ∀ header ∈ loads headers, header.Accepted payloadSize)
    (within : ∀ header ∈ loads headers, header.target base minPaddr ⊆ region)
    (bounded : ∀ header ∈ loads headers,
      header.pOffset.toNat + header.pFilesz.toNat < 2 ^ 64)
    (apart : (loads headers).Pairwise fun first second =>
      Disjoint (window first.pPaddr first.pMemsz.toNat) (window second.pPaddr second.pMemsz.toNat))
    (fresh : Disjoint region (window payloadStart payloadSize.toNat)) :
    ∀ header ∈ withMemory headers, ∀ x ∈ header.target base minPaddr,
      (withMemory headers).foldl (copySegment payloadStart base minPaddr) m x =
        m (header.src payloadStart + (x - header.dest base minPaddr)) := by
  have sources : ∀ first ∈ withMemory headers, ∀ second ∈ withMemory headers,
      Disjoint (first.target base minPaddr) (second.source payloadStart) := by
    intro first inFirst second inSecond
    have member := mem_loads_of_withMemory inSecond
    have target := within first (mem_loads_of_withMemory inFirst)
    have source : second.source payloadStart ⊆ window payloadStart payloadSize.toNat :=
      source_subset (accepted second member) (bounded second member)
    exact (fresh.mono_left target).mono_right source
  have copiesApart : (withMemory headers).Pairwise fun first second =>
      Disjoint (window first.pPaddr first.pMemsz.toNat)
        (window second.pPaddr second.pMemsz.toNat) := by
    rw [withMemory]
    exact apart.filter fun header => header.pMemsz ≠ 0
  have targets : (withMemory headers).Pairwise fun first second =>
      Disjoint (first.target base minPaddr) (second.target base minPaddr) :=
    targets_disjoint (fun header member => accepted header (mem_loads_of_withMemory member))
      copiesApart
  exact foldl_copySegment_inside sources targets

/-- A program that is loaded apart from its payload is made of its segments with memory, all of which
are accepted and go into its region. -/
theorem ProgramRun.copies_of_ok
    (run : ProgramRun m payloadStart payloadSize phdrStart phdrsNr events (.ok program, final))
    (table : tableWindow phdrStart phdrsNr.toNat ⊆ window payloadStart payloadSize.toNat)
    (plain : NoWrap (phdrs m phdrStart phdrsNr.toNat))
    (fresh : Disjoint (window program.memPaddr program.memSize.toNat)
      (window payloadStart payloadSize.toNat)) :
    (∀ header ∈ loads (phdrs m phdrStart phdrsNr.toNat), header.Accepted payloadSize ∧
      header.target program.memPaddr (tableExtent m phdrStart phdrsNr).minPaddr ⊆
        window program.memPaddr program.memSize.toNat) ∧
    final = (withMemory (phdrs m phdrStart phdrsNr.toNat)).foldl (copySegment payloadStart
      program.memPaddr (tableExtent m phdrStart phdrsNr).minPaddr)
        (zeroed m program.memPaddr program.memSize) := by
  obtain ⟨sized, copy, copies, status, copying, -, success, -⟩ := run.obtains run.loaded_region
  obtain rfl := success program rfl
  have within : ∀ header ∈ loads (phdrs m phdrStart phdrsNr.toNat), header.Accepted payloadSize →
      header.target program.memPaddr (tableExtent m phdrStart phdrsNr).minPaddr ⊆
        window program.memPaddr program.memSize.toNat := by
    intro header member accepted
    rw [sized]
    exact (fits_iff _).mpr (plain.fits member accepted)
  obtain ⟨-, copied⟩ := copying.of_table phdrsNr.toNat_lt.le
    (fun x inside => zeroed_outside fresh x (table inside))
    fun header member accepted => (fresh.mono_left (within header member accepted)).mono_right table
  obtain ⟨rfl, accepted⟩ := copied rfl
  exact ⟨fun header member => ⟨accepted header member, within header member (accepted header member)⟩,
    copying.final_eq⟩

/-- When `load_program` succeeds on segments that do not wrap or overlap, in a region apart from the
payload, the region holds the file part of each segment at its offset, and zero elsewhere. -/
theorem load_program_image
    (run : Exec (loadProgram m payloadStart payloadSize phdrStart phdrsNr) events
      (some (.ok program, final)))
    (table : tableWindow phdrStart phdrsNr.toNat ⊆ window payloadStart payloadSize.toNat)
    (plain : NoWrap (phdrs m phdrStart phdrsNr.toNat))
    (bounded : ∀ header ∈ loads (phdrs m phdrStart phdrsNr.toNat),
      header.pOffset.toNat + header.pFilesz.toNat < 2 ^ 64)
    (apart : (loads (phdrs m phdrStart phdrsNr.toNat)).Pairwise fun first second =>
      Disjoint (window first.pPaddr first.pMemsz.toNat) (window second.pPaddr second.pMemsz.toNat))
    (fresh : Disjoint (window program.memPaddr program.memSize.toNat)
      (window payloadStart payloadSize.toNat)) :
    Obtains program.memPaddr program.memSize events ∧
      (∀ header ∈ loads (phdrs m phdrStart phdrsNr.toNat), ∀ k < header.pFilesz,
        final (program.memPaddr + (header.pPaddr - (tableExtent m phdrStart phdrsNr).minPaddr) + k) =
          m (payloadStart + header.pOffset + k)) ∧
      ∀ x ∈ window program.memPaddr program.memSize.toNat,
        (∀ header ∈ loads (phdrs m phdrStart phdrsNr.toNat), ∀ k < header.pFilesz,
          x ≠ program.memPaddr + (header.pPaddr - (tableExtent m phdrStart phdrsNr).minPaddr) + k) →
        final x = 0 := by
  obtain ⟨_, same, ran⟩ := programRun_of_exec run
  obtain rfl := Option.some.inj same
  obtain ⟨copied, folded⟩ := ran.copies_of_ok table plain fresh
  have arrive := withMemory_arrive (m := zeroed m program.memPaddr program.memSize)
    (fun header member => (copied header member).1) (fun header member => (copied header member).2)
    bounded apart fresh
  rw [← folded] at arrive
  refine ⟨ran.loaded_region, fun header member k inside => ?_, fun x inside outside => ?_⟩
  · have accepted := (copied header member).1
    have listed : header ∈ withMemory (phdrs m phdrStart phdrsNr.toNat) :=
      List.mem_filter.mpr ⟨member, by simpa using accepted.memory inside⟩
    have hit : program.memPaddr + (header.pPaddr - (tableExtent m phdrStart phdrsNr).minPaddr) + k ∈
        header.target program.memPaddr (tableExtent m phdrStart phdrsNr).minPaddr :=
      mem_target_iff.mpr ⟨k, inside, rfl⟩
    have origin := source_of_target payloadStart hit
    have moved := arrive header listed _ hit
    rw [Elf64Phdr.dest, sub_add_self] at origin moved
    rw [moved, zeroed_outside fresh _ (source_subset accepted (bounded header member) origin)]
    rfl
  · have missed : ∀ header ∈ withMemory (phdrs m phdrStart phdrsNr.toNat), x ∉
        header.target program.memPaddr (tableExtent m phdrStart phdrsNr).minPaddr := by
      intro header member hit
      obtain ⟨k, held, same⟩ := mem_target_iff.mp hit
      exact outside header (mem_loads_of_withMemory member) k held same
    rw [folded, foldl_copySegment_outside _ missed, zeroed_inside inside]

/-- The two program headers of the plain kernel. -/
theorem plainKernel_phdrs : phdrs plainKernel 0x100040 2 =
    [⟨1, 176, 0x200000, 0x200000, 4, 8, 4096⟩, ⟨1, 180, 0x201000, 0x201000, 4, 4096, 4096⟩] := by
  decide +kernel

/-- The data of the plain kernel is a page behind its code, and its memory is zero. -/
theorem load_program_image_plain : ∃ events final,
    Exec plainLoad events (some (.ok ⟨0x40000000, 0x200000, 0x200000, 0x200000⟩, final)) ∧
      final 0x40001003 = 0xDE ∧ final 0x40000004 = 0 := by
  obtain ⟨⟨program, final⟩, same, run⟩ := exec_of_seen plainLoad_seen.1
  have program_eq : program = .ok ⟨0x40000000, 0x200000, 0x200000, 0x200000⟩ := by
    cases program with
    | error status => cases same
    | ok program => exact congrArg Except.ok (Option.some.inj same)
  rw [program_eq] at run
  have headers : phdrs plainKernel 0x100040 (2 : UInt32).toNat =
      [⟨1, 176, 0x200000, 0x200000, 4, 8, 4096⟩, ⟨1, 180, 0x201000, 0x201000, 4, 4096, 4096⟩] :=
    plainKernel_phdrs
  have table : tableWindow 0x100040 (2 : UInt32).toNat ⊆ window 0x100000 (184 : UInt64).toNat := by
    have shifted : (0x100040 : UInt64) = 0x100000 + 0x40 := by decide
    rw [tableWindow, shifted]
    exact window_subset_of_le (by decide) (by decide)
  have plain : NoWrap (phdrs plainKernel 0x100040 (2 : UInt32).toNat) := by
    rw [headers]
    exact ⟨by decide, by decide⟩
  have bounded : ∀ header ∈ loads (phdrs plainKernel 0x100040 (2 : UInt32).toNat),
      header.pOffset.toNat + header.pFilesz.toNat < 2 ^ 64 := by
    rw [headers]
    decide
  have apart : (loads (phdrs plainKernel 0x100040 (2 : UInt32).toNat)).Pairwise fun first second =>
      Disjoint (window first.pPaddr first.pMemsz.toNat)
        (window second.pPaddr second.pMemsz.toNat) := by
    rw [headers]
    apply List.pairwise_pair.mpr
    exact window_apart (by decide) (by decide)
  have fresh : Disjoint (window (0x40000000 : UInt64) (0x200000 : UInt64).toNat)
      (window 0x100000 (184 : UInt64).toNat) := (window_apart (by decide) (by decide)).symm
  obtain ⟨-, bytes, zero⟩ := load_program_image run table plain bounded apart fresh
  have lowest : (tableExtent plainKernel 0x100040 2).minPaddr = 0x200000 := by
    rw [tableExtent, headers]
    decide
  rw [headers, lowest] at bytes zero
  refine ⟨_, final, run, ?_, ?_⟩
  · have data := bytes ⟨1, 180, 0x201000, 0x201000, 4, 4096, 4096⟩ (by decide) 3 (by decide)
    have byte : plainKernel (0x100000 + 180 + 3) = 0xDE := by decide +kernel
    rw [byte] at data
    exact data
  · refine zero 0x40000004 (mem_window.mpr (by decide)) fun header member k inside same => ?_
    simp only [loads, ptLoad, beq_self_eq_true, List.filter_cons_of_pos, List.filter_nil,
      List.mem_cons, List.not_mem_nil, or_false] at member
    rcases member with rfl | rfl
    · simp only at inside same
      grind
    · simp only at inside same
      grind

end DragonStub

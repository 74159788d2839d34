import DragonStub.Verif.Ownership

/-!
# Aligned pages

`efi_allocate_pages_aligned` asks for more pages than it needs and frees those around the aligned
region. On a firmware that answers with pages, what it frees is what is left over, and the whole
region is held until it is freed with its own size.
-/

namespace DragonStub

open ByteMemory Interaction Layout Prog Trace Word

variable {events first second : List Event} {allocAddr addr base address size align max n : UInt64}
  {memoryType : UInt32} {k start middle stop : Nat} {live : Set Resource}

/-- The bytes of an interval of addresses. -/
def bytesBetween (start stop : Nat) : Set Resource :=
  Resource.byte '' {x | start ≤ x.toNat ∧ x.toNat < stop}

/-- A byte lies in an interval when its address does. -/
@[simp] theorem byte_mem_bytesBetween {x : UInt64} :
    .byte x ∈ bytesBetween start stop ↔ start ≤ x.toNat ∧ x.toNat < stop := by
  simp [bytesBetween]

/-- No pool block lies in an interval of bytes. -/
@[simp] theorem block_not_mem_bytesBetween {x : UInt64} : .block x ∉ bytesBetween start stop := by
  simp [bytesBetween]

/-- Pages that end before the end of the address space are an interval. -/
theorem pageBytes_eq (fits : address.toNat + n.toNat * 4096 ≤ 2 ^ 64) :
    pageBytes address n = bytesBetween address.toNat (address.toNat + n.toNat * 4096) := by
  unfold pageBytes bytesBetween
  congr 1
  ext x
  exact mem_window_of_fits fits

/-- An interval from an address to itself is empty. -/
@[simp] theorem bytesBetween_self : bytesBetween start start = ∅ := by
  ext resource
  cases resource with
  | block => simp
  | byte x =>
    simp only [byte_mem_bytesBetween, Set.mem_empty_iff_false, iff_false]
    omega

/-- An interval split at a point. -/
theorem bytesBetween_union (low : start ≤ middle) (high : middle ≤ stop) :
    bytesBetween start middle ∪ bytesBetween middle stop = bytesBetween start stop := by
  ext resource
  cases resource with
  | block => simp
  | byte x =>
    simp only [Set.mem_union, byte_mem_bytesBetween]
    omega

/-- Intervals one behind the other share nothing. -/
theorem bytesBetween_disjoint {start' stop' : Nat} (order : stop ≤ start') :
    Disjoint (bytesBetween start stop) (bytesBetween start' stop') := by
  rw [Set.disjoint_left]
  intro resource inFirst inSecond
  cases resource with
  | block => simp at inFirst
  | byte x =>
    rw [byte_mem_bytesBetween] at inFirst inSecond
    omega

/-- The firmware answers a request for pages with the address of that many pages. -/
def GivesPages (events : List Event) : Prop :=
  ∀ request memoryType pages address reply,
    (⟨.allocatePages request memoryType pages address, reply⟩ : Event) ∈ events →
      reply.status = efiSuccess →
      reply.value.toNat % 4096 = 0 ∧ reply.value.toNat + pages.toNat * 4096 ≤ 2 ^ 64

/-- Rounding up to pages. -/
theorem ceilTo_page (n : Nat) : n ≤ ceilTo n 4096 ∧ ceilTo n 4096 < n + 4096 ∧
    ceilTo n 4096 % 4096 = 0 := ceilTo_spec (by decide)

/-- A rounded size is a number of pages, even if it wraps. -/
theorem roundUp_whole (size : UInt64) : (roundUp size efiAllocAlign).toNat % 4096 = 0 := by
  have multiple := (ceilTo_page size.toNat).2.2
  have rounded := roundUp_toNat (x := size) efiAllocAlign_pow
  change _ = ceilTo size.toNat 4096 % 2 ^ 64 at rounded
  omega

/-- The pages above the request that alignment can need. -/
def slackPages (align : UInt64) : UInt64 := align / efiPageSize - 1

/-- The pages of an allocation before an aligned address, counted from the unit below. -/
def pagesInto (allocAddr align : UInt64) : UInt64 := (allocAddr &&& (align - 1)) / efiPageSize

/-- An alignment the allocator works with: a power of two, at least a page, and of no more pages
than an `int` holds. -/
structure PageAlign (align : UInt64) (k : Nat) : Prop where
  /-- The power. -/
  pow : IsPow align k
  /-- At least a page. -/
  page : 12 ≤ k
  /-- At most what an `int` of pages holds. -/
  small : k ≤ 43

/-- The alignment that `efi_allocate_pages_aligned` works with. -/
def allocAlign (align : UInt64) : UInt64 := if align < efiAllocAlign then efiAllocAlign else align

/-- Every power of two of at most 2^31 pages becomes such an alignment. -/
theorem allocAlign_pages (pow : IsPow align k) (small : align.toNat / 4096 ≤ 2 ^ 31) :
    ∃ power, PageAlign (allocAlign align) power := by
  have page : efiAllocAlign.toNat = 4096 := rfl
  by_cases below : align < efiAllocAlign
  · rw [allocAlign, if_pos below]
    exact ⟨12, efiAllocAlign_pow, by decide, by decide⟩
  · rw [allocAlign, if_neg below]
    rw [UInt64.lt_iff_toNat_lt, page, pow.2] at below
    rw [pow.2] at small
    refine ⟨k, pow, ?_, ?_⟩
    · by_contra short
      have bound := Nat.pow_lt_pow_right (show 1 < 2 by decide) (Nat.lt_of_not_le short)
      omega
    · by_contra long
      have bound := Nat.pow_le_pow_right (show 0 < 2 by decide) (Nat.lt_of_not_le long)
      omega

/-- The alignment in use is at least that of a page. -/
theorem allocAlign_toNat : (allocAlign align).toNat = Max.max align.toNat 4096 := by
  have page : efiAllocAlign.toNat = 4096 := rfl
  unfold allocAlign
  by_cases below : align < efiAllocAlign
  · rw [if_pos below, page]
    rw [UInt64.lt_iff_toNat_lt, page] at below
    omega
  · rw [if_neg below]
    rw [UInt64.lt_iff_toNat_lt, page] at below
    omega

/-- Such an alignment in pages. -/
theorem PageAlign.units (aligned : PageAlign align k) :
    ∃ units, 0 < units ∧ units ≤ 2 ^ 31 ∧ align.toNat = 4096 * units := by
  have exponent : k = 12 + (k - 12) := by
    have page := aligned.page
    omega
  refine ⟨2 ^ (k - 12), Nat.two_pow_pos _, ?_, ?_⟩
  · have small := aligned.small
    exact Nat.pow_le_pow_right (by decide) (by omega)
  · rw [aligned.pow.2]
    conv_lhs => rw [exponent, Nat.pow_add]

/-- The pages that are asked for in excess are those of the alignment, less one. -/
theorem slackPages_toNat (aligned : PageAlign align k) :
    (slackPages align).toNat = align.toNat / 4096 - 1 := by
  obtain ⟨units, positive, -, whole⟩ := aligned.units
  have page : efiPageSize.toNat = 4096 := rfl
  have quotient : (align / efiPageSize).toNat = align.toNat / 4096 := by
    rw [UInt64.toNat_div, page]
  have one : (1 : UInt64) ≤ align / efiPageSize := by
    rw [UInt64.le_iff_toNat_le, quotient, UInt64.toNat_one]
    omega
  rw [slackPages, UInt64.toNat_sub_of_le _ _ one, quotient, UInt64.toNat_one]

/-- The pages that an address stands above an aligned one. -/
theorem pagesInto_toNat (allocAddr : UInt64) (aligned : PageAlign align k) :
    (pagesInto allocAddr align).toNat = allocAddr.toNat % align.toNat / 4096 := by
  have page : efiPageSize.toNat = 4096 := rfl
  rw [pagesInto, UInt64.toNat_div, aligned.pow.and_mask, page]

/-- Pages are freed with one call, or there are none to free. -/
def Frees (events : List Event) (address pages : UInt64) : Prop :=
  pages = 0 ∧ events = [] ∨ pages ≠ 0 ∧ ∃ status, events = [⟨.freePages address pages, status⟩]

/-- The pages freed before the region. -/
def headPages (allocAddr align : UInt64) : UInt64 :=
  if pagesInto allocAddr align = 0 then 0
  else slackPages align - pagesInto allocAddr align + 1

/-- The pages freed behind the region. -/
def tailPages (allocAddr align : UInt64) : UInt64 :=
  if pagesInto allocAddr align = 0 then slackPages align else pagesInto allocAddr align - 1

/-- The pages around the aligned region in numbers. -/
theorem slack_toNat (aligned : PageAlign align k) (page : allocAddr.toNat % 4096 = 0) :
    ceilTo allocAddr.toNat align.toNat = allocAddr.toNat + (headPages allocAddr align).toNat * 4096 ∧
      (headPages allocAddr align).toNat + (tailPages allocAddr align).toNat =
        (slackPages align).toNat ∧
      (slackPages align).toNat < 2 ^ 31 ∧
      (pagesInto allocAddr align).toNat ≤ (slackPages align).toNat := by
  obtain ⟨units, positive, small, whole⟩ := aligned.units
  have slack := slackPages_toNat aligned
  have into := pagesInto_toNat allocAddr aligned
  have remainder := Nat.mod_lt allocAddr.toNat aligned.pow.pos
  have divided := Nat.div_add_mod allocAddr.toNat align.toNat
  have paged : allocAddr.toNat % align.toNat % 4096 = 0 := by
    rw [whole, Nat.mod_mul_right_mod]
    exact page
  have bound : (pagesInto allocAddr align).toNat ≤ (slackPages align).toNat := by omega
  have order : pagesInto allocAddr align ≤ slackPages align := UInt64.le_iff_toNat_le.mpr bound
  unfold headPages tailPages
  by_cases whole' : pagesInto allocAddr align = 0
  · have zero : (pagesInto allocAddr align).toNat = 0 := by rw [whole', UInt64.toNat_zero]
    have exact := ceilTo_of_multiple aligned.pow.pos
      (show allocAddr.toNat % align.toNat = 0 by omega)
    rw [if_pos whole', if_pos whole', exact, UInt64.toNat_zero]
    omega
  · have nonzero : (pagesInto allocAddr align).toNat ≠ 0 := fun zero =>
      whole' (UInt64.toNat_inj.mp zero)
    have one : 1 ≤ pagesInto allocAddr align := by
      rw [UInt64.le_iff_toNat_le, UInt64.toNat_one]
      omega
    have sum : (slackPages align - pagesInto allocAddr align + 1).toNat =
        (slackPages align).toNat - (pagesInto allocAddr align).toNat + 1 := by
      rw [UInt64.toNat_add, UInt64.toNat_sub_of_le _ _ order, UInt64.toNat_one]
      omega
    have exact := ceilTo_of_rest (show allocAddr.toNat % align.toNat ≠ 0 by omega)
    rw [if_neg whole', if_neg whole', sum, UInt64.toNat_sub_of_le _ _ one, UInt64.toNat_one, exact]
    omega

/-- The releases free the pages around the region, each with one call if there are any. -/
theorem releaseSlack_frees (aligned : PageAlign align k) (page : allocAddr.toNat % 4096 = 0)
    (run : Exec (releaseSlack allocAddr addr size align (toInt (slackPages align))) events
      (some ())) : ∃ head tail, events = head ++ tail ∧
        Frees head allocAddr (headPages allocAddr align) ∧
        Frees tail (addr + size) (tailPages allocAddr align) := by
  obtain ⟨-, -, small, bound⟩ := slack_toNat aligned page
  have smallInto : (pagesInto allocAddr align).toNat < 2 ^ 31 := by omega
  have one : (1 : Int32) = toInt 1 := rfl
  have start : (allocAddr &&& (align - 1)) / efiPageSize = pagesInto allocAddr align := rfl
  rw [releaseSlack, start] at run
  simp only [perform_bind, pure_eq_ret] at run
  unfold headPages tailPages
  by_cases whole : pagesInto allocAddr align = 0
  · have zero : ¬(toInt (pagesInto allocAddr align) != 0) = true := by
      rw [whole]
      decide
    rw [if_neg zero, if_neg zero, ofInt_toInt small] at run
    rw [if_pos whole, if_pos whole]
    refine ⟨[], events, rfl, .inl ⟨rfl, rfl⟩, ?_⟩
    simp only [exec_ite, exec_call, exec_ret, toInt_pos small, bne_iff_ne, ne_eq,
      toInt_eq_zero small] at run
    rcases run with ⟨some, ⟨nonzero, status, _, rfl, rfl, -⟩ | ⟨none, rfl, -⟩⟩ | ⟨none, rfl, -⟩
    · exact .inr ⟨nonzero, status, rfl⟩
    · exact .inl ⟨not_not.mp none, rfl⟩
    · exact .inl ⟨UInt64.toNat_inj.mp (by rw [UInt64.toNat_zero]; omega), rfl⟩
  · have nonzero : (pagesInto allocAddr align).toNat ≠ 0 := fun zero =>
      whole (UInt64.toNat_inj.mp zero)
    have order : pagesInto allocAddr align ≤ slackPages align := UInt64.le_iff_toNat_le.mpr bound
    have first : 1 ≤ pagesInto allocAddr align := by
      rw [UInt64.le_iff_toNat_le, UInt64.toNat_one]
      omega
    have less : (pagesInto allocAddr align - 1).toNat = (pagesInto allocAddr align).toNat - 1 := by
      rw [UInt64.toNat_sub_of_le _ _ first, UInt64.toNat_one]
    have more : (slackPages align - pagesInto allocAddr align + 1).toNat =
        (slackPages align).toNat - (pagesInto allocAddr align).toNat + 1 := by
      rw [UInt64.toNat_add, UInt64.toNat_sub_of_le _ _ order, UInt64.toNat_one]
      omega
    have present : (toInt (pagesInto allocAddr align) != 0) = true := by
      rw [bne_iff_ne, ne_eq, toInt_eq_zero smallInto]
      exact whole
    have positive : toInt (slackPages align) > 0 := (toInt_pos small).mpr (by omega)
    rw [if_pos positive, if_pos present, if_pos present, one, ← toInt_sub, ← toInt_sub,
      ← toInt_add, ofInt_toInt (by omega), ofInt_toInt (by omega)] at run
    rw [if_neg whole, if_neg whole]
    have some : slackPages align - pagesInto allocAddr align + 1 ≠ 0 := fun zero => by
      rw [zero, UInt64.toNat_zero] at more
      omega
    rw [exec_call] at run
    obtain ⟨status, tail, rfl, run⟩ := run
    refine ⟨[_], tail, rfl, .inr ⟨some, status, rfl⟩, ?_⟩
    have small' : (pagesInto allocAddr align - 1).toNat < 2 ^ 31 := by omega
    simp only [exec_ite, exec_call, exec_ret, bne_iff_ne, ne_eq, toInt_eq_zero small'] at run
    rcases run with ⟨nonzero, status, _, rfl, rfl, -⟩ | ⟨none, rfl, -⟩
    · exact .inr ⟨nonzero, status, rfl⟩
    · exact .inl ⟨not_not.mp none, rfl⟩

/-- The runs of `efi_allocate_pages_aligned` that return an address. -/
inductive AlignedRun (size align : UInt64) (memoryType : UInt32) (base : UInt64) : List Event → Prop
    where
  /-- Pages are given, and freed around the region. -/
  | mk {limit pages start : UInt64} {head tail : List Event}
      (page : start.toNat % 4096 = 0)
      (fits : start.toNat + pages.toNat * 4096 ≤ 2 ^ 64)
      (requested : pages.toNat * 4096 =
        (roundUp size efiAllocAlign).toNat + (slackPages (allocAlign align)).toNat * 4096)
      (placed : base = alignUp start (allocAlign align))
      (before : Frees head start (headPages start (allocAlign align)))
      (behind : Frees tail (base + roundUp size efiAllocAlign) (tailPages start (allocAlign align))) :
      AlignedRun size align memoryType base
        (⟨.allocatePages efiAllocateMaxAddress memoryType pages limit, ⟨efiSuccess, start⟩⟩ ::
          (head ++ tail))

/-- Every run that gives pages is one of the runs case by case. -/
theorem alignedRun_of_exec (aligned : PageAlign (allocAlign align) k) (gives : GivesPages events)
    (run : Exec (efiAllocatePagesAligned size max align memoryType) events (some (.ok base))) :
    AlignedRun size align memoryType base events := by
  have page : efiPageSize.toNat = 4096 := rfl
  have slack := (slack_toNat aligned (show (0 : UInt64).toNat % 4096 = 0 from rfl)).2.2.1
  have effective : (if align < efiAllocAlign then efiAllocAlign else align) = allocAlign align := rfl
  have word : allocAlign align / efiPageSize - 1 = slackPages (allocAlign align) := rfl
  rw [efiAllocatePagesAligned, effective, word] at run
  simp only [perform_bind] at run
  rw [ofInt_toInt slack, exec_call] at run
  obtain ⟨reply, rest, rfl, run⟩ := run
  rw [exec_ite] at run
  rcases run with ⟨-, run⟩ | ⟨granted, run⟩
  · obtain ⟨-, impossible⟩ := exec_ret.mp run
    cases impossible
  rw [bne_iff_ne, not_not] at granted
  obtain ⟨status, start⟩ := reply
  obtain rfl : status = efiSuccess := granted
  obtain ⟨paged, fits⟩ := gives _ _ _ _ _ List.mem_cons_self rfl
  obtain ⟨⟨⟩, freed, _, rfl, freeing, run⟩ := exec_bind_some.mp run
  obtain ⟨rfl, same⟩ := exec_ret.mp run
  obtain rfl := Except.ok.inj (Option.some.inj same)
  obtain ⟨head, tail, rfl, before, behind⟩ := releaseSlack_frees aligned paged freeing
  rw [List.append_nil]
  refine .mk paged fits ?_ rfl before behind
  have whole := roundUp_whole size
  have bound := (roundUp size efiAllocAlign).toNat_lt
  rw [UInt64.toNat_add, UInt64.toNat_div, page]
  omega

/-- An interval of pages is freed with one call, or it is empty. -/
def FreesBetween (events : List Event) (start stop : Nat) : Prop :=
  start = stop ∧ events = [] ∨ start < stop ∧ ∃ address pages status,
    events = [⟨.freePages address pages, status⟩] ∧ pages ≠ 0 ∧
      pageBytes address pages = bytesBetween start stop

/-- A conditional free of pages frees the interval that they make. -/
theorem Frees.between (frees : Frees events address n) (first : n ≠ 0 → address.toNat = start)
    (fits : start + n.toNat * 4096 ≤ 2 ^ 64) :
    FreesBetween events start (start + n.toNat * 4096) := by
  rcases frees with ⟨rfl, rfl⟩ | ⟨nonzero, status, rfl⟩
  · exact .inl ⟨by simp, rfl⟩
  · obtain rfl := first nonzero
    have positive : n.toNat ≠ 0 := fun zero => nonzero (UInt64.toNat_inj.mp zero)
    exact .inr ⟨by omega, address, n, status, rfl, nonzero, pageBytes_eq fits⟩

/-- A freed interval does not end before it starts. -/
theorem FreesBetween.order (frees : FreesBetween events start stop) : start ≤ stop := by
  rcases frees with ⟨rfl, -⟩ | ⟨less, -⟩
  · exact Nat.le_refl start
  · exact Nat.le_of_lt less

/-- What freeing an interval leaves. -/
theorem FreesBetween.held (frees : FreesBetween events start stop) :
    firmwareEffects.held live events = live \ bytesBetween start stop := by
  rcases frees with ⟨rfl, rfl⟩ | ⟨-, address, pages, status, rfl, -, range⟩
  · rw [bytesBetween_self, Set.sdiff_empty]
    rfl
  · rw [← range]
    exact Set.union_empty _

/-- Freeing an interval releases its bytes. -/
theorem FreesBetween.released (frees : FreesBetween events start stop) :
    ⋃ event ∈ events, firmwareEffects.released event = bytesBetween start stop := by
  rcases frees with ⟨rfl, rfl⟩ | ⟨-, address, pages, status, rfl, -, range⟩
  · simp
  · rw [← range]
    simp [firmwareEffects]

/-- The pages from `start` to `stop` are freed but for those from `low` to `high`. -/
structure Trims (events : List Event) (start low high stop : Nat) : Prop where
  /-- The region is an interval. -/
  order : low ≤ high
  /-- At most one call frees what is before it, and at most one what is behind it. -/
  parts : ∃ head tail, events = head ++ tail ∧ FreesBetween head start low ∧
    FreesBetween tail high stop

variable {low high : Nat}

/-- What is held after pages are given and trimmed. -/
theorem Trims.held (trims : Trims events start low high stop) :
    firmwareEffects.held (live ∪ bytesBetween start stop) events =
      (live \ bytesBetween start stop) ∪ bytesBetween low high := by
  obtain ⟨head, tail, rfl, before, behind⟩ := trims.parts
  have order := trims.order
  have below := before.order
  have above := behind.order
  rw [Effects.held_append, before.held, behind.held]
  ext resource
  cases resource with
  | block => simp
  | byte x =>
    simp only [Set.mem_sdiff, Set.mem_union, byte_mem_bytesBetween]
    by_cases member : Resource.byte x ∈ live
    · simp only [member, true_or, true_and]
      omega
    · simp only [member, false_or, false_and]
      omega

/-- The run frees around an aligned region of the rounded size. -/
theorem AlignedRun.trims (aligned : PageAlign (allocAlign align) k)
    (run : AlignedRun size align memoryType base events) :
    ∃ limit pages address frees low,
      events = ⟨.allocatePages efiAllocateMaxAddress memoryType pages limit,
        ⟨efiSuccess, address⟩⟩ :: frees ∧
      pageBytes address pages = bytesBetween address.toNat (address.toNat + pages.toNat * 4096) ∧
      address.toNat + pages.toNat * 4096 ≤ 2 ^ 64 ∧
      base.toNat = low % 2 ^ 64 ∧ low % (allocAlign align).toNat = 0 ∧
      Trims frees address.toNat low (low + (roundUp size efiAllocAlign).toNat)
        (address.toNat + pages.toNat * 4096) := by
  obtain @⟨limit, pages, address, head, tail, page, fits, requested, rfl, before, behind⟩ := run
  obtain ⟨above, slack, -, -⟩ := slack_toNat aligned page
  obtain ⟨-, -, multiple⟩ := ceilTo_spec (n := address.toNat) aligned.pow.pos
  have placed := alignUp_toNat (x := address) aligned.pow
  generalize roundUp size efiAllocAlign = rounded at *
  generalize headPages address (allocAlign align) = headCount at *
  generalize tailPages address (allocAlign align) = tailCount at *
  generalize slackPages (allocAlign align) = slackCount at *
  generalize alignUp address (allocAlign align) = region at *
  generalize ceilTo address.toNat (allocAlign align).toNat = low at *
  have fewer : headCount.toNat ≤ pages.toNat := by omega
  have room := Nat.le_trans (Nat.add_le_add_left (Nat.mul_le_mul_right 4096 fewer) address.toNat) fits
  have last : low + rounded.toNat + tailCount.toNat * 4096 = address.toNat + pages.toNat * 4096 := by
    rw [requested, ← slack, above]
    ring
  refine ⟨limit, pages, address, head ++ tail, _, rfl, pageBytes_eq fits, fits, placed, multiple, ?_⟩
  have first := before.between (fun _ => rfl) room
  rw [← above] at first
  have here : tailCount ≠ 0 → (region + rounded).toNat = low + rounded.toNat := by
    intro nonzero
    have positive : tailCount.toNat ≠ 0 := fun zero => nonzero (UInt64.toNat_inj.mp zero)
    rw [UInt64.toNat_add, placed, Nat.mod_add_mod]
    apply Nat.mod_eq_of_lt
    omega
  have second := behind.between here (last ▸ fits)
  rw [last] at second
  exact ⟨Nat.le_add_right .., head, tail, rfl, first, second⟩

/-- A rounded size that does not wrap. -/
theorem roundUp_page (bounded : size.toNat ≤ 2 ^ 64 - 4096) :
    (roundUp size efiAllocAlign).toNat = ceilTo size.toNat 4096 := by
  have page : efiAllocAlign.toNat = 4096 := rfl
  have rounded := roundUp_toNat (x := size) efiAllocAlign_pow
  have least : ceilTo size.toNat 4096 ≤ 2 ^ 64 - 4096 := ceilTo_le (by decide) bounded (by decide)
  rw [page] at rounded
  omega

/-- The trims are at most two calls, each of pages inside, disjoint, and release what is not kept.
-/
theorem Trims.frees (trims : Trims events start low high stop) : events.length ≤ 2 ∧
    (∀ event ∈ events, ∃ address pages status, event = ⟨.freePages address pages, status⟩ ∧
      pages ≠ 0 ∧ pageBytes address pages ⊆ bytesBetween start stop) ∧
    events.Pairwise (fun first second =>
      Disjoint (firmwareEffects.released first) (firmwareEffects.released second)) ∧
    ⋃ event ∈ events, firmwareEffects.released event =
      bytesBetween start stop \ bytesBetween low high := by
  obtain ⟨head, tail, rfl, before, behind⟩ := trims.parts
  have order := trims.order
  have below := before.order
  have above := behind.order
  have headInside : bytesBetween start low ⊆ bytesBetween start stop :=
    bytesBetween_union below (order.trans above) ▸ Set.subset_union_left
  have tailInside : bytesBetween high stop ⊆ bytesBetween start stop :=
    bytesBetween_union (below.trans order) above ▸ Set.subset_union_right
  have union : ⋃ event ∈ head ++ tail, firmwareEffects.released event =
      bytesBetween start low ∪ bytesBetween high stop := by
    rw [← before.released, ← behind.released]
    ext resource
    simp [or_and_right, exists_or]
  have rest : bytesBetween start low ∪ bytesBetween high stop =
      bytesBetween start stop \ bytesBetween low high := by
    ext resource
    cases resource with
    | block => simp
    | byte x =>
      simp only [Set.mem_sdiff, Set.mem_union, byte_mem_bytesBetween]
      omega
  refine ⟨?_, ?_, ?_, union.trans rest⟩
  · obtain ⟨-, rfl⟩ | ⟨-, _, _, _, rfl, -⟩ := before <;>
      rcases behind with ⟨-, rfl⟩ | ⟨-, _, _, _, rfl, -⟩ <;> simp
  · intro event member
    rcases List.mem_append.mp member with member | member
    · rcases before with ⟨-, rfl⟩ | ⟨-, address, pages, status, rfl, nonzero, range⟩
      · simp at member
      · exact ⟨address, pages, status, List.mem_singleton.mp member, nonzero, range ▸ headInside⟩
    · rcases behind with ⟨-, rfl⟩ | ⟨-, address, pages, status, rfl, nonzero, range⟩
      · simp at member
      · exact ⟨address, pages, status, List.mem_singleton.mp member, nonzero, range ▸ tailInside⟩
  · have apart : Disjoint (bytesBetween start low) (bytesBetween high stop) :=
      bytesBetween_disjoint order
    obtain ⟨-, rfl⟩ | ⟨-, _, _, _, rfl, -, first⟩ := before <;>
      rcases behind with ⟨-, rfl⟩ | ⟨-, _, _, _, rfl, -, second⟩ <;> simp
    rw [← first, ← second] at apart
    exact apart

/-- Pages that are given and trimmed are held beside what was held before. -/
theorem Trims.kept (trims : Trims events start low high stop) (memoryType : UInt32)
    {pages : UInt64} (limit : UInt64) (range : pageBytes address pages = bytesBetween start stop)
    (fresh : Disjoint live (bytesBetween start stop)) :
    firmwareEffects.held live (⟨.allocatePages efiAllocateMaxAddress memoryType pages limit,
      ⟨efiSuccess, address⟩⟩ :: events) = live ∪ bytesBetween low high := by
  have given : firmwareEffects.after live ⟨.allocatePages efiAllocateMaxAddress memoryType pages
      limit, ⟨efiSuccess, address⟩⟩ = live ∪ pageBytes address pages := by
    simp [Effects.after, firmwareEffects]
  rw [Effects.held, List.foldl_cons, given, range, ← Effects.held, trims.held, fresh.sdiff_eq_left]

/-- The pages that are kept were given. -/
theorem Trims.inside (trims : Trims events start low high stop) :
    start ≤ low ∧ high ≤ stop ∧ bytesBetween low high ⊆ bytesBetween start stop := by
  obtain ⟨_, _, -, before, behind⟩ := trims.parts
  have below := before.order
  have above := behind.order
  refine ⟨below, above, ?_⟩
  rw [← bytesBetween_union below (trims.order.trans above), ← bytesBetween_union trims.order above]
  exact Set.subset_union_left.trans Set.subset_union_right

/-- The pages of a rounded size. -/
theorem pageBytes_rounded (bounded : size.toNat ≤ 2 ^ 64 - 4096)
    (fits : base.toNat + ceilTo size.toNat 4096 ≤ 2 ^ 64) :
    pageBytes base (roundUp size efiAllocAlign / efiPageSize) =
      bytesBetween base.toNat (base.toNat + ceilTo size.toNat 4096) := by
  have page : efiPageSize.toNat = 4096 := rfl
  have whole := (ceilTo_page size.toNat).2.2
  have exact : (roundUp size efiAllocAlign / efiPageSize).toNat * 4096 = ceilTo size.toNat 4096 := by
    rw [UInt64.toNat_div, page, roundUp_page bounded]
    omega
  rw [pageBytes_eq (by omega), exact]

/-- `efi_free` of a size releases the pages of the rounded size, and what was held beside them is
held still. -/
theorem efiFree_releases (positive : 1 ≤ size.toNat) (bounded : size.toNat ≤ 2 ^ 64 - 4096)
    (fits : base.toNat + ceilTo size.toNat 4096 ≤ 2 ^ 64) {outcome : Option Unit}
    (run : Exec (efiFree size base) events outcome) :
    ⋃ event ∈ events, firmwareEffects.released event =
      bytesBetween base.toNat (base.toNat + ceilTo size.toNat 4096) ∧
    (Disjoint live (bytesBetween base.toNat (base.toNat + ceilTo size.toNat 4096)) →
      firmwareEffects.held (live ∪ bytesBetween base.toNat (base.toNat + ceilTo size.toNat 4096))
        events = live) := by
  have nonzero : size ≠ 0 := by
    rintro rfl
    simp at positive
  obtain ⟨status, rfl, -⟩ := efiFree_of_exec run
  unfold freeEvents
  rw [if_neg nonzero]
  have released : firmwareEffects.released ⟨.freePages base
      (roundUp size efiAllocAlign / efiPageSize), status⟩ =
        bytesBetween base.toNat (base.toNat + ceilTo size.toNat 4096) :=
    pageBytes_rounded bounded fits
  refine ⟨by simp [released], fun apart => ?_⟩
  change (_ \ firmwareEffects.released _) ∪ ∅ = live
  rw [released, Set.union_sdiff_right, apart.sdiff_eq_left, Set.union_empty]

/-- On a firmware that gives pages, `efi_allocate_pages_aligned` returns a multiple of its alignment
and keeps exactly the pages of the rounded size from there: it frees the rest of what it was given
with at most two calls, and a free of the size gives back what is kept. -/
theorem efi_allocate_pages_aligned_exact (positive : 1 ≤ size.toNat)
    (bounded : size.toNat ≤ 2 ^ 64 - 4096) (pow : IsPow align k)
    (small : align.toNat / 4096 ≤ 2 ^ 31) (gives : GivesPages events)
    (run : Exec (efiAllocatePagesAligned size max align memoryType) events (some (.ok base))) :
    base.toNat % Max.max align.toNat 4096 = 0 ∧
    ∃ limit pages address frees,
      events = ⟨.allocatePages efiAllocateMaxAddress memoryType pages limit,
        ⟨efiSuccess, address⟩⟩ :: frees ∧
      address.toNat ≤ base.toNat ∧
      base.toNat + ceilTo size.toNat 4096 ≤ address.toNat + pages.toNat * 4096 ∧
      frees.length ≤ 2 ∧
      (∀ event ∈ frees, ∃ first count status, event = ⟨.freePages first count, status⟩ ∧
        count ≠ 0 ∧ pageBytes first count ⊆ pageBytes address pages) ∧
      frees.Pairwise (fun first second =>
        Disjoint (firmwareEffects.released first) (firmwareEffects.released second)) ∧
      ⋃ event ∈ frees, firmwareEffects.released event =
        pageBytes address pages \
          bytesBetween base.toNat (base.toNat + ceilTo size.toNat 4096) ∧
      ∀ live, Disjoint live (pageBytes address pages) →
        firmwareEffects.held live events =
          live ∪ bytesBetween base.toNat (base.toNat + ceilTo size.toNat 4096) ∧
        ∀ free outcome, Exec (efiFree size base) free outcome →
          ⋃ event ∈ free, firmwareEffects.released event =
            bytesBetween base.toNat (base.toNat + ceilTo size.toNat 4096) ∧
          firmwareEffects.held live (events ++ free) = live := by
  obtain ⟨power, aligned⟩ := allocAlign_pages pow small
  obtain ⟨limit, pages, address, frees, low, rfl, range, fits, placed, multiple, trims⟩ :=
    (alignedRun_of_exec aligned gives run).trims aligned
  rw [roundUp_page bounded] at trims
  have above := (ceilTo_page size.toNat).1
  obtain ⟨start, stop, -⟩ := trims.inside
  obtain rfl : base.toNat = low := by omega
  rw [allocAlign_toNat] at multiple
  obtain ⟨short, each, apart, union⟩ := trims.frees
  refine ⟨multiple, limit, pages, address, frees, rfl, start, stop, short, range ▸ each, apart,
    range ▸ union, fun live fresh => ?_⟩
  rw [range] at fresh
  have kept := trims.kept memoryType limit range fresh
  refine ⟨kept, fun free outcome freeing => ?_⟩
  obtain ⟨released, back⟩ := efiFree_releases positive bounded (stop.trans fits) freeing
  refine ⟨released, ?_⟩
  rw [Effects.held_append, kept]
  exact back (fresh.mono_right trims.inside.2.2)

/-- Two pages with the alignment of the kernel. -/
def plainAligned : Stub (Except EfiStatus UInt64) :=
  efiAllocatePagesAligned 8192 0xFFFFFFFFFFFFFFFF sz2M efiLoaderData

/-- A firmware that gives pages three pages above a multiple of the alignment. -/
def pagesFirmware (_ : List Event) : (call : Call) → Option call.Reply
  | .allocatePages .. => some ⟨efiSuccess, 0x40003000⟩
  | .freePages .. => some efiSuccess
  | _ => none

/-- The trace of that run. -/
theorem plainAligned_events : plainAligned.eventsWith pagesFirmware =
    [⟨.allocatePages efiAllocateMaxAddress efiLoaderData 513 0xFFFFFFFFFFFFFFFF,
        ⟨efiSuccess, 0x40003000⟩⟩,
      ⟨.freePages 0x40003000 509, efiSuccess⟩, ⟨.freePages 0x40202000 2, efiSuccess⟩] := by
  rfl

/-- Two pages at an alignment of two megabytes are what is held. -/
theorem efi_allocate_pages_aligned_exact_plain :
    firmwareEffects.held ∅ (plainAligned.eventsWith pagesFirmware) =
      bytesBetween 0x40200000 0x40202000 := by
  have gives : GivesPages (plainAligned.eventsWith pagesFirmware) := by
    intro request memoryType pages address reply member granted
    rw [plainAligned_events] at member
    simp only [List.mem_cons, Event.mk.injEq, Call.allocatePages.injEq, reduceCtorEq, false_and,
      List.not_mem_nil, or_false] at member
    obtain ⟨⟨rfl, rfl, rfl, rfl⟩, same⟩ := member
    obtain rfl := eq_of_heq same
    decide
  have run : Exec plainAligned (plainAligned.eventsWith pagesFirmware) (some (.ok 0x40200000)) :=
    exec_eventsWith (by decide +kernel)
  obtain ⟨-, _, _, _, _, -, -, -, -, -, -, -, held⟩ := efi_allocate_pages_aligned_exact
    (show 1 ≤ (8192 : UInt64).toNat by decide) (by decide) sz2M_pow (by decide) gives run
  rw [(held ∅ (Set.empty_disjoint _)).1, Set.empty_union]
  rfl

end DragonStub

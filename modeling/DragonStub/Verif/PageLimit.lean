import DragonStub.Verif.AlignedPages
import DragonStub.Verif.ElfRuns

/-!
# The limit of an allocation

The allocators hand the firmware the last byte below `max + 1` rounded down to the alignment. When
`max + 1` is less than the alignment, that is the last byte of the address space.
-/

namespace DragonStub

open ByteMemory Interaction Layout Prog Trace Word

variable {events first : List Event} {base size align max unit n : UInt64} {memoryType : UInt32}
  {k : Nat}

/-- The address that is handed to the firmware. -/
def pageLimit (max unit : UInt64) : UInt64 := alignDown (max + 1) unit - 1

/-- A distance of less than one unit to the end of the address space rounds up to the end. -/
theorem alignUp_top (pow : IsPow unit k) {x : UInt64} (near : 2 ^ 64 < x.toNat + unit.toNat) :
    alignUp x unit = 0 := by
  have bound := x.toNat_lt
  rw [← UInt64.toNat_inj, alignUp_toNat pow, ceilTo_wrap pow (by omega), UInt64.toNat_zero,
    Nat.mod_self]

/-- A limit with room for a unit below it is at most the maximum. -/
theorem pageLimit_le (pow : IsPow unit k) (room : unit.toNat ≤ max.toNat + 1) :
    (pageLimit max unit).toNat ≤ max.toNat := by
  have positive := pow.pos
  have bound := max.toNat_lt
  by_cases last : max.toNat + 1 = 2 ^ 64
  · have limit := (pageLimit max unit).toNat_lt
    omega
  have next : (max + 1).toNat = max.toNat + 1 := by
    rw [UInt64.toNat_add, UInt64.toNat_one, Nat.mod_eq_of_lt (by omega)]
  have mask : (unit - 1).toNat = unit.toNat - 1 := by rw [pow.mask, pow.2]
  have moved : (max + 1 - (unit - 1)).toNat = max.toNat + 1 - (unit.toNat - 1) := by
    rw [UInt64.toNat_sub_of_le _ _ (UInt64.le_iff_toNat_le.mpr (by omega)), next, mask]
  have floor : ceilTo (max.toNat + 1 - (unit.toNat - 1)) unit.toNat =
      max.toNat + 1 - (max.toNat + 1) % unit.toNat := by
    have back : max.toNat + 1 - (unit.toNat - 1) + (unit.toNat - 1) = max.toNat + 1 := by omega
    rw [ceilTo, back]
  have remainder := Nat.mod_lt (max.toNat + 1) positive
  have divided := Nat.mod_le (max.toNat + 1) unit.toNat
  have whole : 0 < max.toNat + 1 - (max.toNat + 1) % unit.toNat := by
    have quotient := Nat.div_add_mod (max.toNat + 1) unit.toNat
    have units := Nat.div_pos room positive
    have product := Nat.mul_le_mul_left unit.toNat units
    omega
  have down : (alignDown (max + 1) unit).toNat = max.toNat + 1 - (max.toNat + 1) % unit.toNat := by
    rw [alignDown, alignUp_toNat pow, moved, floor, Nat.mod_eq_of_lt (by omega)]
  have one : 1 ≤ alignDown (max + 1) unit := by
    rw [UInt64.le_iff_toNat_le, down, UInt64.toNat_one]
    omega
  rw [pageLimit, UInt64.toNat_sub_of_le _ _ one, down, UInt64.toNat_one]
  omega

/-- Without that room the limit is the last byte of the address space. -/
theorem pageLimit_wraps (pow : IsPow unit k) (tight : max.toNat + 1 < unit.toNat) :
    (pageLimit max unit).toNat = 2 ^ 64 - 1 := by
  have small := unit.toNat_lt
  have next : (max + 1).toNat = max.toNat + 1 := by
    rw [UInt64.toNat_add, UInt64.toNat_one, Nat.mod_eq_of_lt (by omega)]
  have mask : (unit - 1).toNat = unit.toNat - 1 := by rw [pow.mask, pow.2]
  have zero : alignDown (max + 1) unit = 0 := by
    by_cases least : max.toNat + 2 = unit.toNat
    · have start : max + 1 - (unit - 1) = 0 := by
        rw [← UInt64.toNat_inj, UInt64.toNat_sub_of_le _ _ (UInt64.le_iff_toNat_le.mpr (by omega)),
          next, mask, UInt64.toNat_zero]
        omega
      rw [alignDown, start, ← UInt64.toNat_inj, alignUp_toNat pow, UInt64.toNat_zero,
        ceilTo_of_multiple pow.pos (Nat.zero_mod _), Nat.zero_mod]
    · apply alignUp_top pow
      rw [UInt64.toNat_sub, next, mask]
      omega
  rw [pageLimit, zero]
  rfl

/-- The firmware answers a request below an address with pages that end at or below it. -/
def EndsBelow (events : List Event) : Prop :=
  ∀ memoryType pages limit reply,
    (⟨.allocatePages efiAllocateMaxAddress memoryType pages limit, reply⟩ : Event) ∈ events →
      reply.status = efiSuccess → reply.value.toNat + pages.toNat * 4096 ≤ limit.toNat + 1

/-- No byte that is held at the end of a run is above an address. -/
def KeepsBelow (max : UInt64) (events : List Event) : Prop :=
  ∀ x, Resource.byte x ∈ firmwareEffects.held ∅ events → x.toNat ≤ max.toNat

/-- No limit is above that of the allocator. -/
theorem min_allocLimit : min max efiAllocLimit = max := by
  have bound := max.toNat_lt
  have limit : efiAllocLimit.toNat = 2 ^ 64 - 1 := rfl
  have within : max ≤ efiAllocLimit := by
    rw [UInt64.le_iff_toNat_le, limit]
    omega
  exact if_pos within

/-- A request for pages, and its answer. -/
def grantedPages (memoryType : UInt32) (pages limit address : UInt64) : Event :=
  ⟨.allocatePages efiAllocateMaxAddress memoryType pages limit, ⟨efiSuccess, address⟩⟩

variable {pages limit address : UInt64}

/-- Granted pages are what is held. -/
theorem held_grantedPages (memoryType : UInt32) (pages limit address : UInt64) :
    firmwareEffects.held ∅ [grantedPages memoryType pages limit address] =
      pageBytes address pages := by
  simp [Effects.held, Effects.after, firmwareEffects, grantedPages]

/-- Pages below a limit up to the maximum are kept below the maximum. -/
theorem keepsBelow_of_limit {rest : List Event} (frees : Lacks Call.isAllocation rest)
    (gives : GivesPages (grantedPages memoryType pages limit address :: rest))
    (ends : EndsBelow (grantedPages memoryType pages limit address :: rest))
    (below : limit.toNat ≤ max.toNat) :
    KeepsBelow max (grantedPages memoryType pages limit address :: rest) := by
  intro x held
  have given : Resource.byte x ∈ pageBytes address pages := by
    rw [← held_grantedPages memoryType pages limit]
    exact Effects.held_subset (fun event member => acquired_eq_empty (frees event member)) held
  have fits := (gives _ _ _ _ _ List.mem_cons_self rfl).2
  have last := ends _ _ _ _ List.mem_cons_self rfl
  rw [pageBytes_eq fits, byte_mem_bytesBetween] at given
  omega

/-- The highest pages of the address space. -/
def topPages (pages : UInt64) : UInt64 := UInt64.ofNat (2 ^ 64 - pages.toNat * 4096)

/-- The topmost pages end at the end of the address space. -/
theorem topPages_toNat (some : pages ≠ 0) :
    (topPages pages).toNat = 2 ^ 64 - pages.toNat * 4096 := by
  have positive : pages.toNat ≠ 0 := fun zero => some (UInt64.toNat_inj.mp zero)
  rw [topPages, UInt64.toNat_ofNat', Nat.mod_eq_of_lt (by omega)]

/-- The last byte of the address space lies in the topmost pages. -/
theorem topPages_last (some : pages ≠ 0) (fits : pages.toNat * 4096 ≤ 2 ^ 64) :
    Resource.byte efiAllocLimit ∈ pageBytes (topPages pages) pages := by
  have top := topPages_toNat some
  have last : efiAllocLimit.toNat = 2 ^ 64 - 1 := rfl
  have positive : pages.toNat ≠ 0 := fun zero => some (UInt64.toNat_inj.mp zero)
  rw [pageBytes_eq (by omega), byte_mem_bytesBetween]
  omega

/-- A firmware may answer with the highest pages when the limit is the last byte. -/
theorem topPages_given {rest : List Event} (memoryType : UInt32) (frees : Lacks Call.isAllocation rest)
    (some : pages ≠ 0) (fits : pages.toNat * 4096 ≤ 2 ^ 64) (last : limit.toNat = 2 ^ 64 - 1) :
    GivesPages (grantedPages memoryType pages limit (topPages pages) :: rest) ∧
      EndsBelow (grantedPages memoryType pages limit (topPages pages) :: rest) := by
  have top := topPages_toNat some
  have only {request memoryType' : UInt32} {pages' limit' : UInt64} {reply : WordReply}
      (member : (⟨.allocatePages request memoryType' pages' limit', reply⟩ : Event) ∈
        grantedPages memoryType pages limit (topPages pages) :: rest) :
      pages' = pages ∧ limit' = limit ∧ reply = ⟨efiSuccess, topPages pages⟩ := by
    rcases List.mem_cons.mp member with same | member
    · cases same
      exact ⟨rfl, rfl, rfl⟩
    · cases frees _ member
  constructor
  · intro request memoryType' pages' limit' reply member _
    obtain ⟨rfl, rfl, rfl⟩ := only member
    change (topPages pages').toNat % 4096 = 0 ∧ (topPages pages').toNat + _ ≤ _
    omega
  · intro memoryType' pages' limit' reply member _
    obtain ⟨rfl, rfl, rfl⟩ := only member
    change (topPages pages').toNat + _ ≤ _
    omega

/-- `efi_allocate_pages` gives what the firmware grants below the limit. -/
theorem exec_allocatePages_iff : Exec (efiAllocatePages size max) events (some (.ok base)) ↔
    events = [grantedPages efiLoaderData (divRoundUp size efiPageSize) (pageLimit max efiAllocAlign)
      base] := by
  unfold efiAllocatePages
  rw [min_allocLimit]
  simp only [perform_bind, exec_call, exec_ite, pure_eq_ret, exec_ret, bne_iff_ne, not_not]
  constructor
  · rintro ⟨⟨status, address⟩, rest, rfl, ⟨-, -, failed⟩ | ⟨success, rfl, same⟩⟩
    · cases failed
    · cases same
      cases success
      rfl
  · rintro rfl
    exact ⟨⟨efiSuccess, base⟩, [], rfl, .inr ⟨rfl, rfl, rfl⟩⟩

/-- Pages are a part of the address space. -/
theorem divRoundUp_fits (size : UInt64) : (divRoundUp size efiPageSize).toNat * 4096 ≤ 2 ^ 64 := by
  have page : efiPageSize.toNat = 4096 := rfl
  have bound := (size + efiPageSize - 1).toNat_lt
  rw [divRoundUp, UInt64.toNat_div, page]
  omega

/-- What `efi_allocate_pages` keeps is below the maximum for every firmware exactly when there is
room for a page below the maximum, or no page is asked for. -/
theorem efiAllocatePages_below_iff :
    (∀ events base, GivesPages events → EndsBelow events →
      Exec (efiAllocatePages size max) events (some (.ok base)) → KeepsBelow max events) ↔
        4096 ≤ max.toNat + 1 ∨ divRoundUp size efiPageSize = 0 := by
  have page : efiAllocAlign.toNat = 4096 := rfl
  simp only [exec_allocatePages_iff]
  constructor
  · intro below
    by_contra neither
    rw [not_or, Nat.not_le] at neither
    have wraps := pageLimit_wraps efiAllocAlign_pow (page ▸ neither.1)
    have fits := divRoundUp_fits size
    obtain ⟨gives, ends⟩ := topPages_given efiLoaderData lacks_nil neither.2 fits wraps
    have kept := below _ _ gives ends rfl efiAllocLimit
      (held_grantedPages .. ▸ topPages_last neither.2 fits)
    have last : efiAllocLimit.toNat = 2 ^ 64 - 1 := rfl
    omega
  · rintro (room | none) events base gives ends rfl
    · exact keepsBelow_of_limit lacks_nil gives ends
        (pageLimit_le efiAllocAlign_pow (page.trans_le room))
    · intro x held
      rw [held_grantedPages, none] at held
      simp [pageBytes] at held

/-- The pages `efi_allocate_pages_aligned` asks for. -/
def requestPages (size align : UInt64) : UInt64 :=
  roundUp size efiAllocAlign / efiPageSize + ofInt (toInt (slackPages (allocAlign align)))

/-- The pages it keeps: those of the rounded size, or all when it takes them for slack-free. -/
def keptPages (size align : UInt64) : UInt64 :=
  if toInt (slackPages (allocAlign align)) > 0 then roundUp size efiAllocAlign / efiPageSize
  else requestPages size align

/-- `efi_allocate_pages_aligned` gives the aligned pages of what the firmware grants, and frees the
rest. -/
theorem exec_allocatePagesAligned_iff :
    Exec (efiAllocatePagesAligned size max align memoryType) events (some (.ok base)) ↔
      ∃ address rest, events = grantedPages memoryType (requestPages size align)
          (pageLimit max (allocAlign align)) address :: rest ∧
        base = alignUp address (allocAlign align) ∧
        Exec (releaseSlack address base (roundUp size efiAllocAlign) (allocAlign align)
          (toInt (slackPages (allocAlign align)))) rest (some ()) := by
  have effective : (if align < efiAllocAlign then efiAllocAlign else align) = allocAlign align := rfl
  unfold efiAllocatePagesAligned
  rw [min_allocLimit, effective]
  simp only [perform_bind, exec_call, exec_ite, bne_iff_ne, not_not]
  constructor
  · rintro ⟨⟨status, address⟩, rest, rfl, ⟨-, failed⟩ | ⟨success, run⟩⟩
    · obtain ⟨-, same⟩ := exec_ret.mp failed
      cases same
    · cases success
      obtain ⟨⟨⟩, freed, last, rfl, freeing, returns⟩ := exec_bind_some.mp run
      obtain ⟨rfl, same⟩ := exec_ret.mp returns
      cases same
      exact ⟨address, freed, by rw [List.append_nil]; rfl, rfl, freeing⟩
  · rintro ⟨address, rest, rfl, rfl, freeing⟩
    refine ⟨⟨efiSuccess, address⟩, rest, rfl, .inr ⟨rfl, exec_bind_some.mpr ?_⟩⟩
    exact ⟨(), rest, [], (List.append_nil _).symm, freeing, exec_ret.mpr ⟨rfl, rfl⟩⟩

/-- The releases allocate nothing, and can be run. -/
theorem releaseSlack_noAllocation {allocAddr addr : UInt64} {slack : Int32} {outcome : Option Unit}
    (run : Exec (releaseSlack allocAddr addr size align slack) events outcome) :
    Lacks Call.isAllocation events := by
  have calls : Calls (fun call => call.isAllocation = false)
      (releaseSlack allocAddr addr size align slack) := releaseSlack_calls _ _ _ _ _ fun _ _ => rfl
  exact calls.events run

/-- Releasing the slack comes through. -/
theorem releaseSlack_runs (allocAddr addr size align : UInt64) (slack : Int32) :
    ∃ rest, Exec (releaseSlack allocAddr addr size align slack) rest (some ()) := by
  have calls : Calls (fun call => call.isPages = true)
      (releaseSlack allocAddr addr size align slack) := releaseSlack_calls _ _ _ _ _ fun _ _ => rfl
  obtain ⟨rest, ⟨⟩, run⟩ := calls.runs Call.answered_of_isPages
  exact ⟨rest, run⟩

/-- The pages of an alignment the allocator works with. -/
theorem pages_aligned (size : UInt64) (aligned : PageAlign (allocAlign align) k) :
    (keptPages size align).toNat * 4096 = (roundUp size efiAllocAlign).toNat ∧
      (requestPages size align).toNat * 4096 =
        (roundUp size efiAllocAlign).toNat + ((allocAlign align).toNat - 4096) := by
  have page : efiPageSize.toNat = 4096 := rfl
  have small := (slack_toNat aligned (show (0 : UInt64).toNat % 4096 = 0 from rfl)).2.2.1
  have slack := slackPages_toNat aligned
  obtain ⟨units, positive, -, whole⟩ := aligned.units
  have paged := roundUp_whole size
  have bound := (roundUp size efiAllocAlign).toNat_lt
  have request : (requestPages size align).toNat =
      (roundUp size efiAllocAlign).toNat / 4096 + (slackPages (allocAlign align)).toNat := by
    rw [requestPages, ofInt_toInt small, UInt64.toNat_add, UInt64.toNat_div, page]
    omega
  refine ⟨?_, by omega⟩
  unfold keptPages
  by_cases more : toInt (slackPages (allocAlign align)) > 0
  · rw [if_pos more, UInt64.toNat_div, page]
    omega
  · rw [toInt_pos small] at more
    rw [if_neg (by rwa [toInt_pos small]), request]
    omega

/-- With more pages than an `int` holds, the slack is negative. -/
theorem slack_negative (pow : IsPow align k) (large : 44 ≤ k) :
    ¬toInt (slackPages align) > 0 := by
  have exponent : k = 12 + (32 + (k - 44)) := by omega
  have positive := Nat.two_pow_pos (k - 44)
  have page : efiPageSize.toNat = 4096 := rfl
  have whole : align.toNat = 4096 * (2 ^ 32 * 2 ^ (k - 44)) := by
    rw [pow.2]
    conv_lhs => rw [exponent, Nat.pow_add, Nat.pow_add]
  have quotient : (align / efiPageSize).toNat = 2 ^ 32 * 2 ^ (k - 44) := by
    rw [UInt64.toNat_div, page, whole, Nat.mul_div_cancel_left _ (by decide)]
  have one : 1 ≤ align / efiPageSize := by
    rw [UInt64.le_iff_toNat_le, quotient, UInt64.toNat_one]
    omega
  have low : (slackPages align).toUInt32 = 0xFFFFFFFF := by
    have slack : (slackPages align).toNat = 2 ^ 32 * 2 ^ (k - 44) - 1 := by
      rw [slackPages, UInt64.toNat_sub_of_le _ _ one, quotient, UInt64.toNat_one]
    rw [← UInt32.toNat_inj, UInt64.toNat_toUInt32, slack]
    change _ = 2 ^ 32 - 1
    omega
  rw [toInt, low]
  decide

/-- Every power of two is one of these. -/
theorem allocAlign_cases (pow : IsPow align k) : (∃ power, PageAlign (allocAlign align) power) ∨
    44 ≤ k ∧ allocAlign align = align := by
  by_cases small : align.toNat / 4096 ≤ 2 ^ 31
  · exact .inl (allocAlign_pages pow small)
  · right
    have page : efiAllocAlign.toNat = 4096 := rfl
    constructor
    · by_contra short
      have bound := Nat.pow_le_pow_right (show 0 < 2 by decide) (show k ≤ 43 by omega)
      rw [pow.2] at small
      omega
    · rw [allocAlign, if_neg]
      rw [UInt64.lt_iff_toNat_lt, page]
      omega

/-- The pages that are asked for beyond those that are kept are fewer than the alignment has. -/
theorem requestPages_bounds (size : UInt64) (pow : IsPow align k) :
    (keptPages size align).toNat ≤ (requestPages size align).toNat ∧
      (requestPages size align).toNat * 4096 <
        (keptPages size align).toNat * 4096 + (allocAlign align).toNat := by
  have page : (allocAlign align).toNat = Max.max align.toNat 4096 := allocAlign_toNat
  rcases allocAlign_cases pow with ⟨power, aligned⟩ | ⟨large, same⟩
  · obtain ⟨kept, request⟩ := pages_aligned size aligned
    omega
  · rw [keptPages, same, if_neg (slack_negative pow large)]
    have positive := pow.pos
    omega

/-- What a run keeps is an interval of the pages it is given. -/
theorem held_of_run (pow : IsPow align k) (gives : GivesPages events)
    (run : Exec (efiAllocatePagesAligned size max align memoryType) events (some (.ok base))) :
    ∃ address rest low, events = grantedPages memoryType (requestPages size align)
        (pageLimit max (allocAlign align)) address :: rest ∧ Lacks Call.isAllocation rest ∧
      address.toNat ≤ low ∧
      low + (keptPages size align).toNat * 4096 ≤
        address.toNat + (requestPages size align).toNat * 4096 ∧
      firmwareEffects.held ∅ events =
        bytesBetween low (low + (keptPages size align).toNat * 4096) := by
  obtain ⟨address, rest, rfl, placed, freeing⟩ := exec_allocatePagesAligned_iff.mp run
  have frees := releaseSlack_noAllocation freeing
  have fits := (gives _ _ _ _ _ List.mem_cons_self rfl).2
  have taken : firmwareEffects.after ∅ (grantedPages memoryType (requestPages size align)
      (pageLimit max (allocAlign align)) address) = ∅ ∪ bytesBetween address.toNat
        (address.toNat + (requestPages size align).toNat * 4096) := by
    rw [← pageBytes_eq fits]
    simp [Effects.after, firmwareEffects, grantedPages]
  rcases allocAlign_cases pow with ⟨power, aligned⟩ | ⟨large, same⟩
  · obtain ⟨_, pages, start, trimmed, low, same, -, -, -, -, trims⟩ :=
      (alignedRun_of_exec aligned gives run).trims aligned
    cases same
    obtain ⟨head, tail, -, before, behind⟩ := trims.parts
    rw [← (pages_aligned _ aligned).1] at trims behind
    refine ⟨address, rest, low, rfl, frees, before.order, behind.order, ?_⟩
    change firmwareEffects.held (firmwareEffects.after ∅ (grantedPages _ _ _ address)) rest = _
    rw [taken, trims.held, Set.empty_sdiff, Set.empty_union]
  · have none : rest = [] := by
      unfold releaseSlack at freeing
      rw [same, if_neg (slack_negative pow large)] at freeing
      exact (exec_ret.mp freeing).1
    have all : keptPages size align = requestPages size align := by
      rw [keptPages, same, if_neg (slack_negative pow large)]
    subst none
    refine ⟨address, [], address.toNat, rfl, frees, le_rfl, by rw [all], ?_⟩
    rw [all]
    exact taken.trans (Set.empty_union _)

/-- What `efi_allocate_pages_aligned` keeps is below the maximum for every firmware exactly when
there is room for a unit of its alignment below the maximum, no page is kept, or more pages are
asked for than there are. -/
theorem efiAllocatePagesAligned_below_iff (size max : UInt64) (memoryType : UInt32)
    (pow : IsPow align k) :
    (∀ events base, GivesPages events → EndsBelow events →
      Exec (efiAllocatePagesAligned size max align memoryType) events (some (.ok base)) →
        KeepsBelow max events) ↔
      (allocAlign align).toNat ≤ max.toNat + 1 ∨ keptPages size align = 0 ∨
        2 ^ 64 < (requestPages size align).toNat * 4096 := by
  obtain ⟨unitPower, unit⟩ : ∃ power, IsPow (allocAlign align) power := by
    rcases allocAlign_cases pow with ⟨power, aligned⟩ | ⟨-, same⟩
    · exact ⟨power, aligned.pow⟩
    · exact ⟨k, by rwa [same]⟩
  constructor
  · intro below
    by_contra neither
    rw [not_or, not_or, Nat.not_le, Nat.not_lt] at neither
    obtain ⟨tight, keeps, fits⟩ := neither
    obtain ⟨fewer, more⟩ := requestPages_bounds size pow
    have positive : (keptPages size align).toNat ≠ 0 := fun zero =>
      keeps (UInt64.toNat_inj.mp zero)
    have some : requestPages size align ≠ 0 := by
      intro none
      rw [none, UInt64.toNat_zero] at fewer
      omega
    obtain ⟨rest, freeing⟩ := releaseSlack_runs (topPages (requestPages size align))
      (alignUp (topPages (requestPages size align)) (allocAlign align))
      (roundUp size efiAllocAlign) (allocAlign align) (toInt (slackPages (allocAlign align)))
    have run : Exec (efiAllocatePagesAligned size max align memoryType) _ _ :=
      exec_allocatePagesAligned_iff.mpr ⟨_, rest, rfl, rfl, freeing⟩
    obtain ⟨gives, ends⟩ := topPages_given memoryType (releaseSlack_noAllocation freeing)
      some fits (pageLimit_wraps unit tight)
    obtain ⟨address, _, low, same, -, start, stop, held⟩ := held_of_run pow gives run
    cases same
    have top := topPages_toNat some
    have last : (UInt64.ofNat (low + (keptPages size align).toNat * 4096 - 1)).toNat =
        low + (keptPages size align).toNat * 4096 - 1 := by
      rw [UInt64.toNat_ofNat']
      omega
    have kept := below _ _ gives ends run
      (UInt64.ofNat (low + (keptPages size align).toNat * 4096 - 1)) (by
        rw [held, byte_mem_bytesBetween, last]
        omega)
    have half : (allocAlign align).toNat ≤ 2 ^ 63 := by
      have small := unit.1
      rw [unit.2]
      exact Nat.pow_le_pow_right (by decide) (by omega)
    omega
  · intro holds events base gives ends run
    obtain ⟨address, rest, low, rfl, frees, start, stop, held⟩ := held_of_run pow gives run
    rcases holds with room | none | excess
    · exact keepsBelow_of_limit frees gives ends (pageLimit_le unit room)
    · intro x member
      rw [held, none, byte_mem_bytesBetween, UInt64.toNat_zero] at member
      omega
    · have fits := (gives _ _ _ _ _ List.mem_cons_self rfl).2
      exact absurd fits (by omega)

/-- Both allocators keep pages below the maximum for every firmware exactly when there is room for
a unit of the alignment below the maximum, no page is kept, or more pages are asked for than there
are. -/
theorem allocations_below_iff (size max : UInt64) (memoryType : UInt32) (pow : IsPow align k) :
    ((∀ events base, GivesPages events → EndsBelow events →
      Exec (efiAllocatePages size max) events (some (.ok base)) → KeepsBelow max events) ↔
        4096 ≤ max.toNat + 1 ∨ divRoundUp size efiPageSize = 0) ∧
    ((∀ events base, GivesPages events → EndsBelow events →
      Exec (efiAllocatePagesAligned size max align memoryType) events (some (.ok base)) →
        KeepsBelow max events) ↔
      (allocAlign align).toNat ≤ max.toNat + 1 ∨ keptPages size align = 0 ∨
        2 ^ 64 < (requestPages size align).toNat * 4096) :=
  ⟨efiAllocatePages_below_iff, efiAllocatePagesAligned_below_iff size max memoryType pow⟩

/-- A page below one megabyte, with the alignment of the kernel. -/
def tightAligned : Stub (Except EfiStatus UInt64) :=
  efiAllocatePagesAligned 0x1000 0xFFFFF sz2M efiLoaderData

/-- A firmware with pages at one gigabyte. -/
def gigabyteFirmware (_ : List Event) : (call : Call) → Option call.Reply
  | .allocatePages .. => some ⟨efiSuccess, 0x40000000⟩
  | .freePages .. => some efiSuccess
  | _ => none

/-- The trace of that run. -/
theorem tightAligned_events : tightAligned.eventsWith gigabyteFirmware =
    [grantedPages efiLoaderData 512 efiAllocLimit 0x40000000,
      ⟨.freePages 0x40001000 511, efiSuccess⟩] := by rfl

/-- The conditions for a page without a limit, and with the alignment of the kernel. -/
theorem allocations_below_iff_page :
    ((∀ events base, GivesPages events → EndsBelow events →
      Exec (efiAllocatePages 0x1000 efiAllocLimit) events (some (.ok base)) →
        KeepsBelow efiAllocLimit events) ↔
          4096 ≤ efiAllocLimit.toNat + 1 ∨ divRoundUp 0x1000 efiPageSize = 0) ∧
    ((∀ events base, GivesPages events → EndsBelow events →
      Exec (efiAllocatePagesAligned 0x1000 efiAllocLimit sz2M efiLoaderData) events
        (some (.ok base)) → KeepsBelow efiAllocLimit events) ↔
      (allocAlign sz2M).toNat ≤ efiAllocLimit.toNat + 1 ∨ keptPages 0x1000 sz2M = 0 ∨
        2 ^ 64 < (requestPages 0x1000 sz2M).toNat * 4096) :=
  allocations_below_iff 0x1000 efiAllocLimit efiLoaderData sz2M_pow

/-- A firmware with pages above the maximum may answer with them. -/
theorem allocations_above : ¬∀ (size max align : UInt64) (k : Nat) (memoryType : UInt32),
    IsPow align k →
      (∀ events base, GivesPages events → EndsBelow events →
        Exec (efiAllocatePages size max) events (some (.ok base)) → KeepsBelow max events) ∧
      ∀ events base, GivesPages events → EndsBelow events →
        Exec (efiAllocatePagesAligned size max align memoryType) events (some (.ok base)) →
          KeepsBelow max events := by
  intro claim
  have run : Exec tightAligned (tightAligned.eventsWith gigabyteFirmware)
      (some (.ok 0x40000000)) := exec_eventsWith (by decide +kernel)
  have only : ∀ event ∈ tightAligned.eventsWith gigabyteFirmware, event.op.isAllocation = true →
      event = grantedPages efiLoaderData 512 efiAllocLimit 0x40000000 := by
    rw [tightAligned_events]
    simp [Call.isAllocation]
  have gives : GivesPages (tightAligned.eventsWith gigabyteFirmware) := by
    intro request memoryType pages limit reply member _
    cases only _ member rfl
    decide
  have ends : EndsBelow (tightAligned.eventsWith gigabyteFirmware) := by
    intro memoryType pages limit reply member _
    cases only _ member rfl
    decide
  have kept := (claim 0x1000 0xFFFFF sz2M 21 efiLoaderData sz2M_pow).2 _ _ gives ends run 0x40000000
  rw [tightAligned_events] at kept
  have held : Resource.byte 0x40000000 ∈ firmwareEffects.held ∅
      [grantedPages efiLoaderData 512 efiAllocLimit 0x40000000,
        ⟨.freePages 0x40001000 511, efiSuccess⟩] := by
    simp [Effects.held, Effects.after, firmwareEffects, grantedPages, pageBytes]
  exact absurd (kept held) (by decide)

end DragonStub

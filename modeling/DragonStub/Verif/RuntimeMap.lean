import DragonStub.Verif.Virtmap

/-!
# The runtime map

Whatever addresses `efi_get_virtmap` chooses, it copies out the runtime descriptors in order, changes
nothing else of them, and chooses the same addresses when it runs on its own result.
-/

namespace DragonStub

open Interaction Word

variable {globals : Globals} {map : List EfiMemoryDescriptor} {entry : EfiMemoryDescriptor}
  {out : Virtmap} {mapSize descSize : UInt64} {novamap : Bool}

/-- A map is walked from its first descriptor to its last when its size is below 2^31; a map without
bytes is not walked at all, also when its descriptors have no size. -/
theorem forEachDescriptor_sweep {σ : Type} {body : EfiMemoryDescriptor → σ → EfiMemoryDescriptor × σ}
    {s : σ} (whole : descSize.toNat ∣ mapSize.toNat)
    (listed : map.length = mapSize.toNat / descSize.toNat) (small : mapSize.toNat < 2 ^ 31) :
    forEachDescriptor mapSize descSize body map s = some (sweep body map s) := by
  by_cases stride : descSize.toNat = 0
  · have none : map = [] := by
      rw [stride, Nat.div_zero] at listed
      exact List.eq_nil_of_length_eq_zero listed
    have empty : mapSize = 0 := by
      rw [stride] at whole
      exact UInt64.toNat_inj.mp (Nat.eq_zero_of_zero_dvd whole)
    subst none empty
    have ends : ¬ofInt 0 < (0 : UInt64) := by decide
    change descriptorLoop 0 descSize body (4294967295 + 1) 0 ([], s) = _
    rw [descriptorLoop, if_neg ends]
    rfl
  · have size : mapSize.toNat = map.length * descSize.toNat := by
      rw [listed, Nat.div_mul_cancel whole]
    have starts : ∀ i < map.length, i * descSize.toNat < 2 ^ 31 := by
      intro i inside
      have below : i * descSize.toNat ≤ map.length * descSize.toNat :=
        Nat.mul_le_mul_right _ (Nat.le_of_lt inside)
      omega
    exact forEachDescriptor_eq ⟨size, Nat.pos_of_ne_zero stride, starts, by omega⟩

/-- A descriptor with another virtual start, which only a runtime descriptor may have. -/
def Remapped (before after : EfiMemoryDescriptor) : Prop :=
  after = { before with virtualStart := after.virtualStart } ∧
    (before.isRuntime = false → after = before)

/-- A remapped descriptor that is remapped again is remapped. -/
theorem remapped_trans {first second third : EfiMemoryDescriptor} (one : Remapped first second)
    (two : Remapped second third) : Remapped first third := by
  obtain ⟨oneStart, onePlain⟩ := one
  obtain ⟨twoStart, twoPlain⟩ := two
  constructor
  · rw [twoStart, oneStart]
  · intro plain
    have same := onePlain plain
    rw [twoPlain (by rw [same, plain]), same]

/-- A remapped descriptor has the attributes it had. -/
theorem Remapped.isRuntime {before after : EfiMemoryDescriptor} (remapped : Remapped before after) :
    after.isRuntime = before.isRuntime := by
  rw [remapped.1]
  rfl

/-- The body of the loop of `efi_get_virtmap` only remaps. -/
theorem virtmapEntry_remapped (entry : EfiMemoryDescriptor) (out : Virtmap) :
    Remapped entry (virtmapEntry novamap entry out).1 := by
  cases kind : entry.isRuntime with
  | false => simp [virtmapEntry, kind, Remapped]
  | true =>
    cases novamap <;>
      simp [virtmapEntry, kind, Remapped, flatVaMapping, efiRtVirtualOffset, virtmapPlace]

/-- What is done with a descriptor does not depend on its virtual start. -/
theorem virtmapEntry_virtualStart (entry : EfiMemoryDescriptor) (out : Virtmap)
    (address : UInt64) (kind : entry.isRuntime = true) :
    virtmapEntry novamap { entry with virtualStart := address } out =
      virtmapEntry novamap entry out := by
  have same : EfiMemoryDescriptor.isRuntime { entry with virtualStart := address } = true := kind
  simp [virtmapEntry, kind, same]

/-- A descriptor that is done is not changed again. -/
theorem virtmapEntry_again (entry : EfiMemoryDescriptor) (out : Virtmap) :
    virtmapEntry novamap (virtmapEntry novamap entry out).1 out = virtmapEntry novamap entry out := by
  cases kind : entry.isRuntime with
  | false => rw [(virtmapEntry_remapped entry out).2 kind]
  | true =>
    rw [(virtmapEntry_remapped entry out).1]
    exact virtmapEntry_virtualStart entry out _ kind

/-- The descriptors of a map that are copied out. -/
def collected (novamap : Bool) (map : List EfiMemoryDescriptor) : List EfiMemoryDescriptor :=
  if novamap then [] else runtime map

/-- No more descriptors are collected than the map has. -/
theorem collected_length (novamap : Bool) (map : List EfiMemoryDescriptor) :
    (collected novamap map).length ≤ map.length := by
  cases novamap with
  | true => exact Nat.zero_le _
  | false => exact List.length_filter_le ..

/-- A runtime descriptor is copied as it is left, unless there is to be no map. -/
theorem virtmapEntry_runtimeMap (entry : EfiMemoryDescriptor) (out : Virtmap) :
    (virtmapEntry novamap entry out).2.runtimeMap =
      out.runtimeMap ++ collected novamap [(virtmapEntry novamap entry out).1] := by
  cases kind : entry.isRuntime with
  | false => cases novamap <;> simp [virtmapEntry, collected, runtime, kind]
  | true =>
    have kept : (virtmapEntry novamap entry out).1.isRuntime = true := by
      rw [(virtmapEntry_remapped entry out).isRuntime, kind]
    cases novamap with
    | true => simp [virtmapEntry, collected, kind]
    | false =>
      simp only [collected, runtime, List.filter_cons, kept, if_true, List.filter_nil,
        Bool.false_eq_true, if_false]
      simp [virtmapEntry, kind]

/-- The count is the number of copies. -/
def CountsCopies (out : Virtmap) : Prop := 
  out.count = toInt (UInt64.ofNat out.runtimeMap.length)

/-- Every copy is counted. -/
theorem virtmapEntry_counted (entry : EfiMemoryDescriptor) (counted : CountsCopies out) :
    CountsCopies (virtmapEntry novamap entry out).2 := by
  unfold CountsCopies at counted ⊢
  cases kind : entry.isRuntime with
  | false => simpa [virtmapEntry, kind] using counted
  | true =>
    cases novamap with
    | true => simpa [virtmapEntry, kind] using counted
    | false =>
      simp only [virtmapEntry, kind, counted, Bool.not_true, Bool.false_eq_true, if_false,
        List.length_append, List.length_singleton]
      rw [UInt64.ofNat_add, toInt_add]
      rfl

/-- A loop over the whole map whose body remaps, remaps every descriptor. -/
theorem sweep_forall₂ {σ : Type} {body : EfiMemoryDescriptor → σ → EfiMemoryDescriptor × σ}
    {related : EfiMemoryDescriptor → EfiMemoryDescriptor → Prop}
    (step : ∀ entry s, related entry (body entry s).1) (s : σ) :
    List.Forall₂ related map (sweep body map s).1 := by
  induction map generalizing s with
  | nil => exact List.Forall₂.nil
  | cons entry rest ih => exact List.Forall₂.cons (step entry s) (ih _)

/-- What holds of all that the body makes holds of the descriptors behind the loop. -/
theorem sweep_forall {σ : Type} {body : EfiMemoryDescriptor → σ → EfiMemoryDescriptor × σ}
    (property : EfiMemoryDescriptor → Prop) (step : ∀ entry s, property (body entry s).1) (s : σ) :
    ∀ entry ∈ (sweep body map s).1, property entry := by
  induction map generalizing s with
  | nil => simp [sweep]
  | cons entry rest ih =>
    intro other member
    rcases List.mem_cons.mp member with rfl | member
    · exact step entry s
    · exact ih _ other member

/-- The copies are the runtime descriptors of the map as it is left. -/
theorem sweep_runtimeMap (map : List EfiMemoryDescriptor) (out : Virtmap) :
    (sweep (virtmapEntry novamap) map out).2.runtimeMap =
      out.runtimeMap ++ collected novamap (sweep (virtmapEntry novamap) map out).1 := by
  induction map generalizing out with
  | nil => cases novamap <;> simp [sweep, collected, runtime]
  | cons entry rest ih =>
    have joined (done : EfiMemoryDescriptor) (later : List EfiMemoryDescriptor) :
        collected novamap (done :: later) = collected novamap [done] ++ collected novamap later := by
      cases novamap with
      | true => rfl
      | false => exact List.filter_append [done] later
    have split := joined (virtmapEntry novamap entry out).1
      (sweep (virtmapEntry novamap) rest (virtmapEntry novamap entry out).2).1
    rw [sweep, ih, virtmapEntry_runtimeMap, split, List.append_assoc]

/-- A sweep counts the copies that it makes. -/
theorem sweep_counted (map : List EfiMemoryDescriptor) (counted : CountsCopies out) :
    CountsCopies (sweep (virtmapEntry novamap) map out).2 := by
  induction map generalizing out with
  | nil => exact counted
  | cons entry rest ih => exact ih (virtmapEntry_counted entry counted)

/-- The second run meets every descriptor with the base the first one met it with. -/
theorem sweep_again (map : List EfiMemoryDescriptor) (out : Virtmap) :
    sweep (virtmapEntry novamap) (sweep (virtmapEntry novamap) map out).1 out =
      sweep (virtmapEntry novamap) map out := by
  induction map generalizing out with
  | nil => rfl
  | cons entry rest ih =>
    rw [sweep, sweep, virtmapEntry_again, ih]

/-- A sweep leaves the number of descriptors. -/
theorem sweep_length {σ : Type} (body : EfiMemoryDescriptor → σ → EfiMemoryDescriptor × σ)
    (map : List EfiMemoryDescriptor) (s : σ) : (sweep body map s).1.length = map.length := by
  induction map generalizing s with
  | nil => rfl
  | cons entry rest ih => simp [sweep, ih]

/-- For a map of whole descriptors below 2^31 bytes, `efi_get_virtmap` copies out the runtime
descriptors in order, with the virtual starts it has set, and counts them; it changes nothing else of
the map, and nothing at all when it runs on its own result. -/
theorem efiGetVirtmap_collects (whole : descSize.toNat ∣ mapSize.toNat)
    (listed : map.length = mapSize.toNat / descSize.toNat) (small : mapSize.toNat < 2 ^ 31) :
    ∃ assigned out, efiGetVirtmap globals map mapSize descSize = some (assigned, out) ∧
      List.Forall₂ Remapped map assigned ∧
      out.runtimeMap = (if globals.efiNovamap then [] else runtime assigned) ∧
      out.count.toInt = out.runtimeMap.length ∧
      out.runtimeMap.length * descSize.toNat ≤ mapSize.toNat ∧
      efiGetVirtmap globals assigned mapSize descSize = some (assigned, out) := by
  have ran (before : List EfiMemoryDescriptor) (same : before.length = map.length) :
      efiGetVirtmap globals before mapSize descSize =
        some (sweep (virtmapEntry globals.efiNovamap) before ⟨[], 0, efiRtVirtualBase⟩) :=
    forEachDescriptor_sweep whole (by rw [same, listed]) small
  have again := ran _ (sweep_length (virtmapEntry globals.efiNovamap) map
    ⟨[], 0, efiRtVirtualBase⟩)
  rw [sweep_again] at again
  have counted : CountsCopies (sweep (virtmapEntry globals.efiNovamap) map
      ⟨[], 0, efiRtVirtualBase⟩).2 := sweep_counted map rfl
  have copied : (sweep (virtmapEntry globals.efiNovamap) map
        ⟨[], 0, efiRtVirtualBase⟩).2.runtimeMap = collected globals.efiNovamap
      (sweep (virtmapEntry globals.efiNovamap) map ⟨[], 0, efiRtVirtualBase⟩).1 :=
    sweep_runtimeMap map _
  have copies := collected_length globals.efiNovamap
    (sweep (virtmapEntry globals.efiNovamap) map ⟨[], 0, efiRtVirtualBase⟩).1
  rw [sweep_length, ← copied] at copies
  have descriptors : map.length ≤ mapSize.toNat := listed ▸ Nat.div_le_self ..
  refine ⟨_, _, ran map rfl, sweep_forall₂ virtmapEntry_remapped _, copied, ?_, ?_, again⟩
  · have word : (UInt64.ofNat (sweep (virtmapEntry globals.efiNovamap) map
        ⟨[], 0, efiRtVirtualBase⟩).2.runtimeMap.length).toNat = _ := UInt64.toNat_ofNat'
    rw [Nat.mod_eq_of_lt (by omega)] at word
    rw [counted, toInt_toInt (by omega), word]
  · apply Nat.le_trans (Nat.mul_le_mul_right _ copies)
    rw [listed]
    exact Nat.div_mul_le_self ..

/-- The two runtime descriptors of a map of three are copied, and stay when it is done again. -/
theorem efiGetVirtmap_collects_mixed :
    ∃ assigned out, efiGetVirtmap mappingGlobals mixedMap 144 48 = some (assigned, out) ∧
      List.Forall₂ Remapped mixedMap assigned ∧
      out.runtimeMap = runtime assigned ∧ out.count.toInt = out.runtimeMap.length ∧
      out.runtimeMap.length * 48 ≤ 144 ∧
      efiGetVirtmap mappingGlobals assigned 144 48 = some (assigned, out) :=
  efiGetVirtmap_collects (by decide) (by decide) (by decide)

end DragonStub

import DragonStub.Base.ByteMemory
import Mathlib.Data.List.GetD

/-!
# Strings in byte memory

A string is a run of bytes other than NUL with a NUL behind it. The lemmas follow the list of its
bytes: a string is empty, or a byte with a string behind it.
-/

namespace ByteMemory

variable {m m' : Memory} {address : UInt64} {bytes text other front rest : List UInt8} {c : UInt8}

/-- Memory has these bytes from an address on. -/
def Holds (m : Memory) (address : UInt64) : List UInt8 → Prop
  | [] => True
  | c :: rest => m address = c ∧ Holds m (address + 1) rest

/-- Every address holds no bytes. -/
@[simp] theorem holds_nil : Holds m address [] := trivial

/-- Bytes are held from an address when the first one is there and the rest behind it. -/
@[simp] theorem holds_cons :
    Holds m address (c :: rest) ↔ m address = c ∧ Holds m (address + 1) rest := Iff.rfl

/-- The address behind one byte and `n` more. -/
theorem add_succ (address : UInt64) (n : Nat) :
    address + UInt64.ofNat (n + 1) = address + 1 + UInt64.ofNat n := by
  rw [UInt64.ofNat_add, UInt64.add_comm (UInt64.ofNat n), UInt64.add_assoc]
  rfl

/-- Two offsets are added one after the other or at once. -/
theorem add_offsets (address : UInt64) (i j : Nat) :
    address + UInt64.ofNat i + UInt64.ofNat j = address + UInt64.ofNat (i + j) := by
  rw [UInt64.add_assoc, UInt64.ofNat_add]

/-- The bytes below an offset are the first one and those behind it. -/
theorem forall_offsets_succ {p : UInt8 → Prop} {count : Nat} :
    (∀ index < count + 1, p (m (address + UInt64.ofNat index))) ↔
      p (m address) ∧ ∀ index < count, p (m (address + 1 + UInt64.ofNat index)) := by
  have start : address + UInt64.ofNat 0 = address := UInt64.add_zero address
  constructor
  · intro all
    refine ⟨start ▸ all 0 (by omega), fun index inside => ?_⟩
    rw [← add_succ]
    exact all (index + 1) (by omega)
  · rintro ⟨first, rest⟩ index inside
    cases index with
    | zero =>
      rw [start]
      exact first
    | succ index =>
      rw [add_succ]
      exact rest index (by omega)

/-- Two runs of bytes are held one behind the other. -/
theorem holds_append : Holds m address (front ++ rest) ↔
    Holds m address front ∧ Holds m (address + UInt64.ofNat front.length) rest := by
  induction front generalizing address with
  | nil => simp
  | cons c front ih =>
    rw [List.cons_append, holds_cons, ih, holds_cons, List.length_cons, add_succ, and_assoc]

/-- Bytes are held when each one is at its offset. -/
theorem holds_iff : Holds m address bytes ↔
    ∀ index (inside : index < bytes.length), m (address + UInt64.ofNat index) = bytes[index] := by
  induction bytes generalizing address with
  | nil => simp
  | cons c rest ih =>
    rw [holds_cons, ih]
    constructor
    · rintro ⟨first, others⟩ index inside
      cases index with
      | zero =>
        calc m (address + UInt64.ofNat 0) = m address := congrArg m (UInt64.add_zero address)
          _ = c := first
      | succ index =>
        rw [add_succ]
        exact others index (by simpa using inside)
    · intro all
      refine ⟨?_, fun index inside => ?_⟩
      · calc m address = m (address + UInt64.ofNat 0) := congrArg m (UInt64.add_zero address).symm
          _ = c := all 0 (by simp)
      · rw [← add_succ]
        exact all (index + 1) (by simpa using inside)

/-- Bytes stay where memory does. -/
theorem Holds.congr (holds : Holds m address bytes) (short : bytes.length ≤ 2 ^ 64)
    (same : ∀ x ∈ window address bytes.length, m' x = m x) : Holds m' address bytes := by
  induction bytes generalizing address with
  | nil => trivial
  | cons c rest ih =>
    rw [List.length_cons] at short same
    refine ⟨?_, ih holds.2 (by omega) fun x inside => same x ?_⟩
    · rw [same address (by simp)]
      exact holds.1
    · rw [mem_window, distance_succ short]
      by_cases start : x = address
      · exact .inl start
      · exact .inr ⟨inside, start⟩

/-- A string in memory. -/
structure HoldsString (m : Memory) (address : UInt64) (text : List UInt8) : Prop where
  /-- The bytes of the text stand from the address on. -/
  bytes : ∀ index (inside : index < text.length), m (address + UInt64.ofNat index) = text[index]
  /-- No byte of the text is zero. -/
  noNul : 0 ∉ text
  /-- A zero byte stands behind them. -/
  nul : m (address + UInt64.ofNat text.length) = 0

/-- Of two strings at one address neither is longer. -/
theorem HoldsString.length_le (held : HoldsString m address text)
    (too : HoldsString m address other) : text.length ≤ other.length := by
  by_contra longer
  have inside : other.length < text.length := by omega
  apply held.noNul
  rw [← too.nul, held.bytes _ inside]
  exact List.getElem_mem inside

/-- One address holds one string. -/
theorem HoldsString.eq (held : HoldsString m address text) (too : HoldsString m address other) :
    text = other := by
  apply List.ext_getElem
  · exact le_antisymm (held.length_le too) (too.length_le held)
  · intro index inText inOther
    rw [← held.bytes index inText, too.bytes index inOther]

/-- A string is its bytes with a zero byte behind them and none among them. -/
theorem holdsString_iff :
    HoldsString m address text ↔ Holds m address (text ++ [0]) ∧ 0 ∉ text := by
  rw [holds_append, holds_iff, holds_cons]
  constructor
  · rintro ⟨bytes, noNul, nul⟩
    exact ⟨⟨bytes, nul, trivial⟩, noNul⟩
  · rintro ⟨⟨bytes, nul, -⟩, noNul⟩
    exact ⟨bytes, noNul, nul⟩

/-- The empty string is a zero byte. -/
@[simp] theorem holdsString_nil : HoldsString m address [] ↔ m address = 0 := by
  simp [holdsString_iff]

/-- A string is a first byte other than zero and the string behind it. -/
@[simp] theorem holdsString_cons : HoldsString m address (c :: rest) ↔
    m address = c ∧ c ≠ 0 ∧ HoldsString m (address + 1) rest := by
  rw [holdsString_iff, holdsString_iff, List.cons_append, holds_cons, List.mem_cons, not_or, ne_comm]
  tauto

/-- Behind the first bytes of a string stands the rest of it. -/
theorem HoldsString.append (held : HoldsString m address (front ++ rest)) :
    HoldsString m (address + UInt64.ofNat front.length) rest := by
  rw [holdsString_iff, List.append_assoc, holds_append] at held
  rw [holdsString_iff]
  exact ⟨held.1.2, fun member => held.2 (List.mem_append_right _ member)⟩

/-- A string stays where memory does. -/
theorem HoldsString.congr (held : HoldsString m address text) (short : text.length < 2 ^ 64)
    (same : ∀ x ∈ window address (text.length + 1), m' x = m x) : HoldsString m' address text := by
  rw [holdsString_iff] at held ⊢
  have length : (text ++ [0]).length = text.length + 1 := by simp
  exact ⟨held.1.congr (by omega) (length ▸ same), held.2⟩

/-- A string is shorter than the address space. -/
theorem HoldsString.length_lt (held : HoldsString m address text) : text.length < 2 ^ 64 := by
  by_contra long
  have inside : text.length % 2 ^ 64 < text.length := by omega
  have wraps : UInt64.ofNat text.length = UInt64.ofNat (text.length % 2 ^ 64) := by
    rw [← UInt64.toNat_inj, UInt64.toNat_ofNat', UInt64.toNat_ofNat', Nat.mod_mod]
  apply held.noNul
  rw [← held.nul, wraps, held.bytes _ inside]
  exact List.getElem_mem inside

/-- Up to a NUL there is a string. -/
theorem exists_holdsString {n : Nat} (nul : m (address + UInt64.ofNat n) = 0) :
    ∃ text, HoldsString m address text ∧ text.length ≤ n := by
  induction n generalizing address with
  | zero =>
    have start : address + UInt64.ofNat 0 = address := UInt64.add_zero address
    rw [start] at nul
    exact ⟨[], holdsString_nil.mpr nul, le_rfl⟩
  | succ n ih =>
    by_cases empty : m address = 0
    · exact ⟨[], holdsString_nil.mpr empty, Nat.zero_le _⟩
    · rw [add_succ] at nul
      obtain ⟨text, held, short⟩ := ih nul
      exact ⟨m address :: text, holdsString_cons.mpr ⟨rfl, empty, held⟩, Nat.succ_le_succ short⟩

/-- A memory that holds some bytes from an address on, and nothing else. -/
def bytesAt (start : UInt64) (bytes : List UInt8) : Memory :=
  fun address => bytes.getD (address - start).toNat 0

/-- A text without a zero byte, laid at an address, is a string there. -/
theorem holdsString_bytesAt (noNul : 0 ∉ text) (short : text.length < 2 ^ 64) :
    HoldsString (bytesAt address text) address text := by
  have place (index : Nat) (inside : index ≤ text.length) :
      (address + UInt64.ofNat index - address).toNat = index := by
    rw [sub_add_self, UInt64.toNat_ofNat']
    omega
  refine ⟨fun index inside => ?_, noNul, ?_⟩
  · rw [bytesAt, place index (by omega), List.getD_eq_getElem _ _ inside]
  · rw [bytesAt, place text.length le_rfl, List.getD_eq_default _ _ le_rfl]

open Classical in
/-- Memory with NULs written at offsets from an address. -/
noncomputable def cutAt (m : Memory) (base : UInt64) (cuts : Set Nat) : Memory :=
  fun x => if ∃ k ∈ cuts, x = base + UInt64.ofNat k then 0 else m x

variable {base x : UInt64} {cuts : Set Nat} {k n : Nat}

/-- Without cuts the memory stays. -/
@[simp] theorem cutAt_empty : cutAt m base ∅ = m := by
  funext x
  simp [cutAt]

/-- Writing one more NUL. -/
theorem store_cutAt : store (cutAt m base cuts) (base + UInt64.ofNat k) 0 =
    cutAt m base (insert k cuts) := by
  funext x
  unfold store cutAt
  by_cases same : x = base + UInt64.ofNat k
  · rw [if_pos same, if_pos ⟨k, Set.mem_insert _ _, same⟩]
  · rw [if_neg same]
    congr 1
    simp [same]

/-- Offsets below the size of the address space are told apart by their addresses. -/
theorem offset_inj {i j : Nat} (iSmall : i < 2 ^ 64) (jSmall : j < 2 ^ 64) :
    base + UInt64.ofNat i = base + UInt64.ofNat j ↔ i = j := by
  constructor
  · intro same
    have offsets : UInt64.ofNat i = UInt64.ofNat j := by
      rw [← sub_add_self base (UInt64.ofNat i), same, sub_add_self]
    have numbers := congrArg UInt64.toNat offsets
    rwa [UInt64.toNat_ofNat', UInt64.toNat_ofNat', Nat.mod_eq_of_lt iSmall,
      Nat.mod_eq_of_lt jSmall] at numbers
  · rintro rfl
    rfl

open Classical in
/-- What a cut memory holds at an offset from the base. -/
theorem cutAt_offset (cutsSmall : ∀ j ∈ cuts, j < 2 ^ 64) (small : k < 2 ^ 64) :
    cutAt m base cuts (base + UInt64.ofNat k) =
      if k ∈ cuts then 0 else m (base + UInt64.ofNat k) := by
  unfold cutAt
  congr 1
  rw [eq_iff_iff]
  constructor
  · rintro ⟨j, member, same⟩
    rwa [(offset_inj small (cutsSmall j member)).mp same]
  · intro member
    exact ⟨k, member, rfl⟩

/-- Bytes away from the cuts stay. -/
theorem cutAt_outside (near : ∀ j ∈ cuts, j < n) (outside : x ∉ window base n) (bound : n ≤ 2 ^ 64) :
    cutAt m base cuts x = m x := by
  unfold cutAt
  rw [if_neg]
  rintro ⟨j, member, rfl⟩
  have inside := near j member
  apply outside
  rw [mem_window, sub_add_self, UInt64.toNat_ofNat', Nat.mod_eq_of_lt (by omega)]
  exact inside

/-- Cutting a string leaves a string between a place and the next cut behind it. -/
theorem HoldsString.cut (held : HoldsString m base text) (inside : ∀ j ∈ cuts, j ≤ text.length)
    {a b : Nat} (order : a ≤ b) (bound : b ≤ text.length) (apart : ∀ j ∈ cuts, j < a ∨ b ≤ j)
    (ends : b ∈ cuts ∨ b = text.length) :
    HoldsString (cutAt m base cuts) (base + UInt64.ofNat a) ((text.drop a).take (b - a)) := by
  have short := held.length_lt
  have small : ∀ j ∈ cuts, j < 2 ^ 64 := fun j member => lt_of_le_of_lt (inside j member) short
  have length : ((text.drop a).take (b - a)).length = b - a := by
    rw [List.length_take, List.length_drop]
    omega
  refine ⟨fun index within => ?_, fun member => ?_, ?_⟩
  · rw [length] at within
    have kept : a + index ∉ cuts := by
      intro member
      have away := apart _ member
      omega
    rw [add_offsets, cutAt_offset small (by omega), if_neg kept, held.bytes _ (by omega)]
    simp
  · exact held.noNul (List.mem_of_mem_drop (List.mem_of_mem_take member))
  · have last : a + (b - a) = b := by omega
    rw [length, add_offsets, last, cutAt_offset small (by omega)]
    rcases ends with member | rfl
    · rw [if_pos member]
    · rw [held.nul, ite_self]

/-- A string that lies in a region with its NUL. -/
structure StringIn (m : Memory) (region : Set UInt64) (address : UInt64) (text : List UInt8) :
    Prop where
  /-- The string is at the address. -/
  held : HoldsString m address text
  /-- Its bytes and the zero byte lie in the region. -/
  inside : window address (text.length + 1) ⊆ region

variable {region : Set UInt64}

/-- A string lies in the window of its own bytes. -/
theorem HoldsString.stringIn (held : HoldsString m address text) :
    StringIn m (window address (text.length + 1)) address text := ⟨held, subset_rfl⟩

/-- The start of a string is in its region. -/
theorem StringIn.mem (string : StringIn m region address text) : address ∈ region :=
  string.inside (by simp)

/-- Behind a first part of its text a string goes on in the same region. -/
theorem StringIn.append (string : StringIn m region address (front ++ rest)) :
    StringIn m region (address + UInt64.ofNat front.length) rest := by
  have short := string.held.length_lt
  have within := string.inside
  rw [List.length_append] at short within
  refine ⟨string.held.append, (window_subset_of_le ?_ (by omega)).trans within⟩
  rw [UInt64.toNat_ofNat', Nat.mod_eq_of_lt (by omega)]
  omega

/-- From any of its bytes a string goes on in the same region. -/
theorem StringIn.drop (string : StringIn m region address text) {n : Nat}
    (inside : n ≤ text.length) : StringIn m region (address + UInt64.ofNat n) (text.drop n) := by
  rw [← List.take_append_drop n text] at string
  have behind := string.append
  rwa [List.length_take, Nat.min_eq_left inside] at behind

/-- Behind its first byte a string goes on in the same region. -/
theorem StringIn.tail (string : StringIn m region address (c :: rest)) :
    StringIn m region (address + 1) rest := by
  have split : StringIn m region address ([c] ++ rest) := string
  exact split.append

/-- A string starts with the first byte of its text. -/
theorem StringIn.first (string : StringIn m region address (c :: rest)) : m address = c :=
  (holdsString_cons.mp string.held).1

/-- The first byte of a string is not zero. -/
theorem StringIn.first_ne (string : StringIn m region address (c :: rest)) : c ≠ 0 :=
  (holdsString_cons.mp string.held).2.1

/-- A string that is not empty starts with a byte other than zero. -/
theorem StringIn.ne_nul (string : StringIn m region address text) (nonempty : text ≠ []) :
    m address ≠ 0 := by
  cases text with
  | nil => exact absurd rfl nonempty
  | cons c rest =>
    rw [string.first]
    exact string.first_ne

/-- An empty string starts with its zero byte. -/
theorem StringIn.nul (string : StringIn m region address []) : m address = 0 :=
  holdsString_nil.mp string.held

end ByteMemory

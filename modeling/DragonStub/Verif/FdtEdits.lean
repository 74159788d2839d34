import DragonStub.Base.Stateful
import DragonStub.Verif.FdtLaws

/-!
# The new device tree

`update_fdt` as an edit of an abstract device tree, for every libfdt whose functions do what they are
documented to do.
-/

namespace DragonStub

open Interaction DeviceTree Stateful Word

variable {Blob : Type} {lib : Libfdt Blob}

/-- An attempt ends with the status and the tree of its change. -/
theorem ends_attempt {fdt : Blob} {change : Blob → Int32 × Blob} {post : Int32 → Blob → Prop}
    (holds : post (change fdt).1 (change fdt).2) : Ends (Edit.attempt change) fdt post := by
  rintro _ _ ⟨⟩
  exact holds

/-- A check that passes ends with the tree of its change. -/
theorem ends_check {fdt : Blob} {change : Blob → Int32 × Blob} {post : Unit → Blob → Prop}
    (holds : (change fdt).1 = 0 → post () (change fdt).2) : Ends (Edit.check change) fdt post := by
  refine Ends.bind (ends_attempt ?_)
  by_cases done : (change fdt).1 = 0
  · simp only [done, bne_self_eq_false, Bool.false_eq_true, if_false]
    exact Ends.pure (holds done)
  · simp only [bne_iff_ne, ne_eq, done, not_false_eq_true, if_true]
    exact Ends.throw

/-- An attempt is sure to come through. -/
theorem returns_attempt {fdt : Blob} {change : Blob → Int32 × Blob} {post : Int32 → Blob → Prop}
    (holds : post (change fdt).1 (change fdt).2) : Returns (Edit.attempt change) fdt post :=
  ⟨(change fdt).1, (change fdt).2, rfl, holds⟩

/-- A call whose status is zero is sure to come through. -/
theorem returns_check {fdt : Blob} {change : Blob → Int32 × Blob} {post : Unit → Blob → Prop}
    (done : (change fdt).1 = 0) (holds : post () (change fdt).2) :
    Returns (Edit.check change) fdt post := by
  refine Returns.bind (returns_attempt ?_)
  simp only [done, bne_self_eq_false, Bool.false_eq_true, if_false]
  exact Returns.pure holds

/-- The tree to start from. -/
def openFdt (lib : Libfdt Blob) : Option Blob → Edit Blob Unit
  | some tree => Edit.check (lib.openInto tree · (toInt maxFdtSize))
  | none => do
    Edit.check (lib.createEmptyTree · (toInt maxFdtSize))
    fdtUpdateCellSize lib

/-- The node `/chosen`, found or added. -/
def chosenNode (lib : Libfdt Blob) : Edit Blob Int32 := do
  let node := lib.subnodeOffset (← get) 0 "chosen"
  if node < 0 then
    let node ← Edit.attempt (lib.addSubnode · 0 "chosen")
    if node < 0 then
      throw node
    else
      return node
  else
    return node

/-- The command line in `/chosen`. -/
def setBootargs (lib : Libfdt Blob) (node : Int32) (cmdline : Option (List UInt8)) :
    Edit Blob Unit :=
  match cmdline with
  | some text =>
    if !text.isEmpty then Edit.check (lib.setprop · node "bootargs" (text ++ [0])) else pure ()
  | none => pure ()

/-- The system table and the placeholders in `/chosen`. -/
def setEfiProperties (lib : Libfdt Blob) (globals : Globals) (node : Int32) : Edit Blob Unit := do
  Edit.check (lib.setprop · node "linux,uefi-system-table" (cpuToFdt64 globals.st))
  Edit.check (lib.setprop · node "linux,uefi-mmap-start" (cpuToFdt64 (-1)))
  Edit.check (lib.setprop · node "linux,uefi-mmap-size" (cpuToFdt32 (-1)))
  Edit.check (lib.setprop · node "linux,uefi-mmap-desc-size" (cpuToFdt32 (-1)))
  Edit.check (lib.setprop · node "linux,uefi-mmap-desc-ver" (cpuToFdt32 (-1)))

/-- What happens to the tree that has been opened. -/
def fillOpened (lib : Libfdt Blob) (globals : Globals) (cmdline : Option (List UInt8)) :
    Edit Blob Unit := do
  delMemRsvs lib (lib.numMemRsv (← get)).toInt.toNat
  let node ← chosenNode lib
  setBootargs lib node cmdline
  setEfiProperties lib globals (lib.subnodeOffset (← get) 0 "chosen")
  let _ ← Edit.attempt lib.pack

/-- The part of `update_fdt` that fails through `fdt_set_fail`, phase by phase. -/
theorem fillFdt_eq (globals : Globals) (orig : Option Blob) (cmdline : Option (List UInt8)) :
    fillFdt lib globals orig cmdline = (do
      openFdt lib orig
      fillOpened lib globals cmdline) := by
  unfold fillFdt openFdt fillOpened chosenNode setEfiProperties setBootargs
  -- The choice of the node is made before the rest of the function, not around it.
  have search (fdt : Blob) (rest : Int32 → Edit Blob Unit) :
      (if lib.subnodeOffset fdt 0 "chosen" < 0 then do
        let node ← Edit.attempt (lib.addSubnode · 0 "chosen")
        if node < 0 then
          throw node
          rest node
        else rest node
      else rest (lib.subnodeOffset fdt 0 "chosen")) =
      (if lib.subnodeOffset fdt 0 "chosen" < 0 then do
        let node ← Edit.attempt (lib.addSubnode · 0 "chosen")
        if node < 0 then throw node else pure node
      else pure (lib.subnodeOffset fdt 0 "chosen")) >>= rest := by
    by_cases missing : lib.subnodeOffset fdt 0 "chosen" < 0
    · simp only [if_pos missing, bind_assoc]
      congr 1
      funext node
      split <;> rfl
    · simp only [if_neg missing, pure_bind]
  cases orig
  all_goals
    simp only [bind_assoc]
    refine bind_congr fun _ => ?_
  -- Without an original there is one more step, the cell sizes of the root.
  on_goal 1 => refine bind_congr fun _ => ?_
  all_goals
    refine bind_congr fun _ => bind_congr fun _ => bind_congr fun fdt => ?_
    cases cmdline with
    | none =>
      simp only [pure_bind]
      exact search fdt _
    | some text => cases text <;> exact search fdt _

section Phases

variable {view : Blob → Option Tree} {place : Blob → Int32 → Option Position} {fdt : Blob}
  {tree : Tree} {globals : Globals}

/-- The tree to start from is the original, if there is one. -/
theorem openFdt_ends (laws : Documented lib view place) {orig : Option Blob}
    (valid : ∀ blob, orig = some blob → ∃ tree, view blob = some tree) :
    Ends (openFdt lib orig) fdt fun _ left => ∃ tree, view left = some tree ∧
      ∀ blob, orig = some blob → view blob = some tree := by
  cases orig with
  | some blob =>
    obtain ⟨tree, holds⟩ := valid blob rfl
    refine ends_check fun done => ⟨tree, laws.openInto _ _ holds done, ?_⟩
    rintro _ ⟨⟩
    exact holds
  | none =>
    have sized {offset : Int32} {left : Blob} {tree : Tree} (name : String) (value : List UInt8)
        (holds : view left = some tree) (root : place left offset = some []) :
        ∃ tree, view (lib.setprop left offset name value).2 = some tree := by
      by_cases done : (lib.setprop left offset name value).1 = 0
      · exact ⟨_, (laws.setprop _ _ holds root done).1⟩
      · exact ⟨_, laws.setpropFails _ _ holds root done⟩
    refine Ends.bind (ends_check fun done => Ends.bind (Ends.get ?_))
    have bare := laws.createEmptyTree _ _ done
    rw [laws.pathRoot bare]
    refine Ends.bind (ends_attempt (Ends.bind (ends_attempt (Ends.pure ?_))))
    obtain ⟨_, first⟩ := sized "#address-cells" (cpuToFdt32 2) bare (laws.root bare)
    obtain ⟨_, second⟩ := sized "#size-cells" (cpuToFdt32 2) first (laws.root first)
    exact ⟨_, second, nofun⟩

/-- Counting down, the loop deletes every reservation. -/
theorem delMemRsvs_ends (laws : DocumentedEdits lib view place) (holds : view fdt = some tree)
    {count : Nat} (all : tree.reservations.length = count) :
    Ends (delMemRsvs lib count) fdt fun _ left => view left = some tree.unreserve := by
  induction count generalizing fdt tree with
  | zero =>
    have none : tree.unreserve = tree := by
      rw [Tree.unreserve, ← List.length_eq_zero_iff.mp all]
    apply Ends.pure
    rw [none]
    exact holds
  | succ count ih =>
    have last : count < tree.reservations.length := by omega
    refine Ends.bind (ends_attempt ?_)
    have fewer : (tree.reservations.eraseIdx count).length = count := by
      rw [List.length_eraseIdx_of_lt last, all]
      rfl
    have later := ih (laws.delMemRsv count holds last) fewer
    exact later

/-- The tree with its node `/chosen`, which is added when there is none. -/
def WithChosen (tree : Tree) (chosen : Position) (base : Tree) : Prop :=
  tree.subnode [] "chosen" = some chosen ∧ base = tree ∨
    tree.subnode [] "chosen" = none ∧ ∃ index ≤ tree.root.children.length,
      chosen = [index] ∧ base = tree.insertChild [] index "chosen"

/-- The node is found in the tree that it was made in. -/
theorem WithChosen.found {chosen : Position} {base : Tree} (made : WithChosen tree chosen base) :
    base.subnode [] "chosen" = some chosen := by
  rcases made with ⟨found, rfl⟩ | ⟨missing, index, inside, rfl, rfl⟩
  · exact found
  · exact Tree.subnode_insertChild missing rfl inside

/-- The node that is written to is `/chosen`. -/
theorem chosenNode_ends (laws : DocumentedEdits lib view place) (holds : view fdt = some tree) :
    Ends (chosenNode lib) fdt fun node left => ∃ chosen base, WithChosen tree chosen base ∧
      view left = some base ∧ place left node = some chosen := by
  refine Ends.bind (Ends.get ?_)
  cases search : tree.subnode [] "chosen" with
  | some chosen =>
    obtain ⟨found, placed⟩ := laws.subnodeFound holds search
    rw [if_neg (Int32.not_lt.mpr found)]
    exact Ends.pure ⟨chosen, tree, .inl ⟨search, rfl⟩, holds, placed⟩
  | none =>
    rw [if_pos (laws.subnodeMissing holds search)]
    refine Ends.bind (ends_attempt ?_)
    by_cases failed : (lib.addSubnode fdt 0 "chosen").1 < 0
    · rw [if_pos failed]
      exact Ends.throw
    · rw [if_neg failed]
      obtain ⟨index, inside, added, placed⟩ :=
        laws.addSubnode "chosen" holds (Int32.not_lt.mp failed)
      exact Ends.pure ⟨[index], _, .inr ⟨search, index, inside, rfl, rfl⟩, added, placed⟩

/-- What `setBootargs` does to the properties. -/
def putBootargs (cmdline : Option (List UInt8)) : Properties → Properties :=
  match cmdline with
  | some text => if text.isEmpty then id else put "bootargs" (text ++ [0])
  | none => id

/-- Setting the command line puts it on the node. -/
theorem setBootargs_ends (laws : DocumentedEdits lib view place) (holds : view fdt = some tree)
    {node : Int32} {chosen : Position} (placed : place fdt node = some chosen)
    (cmdline : Option (List UInt8)) : Ends (setBootargs lib node cmdline) fdt fun _ left =>
      view left = some (tree.edit chosen (putBootargs cmdline)) := by
  cases cmdline with
  | none =>
    apply Ends.pure
    rw [putBootargs, Tree.edit_id]
    exact holds
  | some text =>
    cases text with
    | nil =>
      apply Ends.pure
      change view fdt = some (tree.edit chosen id)
      rw [Tree.edit_id]
      exact holds
    | cons head rest => exact ends_check fun done => (laws.setprop _ _ holds placed done).1

/-- What `setEfiProperties` does to the properties. -/
def putEfiProperties (st : UInt64) (properties : Properties) : Properties :=
  properties |> put "linux,uefi-system-table" (cpuToFdt64 st)
    |> put "linux,uefi-mmap-start" (cpuToFdt64 (-1))
    |> put "linux,uefi-mmap-size" (cpuToFdt32 (-1))
    |> put "linux,uefi-mmap-desc-size" (cpuToFdt32 (-1))
    |> put "linux,uefi-mmap-desc-ver" (cpuToFdt32 (-1))

/-- Setting the properties of the firmware puts them on the node. -/
theorem setEfiProperties_ends (laws : DocumentedEdits lib view place) (holds : view fdt = some tree)
    {node : Int32} {chosen : Position} (placed : place fdt node = some chosen) :
    Ends (setEfiProperties lib globals node) fdt fun _ left =>
      view left = some (tree.edit chosen (putEfiProperties globals.st)) := by
  refine Ends.bind (ends_check fun done => ?_)
  obtain ⟨holds, placed⟩ := laws.setprop _ _ holds placed done
  refine Ends.bind (ends_check fun done => ?_)
  obtain ⟨holds, placed⟩ := laws.setprop _ _ holds placed done
  refine Ends.bind (ends_check fun done => ?_)
  obtain ⟨holds, placed⟩ := laws.setprop _ _ holds placed done
  refine Ends.bind (ends_check fun done => ?_)
  obtain ⟨holds, placed⟩ := laws.setprop _ _ holds placed done
  refine ends_check fun done => ?_
  rw [(laws.setprop _ _ holds placed done).1]
  simp only [Tree.edit_edit]
  rfl

/-- The tree that has been opened loses its reservations and gets the properties of the handover in
`/chosen`. -/
theorem fillOpened_ends (laws : DocumentedEdits lib view place) (holds : view fdt = some tree)
    (cmdline : Option (List UInt8)) : Ends (fillOpened lib globals cmdline) fdt fun _ left =>
      ∃ chosen base, WithChosen tree.unreserve chosen base ∧
        view left = some (base.edit chosen (putEfiProperties globals.st ∘ putBootargs cmdline)) := by
  refine Ends.bind (Ends.get (Ends.bind ?_))
  rw [laws.numMemRsv holds, Int.toNat_natCast]
  refine (delMemRsvs_ends laws holds rfl).mono fun _ emptied holds => ?_
  refine Ends.bind ((chosenNode_ends laws holds).mono fun node named => ?_)
  rintro ⟨chosen, base, made, holds, placed⟩
  refine Ends.bind ((setBootargs_ends laws holds placed cmdline).mono fun _ booted holds => ?_)
  have found : (base.edit chosen (putBootargs cmdline)).subnode [] "chosen" = some chosen := by
    rw [Tree.subnode_edit, made.found]
  have again := (laws.subnodeFound holds found).2
  refine Ends.bind (Ends.get (Ends.bind ?_))
  refine (setEfiProperties_ends laws holds again).mono fun _ named holds => ?_
  refine Ends.bind (ends_attempt (Ends.pure ⟨chosen, base, made, ?_⟩))
  rw [laws.pack holds, Tree.edit_edit]

/-- `update_fdt` fills the buffer with the tree it starts from, without reservations and with the
properties of the handover in `/chosen`. -/
theorem fillFdt_ends (laws : Documented lib view place) {orig : Option Blob}
    (valid : ∀ blob, orig = some blob → ∃ tree, view blob = some tree)
    (cmdline : Option (List UInt8)) : Ends (fillFdt lib globals orig cmdline) fdt fun _ left =>
      ∃ tree chosen base, (∀ blob, orig = some blob → view blob = some tree) ∧
        WithChosen tree.unreserve chosen base ∧
        view left = some (base.edit chosen (putEfiProperties globals.st ∘ putBootargs cmdline)) := by
  rw [fillFdt_eq]
  refine Ends.bind ((openFdt_ends laws valid).mono fun _ opened => ?_)
  rintro ⟨tree, holds, original⟩
  refine (fillOpened_ends laws.toDocumentedEdits holds cmdline).mono ?_
  rintro _ left ⟨chosen, base, made, holds⟩
  exact ⟨tree, chosen, base, original, made, holds⟩

end Phases

/-- What memory holds at each address when the buffer at `newFdtAddr` has been filled. -/
def memoryAfter (fdtAt : UInt64 → Blob) (newFdtAddr : UInt64) (newFdt : Blob) : UInt64 → Blob :=
  Function.update fdtAt newFdtAddr newFdt

/-- The names that `update_fdt` may set in `/chosen`. -/
def handoverNames : List String :=
  ["bootargs", "linux,uefi-system-table", "linux,uefi-mmap-start", "linux,uefi-mmap-size",
    "linux,uefi-mmap-desc-size", "linux,uefi-mmap-desc-ver"]

/-- The tree `updated` is `base` with the properties of the handover in its node `/chosen`. -/
structure Updated (st : UInt64) (cmdline : Option (List UInt8)) (chosen : Position)
    (base updated : Tree) : Prop where
  /-- Only the properties of one node differ. -/
  edited : updated = base.edit chosen (putEfiProperties st ∘ putBootargs cmdline)
  /-- No memory is reserved. -/
  unreserved : updated.reservations = []
  /-- The node is `/chosen`. -/
  found : updated.subnode [] "chosen" = some chosen
  /-- A command line that is not empty is there with its terminator. -/
  bootargs : ∀ text, cmdline = some text → text ≠ [] →
    updated.property chosen "bootargs" = some (text ++ [0])
  /-- An empty command line changes nothing. -/
  noBootargs : cmdline.getD [] = [] →
    updated.property chosen "bootargs" = base.property chosen "bootargs"
  /-- The address of the system table. -/
  systemTable : updated.property chosen "linux,uefi-system-table" = some (cpuToFdt64 st)
  /-- The placeholder for the address of the map. -/
  mmapStart : updated.property chosen "linux,uefi-mmap-start" = some (cpuToFdt64 (-1))
  /-- The placeholders for its sizes and version. -/
  mmapWords : ∀ name ∈ ["linux,uefi-mmap-size", "linux,uefi-mmap-desc-size",
    "linux,uefi-mmap-desc-ver"], updated.property chosen name = some (cpuToFdt32 (-1))
  /-- Every other property of the node is as it was. -/
  others : ∀ name, name ∉ handoverNames →
    updated.property chosen name = base.property chosen name
  /-- So are those of every other node. -/
  elsewhere : ∀ other, other ≠ chosen → ∀ name,
    updated.property other name = base.property other name

/-- The node `/chosen` is there once it is found or added. -/
theorem updated_edit {st : UInt64} {cmdline : Option (List UInt8)} {chosen : Position}
    {base : Tree} (empty : base.reservations = []) (found : base.subnode [] "chosen" = some chosen) :
    Updated st cmdline chosen base
      (base.edit chosen (putEfiProperties st ∘ putBootargs cmdline)) := by
  have property : (base.edit chosen (putEfiProperties st ∘ putBootargs cmdline)).property chosen =
      putEfiProperties st (putBootargs cmdline (base.property chosen)) :=
    Tree.property_edit (Tree.find_subnode found)
  have other {name : String} (different : name ≠ "bootargs") (properties : Properties) :
      putBootargs cmdline properties name = properties name := by
    cases cmdline with
    | none => rfl
    | some text =>
      cases text with
      | nil => rfl
      | cons => exact put_other different
  have efi {name : String} (different : name ∉ handoverNames.tail) (properties : Properties) :
      putEfiProperties st properties name = properties name := by
    simp only [handoverNames, List.tail_cons, List.mem_cons, List.not_mem_nil, or_false,
      not_or] at different
    simp [putEfiProperties, put_other, different]
  refine ⟨rfl, empty, by rw [Tree.subnode_edit, found], ?_, ?_, ?_, ?_, ?_, ?_, ?_⟩
  · rintro text rfl given
    rw [property, efi (by decide), putBootargs, if_neg (by simpa using given),
      put_same]
  · intro none
    rw [property, efi (by decide)]
    cases cmdline with
    | none => rfl
    | some text =>
      obtain rfl : text = [] := none
      rfl
  · rw [property]
    rfl
  · rw [property]
    rfl
  · intro name member
    rw [property]
    simp only [List.mem_cons, List.not_mem_nil, or_false] at member
    rcases member with rfl | rfl | rfl <;> rfl
  · intro name absent
    have apart : name ≠ "bootargs" := fun same => absent (by simp [same, handoverNames])
    rw [property, efi fun member => absent (List.mem_of_mem_tail member),
      other apart]
  · intro position different name
    exact Tree.property_edit_of_ne different

/-- The tree at the address of the original, if there is one. -/
def originalAt (fdtAt : UInt64 → Blob) (origFdt : UInt64) : Option Blob :=
  if origFdt = 0 then none else some (fdtAt origFdt)

/-- `update_fdt` takes the original from its address. -/
theorem originalAt_eq {fdtAt : UInt64 → Blob} {origFdt : UInt64} :
    (if origFdt == 0 then none else some (fdtAt origFdt)) = originalAt fdtAt origFdt := by
  unfold originalAt
  by_cases null : origFdt = 0 <;> simp [null]

/-- When `update_fdt` succeeds, the header of the original was valid and the buffer was filled. -/
theorem updateFdt_filled {globals : Globals} {fdtAt : UInt64 → Blob} {origFdt origFdtSize : UInt64}
    {fdt left : Blob} {cmdline : Option (List UInt8)} {events : List Event}
    (run : Exec (updateFdt lib globals fdtAt origFdt origFdtSize fdt cmdline) events
      (some (efiSuccess, left))) :
    (∀ tree, originalAt fdtAt origFdt = some tree → lib.checkHeader tree = 0) ∧
      (fillFdt lib globals (originalAt fdtAt origFdt) cmdline).run.run fdt = (.ok (), left) := by
  have failed : efiLoadError ≠ efiSuccess := by decide
  have small : efiBufferTooSmall ≠ efiSuccess := by decide
  unfold updateFdt at run
  simp only [originalAt_eq, efiErr, efiPrintk, Prog.perform_bind, exec_call, exec_ite, Prog.pure_eq_ret,
    exec_ret, Option.some.injEq, Prod.mk.injEq, Ne.symm failed, false_and, and_false, exists_false,
    false_or] at run
  obtain ⟨valid, -, filled⟩ := run
  refine ⟨fun tree there => ?_, ?_⟩
  · rw [there] at valid
    simpa using valid
  cases ran : (fillFdt lib globals (originalAt fdtAt origFdt) cmdline).run.run fdt with
  | mk result final =>
    rw [ran] at filled
    cases result with
    | ok value =>
      obtain ⟨-, ended⟩ := exec_ret.mp filled
      cases ended
      rfl
    | error status =>
      obtain ⟨-, ended⟩ := exec_ret.mp filled
      have answer := congrArg Prod.fst (Option.some.inj ended)
      by_cases full : (status == -fdtErrNospace) = true
      · rw [if_pos full] at answer
        exact absurd answer.symm small
      · rw [if_neg full] at answer
        exact absurd answer.symm failed

/-- When the original is valid and whole and the buffer is filled, `update_fdt` succeeds. -/
theorem updateFdt_succeeds {globals : Globals} {fdtAt : UInt64 → Blob} {origFdt origFdtSize : UInt64}
    {fdt left : Blob} {cmdline : Option (List UInt8)}
    (valid : ∀ tree, originalAt fdtAt origFdt = some tree → lib.checkHeader tree = 0)
    (whole : ∀ tree, originalAt fdtAt origFdt = some tree →
      origFdtSize = 0 ∨ (lib.totalsize tree).toUInt64 ≤ origFdtSize)
    (filled : (fillFdt lib globals (originalAt fdtAt origFdt) cmdline).run.run fdt = (.ok (), left)) :
    Exec (updateFdt lib globals fdtAt origFdt origFdtSize fdt cmdline) []
      (some (efiSuccess, left)) := by
  have noError : (originalAt fdtAt origFdt).any (fun tree => lib.checkHeader tree != 0) = false := by
    cases there : originalAt fdtAt origFdt with
    | none => rfl
    | some tree => simp [valid tree there]
  have notCut : (originalAt fdtAt origFdt).any (fun tree => origFdtSize != 0 &&
      decide ((lib.totalsize tree).toUInt64 > origFdtSize)) = false := by
    cases there : originalAt fdtAt origFdt with
    | none => rfl
    | some tree =>
      rcases whole tree there with none | enough
      · simp [none]
      · simp [UInt64.not_lt.mpr enough]
  unfold updateFdt
  simp only [originalAt_eq, noError, notCut, Bool.false_eq_true, if_false, filled]
  exact exec_ret.mpr ⟨rfl, rfl⟩

variable {view : Blob → Option Tree} {place : Blob → Int32 → Option Position}

/-- Making the node reserves nothing. -/
theorem WithChosen.unreserved {tree base : Tree} {chosen : Position}
    (made : WithChosen tree.unreserve chosen base) : base.reservations = [] := by
  rcases made with ⟨-, rfl⟩ | ⟨-, index, -, -, rfl⟩ <;> rfl

/-- When `update_fdt` succeeds on an original tree, the new tree is the original without reservations
and with the properties of the handover in its node `/chosen`, which is added when there is none.
The original is still in memory. -/
theorem update_fdt_edits (laws : Documented lib view place) {globals : Globals}
    {fdtAt : UInt64 → Blob} {origFdt origFdtSize newFdtAddr : UInt64} {left : Blob} {tree : Tree}
    {cmdline : Option (List UInt8)} {events : List Event} (given : origFdt ≠ 0)
    (valid : view (fdtAt origFdt) = some tree) (apart : origFdt ≠ newFdtAddr)
    (run : Exec (updateFdt lib globals fdtAt origFdt origFdtSize (fdtAt newFdtAddr) cmdline) events
      (some (efiSuccess, left))) :
    ∃ chosen base updated, view left = some updated ∧ WithChosen tree.unreserve chosen base ∧
      Updated globals.st cmdline chosen base updated ∧
      memoryAfter fdtAt newFdtAddr left origFdt = fdtAt origFdt := by
  have original : originalAt fdtAt origFdt = some (fdtAt origFdt) := if_neg given
  have exists_tree : ∀ blob, originalAt fdtAt origFdt = some blob → ∃ tree, view blob = some tree := by
    rw [original]
    rintro _ ⟨⟩
    exact ⟨tree, valid⟩
  obtain ⟨found, chosen, base, from_original, made, holds⟩ :=
    fillFdt_ends laws exists_tree cmdline () left (updateFdt_filled run).2
  have same := from_original _ original
  rw [valid] at same
  obtain rfl := Option.some.inj same
  exact ⟨chosen, base, _, holds, made, updated_edit made.unreserved made.found,
    Function.update_of_ne apart ..⟩

/-- A tree with two reservations, memory, and a node `/chosen` with properties of other lengths. -/
def boardTree : CountedTree where
  tree := ⟨[(0x80000000, 0x1000), (0x90000000, 0x2000)], .node "" (fun _ => none)
    [.node "memory@80000000" (fun _ => none) [],
      .node "chosen" (put "linux,uefi-mmap-size" [1, 2] fun _ => none) []]⟩
  children := by decide
  reservations := by decide

/-- The board's tree is at 0x1000. -/
def boardMemory (address : UInt64) : CountedTree :=
  if address = 0x1000 then boardTree else emptyCounted

/-- The update of the board's tree for the command line `ro`. -/
def boardUpdate : Stub (EfiStatus × CountedTree) :=
  updateFdt treeLibfdt ⟨false, false, 0, 0x7000, 0⟩ boardMemory 0x1000 4096 (boardMemory 0x2000)
    (some [0x72, 0x6F])

/-- The update succeeds. -/
theorem boardUpdate_exec : ∃ left, Exec boardUpdate [] (some (efiSuccess, left)) := by
  have succeeds : (boardUpdate.valueWith fun _ _ => none).map Prod.fst = some efiSuccess := by
    decide +kernel
  obtain ⟨⟨_, left⟩, value, rfl⟩ := Option.map_eq_some_iff.mp succeeds
  have run := exec_eventsWith (Option.isSome_iff_exists.mpr ⟨_, value⟩)
  rw [value] at run
  exact ⟨left, run⟩

/-- The tree of a board, with a command line. -/
theorem update_fdt_edits_board : ∃ left chosen base updated, some left.tree = some updated ∧
    WithChosen boardTree.tree.unreserve chosen base ∧
    Updated 0x7000 (some [0x72, 0x6F]) chosen base updated ∧
    memoryAfter boardMemory 0x2000 left 0x1000 = boardMemory 0x1000 := by
  obtain ⟨left, run⟩ := boardUpdate_exec
  exact ⟨left, update_fdt_edits documented_treeLibfdt (by decide) rfl (by decide) run⟩

end DragonStub

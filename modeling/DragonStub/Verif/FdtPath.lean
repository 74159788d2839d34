import DragonStub.Verif.FdtTree

/-!
# Paths

`fdt_path_offset` follows an absolute path: the names between its slashes lead from node to node.
-/

namespace DragonStub

open ByteMemory DeviceTree FlatTree Stateful Word

/-- The names between the slashes of a path. -/
def pathNames (path : List UInt8) : List (List UInt8) :=
  (path.splitOnP (· == '/'.toUInt8)).filter (· ≠ [])

variable {path rest : List UInt8} {c : UInt8}

/-- A slash at the front separates nothing. -/
theorem pathNames_slash : pathNames ('/'.toUInt8 :: rest) = pathNames rest := by
  have first : ('/'.toUInt8 :: rest).splitOnP (· == '/'.toUInt8) =
      [] :: rest.splitOnP (· == '/'.toUInt8) :=
    List.splitOnP_append_cons_of_forall_mem (fun _ inside => absurd inside List.not_mem_nil) _
      (by simp) _
  rw [pathNames, first]
  rfl

/-- So do many. -/
theorem pathNames_dropWhile : pathNames (path.dropWhile (· == '/'.toUInt8)) = pathNames path := by
  induction path with
  | nil => rfl
  | cons c rest ih =>
    by_cases slash : c = '/'.toUInt8
    · rw [List.dropWhile_cons_of_pos (by simpa using slash), ih, slash, pathNames_slash]
    · rw [List.dropWhile_cons_of_neg (by simpa using slash)]

/-- A name is what stands in front of a slash, or of the end. -/
theorem pathNames_append {name : List UInt8} (some : name ≠ [])
    (plain : ∀ d ∈ name, (d == '/'.toUInt8) = false)
    (ends : rest = [] ∨ ∃ more, rest = '/'.toUInt8 :: more) :
    pathNames (name ++ rest) = name :: pathNames rest := by
  rcases ends with rfl | ⟨more, rfl⟩
  · rw [List.append_nil, pathNames, List.splitOnP_eq_singleton plain,
      List.filter_cons_of_pos (by simpa using some)]
    rfl
  · rw [pathNames, List.splitOnP_append_cons_of_forall_mem plain _ (by simp),
      List.filter_cons_of_pos (by simpa using some), pathNames_slash, pathNames]

/-- What is in front of the first slash is the first name. -/
theorem pathNames_cons (other : c ≠ '/'.toUInt8) :
    pathNames (c :: rest) = (c :: rest).takeWhile (· != '/'.toUInt8) ::
      pathNames ((c :: rest).dropWhile (· != '/'.toUInt8)) := by
  have some : (c :: rest).takeWhile (· != '/'.toUInt8) ≠ [] := by
    rw [List.takeWhile_cons_of_pos (by simpa using other)]
    simp
  have plain : ∀ d ∈ (c :: rest).takeWhile (· != '/'.toUInt8), (d == '/'.toUInt8) = false := by
    intro d inside
    simpa using List.mem_takeWhile_imp inside
  have first := List.head?_dropWhile_not (· != '/'.toUInt8) (c :: rest)
  have ends : (c :: rest).dropWhile (· != '/'.toUInt8) = [] ∨
      ∃ more, (c :: rest).dropWhile (· != '/'.toUInt8) = '/'.toUInt8 :: more := by
    cases behind : (c :: rest).dropWhile (· != '/'.toUInt8) with
    | nil => exact .inl rfl
    | cons d more =>
      rw [behind] at first
      have slash : d = '/'.toUInt8 := by simpa using first
      exact .inr ⟨more, by rw [slash]⟩
  rw [← pathNames_append some plain ends, List.takeWhile_append_dropWhile]

variable {m : Memory} {fdt : UInt64} {tokens : List Token} {strings : List UInt8} {tree : Tree}
  {position target : Position} {offset : Int32} {turns : Nat}

/-- Follow one name, and then the others. -/
theorem follow_cons {name : String} {names : List String} :
    tree.follow position (name :: names) =
      (tree.subnode position name).bind fun child => tree.follow child names := List.foldlM_cons ..

/-- The first name is not longer than the path, and the rest of the path is shorter. -/
theorem length_first (rest : List UInt8) (other : c ≠ '/'.toUInt8) :
    ((c :: rest).takeWhile (· != '/'.toUInt8)).length ≤ (c :: rest).length ∧
      ((c :: rest).dropWhile (· != '/'.toUInt8)).length < (c :: rest).length := by
  refine ⟨(List.takeWhile_sublist _).length_le, ?_⟩
  rw [List.dropWhile_cons_of_pos (by simpa using other), List.length_cons]
  have less : (rest.dropWhile (· != '/'.toUInt8)).length ≤ rest.length :=
    (List.dropWhile_sublist _).length_le
  omega

/-- One turn of the loop of `fdt_path_offset_namelen`. -/
theorem pathLoop_succ (first : path.dropWhile (· == '/'.toUInt8) = c :: rest) :
    pathLoop m fdt (turns + 1) offset path =
      if fdtSubnodeOffset m fdt offset ((c :: rest).takeWhile (· != '/'.toUInt8)) < 0 then
        fdtSubnodeOffset m fdt offset ((c :: rest).takeWhile (· != '/'.toUInt8))
      else pathLoop m fdt turns
        (fdtSubnodeOffset m fdt offset ((c :: rest).takeWhile (· != '/'.toUInt8)))
        ((c :: rest).dropWhile (· != '/'.toUInt8)) := by
  rw [pathLoop, first]
  rfl

section Loop

variable (presents : Presents m fdt tokens strings tree) (short : path.length < 2 ^ 31)

include presents short

/-- The loop of `fdt_path_offset_namelen` follows the names of the rest of the path. -/
theorem Presents.pathLoop_some (node : IsNode strings tokens tree offset position)
    (nonneg : 0 ≤ offset) (enough : path.length ≤ turns)
    (found : tree.follow position ((pathNames path).map text) = some target) :
    0 ≤ pathLoop m fdt turns offset path ∧
      IsNode strings tokens tree (pathLoop m fdt turns offset path) target := by
  induction turns generalizing path offset position with
  | zero =>
    obtain rfl := List.length_eq_zero_iff.mp (Nat.le_zero.mp enough)
    obtain rfl : position = target := Option.some.inj found
    exact ⟨nonneg, node⟩
  | succ turns ih =>
    have less : (path.dropWhile (· == '/'.toUInt8)).length ≤ path.length :=
      (List.dropWhile_sublist _).length_le
    have first := List.head?_dropWhile_not (· == '/'.toUInt8) path
    rw [← pathNames_dropWhile] at found
    cases next : path.dropWhile (· == '/'.toUInt8) with
    | nil =>
      rw [next] at found
      obtain rfl : position = target := Option.some.inj found
      rw [pathLoop, next]
      exact ⟨nonneg, node⟩
    | cons c rest =>
      rw [next] at found first less
      have other : c ≠ '/'.toUInt8 := by simpa using first
      obtain ⟨named, rest_shorter⟩ := length_first rest other
      rw [pathNames_cons other, List.map_cons, follow_cons] at found
      obtain ⟨child, here, later⟩ := Option.bind_eq_some_iff.mp found
      obtain ⟨below, there⟩ := presents.subnodeOffset_some node (by omega) here
      rw [pathLoop_succ next, if_neg (Int32.not_lt.mpr below)]
      exact ih (by omega) there below (by omega) later

/-- It ends where a name is missing. -/
theorem Presents.pathLoop_none (node : IsNode strings tokens tree offset position)
    (enough : path.length ≤ turns)
    (missing : tree.follow position ((pathNames path).map text) = none) :
    pathLoop m fdt turns offset path = -fdtErrNotfound := by
  induction turns generalizing path offset position with
  | zero =>
    obtain rfl := List.length_eq_zero_iff.mp (Nat.le_zero.mp enough)
    exact absurd missing nofun
  | succ turns ih =>
    have less : (path.dropWhile (· == '/'.toUInt8)).length ≤ path.length :=
      (List.dropWhile_sublist _).length_le
    have first := List.head?_dropWhile_not (· == '/'.toUInt8) path
    rw [← pathNames_dropWhile] at missing
    cases next : path.dropWhile (· == '/'.toUInt8) with
    | nil =>
      rw [next] at missing
      exact absurd missing nofun
    | cons c rest =>
      rw [next] at missing first less
      have other : c ≠ '/'.toUInt8 := by simpa using first
      obtain ⟨named, rest_shorter⟩ := length_first rest other
      rw [pathNames_cons other, List.map_cons, follow_cons] at missing
      rw [pathLoop_succ next]
      cases here : tree.subnode position (text ((c :: rest).takeWhile (· != '/'.toUInt8))) with
      | none =>
        have negative : -fdtErrNotfound < 0 := by decide
        rw [presents.subnodeOffset_none node (by omega) here, if_pos negative]
      | some child =>
        rw [here] at missing
        obtain ⟨below, there⟩ := presents.subnodeOffset_some node (by omega) here
        rw [if_neg (Int32.not_lt.mpr below)]
        exact ih (by omega) there (by omega) missing

/-- `fdt_path_offset` finds the node that the names of an absolute path lead to. -/
theorem Presents.pathOffset_some
    (found : tree.follow [] ((pathNames path).map text) = some target) :
    0 ≤ fdtPathOffset m fdt path ∧
      IsNode strings tokens tree (fdtPathOffset m fdt path) target := by
  have run : fdtPathOffset m fdt path = pathLoop m fdt path.length 0 path := by
    unfold fdtPathOffset fdtPathOffsetNamelen
    rw [if_neg presents.readable.probe_nonneg]
  rw [run]
  exact presents.pathLoop_some short (isNode_root presents.root) (by decide) le_rfl found

/-- Where the names lead nowhere it returns `-FDT_ERR_NOTFOUND`. -/
theorem Presents.pathOffset_none
    (missing : tree.follow [] ((pathNames path).map text) = none) :
    fdtPathOffset m fdt path = -fdtErrNotfound := by
  unfold fdtPathOffset fdtPathOffsetNamelen
  rw [if_neg presents.readable.probe_nonneg]
  exact presents.pathLoop_none short (isNode_root presents.root) le_rfl missing

omit short

/-- The path of the root. -/
theorem Presents.pathOffset_root : fdtPathOffset m fdt ['/'.toUInt8] = 0 := by
  unfold fdtPathOffset fdtPathOffsetNamelen
  rw [if_neg presents.readable.probe_nonneg]
  rfl

/-- The path of a child of the root. -/
theorem Presents.pathOffset_child {name : List UInt8} (some : name ≠ []) (plain : '/'.toUInt8 ∉ name) :
    fdtPathOffset m fdt ('/'.toUInt8 :: name) = fdtSubnodeOffset m fdt 0 name := by
  obtain ⟨c, rest, rfl⟩ := List.exists_cons_of_ne_nil some
  have other (d : UInt8) (inside : d ∈ c :: rest) : (d != '/'.toUInt8) = true := by
    rw [bne_iff_ne]
    rintro rfl
    exact plain inside
  have head : c ≠ '/'.toUInt8 := bne_iff_ne.mp (other c (List.mem_cons_self ..))
  have first : ('/'.toUInt8 :: c :: rest).dropWhile (· == '/'.toUInt8) = c :: rest := by
    rw [List.dropWhile_cons_of_pos (by simp), List.dropWhile_cons_of_neg (by simpa using head)]
  have whole : (c :: rest).takeWhile (· != '/'.toUInt8) = c :: rest := List.takeWhile_eq_self_iff.mpr other
  have none : (c :: rest).dropWhile (· != '/'.toUInt8) = [] := List.dropWhile_eq_nil_iff.mpr other
  unfold fdtPathOffset fdtPathOffsetNamelen
  rw [if_neg presents.readable.probe_nonneg, List.length_cons, pathLoop_succ first, whole, none,
    List.length_cons, pathLoop, List.dropWhile_nil]
  exact ite_self _

end Loop

end DragonStub

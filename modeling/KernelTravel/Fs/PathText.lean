import KernelTravel.Fs.Resolution

/-!
# Counting the names of a path, and putting a path together

`path_depth_cnt` has a buffer for the names that it does not clear before the first one.
`path_parse` stores a name without a zero, and nothing at all if there is no name: the loop then
looks at what the stack held before.

`filename2path` appends the names from the entry up to the root, without a slash between them, and
then looks for slashes to take the names out in the other order. There are none.
-/

namespace KernelTravel.Fs

/-! ## The number of names -/

/-- The parts between the slashes, without the empty ones. -/
def components (path : List Byte) : List Name := (path.splitOn slash).filter (· ≠ [])

/-- `path_parse` with the buffer of the caller, which has `MAX_NAME_LEN` bytes. -/
def pathParseInto (path : List Byte) (name : Nat → Byte) :
    Option ((Nat → Byte) × Option (List Byte)) :=
  let parsed := pathParse path
  if parsed.1.length ≤ maxNameLen then
    some (Mem.blit name 0 parsed.1.length fun i => parsed.1.getD i 0, parsed.2)
  else none

/-- The loop of `path_depth_cnt`, with a bound for its rounds. -/
def depthLoop : Nat → Option (List Byte) → (Nat → Byte) → Nat → Option Nat
  | 0, _, _, _ => none
  | rounds + 1, p, name, depth =>
    if name 0 = 0 then some depth
    else
      match p with
      | none => depthLoop rounds none (fun _ => 0) (depth + 1)
      | some path => do
        let (name, p) ← pathParseInto path fun _ => 0
        depthLoop rounds p name (depth + 1)

/-- `path_depth_cnt`, where the buffer lies on what is on the stack. -/
def pathDepthCntOn (stack : Nat → Byte) (path : List Byte) : Option Nat := do
  let (name, p) ← pathParseInto path stack
  depthLoop (path.length + 2) p name 0

variable {path : List Byte}

theorem names_eq_components (path : List Byte) : names path = components path := by
  induction hlen : path.length using Nat.strong_induction_on generalizing path with
  | h len ih =>
    by_cases hmem : slash ∈ path
    · obtain ⟨n, rest, rfl, hn⟩ := List.eq_append_cons_of_mem hmem
      have hrest : rest.length < len := by
        rw [← hlen, List.length_append, List.length_cons]
        omega
      have hfirst : names n = [n].filter (· ≠ []) := by
        by_cases hne : n = []
        · rw [hne]
          rfl
        · rw [names_name ⟨hne, hn⟩, List.filter_singleton]
          simp [hne]
      rw [names_before_slash hn, ih _ hrest rest rfl, hfirst, components, components,
        List.splitOn_append_cons_self_of_not_mem hn, ← List.filter_append, List.singleton_append]
    · rw [components, List.splitOn_eq_singleton hmem, List.filter_singleton]
      by_cases hne : path = []
      · rw [hne]
        rfl
      · simp [names_name ⟨hne, hmem⟩, hne]

/-- A string of slashes has no name and no rest. -/
theorem pathParse_rest_none (h : (pathParse path).1 = []) : (pathParse path).2 = none := by
  simp only [pathParse] at h ⊢
  cases hdrop : path.dropWhile (· = slash) with
  | nil => rfl
  | cons c rest =>
    have hc : c ≠ slash := by
      have hhead := List.head?_dropWhile_not (fun c => decide (c = slash)) path
      rw [hdrop] at hhead
      exact of_decide_eq_false hhead
    rw [hdrop, List.takeWhile_cons_of_pos (by simpa using hc)] at h
    cases h

theorem pathParse_subset : (pathParse path).1 ⊆ path ∧
    ∀ rest ∈ (pathParse path).2, rest ⊆ path := by
  have hskip : path.dropWhile (· = slash) ⊆ path := (List.dropWhile_suffix _).subset
  refine ⟨fun c hc => hskip ((List.takeWhile_prefix _).subset hc), fun rest hrest => ?_⟩
  simp only [pathParse] at hrest
  split at hrest
  · cases hrest
  · cases hrest
    exact fun c hc => hskip ((List.dropWhile_suffix _).subset hc)

/-- A name in the buffer shows in its first byte. -/
theorem pathParseInto_eq (hzero : 0 ∉ path) (hshort : (pathParse path).1.length ≤ maxNameLen)
    (name : Nat → Byte) : ∃ name', pathParseInto path name = some (name', (pathParse path).2) ∧
      (name' 0 = 0 ↔ (pathParse path).1 = [] ∧ name 0 = 0) := by
  refine ⟨_, if_pos hshort, ?_⟩
  cases hparse : (pathParse path).1 with
  | nil => simp [Mem.blit_zero]
  | cons c rest =>
    have hc : c ≠ 0 := by
      rintro rfl
      exact hzero (pathParse_subset.1 (hparse ▸ List.mem_cons_self))
    simpa [Mem.blit_apply] using hc

theorem depthLoop_end {name : Nat → Byte} (h : name 0 = 0) (rounds : Nat) (p : Option (List Byte))
    (depth : Nat) : depthLoop (rounds + 1) p name depth = some depth := by
  cases p with
  | none => exact if_pos h
  | some path => exact if_pos h

theorem depthLoop_next {name : Nat → Byte} (h : name 0 ≠ 0) (rounds : Nat) (p : Option (List Byte))
    (depth : Nat) : depthLoop (rounds + 1) p name depth =
      match p with
      | none => depthLoop rounds none (fun _ => 0) (depth + 1)
      | some path =>
        (pathParseInto path fun _ => 0).bind fun out =>
          depthLoop rounds out.2 out.1 (depth + 1) := by
  cases p with
  | none => exact if_neg h
  | some path => exact if_neg h

/-- The loop counts the names, unless there is none and the buffer has not been cleared. -/
theorem depthLoop_eq {rounds : Nat} (hrounds : path.length ≤ rounds) (hzero : 0 ∉ path)
    (hshort : ∀ n ∈ namesFrom rounds path, n.length < maxNameLen) {name : Nat → Byte}
    (hname : (pathParse path).1 ≠ [] ∨ name 0 = 0) (depth : Nat) :
    (pathParseInto path name).bind (fun out => depthLoop (rounds + 1) out.2 out.1 depth) =
      some (depth + (namesFrom rounds path).length) := by
  induction rounds generalizing path name depth with
  | zero =>
    obtain rfl := List.length_eq_zero_iff.mp (Nat.le_zero.mp hrounds)
    obtain ⟨name', hinto, hfirst⟩ := pathParseInto_eq hzero (Nat.zero_le _) name
    rw [hinto, Option.bind_some, depthLoop_end (hfirst.mpr ⟨rfl, hname.resolve_left (· rfl)⟩)]
    rfl
  | succ rounds ih =>
    rw [namesFrom] at hshort ⊢
    by_cases hempty : (pathParse path).1 = []
    · obtain ⟨name', hinto, hfirst⟩ :=
        pathParseInto_eq hzero (by rw [hempty]; exact Nat.zero_le _) name
      rw [hinto, Option.bind_some,
        depthLoop_end (hfirst.mpr ⟨hempty, hname.resolve_left (· hempty)⟩), if_pos hempty]
      rfl
    · rw [if_neg hempty] at hshort ⊢
      obtain ⟨hlen, hrest⟩ := List.forall_mem_cons.mp hshort
      obtain ⟨name', hinto, hfirst⟩ := pathParseInto_eq hzero (Nat.le_of_lt hlen) name
      rw [hinto, Option.bind_some, depthLoop_next fun h => hempty (hfirst.mp h).1, List.length_cons]
      cases hp : (pathParse path).2 with
      | none => rfl
      | some rest =>
        rw [hp] at hrest
        have hlt := pathParse_rest_lt hempty hp
        have hnone : 0 ∉ rest := fun h => hzero (pathParse_subset.2 rest hp h)
        refine (ih (by omega) hnone hrest (.inr rfl) (depth + 1)).trans (congrArg some ?_)
        dsimp only
        omega

/-- A name covers the first byte of the buffer, so that the stack does not show. -/
theorem pathDepthCntOn_eq (stack : Nat → Byte) (hzero : 0 ∉ path)
    (hshort : ∀ n ∈ names path, n.length < maxNameLen) (hname : (pathParse path).1 ≠ []) :
    pathDepthCntOn stack path = some (pathDepthCnt path) := by
  have hfuel : namesFrom (path.length + 1) path = names path :=
    namesFrom_fuel (Nat.le_succ _) (Nat.le_refl _)
  have hrun :=
    depthLoop_eq (Nat.le_succ _) hzero (hfuel.symm ▸ hshort) (.inl hname : _ ∨ stack 0 = 0) 0
  rwa [hfuel, Nat.zero_add] at hrun

/-- The count is right exactly if there is a name or the stack held a zero. In every case the loop
comes to an end. -/
theorem depth_eq_components_iff (stack : Nat → Byte) (hzero : 0 ∉ path)
    (hshort : ∀ c ∈ components path, c.length < maxNameLen) : (pathDepthCntOn stack path).isSome ∧
      (pathDepthCntOn stack path = some (components path).length ↔
        components path ≠ [] ∨ stack 0 = 0) := by
  rw [← names_eq_components] at hshort ⊢
  by_cases hname : (pathParse path).1 = []
  · -- nothing has been stored
    have hnames : names path = [] := by
      rw [names]
      cases path.length with
      | zero => rfl
      | succ rounds => rw [namesFrom, if_pos hname]
    obtain ⟨name', hinto, hfirst⟩ :=
      pathParseInto_eq hzero (by rw [hname]; exact Nat.zero_le _) stack
    have hrun : pathDepthCntOn stack path = depthLoop (path.length + 2) none name' 0 := by
      rw [pathDepthCntOn, hinto, pathParse_rest_none hname]
      rfl
    rw [and_iff_right hname] at hfirst
    rw [hrun, hnames, List.length_nil, or_iff_right (not_not.mpr rfl)]
    by_cases hstack : stack 0 = 0
    · rw [depthLoop_end (hfirst.mpr hstack)]
      exact ⟨rfl, iff_of_true rfl hstack⟩
    · rw [depthLoop_next (mt hfirst.mp hstack)]
      dsimp only
      rw [depthLoop_end rfl]
      exact ⟨rfl, iff_of_false (by simp) hstack⟩
  · have hne : names path ≠ [] := by
      rw [names, namesFrom_fuel (Nat.le_refl _) (Nat.le_succ _), namesFrom, if_neg hname]
      exact List.cons_ne_nil _ _
    have hrun := pathDepthCntOn_eq stack hzero hshort hname
    exact ⟨Option.isSome_iff_exists.mpr ⟨_, hrun⟩, iff_of_true hrun (.inl hne)⟩

theorem depth_eq_components_iff_name : pathDepthCntOn (fun _ => 0xAA) [slash, 0x61] =
    some (components [slash, 0x61]).length :=
  (depth_eq_components_iff _ (by decide) (by decide)).2.mpr (.inl (by decide))

/-- The root has no name, and a byte of the stack is counted as one. -/
theorem root_depth_wrong : components [slash] = [] ∧ pathDepthCntOn (fun _ => 0xAA)
    [slash] = some 1 := by
  decide

/-! ## The path of an entry -/

namespace DirTree

variable (t : DirTree) (parent : Nat → Nat)

/-- `strcat` in a buffer of `MAX_PATH_LEN` bytes. -/
def strcatPath (s s' : List Byte) : Option (List Byte) :=
  if (s ++ s').length < maxPathLen then some (s ++ s') else none

/-- The first loop of `filename2path`. -/
def climb : Nat → Nat → List Byte → Option (List Byte)
  | 0, _, _ => none
  | rounds + 1, dir, buf =>
    if t.name (parent dir) = [slash] then some buf
    else do
      let buf ← strcatPath buf (t.name (parent dir))
      climb rounds (parent dir) buf

/-- The second loop: what follows the last slash is moved, and `MAX_NAME_LEN` bytes are cleared. -/
def moveNames : Nat → List Byte → List Byte → Option (List Byte)
  | 0, _, _ => none
  | rounds + 1, buf, newpath =>
    if buf.contains slash then do
      let front := buf.rdropWhile (· ≠ slash)
      let newpath ← strcatPath newpath (slash :: buf.rtakeWhile (· ≠ slash))
      if front.length - 1 + maxNameLen ≤ maxPathLen
        then moveNames rounds front.dropLast newpath else none
    else strcatPath newpath buf

def filename2path (rounds file : Nat) : Option (List Byte) := do
  let buf ← t.climb parent rounds file (t.name file)
  moveNames maxPathLen buf [slash]

/-- The entry is at the end of the directories with these names. -/
inductive Path : Nat → List Name → Prop
  | root : Path t.root []
  | child {d f : Nat} {ns : List Name} (above : Path d ns) (hparent : parent f = d)
    (hchild : f ∈ t.children d) :
      Path f (ns ++ [t.name f])

/-- The path of the entry is put together, and a search for it finds the entry. -/
def Reconstructs (rounds f : Nat) (ns : List Name) : Prop :=
  t.filename2path parent rounds f = some (pathOf ns) ∧ (t.searchFile (pathOf ns)).map Prod.fst =
    some (some f)

variable {t parent} {f d : Nat} {ns : List Name} {n : Name}

/-- The names are gathered from the entry up to the root. -/
theorem climb_eq (path : Path t parent d ns) (hroot : t.name t.root = [slash])
    (hns : ∀ n ∈ ns, IsName n)
    (hparent : parent f = d) {rounds : Nat} (hrounds : ns.length < rounds) {buf : List Byte}
    (hlen : (buf ++ ns.reverse.flatten).length < maxPathLen) :
    t.climb parent rounds f buf = some (buf ++ ns.reverse.flatten) := by
  induction path generalizing f rounds buf with
  | root =>
    obtain ⟨rounds, rfl⟩ : ∃ k, rounds = k + 1 := ⟨rounds - 1, by omega⟩
    rw [climb, hparent, if_pos hroot, List.reverse_nil, List.flatten_nil, List.append_nil]
  | @child up dir ns above hup hchild ih =>
    obtain ⟨rounds, rfl⟩ : ∃ k, rounds = k + 1 := ⟨rounds - 1, by omega⟩
    obtain ⟨habove, hdir⟩ := List.forall_mem_append.mp hns
    have hslash : t.name dir ≠ [slash] :=
      fun h => (hdir _ (List.mem_singleton_self _)).2 (h ▸ List.mem_singleton_self _)
    have hbuf : buf ++ (ns ++ [t.name dir]).reverse.flatten =
        (buf ++ t.name dir) ++ ns.reverse.flatten := by
      simp
    rw [hbuf] at hlen ⊢
    have hcat : strcatPath buf (t.name dir) = some (buf ++ t.name dir) := by
      refine if_pos (Nat.lt_of_le_of_lt ?_ hlen)
      exact (List.prefix_append _ _).length_le
    rw [climb, hparent, if_neg hslash, hcat]
    refine ih habove hup ?_ hlen
    rw [List.length_append, List.length_singleton] at hrounds
    omega

theorem length_flatten_lt (hne : ns ≠ []) :
    (slash :: ns.reverse.flatten).length ≤ (pathOf ns).length := by
  have hpath : (pathOf ns).length = ns.length + ns.flatten.length := by
    clear hne
    induction ns with
    | nil => rfl
    | cons n ns ih =>
      change (slash :: (n ++ pathOf ns)).length = _
      rw [List.length_cons, List.length_append, ih, List.flatten_cons, List.length_append,
        List.length_cons]
      omega
  have hsame : ns.reverse.flatten.length = ns.flatten.length := by
    simp [List.length_flatten]
  have hpos := List.length_pos_iff.mpr hne
  rw [List.length_cons, hsame, hpath]
  omega

theorem slash_not_mem_flatten (hns : ∀ n ∈ ns, IsName n) : slash ∉ ns.reverse.flatten := by
  intro hmem
  obtain ⟨n, hn, hin⟩ := List.mem_flatten.mp hmem
  exact (hns n (List.mem_reverse.mp hn)).2 hin

/-- The names of the path come without slashes, the last one first. -/
theorem filename2path_eq (path : Path t parent f ns) (hroot : t.name t.root = [slash])
    (hns : ∀ n ∈ ns, IsName n)
    (hne : ns ≠ []) (hlen : (pathOf ns).length < maxPathLen) {rounds : Nat}
    (hrounds : ns.length ≤ rounds) :
    t.filename2path parent rounds f = some (slash :: ns.reverse.flatten) := by
  have hshort := Nat.lt_of_le_of_lt (length_flatten_lt hne) hlen
  have hnone := slash_not_mem_flatten hns
  cases path with
  | root => exact absurd rfl hne
  | @child d _ ns above hparent hchild =>
    rw [List.reverse_append, List.reverse_singleton, List.singleton_append,
      List.flatten_cons] at hshort hnone ⊢
    have habove := (List.forall_mem_append.mp hns).1
    rw [List.length_append, List.length_singleton] at hrounds
    have hclimb : t.climb parent rounds f (t.name f) = some (t.name f ++ ns.reverse.flatten) :=
      climb_eq above hroot habove hparent hrounds (Nat.lt_of_succ_lt hshort)
    rw [filename2path, hclimb]
    change moveNames (511 + 1) _ _ = _
    rw [moveNames, if_neg (mt List.contains_iff_mem.mp hnone)]
    exact if_pos hshort

theorem isRootPath_single (hne : n ≠ []) : isRootPath (pathOf [n]) = false ↔
    n ≠ [dot] ∧ n ≠ [dot, dot] := by
  have hpath : pathOf [n] = slash :: n := by simp [pathOf]
  rw [hpath, ← Bool.not_eq_true]
  simp [isRootPath, hne, dot]

/-- The entry that a search for a path with one name finds. -/
theorem searchFile_single (hname : IsName n) (hlen : (pathOf [n]).length < maxPathLen) :
    (t.searchFile (pathOf [n])).map Prod.fst = some (some f) ↔ (n ≠ [dot] ∧ n ≠ [dot, dot]) ∧
      ∃ e, t.searchDirTree t.root n = some e ∧
      (if t.type e = .dir then (t.mounted e).getD e else e) = f := by
  rw [← isRootPath_single hname.1]
  cases hroot : isRootPath (pathOf [n]) with
  | true => simp [searchFile, hroot]
  | false =>
    obtain ⟨found, hsearch⟩ : ∃ found, t.searchFile (pathOf ([] ++ [n])) =
        some (t.searchLoop [n] t.root ⟨pathOf [], t.recorded [], .unknown⟩ found) :=
      searchFile_last (List.forall_mem_nil _) hname hlen hroot rfl
    rw [List.nil_append] at hsearch
    rw [hsearch, Option.map_some, searchLoop]
    cases hentry : t.searchDirTree t.root n with
    | none => simp
    | some e => cases htype : t.type e <;> simp [searchLoop, htype]

theorem count_slash_pathOf (hns : ∀ n ∈ ns, IsName n) : (pathOf ns).count slash = ns.length := by
  induction ns with
  | nil => rfl
  | cons n ns ih =>
    obtain ⟨hn, hns⟩ := List.forall_mem_cons.mp hns
    change (slash :: (n ++ pathOf ns)).count slash = _
    rw [List.count_cons_self, List.count_append, List.count_eq_zero.mpr hn.2, ih hns, Nat.zero_add,
      List.length_cons]

theorem Path.last (path : Path t parent f ns) (hne : ns ≠ []) : ∃ up, ns = up ++ [t.name f] := by
  cases path with
  | root => exact absurd rfl hne
  | child => exact ⟨_, rfl⟩

/-- The path is right for the entries of the root only. The search finds such an entry if it is
the first with its name, the name is not that of a directory itself or of its parent, and
nothing is mounted on it. -/
theorem reconstructs_iff (path : Path t parent f ns) (hroot : t.name t.root = [slash])
    (hns : ∀ n ∈ ns, IsName n) (hne : ns ≠ []) (hlen : (pathOf ns).length < maxPathLen)
    (hmount : ∀ e, t.mounted e ≠ some f) {rounds : Nat} (hrounds : ns.length ≤ rounds) :
    t.Reconstructs parent rounds f ns ↔ ns.length = 1 ∧ (t.name f ≠ [dot] ∧ t.name f ≠ [dot, dot]) ∧
      t.searchDirTree t.root (t.name f) = some f ∧ (t.type f = .dir → t.mounted f = none) := by
  rw [Reconstructs, filename2path_eq path hroot hns hne hlen hrounds]
  have hcount : slash :: ns.reverse.flatten = pathOf ns → ns.length = 1 := by
    intro heq
    rw [← count_slash_pathOf hns, ← heq, List.count_cons_self,
      List.count_eq_zero.mpr (slash_not_mem_flatten hns)]
  by_cases hone : ns.length = 1
  · obtain ⟨n, rfl⟩ := List.length_eq_one_iff.mp hone
    obtain ⟨up, hup⟩ := path.last hne
    obtain rfl : n = t.name f := by simpa using congrArg List.getLast? hup
    have hpath : slash :: [t.name f].reverse.flatten = pathOf [t.name f] := by simp [pathOf]
    rw [hpath, searchFile_single (hns _ (List.mem_singleton_self _)) hlen, and_iff_right rfl,
      and_iff_right hone]
    refine and_congr_right fun _ => ⟨?_, fun h => ⟨f, h.1, ?_⟩⟩
    · rintro ⟨e, hfound, hland⟩
      split at hland
      · next hdir =>
        cases hroot : t.mounted e with
        | none =>
          rw [hroot] at hland
          cases hland
          exact ⟨hfound, fun _ => hroot⟩
        | some r =>
          rw [hroot] at hland
          exact absurd (hroot.trans (congrArg some hland)) (hmount e)
      · next hdir =>
        cases hland
        exact ⟨hfound, fun h => absurd h hdir⟩
    · split
      · next hdir => rw [h.2 hdir, Option.getD_none]
      · rfl
  · exact iff_of_false (fun h => hone (hcount (Option.some.inj h.1))) fun h => hone h.1

/-- A file `a` in the directory `a` of the root. -/
def twoLevels : DirTree where
  root := 0
  name e := if e = 0 then [slash] else [0x61]
  type e := if e = 2 then .file else .dir
  children e := if e = 2 then [] else [e + 1]
  mounted _ := none

theorem twoLevels_paths : Path twoLevels Nat.pred 1 [[0x61]] ∧
    Path twoLevels Nat.pred 2 [[0x61], [0x61]] := by
  have hfirst : Path twoLevels Nat.pred 1 ([] ++ [twoLevels.name 1]) :=
    .child .root rfl List.mem_cons_self
  exact ⟨hfirst, .child hfirst rfl List.mem_cons_self⟩

theorem reconstructs_iff_child : twoLevels.Reconstructs Nat.pred 1 1 [[0x61]] :=
  (reconstructs_iff twoLevels_paths.1 rfl (by decide) (by decide) (by decide) (fun _ => nofun)
    (Nat.le_refl 1)).mpr ⟨rfl, by decide, rfl, fun _ => rfl⟩

/-- The path of the file comes out as `/aa`, under which there is nothing. -/
theorem twoLevels_wrong : Path twoLevels Nat.pred 2 [[0x61], [0x61]] ∧
    twoLevels.filename2path Nat.pred 2 2 = some [slash, 0x61, 0x61] ∧
      (twoLevels.searchFile [slash, 0x61, 0x61]).map Prod.fst = some none ∧
        ¬twoLevels.Reconstructs Nat.pred 2 2 [[0x61], [0x61]] := by
  refine ⟨twoLevels_paths.2, by decide +kernel, by decide, fun h => ?_⟩
  have hpath : twoLevels.filename2path Nat.pred 2 2 = some [slash, 0x61, 0x61] := by decide +kernel
  exact absurd (hpath.symm.trans h.1) (by decide)

end DirTree

end KernelTravel.Fs

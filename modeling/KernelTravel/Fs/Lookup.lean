import KernelTravel.Fs.Path

/-!
# Path lookup

`search_file` with the pointers that it follows. A directory on whose entry a file system is
mounted has a mount structure of its own, and the search compares it with that of the parent
of the entry. The entries of `/proc` have a mount structure and no parent, and the search
dereferences a null pointer there. For a path that has no name and is not a name of the root,
such as `//`, the answer is the variable `dir_e`, which has not been set.

`follow` is what the search is for: the entry that the names of the path lead to, through
directories only. The loop of the source differs from it in three ways: a file ends the search
also where names are left, an entry that is neither a file nor a directory is passed over, and
the record is written only when the search goes down.
-/

namespace KernelTravel.Fs

/-- The entries in memory, with `head` and `parent_dirent`, and the `mnt_rootdir` of the mount
structures. -/
structure Dentries where
  root : Nat
  name : Nat → Name
  type : Nat → DirentType
  children : Nat → List Nat
  head : Nat → Option Nat
  parentDirent : Nat → Option Nat
  mntRootdir : Nat → Option Nat

namespace Dentries

def searchDirTree (d : Dentries) (parent : Nat) (name : Name) : Option Nat :=
  (d.children parent).find? fun entry => d.name entry = name

/-- From a directory to the file system mounted on it. `none` is a null pointer that is
dereferenced. -/
def crossMount (d : Dentries) (e : Nat) : Option Nat :=
  match d.head e with
  | none => some e
  | some h =>
    match d.parentDirent e with
    | none => none
    | some p => some (if d.head p = some h then e else (d.mntRootdir h).getD e)

/-- The loop of `search_file`. -/
def searchLoop (d : Dentries) :
    List Name → Nat → SearchRecord → Option Nat → Option (Option Nat × SearchRecord)
  | [], _, record, dirE => some (dirE, { record with fileType := .dir })
  | name :: rest, parent, record, _ =>
    let record := { record with searchedPath := record.searchedPath ++ slash :: name }
    match d.searchDirTree parent name with
    | none => some (none, record)
    | some e =>
      if d.type e = .dir then
        (d.crossMount e).bind fun dir =>
          d.searchLoop rest dir { record with parentDir := parent } (some dir)
      else if d.type e = .file then some (some e, { record with fileType := .file })
      else d.searchLoop rest parent record (some e)

/-- `dirE` is what the variable `dir_e` holds before it is set. -/
def searchFile (d : Dentries) (dirE : Option Nat) (path : List Byte) :
    Option (Option Nat × SearchRecord) :=
  if DirTree.isRootPath path then some (none, ⟨[], d.root, .dir⟩)
  else if path.head? = some slash ∧ 1 < path.length ∧ path.length < maxPathLen then
    d.searchLoop (names path) d.root ⟨[], d.root, .unknown⟩ dirE
  else none

/-- The search with which the calls begin. The inner `none` says that not all of the path was
gone through. -/
def locate (d : Dentries) (dirE : Option Nat) (path : List Byte) : Option (Option (Option Nat)) :=
  (d.searchFile dirE path).map fun (found, record) =>
    if pathDepthCnt path ≠ pathDepthCnt record.searchedPath then none else some found

/-! ## The search without the pointers

`Fs.Path` has the same loop on a tree in which the entries know what is mounted on them. -/

/-- The same entries, with what is mounted on each. -/
def tree (d : Dentries) : DirTree where
  root := d.root
  name := d.name
  type := d.type
  children := d.children
  mounted e := (d.crossMount e).filter (· ≠ e)

variable {d : Dentries} {ns rest : List Name} {dir up e : Nat} {record : SearchRecord}
  {found : Option Nat}
  {path : List Byte}

theorem tree_mounted (h : d.crossMount e = some dir) : (d.tree.mounted e).getD e = dir := by
  simp only [tree, h, Option.filter_some, decide_not, Bool.not_eq_true', decide_eq_false_iff_not]
  split
  · rfl
  · next heq => exact (not_not.mp heq).symm

/-- Where no null pointer is met, the search is that of the tree. -/
theorem searchLoop_tree {answer : Option Nat × SearchRecord}
    (h : d.searchLoop ns dir record found = some answer) :
    d.tree.searchLoop ns dir record found = answer := by
  induction ns generalizing dir record found with
  | nil => exact Option.some.inj h
  | cons name rest ih =>
    have hsearch : d.tree.searchDirTree dir name = d.searchDirTree dir name := rfl
    simp only [searchLoop] at h
    rw [DirTree.searchLoop, hsearch]
    cases hentry : d.searchDirTree dir name with
    | none =>
      rw [hentry] at h
      exact Option.some.inj h
    | some e =>
      rw [hentry] at h
      have htype : d.tree.type e = d.type e := rfl
      simp only at h ⊢
      rw [htype]
      by_cases hdir : d.type e = .dir
      · rw [if_pos hdir] at h
        obtain ⟨next, hcross, hrest⟩ := Option.bind_eq_some_iff.mp h
        simp only [hdir, tree_mounted hcross]
        exact ih hrest
      · rw [if_neg hdir] at h
        by_cases hfile : d.type e = .file
        · rw [if_pos hfile] at h
          simp only [hfile]
          exact Option.some.inj h
        · rw [if_neg hfile] at h
          have hrest := ih h
          split
          · next heq => exact absurd heq hdir
          · next heq => exact absurd heq hfile
          · exact hrest

/-- A path with a name does not depend on what `dir_e` held. -/
theorem searchFile_tree {dirE : Option Nat} {answer : Option Nat × SearchRecord}
    (hnames : names path ≠ [])
    (h : d.searchFile dirE path = some answer) : d.tree.searchFile path = some answer := by
  rw [searchFile] at h
  rw [DirTree.searchFile]
  split
  · next hroot =>
    rw [if_pos hroot] at h
    exact h
  · next hroot =>
    rw [if_neg hroot] at h
    split
    · next hpath =>
      rw [if_pos hpath] at h
      obtain ⟨name, rest, hcons⟩ := List.exists_cons_of_ne_nil hnames
      rw [hcons] at h ⊢
      exact congrArg some
        (@searchLoop_tree d (name :: rest) d.root ⟨[], d.root, .unknown⟩ none answer h)
    · next hpath =>
      rw [if_neg hpath] at h
      cases h

/-! ## What the search is for -/

/-- The entry that the names lead to, through directories only. -/
def follow (d : Dentries) : Nat → List Name → Option Nat
  | dir, [] => some dir
  | dir, name :: rest =>
    match d.searchDirTree dir name with
    | none => none
    | some e => if rest = [] then some e else if d.type e = .dir then d.follow e rest else none

/-- The directory in which the last of the names is looked up. -/
def lookedUpIn (d : Dentries) : Nat → List Name → Nat
  | dir, [] => dir
  | dir, name :: rest =>
    match d.searchDirTree dir name with
    | none => dir
    | some e => if rest = [] then dir else if d.type e = .dir then d.lookedUpIn e rest else dir

/-- The search answers with the entry the path leads to, and the record names the directory of
the last name. -/
def Finds (d : Dentries) (dirE : Option Nat) (path : List Byte) : Prop :=
  ∃ record, d.searchFile dirE path = some (d.follow d.root (names path), record) ∧
    record.parentDir = d.lookedUpIn d.root (names path)

/-- No directory leads to another file system. -/
def Unmounted (d : Dentries) : Prop :=
  ∀ e h p, d.head e = some h → d.parentDirent e = some p → d.head p = some h ∨ d.mntRootdir h = none

/-- The search can go on at the directory `e`. -/
def Anchored (d : Dentries) (e : Nat) : Prop := d.head e = none ∨ d.parentDirent e ≠ none

instance (d : Dentries) (e : Nat) : Decidable (d.Anchored e) := inferInstanceAs (Decidable (_ ∨ _))

theorem Unmounted.crossMount (unmounted : d.Unmounted) (e : Nat) :
    d.crossMount e = if d.Anchored e then some e else none := by
  cases hhead : d.head e with
  | none => simp [Dentries.crossMount, Anchored, hhead]
  | some h =>
    cases hparent : d.parentDirent e with
    | none => simp [Dentries.crossMount, Anchored, hhead, hparent]
    | some p =>
      simp only [Dentries.crossMount, Anchored, hhead, hparent, ne_eq, reduceCtorEq,
        not_false_eq_true, or_true, if_true, Option.some.injEq]
      rcases unmounted e h p hhead hparent with hsame | hnone
      · exact if_pos hsame
      · rw [hnone]
        exact ite_self e

/-- The entry is neither a directory nor a file. -/
def Other (d : Dentries) (e : Nat) : Prop := d.type e ≠ .dir ∧ d.type e ≠ .file

instance (d : Dentries) (e : Nat) : Decidable (d.Other e) := inferInstanceAs (Decidable (_ ∧ _))

/-- The names without those at their front that other entries of `dir` have. -/
def beyond (d : Dentries) (dir : Nat) (ns : List Name) : List Name :=
  ns.dropWhile fun n => (d.searchDirTree dir n).any fun e => d.Other e

/-- The first of the names that no other entry of `dir` has is missing in `dir`. -/
def Missing (d : Dentries) (dir : Nat) (ns : List Name) : Prop :=
  ∃ name, (d.beyond dir ns).head? = some name ∧ d.searchDirTree dir name = none

/-- The names behind that of an entry of `dir` which is no directory lead nowhere, and the record
ends at `dir`: because it was there and a name is missing, or because the names lead down into
one directory and one is missing there. -/
def Astray (d : Dentries) (rest : List Name) (up dir : Nat) : Prop :=
  (up = dir ∧ d.Missing dir rest) ∨
    ∃ name rest' e, d.beyond dir rest = name :: rest' ∧ d.searchDirTree dir name = some e ∧
      d.type e = .dir ∧ d.Anchored e ∧ d.Missing e rest'

/-- The search for the names from `dir` is right, where `up` is the directory in the record. -/
def Straight (d : Dentries) : List Name → Nat → Nat → Prop
  | [], _, _ => True
  | name :: rest, up, dir =>
    match d.searchDirTree dir name with
    | none => up = dir
    | some e =>
      if d.type e = .dir then d.Anchored e ∧ d.Straight rest dir e
      else if rest = [] then up = dir
      else d.type e ≠ .file ∧ d.Astray rest up dir

/-- When a search is right. -/
def Findable (d : Dentries) (dirE : Option Nat) (path : List Byte) : Prop :=
  if DirTree.isRootPath path then d.follow d.root (names path) = none
  else if names path = [] then dirE = some d.root
  else d.Straight (names path) d.root d.root

/-- Every entry is one level below the directory it lies in. -/
def Layered (d : Dentries) (level : Nat → Nat) : Prop :=
  ∀ dir, ∀ e ∈ d.children dir, level e = level dir + 1

variable {level : Nat → Nat} {name : Name}

theorem Layered.lt (layered : d.Layered level) (h : d.searchDirTree dir name = some e) :
    level dir < level e :=
  (layered dir e (List.mem_of_find?_eq_some h)).symm ▸ Nat.lt_succ_self _

theorem beyond_cons (h : d.searchDirTree dir name = some e) (hother : d.Other e) :
    d.beyond dir (name :: rest) = d.beyond dir rest := by
  simp [beyond, h, hother]

theorem beyond_eq_cons (h : ∀ e, d.searchDirTree dir name = some e → ¬d.Other e) :
    d.beyond dir (name :: rest) = name :: rest := by
  cases hentry : d.searchDirTree dir name with
  | none => simp [beyond, hentry]
  | some e => simp [beyond, hentry, h e hentry]

theorem not_missing_cons (h : d.searchDirTree dir name = some e) (hother : ¬d.Other e) :
    ¬d.Missing dir (name :: rest) := by
  rintro ⟨_, hhead, hnone⟩
  rw [beyond_eq_cons fun e' he' => Option.some.inj (h.symm.trans he') ▸ hother] at hhead
  obtain rfl := Option.some.inj hhead
  cases h.symm.trans hnone

/-- The record that a search leaves is the one it began with, or it is not above the directory
where the search began. -/
theorem searchLoop_parentDir (layered : d.Layered level) (unmounted : d.Unmounted)
    (hup : record.parentDir = up) {answer : Option Nat × SearchRecord}
    (h : d.searchLoop ns dir record found = some answer) :
    answer.2.parentDir = up ∨ level dir ≤ level answer.2.parentDir := by
  induction ns generalizing dir record found up with
  | nil =>
    obtain rfl := Option.some.inj h
    exact .inl hup
  | cons name rest ih =>
    simp only [searchLoop] at h
    cases hentry : d.searchDirTree dir name with
    | none =>
      rw [hentry] at h
      obtain rfl := Option.some.inj h
      exact .inl hup
    | some e =>
      rw [hentry] at h
      simp only at h
      split at h
      · rw [unmounted.crossMount] at h
        split at h
        · rcases ih rfl h with heq | hle
          · exact .inr (heq ▸ Nat.le_refl _)
          · exact .inr ((layered.lt hentry).le.trans hle)
        · cases h
      · split at h
        · obtain rfl := Option.some.inj h
          exact .inl hup
        · refine ih ?_ h
          exact hup

/-- The search from `dir` answers nothing and leaves the record at `last`. -/
def EndsAt (d : Dentries) (ns : List Name) (dir : Nat) (record : SearchRecord) (found : Option Nat)
    (last : Nat) : Prop :=
  ∃ record', d.searchLoop ns dir record found = some (none, record') ∧ record'.parentDir = last

theorem endsAt_other {last : Nat} (h : d.searchDirTree dir name = some e) (hother : d.Other e) :
    d.EndsAt (name :: rest) dir record found last ↔
      d.EndsAt rest dir { record with searchedPath := record.searchedPath ++ slash :: name }
        (some e) last := by
  simp only [EndsAt, searchLoop, h, if_neg hother.1, if_neg hother.2]

theorem endsAt_dir {last : Nat} (unmounted : d.Unmounted) (h : d.searchDirTree dir name = some e)
    (hdir : d.type e = .dir) :
    d.EndsAt (name :: rest) dir record found last ↔ d.Anchored e ∧ d.EndsAt rest e
      { record with searchedPath := record.searchedPath ++ slash :: name, parentDir := dir }
      (some e) last := by
  simp only [EndsAt, searchLoop, h, if_pos hdir, unmounted.crossMount]
  by_cases hanchor : d.Anchored e
  · simp [hanchor]
  · simp [hanchor]

theorem not_endsAt_file {last : Nat} (h : d.searchDirTree dir name = some e)
    (hfile : d.type e = .file) : ¬d.EndsAt (name :: rest) dir record found last := by
  simp [EndsAt, searchLoop, h, hfile]

theorem endsAt_missing {last : Nat} (h : d.searchDirTree dir name = none) :
    d.EndsAt (name :: rest) dir record found last ↔ record.parentDir = last := by
  simp [EndsAt, searchLoop, h]

theorem endsAt_up_iff (layered : d.Layered level) (unmounted : d.Unmounted)
    (hup : record.parentDir = up) (hlevel : level up < level dir) (hfound : found ≠ none) :
    d.EndsAt ns dir record found up ↔ d.Missing dir ns := by
  induction ns generalizing record found with
  | nil => simp [EndsAt, searchLoop, Missing, beyond, hfound]
  | cons name rest ih =>
    cases hentry : d.searchDirTree dir name with
    | none =>
      rw [endsAt_missing hentry, Missing, beyond_eq_cons fun e he => by cases hentry.symm.trans he]
      exact ⟨fun _ => ⟨name, rfl, hentry⟩, fun _ => hup⟩
    | some e =>
      by_cases hother : d.Other e
      · rw [endsAt_other hentry hother, Missing, beyond_cons hentry hother]
        exact ih hup (Option.some_ne_none e)
      · -- below `e` the record stays below `up`
        refine iff_of_false ?_ (not_missing_cons hentry hother)
        by_cases hdir : d.type e = .dir
        · rw [endsAt_dir unmounted hentry hdir]
          rintro ⟨-, record', hloop, hlast⟩
          rcases searchLoop_parentDir layered unmounted rfl hloop with heq | hle
          · exact absurd (heq.symm.trans hlast) fun h => absurd hlevel (h ▸ Nat.lt_irrefl _)
          · rw [hlast] at hle
            exact absurd (hlevel.trans (layered.lt hentry)) (Nat.not_lt.mpr hle)
        · exact not_endsAt_file hentry (not_not.mp fun hfile => hother ⟨hdir, hfile⟩)

theorem endsAt_dir_iff (layered : d.Layered level) (unmounted : d.Unmounted)
    (hup : record.parentDir = up) (hfound : found ≠ none) :
    d.EndsAt ns dir record found dir ↔ d.Astray ns up dir := by
  induction ns generalizing record found with
  | nil => simp [EndsAt, searchLoop, Astray, Missing, beyond, hfound]
  | cons name rest ih =>
    cases hentry : d.searchDirTree dir name with
    | none =>
      have hbeyond : d.beyond dir (name :: rest) = name :: rest :=
        beyond_eq_cons fun e he => by cases hentry.symm.trans he
      rw [endsAt_missing hentry, hup, Astray, Missing, hbeyond]
      refine ⟨fun heq => .inl ⟨heq, name, rfl, hentry⟩, ?_⟩
      rintro (⟨heq, -⟩ | ⟨_, _, e, hcons, he, -⟩)
      · exact heq
      · cases hcons
        cases hentry.symm.trans he
    | some e =>
      by_cases hother : d.Other e
      · rw [endsAt_other hentry hother, Astray, Missing, beyond_cons hentry hother]
        exact ih hup (Option.some_ne_none e)
      · have hbeyond : d.beyond dir (name :: rest) = name :: rest :=
          beyond_eq_cons fun e' he' => Option.some.inj (hentry.symm.trans he') ▸ hother
        by_cases hdir : d.type e = .dir
        · rw [endsAt_dir unmounted hentry hdir, Astray, hbeyond,
            endsAt_up_iff layered unmounted rfl (layered.lt hentry) (Option.some_ne_none e)]
          refine ⟨fun h => .inr ⟨name, rest, e, rfl, hentry, hdir, h⟩, ?_⟩
          rintro (⟨-, hmissing⟩ | ⟨_, _, e', hcons, he', -, h⟩)
          · exact absurd hmissing (not_missing_cons hentry hother)
          · cases hcons
            cases hentry.symm.trans he'
            exact h
        · have hfile : d.type e = .file := not_not.mp fun hfile => hother ⟨hdir, hfile⟩
          refine iff_of_false (not_endsAt_file hentry hfile) ?_
          rintro (⟨-, hmissing⟩ | ⟨_, _, e', hcons, he', hdir', -⟩)
          · exact not_missing_cons hentry hother hmissing
          · cases hbeyond.symm.trans hcons
            cases hentry.symm.trans he'
            exact hdir hdir'

theorem searchLoop_right_iff (layered : d.Layered level) (unmounted : d.Unmounted) (hne : ns ≠ []) :
    (∃ record', d.searchLoop ns dir record found = some (d.follow dir ns, record') ∧
      record'.parentDir = d.lookedUpIn dir ns) ↔ d.Straight ns record.parentDir dir := by
  induction ns generalizing dir record found with
  | nil => exact absurd rfl hne
  | cons name rest ih =>
    simp only [searchLoop, follow, lookedUpIn, Straight]
    cases d.searchDirTree dir name with
    | none =>
      simp only [Option.some.injEq, Prod.mk.injEq, true_and]
      exact exists_eq_left'
    | some e =>
      simp only
      by_cases hdir : d.type e = .dir
      · -- the search goes down, and the record names the directory it leaves
        simp only [if_pos hdir, unmounted.crossMount]
        by_cases hanchor : d.Anchored e
        · simp only [hanchor, if_true, Option.bind_some, true_and]
          cases rest with
          | nil => simp [searchLoop, Straight]
          | cons next rest =>
            simp only [reduceCtorEq, if_false]
            exact @ih e _ (some e) (List.cons_ne_nil _ _)
        · simp [hanchor]
      · simp only [if_neg hdir]
        by_cases hlast : rest = []
        · subst hlast
          simp only [searchLoop, if_true]
          by_cases hfile : d.type e = .file
          · simp [hfile]
          · simp [hfile]
        · by_cases hfile : d.type e = .file
          · simp [hlast, hfile]
          · -- the entry is passed over, and the rest must come to nothing
            simp only [hlast, hfile, if_false, ne_eq, not_false_eq_true, true_and]
            exact endsAt_dir_iff layered unmounted rfl (Option.some_ne_none e)

/-- When `search_file` finds what an absolute path leads to. -/
theorem finds_iff (layered : d.Layered level) (unmounted : d.Unmounted) (dirE : Option Nat)
    (habsolute : path.head? = some slash) (hlen : path.length < maxPathLen) :
    d.Finds dirE path ↔ d.Findable dirE path := by
  rw [Finds, Findable, searchFile]
  by_cases hroot : DirTree.isRootPath path = true
  · simp only [if_pos hroot, Option.some.injEq, Prod.mk.injEq]
    have hup : d.lookedUpIn d.root (names path) = d.root := by
      rcases (by simpa [DirTree.isRootPath, or_assoc] using hroot :
        path = [slash] ∨ path = [slash, 0x2E] ∨ path = [slash, 0x2E, 0x2E]) with rfl | rfl | rfl
      · rfl
      · have hnames : names [slash, 0x2E] = [[0x2E]] := by decide
        rw [hnames, lookedUpIn]
        split <;> rfl
      · have hnames : names [slash, 0x2E, 0x2E] = [[0x2E, 0x2E]] := by decide
        rw [hnames, lookedUpIn]
        split <;> rfl
    rw [hup]
    constructor
    · rintro ⟨record, ⟨hnone, -⟩, -⟩
      exact hnone.symm
    · intro hnone
      exact ⟨_, ⟨hnone.symm, rfl⟩, rfl⟩
  · have htwo : 1 < path.length := by
      match path, habsolute with
      | [c], habsolute =>
        obtain rfl := Option.some.inj habsolute
        exact absurd rfl hroot
      | _ :: _ :: _, _ => exact Nat.succ_lt_succ (Nat.succ_pos _)
    rw [if_neg hroot, if_neg hroot, if_pos ⟨habsolute, htwo, hlen⟩]
    by_cases hnames : names path = []
    · rw [if_pos hnames, hnames]
      simp [searchLoop, follow, lookedUpIn]
    · rw [if_neg hnames]
      exact searchLoop_right_iff layered unmounted hnames

/-! ## An example -/

/-- A directory `a` in the root, and in it a file `f` and a link `l`. -/
def smallTree : Dentries where
  root := 0
  name e := if e = 1 then [0x61] else if e = 2 then [0x66] else [0x6C]
  type e := if e = 2 then .file else if e = 3 then .softlink else .dir
  children e := if e = 0 then [1] else if e = 1 then [2, 3] else []
  head _ := some 0
  parentDirent e := if e = 0 then none else if e = 1 then some 0 else some 1
  mntRootdir _ := some 0

theorem smallTree_unmounted : smallTree.Unmounted := by
  intro e h p hhead _
  exact .inl hhead

theorem smallTree_layered : smallTree.Layered fun e => min e 2 := by
  intro dir e he
  match dir with
  | 0 => simp_all [smallTree]
  | 1 => rcases (by simpa [smallTree] using he : e = 2 ∨ e = 3) with rfl | rfl <;> rfl
  | dir + 2 => simp [smallTree] at he

/-- `/a` is found, and for `/a/f` the record is wrong. -/
theorem finds_iff_smallTree :
    smallTree.Finds none [slash, 0x61] ∧ ¬smallTree.Finds none (pathOf [[0x61], [0x66]]) := by
  rw [finds_iff smallTree_layered smallTree_unmounted none rfl (by decide),
    finds_iff smallTree_layered smallTree_unmounted none rfl (by decide)]
  have ha : names [slash, 0x61] = [[0x61]] := by decide
  have haf : names (pathOf [[0x61], [0x66]]) = [[0x61], [0x66]] := by decide
  have hdown : smallTree.searchDirTree 0 [0x61] = some 1 := by decide
  have hfile : smallTree.searchDirTree 1 [0x66] = some 2 := by decide
  have htype : smallTree.type 1 = .dir ∧ smallTree.type 2 = .file := by decide
  have hroot : smallTree.root = 0 := rfl
  constructor
  · rw [Findable, if_neg (by decide), if_neg (by rw [ha]; simp), ha, hroot]
    simp only [Straight, hdown, if_pos htype.1, and_true]
    decide
  · rw [Findable, if_neg (by decide), if_neg (by rw [haf]; simp), haf, hroot]
    simp only [Straight, hdown, if_pos htype.1, hfile, htype.2, reduceCtorEq, if_false, if_true]
    exact fun h => absurd h.2 (by decide)

/-- The root is not found. The record for `/a/f` names the root. For `/a/f/x` the file `f` is
found, and for `/a/l/f` too. -/
theorem smallTree_lookups :
    ((smallTree.searchFile none [slash]).map Prod.fst = some none ∧
      smallTree.follow 0 (names [slash]) = some 0) ∧
      ((smallTree.searchFile none (pathOf [[0x61], [0x66]])).map fun r => (r.1, r.2.parentDir)) =
      some (some 2, 0) ∧
      ((smallTree.searchFile none (pathOf [[0x61], [0x66], [0x78]])).map Prod.fst = some (some 2) ∧
        smallTree.follow 0 [[0x61], [0x66], [0x78]] = none) ∧
      (smallTree.searchFile none (pathOf [[0x61], [0x6C], [0x66]])).map Prod.fst = some (some 2) ∧
        smallTree.follow 0 [[0x61], [0x6C], [0x66]] = none := by
  decide

end Dentries

end KernelTravel.Fs

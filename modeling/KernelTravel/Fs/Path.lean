import KernelTravel.Lib.Bytes
import Mathlib.Data.List.DropRight

/-!
# Searching a path in the tree of entries

`fs/path.c`. A path is a string of bytes without its zero. `search_file` goes down the tree
of directory entries that are in memory and leaves a record of how far it came. The record
is meant to name the directory that holds the last name of the path. It is only written when
the search goes down into a directory, and then with the directory that it leaves: for a
last name that is missing it names the parent of the directory that was searched for it,
unless that directory is the root.
-/

namespace KernelTravel.Fs

/-- `enum dirent_type`. -/
inductive DirentType where
  | dir
  | file
  | chardev
  | blkdev
  | unknown
  | softlink
  deriving DecidableEq

abbrev Name := List Byte

def slash : Byte := 0x2F

def maxPathLen : Nat := 512

/-- The next name of a path, and the rest unless the path is at its end. -/
def pathParse (path : List Byte) : Name × Option (List Byte) :=
  let path := path.dropWhile (· = slash)
  let rest := path.dropWhile (· ≠ slash)
  (path.takeWhile (· ≠ slash), if rest = [] then none else some rest)

/-- The names that a loop over `path_parse` sees; it stops at an empty one. They have to fit into
the buffers of `MAX_NAME_LEN` bytes, which `path_parse` does not know of. -/
def namesFrom : Nat → List Byte → List Name
  | 0, _ => []
  | fuel + 1, path =>
    let parsed := pathParse path
    if parsed.1 = [] then []
    else parsed.1 :: (match parsed.2 with
      | none => []
      | some rest => namesFrom fuel rest)

/-- Every name takes a byte of the path. -/
def names (path : List Byte) : List Name := namesFrom path.length path

/-- `path_depth_cnt` for a path with a name. For one without, it looks at a byte that has not been
set; `pathDepthCntOn` has it as a parameter. -/
def pathDepthCnt (path : List Byte) : Nat := (names path).length

/-- The entries in memory, by number. `mounted` is the root of the file system that is mounted
on a directory. -/
structure DirTree where
  root : Nat
  name : Nat → Name
  type : Nat → DirentType
  children : Nat → List Nat
  mounted : Nat → Option Nat

/-- `struct path_search_record`. -/
structure SearchRecord where
  searchedPath : List Byte
  parentDir : Nat
  fileType : DirentType

namespace DirTree

def searchDirTree (t : DirTree) (parent : Nat) (name : Name) : Option Nat :=
  (t.children parent).find? fun entry => t.name entry = name

/-- The loop of `search_file`. An entry that is neither a directory nor a file does not stop
it, and the next name is looked up in the same directory. -/
def searchLoop (t : DirTree) : List Name → Nat → SearchRecord → Option Nat →
    Option Nat × SearchRecord
  | [], _, record, found => (found, { record with fileType := .dir })
  | name :: rest, parent, record, _ =>
    let record := { record with searchedPath := record.searchedPath ++ slash :: name }
    match t.searchDirTree parent name with
    | none => (none, record)
    | some entry =>
      match t.type entry with
      | .dir =>
        let dir := (t.mounted entry).getD entry
        t.searchLoop rest dir { record with parentDir := parent } (some dir)
      | .file => (some entry, { record with fileType := .file })
      | _ => t.searchLoop rest parent record (some entry)

/-- The names of the root. -/
def isRootPath (path : List Byte) : Bool :=
  path = [slash] || path = [slash, 0x2E] || path = [slash, 0x2E, 0x2E]

/-- The search starts with an empty record; `none` stands for a failing assertion. -/
def searchFile (t : DirTree) (path : List Byte) : Option (Option Nat × SearchRecord) :=
  if isRootPath path then some (none, ⟨[], t.root, .dir⟩)
  else if path.head? = some slash ∧ 1 < path.length ∧ path.length < maxPathLen then
    some (t.searchLoop (names path) t.root ⟨[], t.root, .unknown⟩ none)
  else none

/-- Go down along directories. -/
def walk (t : DirTree) : Nat → List Name → Option Nat
  | dir, [] => some dir
  | dir, name :: rest =>
    match t.searchDirTree dir name with
    | none => none
    | some entry =>
      if t.type entry = .dir then t.walk ((t.mounted entry).getD entry) rest else none

/-- The directory that the record names after the directories `dirs`. -/
def recorded (t : DirTree) (dirs : List Name) : Nat := (t.walk t.root dirs.dropLast).getD t.root

end DirTree

section Split

/-- A name that can be part of a path. -/
def IsName (name : Name) : Prop := name ≠ [] ∧ slash ∉ name

instance (name : Name) : Decidable (IsName name) := inferInstanceAs (Decidable (_ ∧ _))

/-- The path with the given names. -/
def pathOf (ns : List Name) : List Byte := ns.flatMap fun name => slash :: name

variable {name : Name} {ns ms : List Name}

theorem pathOf_append (ns ms : List Name) : pathOf (ns ++ ms) = pathOf ns ++ pathOf ms :=
  List.flatMap_append

theorem pathOf_head (ns : List Name) : pathOf ns = [] ∨ ∃ rest, pathOf ns = slash :: rest := by
  cases ns with
  | nil => exact .inl rfl
  | cons name ns => exact .inr ⟨_, rfl⟩

theorem takeWhile_name (h : slash ∉ name) (ns : List Name) :
    (name ++ pathOf ns).takeWhile (· ≠ slash) = name ∧
      (name ++ pathOf ns).dropWhile (· ≠ slash) = pathOf ns := by
  have hall : ∀ c ∈ name, decide (c ≠ slash) = true := fun c hc =>
    decide_eq_true fun heq => h (heq ▸ hc)
  have hend : (pathOf ns).takeWhile (· ≠ slash) = [] ∧ (pathOf ns).dropWhile (· ≠ slash) =
      pathOf ns := by
    rcases pathOf_head ns with hnil | ⟨rest, hcons⟩
    · rw [hnil]
      exact ⟨rfl, rfl⟩
    · rw [hcons]
      exact ⟨List.takeWhile_cons_of_neg (by simp), List.dropWhile_cons_of_neg (by simp)⟩
  constructor
  · rw [List.takeWhile_append_of_pos hall, hend.1, List.append_nil]
  · rw [List.dropWhile_append_of_pos hall, hend.2]

theorem pathParse_cons (h : IsName name) (ns : List Name) :
    pathParse (slash :: (name ++ pathOf ns)) =
      (name, if ns = [] then none else some (pathOf ns)) := by
  obtain ⟨hne, hslash⟩ := h
  obtain ⟨c, name, rfl⟩ := List.exists_cons_of_ne_nil hne
  have hc : c ≠ slash := fun heq => hslash (heq ▸ List.mem_cons_self)
  have hskip : (slash :: (c :: name ++ pathOf ns)).dropWhile (· = slash) =
      c :: name ++ pathOf ns := by
    rw [List.dropWhile_cons_of_pos (by simp), List.cons_append,
      List.dropWhile_cons_of_neg (by simpa using hc)]
  obtain ⟨htake, hdrop⟩ := takeWhile_name hslash ns
  simp only [pathParse, hskip, htake, hdrop]
  cases ns with
  | nil => rfl
  | cons m ms => rfl

theorem namesFrom_pathOf (h : ∀ n ∈ ns, IsName n) {fuel : Nat} (hfuel : ns.length ≤ fuel) :
    namesFrom fuel (pathOf ns) = ns := by
  induction ns generalizing fuel with
  | nil => cases fuel <;> rfl
  | cons name ns ih =>
    obtain ⟨hname, hns⟩ := List.forall_mem_cons.mp h
    obtain ⟨fuel, rfl⟩ : ∃ k, fuel = k + 1 := ⟨fuel - 1, by rw [List.length_cons] at hfuel; omega⟩
    have hrest := ih hns (Nat.le_of_succ_le_succ hfuel)
    change namesFrom (fuel + 1) (slash :: (name ++ pathOf ns)) = _
    rw [namesFrom, pathParse_cons hname]
    simp only [hname.1, if_false]
    split
    · next hnil => simp_all
    · next hcons => simp_all

theorem length_le_pathOf (ns : List Name) : ns.length ≤ (pathOf ns).length := by
  induction ns with
  | nil => exact Nat.le_refl _
  | cons name ns ih =>
    change ns.length + 1 ≤ (slash :: (name ++ pathOf ns)).length
    rw [List.length_cons, List.length_append]
    omega

/-- Splitting a path gives back its names. -/
theorem names_pathOf (h : ∀ n ∈ ns, IsName n) : names (pathOf ns) = ns :=
  namesFrom_pathOf h (length_le_pathOf ns)

end Split

namespace DirTree

variable {t : DirTree} {dirs rest : List Name} {dir parent : Nat} {record : SearchRecord}
  {found : Option Nat}

/-- The search along directories, from the last directory on. -/
theorem searchLoop_walk {name : Name} (hwalk : t.walk parent (dirs ++ [name]) = some dir) :
    ∃ above, t.walk parent dirs = some above ∧
      t.searchLoop (dirs ++ name :: rest) parent record found =
        t.searchLoop rest dir
          { record with
            searchedPath := record.searchedPath ++ pathOf (dirs ++ [name])
            parentDir := above } (some dir) := by
  induction dirs generalizing parent record found with
  | nil =>
    refine ⟨parent, rfl, ?_⟩
    simp only [List.nil_append, walk] at hwalk
    simp only [List.nil_append, searchLoop]
    cases hentry : t.searchDirTree parent name with
    | none =>
      rw [hentry] at hwalk
      cases hwalk
    | some entry =>
      rw [hentry] at hwalk
      simp only at hwalk
      split at hwalk
      · next hdir =>
        obtain rfl := Option.some.inj hwalk
        simp only [hdir, pathOf, List.flatMap_cons, List.flatMap_nil, List.append_nil]
      · cases hwalk
  | cons first dirs ih =>
    simp only [List.cons_append, walk] at hwalk ⊢
    simp only [searchLoop]
    cases hentry : t.searchDirTree parent first with
    | none =>
      rw [hentry] at hwalk
      cases hwalk
    | some entry =>
      rw [hentry] at hwalk
      simp only at hwalk
      split at hwalk
      · next hdir =>
        obtain ⟨above, habove, hrun⟩ := @ih _
          { record with searchedPath := record.searchedPath ++ slash :: first, parentDir := parent }
          (some ((t.mounted entry).getD entry)) hwalk
        refine ⟨above, by simp only [hdir, if_true, habove], ?_⟩
        simp only [hdir]
        rw [hrun]
        simp only [pathOf, List.flatMap_cons, List.append_assoc, List.cons_append]
      · cases hwalk

/-- The search comes to the directory in which the last name is looked up. -/
theorem searchFile_last {name : Name} (hdirs : ∀ n ∈ dirs, IsName n) (hname : IsName name)
    (hlen : (pathOf (dirs ++ [name])).length < maxPathLen)
    (hroot : isRootPath (pathOf (dirs ++ [name])) = false) (hwalk : t.walk t.root dirs = some dir) :
    ∃ found, t.searchFile (pathOf (dirs ++ [name])) =
      some (t.searchLoop [name] dir ⟨pathOf dirs, t.recorded dirs, .unknown⟩ found) := by
  have hall : ∀ n ∈ dirs ++ [name], IsName n :=
    List.forall_mem_append.mpr ⟨hdirs, fun n hn => (List.mem_singleton.mp hn) ▸ hname⟩
  have hhead : (pathOf (dirs ++ [name])).head? = some slash := by
    cases dirs <;> rfl
  have htwo : 1 < (pathOf (dirs ++ [name])).length := by
    rw [pathOf_append, List.length_append]
    obtain ⟨c, cs, rfl⟩ := List.exists_cons_of_ne_nil hname.1
    have hlast : (pathOf [c :: cs]).length = cs.length + 2 := by simp [pathOf]
    omega
  rw [searchFile, hroot, if_neg (by decide), if_pos ⟨hhead, htwo, hlen⟩, names_pathOf hall]
  rcases List.eq_nil_or_concat dirs with rfl | ⟨above, last, rfl⟩
  · obtain rfl : t.root = dir := Option.some.inj hwalk
    exact ⟨none, rfl⟩
  · rw [List.concat_eq_append] at hwalk ⊢
    obtain ⟨up, hup, hrun⟩ :=
      @searchLoop_walk t above [name] dir t.root ⟨[], t.root, .unknown⟩ none last hwalk
    refine ⟨some dir, ?_⟩
    rw [List.append_assoc, List.singleton_append, hrun]
    simp only [recorded, List.dropLast_concat, hup, Option.getD_some, List.nil_append]

end DirTree

end KernelTravel.Fs

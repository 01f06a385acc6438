import KernelTravel.Fat32.Content
import KernelTravel.Fat32.Mount
import KernelTravel.Fs.Path

/-!
# Creating and removing files

`dir_alloc_entry` and `dir_alloc_file` of `fs/fat32/directory.c`, `createItemAt` of
`fs/fat32/dirent.c`, and `rmfile` of `fs/fat32/file.c`. A name gets one short entry and, before
it, long entries with thirteen characters each. `dir_alloc_entry` looks for enough free slots
in a row and marks them, but the offset that it records for the short entry lies as many
slots behind the last one it has marked: the entries are written into the slots behind.

An operation answers `none` where an assertion fails, a loop has no end, or a transfer fails.
The functions take the write to a directory as a parameter.
-/

namespace KernelTravel.Fat32

open Function

open KernelTravel.Fs (DirTree DirentType Name slash pathDepthCnt)

/-- A volume with the entries in memory: their tree, their reference counts and the numbers
on `dirent_free_list`. -/
structure Vfs where
  fs : Fs
  tree : DirTree
  refcnt : Nat → Nat
  free : List Nat

/-- `Fatfile_write`, or a variant of it. -/
abbrev Writer := Fs → Nat → (Nat → Byte) → Nat → Nat → Option Fs

def getEntryCountByName (name : Name) : Nat :=
  let len := name.length + 1
  if 11 < len then
    if len % bytesLongent = 0 then 1 + len / bytesLongent else 1 + (len / bytesLongent + 1)
  else 2

/-- `strrchr(path, '/') + 1`. -/
def lastName (path : List Byte) : Name := (path.reverse.takeWhile (· ≠ slash)).reverse

section Pool

/-- A `Dirent` of zeros. -/
def zeroDirent : Dirent := ⟨0, 0, noPages, 0, none, fun _ => 0⟩

def clearEntry (t : DirTree) (f : Nat) : DirTree where
  root := t.root
  name := update t.name f []
  type := update t.type f .dir
  children := update t.children f []
  mounted := update t.mounted f none

/-- The entry with all its fields zero. -/
def Vfs.clear (k : Vfs) (f : Nat) : Vfs :=
  { k with
    fs := k.fs.setDirent f zeroDirent
    tree := clearEntry k.tree f
    refcnt := update k.refcnt f 0 }

def Vfs.direntAlloc (k : Vfs) : Option (Nat × Vfs) :=
  match k.free with
  | [] => none
  | f :: free => some (f, { k with free }.clear f)

def Vfs.direntDealloc (k : Vfs) (f : Nat) : Vfs := { k.clear f with free := k.free ++ [f] }

end Pool

section Reserve

/-- The first loop of `dir_alloc_entry`: the offset of the last slot of the first `cnt` free
slots in a row. The buffer is only looked at where the read has filled it. -/
def Fs.freeLoop (fs : Fs) (dir cnt : Nat) : Nat → Nat → Nat → Option (Option Nat)
  | 0, _, _ => none
  | fuel + 1, offset, curN =>
    if offset < (fs.dirent dir).fileSize then do
      let slot ← fs.fatfileRead dir (fun _ => 0) 0 offset direntSize
      if slot.2 0 = 0 then
        if curN + 1 = cnt then some (some offset)
        else freeLoop fs dir cnt fuel (offset + direntSize) (curN + 1)
      else freeLoop fs dir cnt fuel (offset + direntSize) 0
    else some none

/-- `start_off` and `end_off`. Without enough free slots in a row the entries go to the end. -/
def Fs.reserve (fs : Fs) (dir cnt : Nat) : Option (Nat × Nat) :=
  let prevSize := (fs.dirent dir).fileSize
  (fs.freeLoop dir cnt (prevSize / direntSize + 2) 0 0).bind fun run =>
    if prevSize % direntSize ≠ 0 then none
    else
      match run with
      | some last => some (last - direntSize * (cnt - 1), last)
      | none => some (prevSize, (prevSize + direntSize * (cnt - 1)) % 2 ^ 32)

/-- The offsets from `startOff` to `endOff`, which the second loop marks. -/
def markedOffsets (startOff endOff : Nat) : List Nat :=
  if startOff ≤ endOff then
    (List.range ((endOff - startOff) / direntSize + 1)).map fun i => startOff + direntSize * i
  else []

/-- The offset with which the second loop ends. It has no end when the offset wraps around. -/
def behindMarks (startOff endOff : Nat) : Option Nat :=
  if endOff < startOff then some startOff
  else if endOff + direntSize < 2 ^ 32 then some (endOff + direntSize)
  else none

def markSlot : Nat → Byte := update (fun _ => 0) 0 fat32InvalidEntry

def Vfs.setPlace (k : Vfs) (f off : Nat) : Vfs :=
  { k with fs := k.fs.setDirent f { k.fs.dirent f with parentDirOff := off } }

/-- The answer is the number of the new entry. -/
def Vfs.dirAllocEntry (write : Writer) (k : Vfs) (dir cnt : Nat) : Option (Nat × Vfs) := do
  let (startOff, endOff) ← k.fs.reserve dir cnt
  let offset ← behindMarks startOff endOff
  let fs ← (markedOffsets startOff endOff).foldlM
    (fun fs off => write fs dir markSlot off direntSize) k.fs
  let (f, k) ← { k with fs }.direntAlloc
  return (f, k.setPlace f ((offset + direntSize * (cnt - 1)) % 2 ^ 32))

end Reserve

section Long

/-- `_name` of `fill_long_entry` after `str2wstr`: characters are unsigned, as `-funsigned-char`
makes them, and behind the zero the array holds what the stack holds. -/
def wideName (junk : Nat → Wchar) (rawName : Name) (i : Nat) : Wchar :=
  if i = rawName.length then 0 else (rawName[i]?.map (·.setWidth 16)).getD (junk i)

/-- The same array in bytes. -/
def wideBytes (junk : Nat → Wchar) (rawName : Name) (k : Nat) : Byte :=
  BitVec.ofNat 8 ((wideName junk rawName (k / 2)).toNat / 256 ^ (k % 2))

/-- The long entry, and the rest of the name unless it is complete. -/
def fillLongEntry (junk : Nat → Wchar) (rawName : Name) : (Nat → Byte) × Option Name :=
  let name := wideBytes junk rawName
  let len := rawName.length + 1
  let longDir := Mem.blit (update (fun _ => 0) 11 attrLongNameMask) 1 10 name
  if len ≤ 5 then (longDir, none)
  else
    let longDir := Mem.blit longDir 14 12 fun k => name (10 + k)
    if len ≤ 11 then (longDir, none)
    else
      let longDir := Mem.blit longDir 28 4 fun k => name (22 + k)
      (longDir, if len ≤ bytesLongent then none else some (rawName.drop bytesLongent))

def ldirOrd (i : Nat) : Byte := if i = 1 then lastLongEntry else BitVec.ofNat 8 i

/-- The slot `i` slots before the offset `off`. -/
def slotBefore (off i : Nat) : Nat := (off + 2 ^ 32 - direntSize * i) % 2 ^ 32

/-- The loop of `dir_alloc_file` over the long entries. -/
def longLoop (write : Writer) (junk : Nat → Nat → Wchar) (dir off : Nat) :
    List Nat → Name → Fs → Option Fs
  | [], _, fs => some fs
  | i :: is, name, fs => do
    let (longDir, rest) := fillLongEntry (junk i) name
    let fs ← write fs dir (update longDir 0 (ldirOrd i)) (slotBefore off i) direntSize
    match rest with
    | none => some fs
    | some name => longLoop write junk dir off is name fs

/-- `DIR_Name` and what follows it after `strcpy`, with `DIR_Name[10]` cleared. -/
def rawOfName (name : Name) : Nat → Byte := update (fun i => name.getD i 0) 10 0

/-- The string in the field `name`, which lies behind the 32 bytes of the raw entry. `strcpy`
to `DIR_Name` runs into it. -/
def fieldName (name : Name) : Name :=
  if name.length < direntSize then name else name.drop direntSize

/-- `dget`. -/
def Vfs.dget (k : Vfs) (f : Nat) : Vfs := { k with refcnt := update k.refcnt f (k.refcnt f + 1) }

/-- The names of a new entry. -/
def Vfs.setName (k : Vfs) (f : Nat) (name : Name) : Vfs :=
  { k with
    fs := k.fs.setDirent f { k.fs.dirent f with rawDirent := rawOfName name }
    tree := { k.tree with name := update k.tree.name f (fieldName name) } }

/-- The entry that is taken first is not used. -/
def Vfs.dirAllocFile (write : Writer) (junk : Nat → Nat → Wchar) (k : Vfs) (dir : Nat)
    (path : List Byte) : Option (Nat × Vfs) := do
  let (_, k) ← k.direntAlloc
  let name := lastName path
  let cnt := getEntryCountByName name
  let (f, k) ← k.dirAllocEntry write dir cnt
  let k := (k.setName f name).dget f
  let fs ← longLoop write junk dir (k.fs.dirent f).parentDirOff (List.range' 1 (cnt - 1)) name k.fs
  return (f, { k with fs })

end Long

section Create

/-- The fields of a new entry, and the cluster of a directory. -/
def Volume.newItem (v : Volume) (d : Dirent) (dir : Nat) (isDir : Bool) :
    Option (Volume × Dirent) :=
  let d := { d with parentDirent := some dir }
  let (v, d) :=
    if isDir then
      let (clus, v) := v.clusterAlloc 0
      (v, { d with
        firstClus := clus, fileSize := v.clusSize
        rawDirent := update d.rawDirent 11 attrDirectory })
    else (v, { d with fileSize := 0, firstClus := 0 })
  -- a chain that ends has at most as many clusters as the volume
  (v.filepntInit (v.dataClusCnt + 2) d.firstClus false d.pointer).map fun r =>
    (v, { d with pointer := r.2 })

/-- `list_append` to the child list of the parent. -/
def addChild (t : DirTree) (dir f : Nat) (isDir : Bool) : DirTree :=
  { t with
    type := update t.type f (if isDir then .dir else .file)
    children := update t.children dir (t.children dir ++ [f]) }

/-- The number of the new entry, or no number for the answer -1. -/
def Vfs.createWith (write : Writer) (junk : Nat → Nat → Wchar) (k : Vfs) (path : List Byte)
    (isDir : Bool) : Option (Vfs × Option Nat) := do
  let (found, record) ← k.tree.searchFile path
  if pathDepthCnt path ≠ pathDepthCnt record.searchedPath then return (k, none)
  else if found ≠ none then return (k, none)
  else
    let dir := record.parentDir
    let (f, k) ← k.dirAllocFile write junk dir path
    let (vol, d) ← k.fs.vol.newItem (k.fs.dirent f) dir isDir
    let fs ← Fs.syncWith write ({ k.fs with vol }.setDirent f d) f
    return ({ k with fs, tree := addChild k.tree dir f isDir }, some f)

def Vfs.createItemAt (junk : Nat → Nat → Wchar) (k : Vfs) (path : List Byte) (isDir : Bool) :
    Option (Vfs × Option Nat) :=
  k.createWith Fs.fatfileWrite junk path isDir

end Create

section Remove

/-- `list_remove` from the child list of the parent. -/
def dropChild (t : DirTree) (dir f : Nat) : DirTree :=
  { t with children := update t.children dir ((t.children dir).erase f) }

/-- `rm_unused_file`, given the removal of a child, whose answer is not looked at. -/
def Vfs.rmUnusedFile (rm : Vfs → Nat → Option (Vfs × Bool)) (k : Vfs) (f : Nat) : Option Vfs :=
  if k.refcnt f ≠ 0 then none
  else
    match (k.fs.dirent f).parentDirent with
    | none => none
    | some dir => do
      let cnt := getEntryCountByName (k.tree.name f)
      let k ←
        if k.tree.type f = .dir then (k.tree.children f).foldlM (fun k c => (rm k c).map Prod.fst) k
        else some k
      let fs ← k.fs.fileShrink f 0
      let fs ← (List.range cnt).foldlM (fun fs i =>
        fs.fatfileWrite dir (fun _ => fat32InvalidEntry)
          (slotBefore (fs.dirent f).parentDirOff i) 1) fs
      return { k with fs, tree := dropChild k.tree dir f }.direntDealloc f

/-- The answer `false` stands for -1. The fuel bounds the depth of the tree. -/
def Vfs.rmWith : Nat → Vfs → Nat → Option (Vfs × Bool)
  | 0, _, _ => none
  | fuel + 1, k, f =>
    if 1 < k.refcnt f then some (k, false)
    else (k.rmUnusedFile (rmWith fuel) f).map fun k => (k, true)

def Vfs.rmfile (k : Vfs) (f : Nat) : Option (Vfs × Bool) := rmWith (k.fs.count + 1) k f

end Remove

section Inversion

variable {write : Writer} {junk : Nat → Nat → Wchar} {k k' : Vfs} {path : List Byte} {isDir : Bool}
  {f dir cnt : Nat}

theorem direntAlloc_eq_some (h : k.direntAlloc = some (f, k')) :
    ∃ free, k.free = f :: free ∧ k' = { k with free }.clear f := by
  rw [Vfs.direntAlloc] at h
  cases hfree : k.free with
  | nil =>
    rw [hfree] at h
    cases h
  | cons g free =>
    rw [hfree] at h
    cases h
    exact ⟨free, rfl, rfl⟩

theorem dirAllocEntry_eq_some (h : k.dirAllocEntry write dir cnt = some (f, k')) :
    ∃ startOff endOff offset fs k₁, k.fs.reserve dir cnt = some (startOff, endOff) ∧
      behindMarks startOff endOff = some offset ∧
      (markedOffsets startOff endOff).foldlM (fun fs off => write fs dir markSlot off direntSize)
        k.fs = some fs ∧
      { k with fs }.direntAlloc = some (f, k₁) ∧
      k' = k₁.setPlace f ((offset + direntSize * (cnt - 1)) % 2 ^ 32) := by
  simp only [Vfs.dirAllocEntry, Option.bind_eq_bind, Option.bind_eq_some_iff, Option.pure_def,
    Option.some.injEq, Prod.mk.injEq] at h
  obtain ⟨⟨startOff, endOff⟩, hreserve, offset, hbehind, fs, hmarks, ⟨g, k₁⟩, halloc, rfl, rfl⟩ := h
  exact ⟨startOff, endOff, offset, fs, k₁, hreserve, hbehind, hmarks, halloc, rfl⟩

theorem dirAllocFile_eq_some (h : k.dirAllocFile write junk dir path = some (f, k')) :
    ∃ f₀ k₀ k₁ fs, k.direntAlloc = some (f₀, k₀) ∧
      k₀.dirAllocEntry write dir (getEntryCountByName (lastName path)) = some (f, k₁) ∧
      longLoop write junk dir (((k₁.setName f (lastName path)).dget f).fs.dirent f).parentDirOff
        (List.range' 1 (getEntryCountByName (lastName path) - 1)) (lastName path)
        ((k₁.setName f (lastName path)).dget f).fs = some fs ∧
      k' = { (k₁.setName f (lastName path)).dget f with fs } := by
  simp only [Vfs.dirAllocFile, Option.bind_eq_bind, Option.bind_eq_some_iff, Option.pure_def,
    Option.some.injEq, Prod.mk.injEq] at h
  obtain ⟨⟨f₀, k₀⟩, halloc, ⟨g, k₁⟩, hentry, fs, hlong, rfl, rfl⟩ := h
  exact ⟨f₀, k₀, k₁, fs, halloc, hentry, hlong, rfl⟩

theorem createWith_eq_some (h : k.createWith write junk path isDir = some (k', some f)) :
    ∃ record k₁ vol d fs, k.tree.searchFile path = some (none, record) ∧
      pathDepthCnt path = pathDepthCnt record.searchedPath ∧
      k.dirAllocFile write junk record.parentDir path = some (f, k₁) ∧
      k₁.fs.vol.newItem (k₁.fs.dirent f) record.parentDir isDir = some (vol, d) ∧
      Fs.syncWith write ({ k₁.fs with vol }.setDirent f d) f = some fs ∧
      k' = { k₁ with fs, tree := addChild k₁.tree record.parentDir f isDir } := by
  simp only [Vfs.createWith, Option.bind_eq_bind, Option.bind_eq_some_iff, Option.pure_def] at h
  obtain ⟨⟨found, record⟩, hsearch, h⟩ := h
  split at h
  · cases h
  · next hdepth =>
    split at h
    · cases h
    · next hfound =>
      simp only [Option.bind_eq_some_iff, Option.some.injEq, Prod.mk.injEq] at h
      obtain ⟨⟨g, k₁⟩, hfile, ⟨vol, d⟩, hitem, fs, hsync, rfl, rfl⟩ := h
      obtain rfl : found = none := not_not.mp hfound
      exact ⟨record, k₁, vol, d, fs, hsearch, not_not.mp hdepth, hfile, hitem, hsync, rfl⟩

end Inversion

section Example

/-- The short entry of a file `OLD` without clusters. -/
def oldSlot : Nat → Byte := fun i => [0x4F, 0x4C, 0x44].getD i (if i < 11 then 0x20 else 0)

/-- A root directory of sixteen slots, of which only the third is used. -/
def oneDirectory : Vfs where
  fs :=
    { vol :=
        { clusSize := 512
          dataClusCnt := 4
          fat := fun c => if c = 2 then fat32Eof else 0
          data := Mem.blit (fun _ => 0) 64 direntSize oldSlot }
      count := 3
      dirent := fun f => if f = 0 then ⟨2, 512, oneEntry 2, 0, none, fun _ => 0⟩ else zeroDirent }
  tree := ⟨0, fun _ => [], fun _ => .dir, fun _ => [], fun _ => none⟩
  refcnt := fun _ => 0
  free := [1, 2]

/-- The path `/A`. -/
def pathA : List Byte := [slash, 0x41]

theorem createA_ok (isDir : Bool) :
    ∃ k', oneDirectory.createItemAt (fun _ _ => 0) pathA isDir = some (k', some 2) := by
  have hanswer : (oneDirectory.createItemAt (fun _ _ => 0) pathA isDir).map Prod.snd =
      some (some 2) := by
    cases isDir <;> decide +kernel
  obtain ⟨⟨k', answer⟩, hrun, rfl⟩ := Option.map_eq_some_iff.mp hanswer
  exact ⟨k', hrun⟩

end Example

section Removal

variable {write : Writer} {junk : Nat → Nat → Wchar} {k k' : Vfs} {path : List Byte} {isDir : Bool}
  {f : Nat}

/-- A new entry has one reference, and two entries are gone from the pool. -/
theorem createWith_counts (h : k.createWith write junk path isDir = some (k', some f)) :
    k'.refcnt f = 1 ∧ ∃ f₀, k.free = f₀ :: f :: k'.free := by
  obtain ⟨record, k₁, vol, d, fs, -, -, hfile, -, -, rfl⟩ := createWith_eq_some h
  obtain ⟨f₀, k₀, k₂, fs₂, halloc, hentry, -, rfl⟩ := dirAllocFile_eq_some hfile
  obtain ⟨startOff, endOff, offset, fs₁, k₃, -, -, -, halloc', rfl⟩ := dirAllocEntry_eq_some hentry
  obtain ⟨free₀, hfree₀, rfl⟩ := direntAlloc_eq_some halloc
  obtain ⟨free, hfree, rfl⟩ := direntAlloc_eq_some halloc'
  refine ⟨?_, f₀, ?_⟩
  · simp [Vfs.dget, Vfs.setName, Vfs.setPlace, Vfs.clear]
  · rw [hfree₀]
    exact congrArg (f₀ :: ·) hfree

/-- The assertion of `rm_unused_file` fails for an entry with one reference. -/
theorem rmfile_of_refcnt_one (h : k.refcnt f = 1) : k.rmfile f = none := by
  rw [Vfs.rmfile, Vfs.rmWith, if_neg (by omega), Vfs.rmUnusedFile, if_pos (by omega),
    Option.map_none]

/-- Whatever is created cannot be removed. -/
theorem created_not_removable (h : k.createItemAt junk path isDir = some (k', some f)) :
    k'.rmfile f = none ∧ k'.free.length + 2 = k.free.length := by
  obtain ⟨hrefcnt, f₀, hfree⟩ := createWith_counts h
  refine ⟨rmfile_of_refcnt_one hrefcnt, ?_⟩
  rw [hfree, List.length_cons, List.length_cons]

theorem createdA_not_removable :
    ∃ k', oneDirectory.createItemAt (fun _ _ => 0) pathA false = some (k', some 2) ∧
      k'.rmfile 2 = none ∧ k'.free.length + 2 = oneDirectory.free.length := by
  obtain ⟨k', hrun⟩ := createA_ok false
  exact ⟨k', hrun, created_not_removable hrun⟩

/-- The new file cannot be removed, and neither can a new directory. -/
theorem createdA_stuck : ((oneDirectory.createItemAt (fun _ _ => 0) pathA false).map fun r =>
        ((r.1.rmfile 2).isSome, r.1.free.length)) = some (false, 0) ∧
      ((oneDirectory.createItemAt (fun _ _ => 0) pathA true).map fun r =>
        ((r.1.rmfile 2).isSome, r.1.free.length)) = some (false, 0) := by
  decide +kernel

end Removal

section Places

/-- Where the raw entries are in their directories. -/
def SamePlaces (fs fs' : Fs) : Prop :=
  ∀ g, (fs'.dirent g).parentDirOff = (fs.dirent g).parentDirOff ∧
  (fs'.dirent g).parentDirent = (fs.dirent g).parentDirent

/-- A write moves no raw entry. -/
def KeepsPlaces (write : Writer) : Prop := ∀ fs f src off n fs',
  write fs f src off n = some fs' → SamePlaces fs fs'

variable {fs fs₁ fs₂ : Fs} {write : Writer} {f newSize : Nat}

theorem SamePlaces.refl (fs : Fs) : SamePlaces fs fs := fun _ => ⟨rfl, rfl⟩

theorem SamePlaces.trans (h : SamePlaces fs fs₁) (h' : SamePlaces fs₁ fs₂) : SamePlaces fs fs₂ :=
  fun g => ⟨(h' g).1.trans (h g).1, (h' g).2.trans (h g).2⟩

theorem SamePlaces.setDirent {d : Dirent} (hoff : d.parentDirOff = (fs.dirent f).parentDirOff)
    (hdir : d.parentDirent = (fs.dirent f).parentDirent) : SamePlaces fs (fs.setDirent f d) := by
  intro g
  rcases eq_or_ne g f with rfl | hne
  · simp only [Fs.setDirent, update_self]
    exact ⟨hoff, hdir⟩
  · simp only [Fs.setDirent, update_of_ne hne, and_self]

theorem syncWith_places (hwrite : KeepsPlaces write) (h : Fs.syncWith write fs f = some fs₁) :
    SamePlaces fs fs₁ := by
  have hraw : SamePlaces fs (fs.setDirent f (fs.dirent f).syncRaw) := .setDirent rfl rfl
  rw [Fs.syncWith] at h
  cases hparent : (fs.dirent f).syncRaw.parentDirent with
  | none =>
    simp only [hparent, Option.some.injEq] at h
    exact h ▸ hraw
  | some parent =>
    simp only [hparent] at h
    exact hraw.trans (hwrite _ _ _ _ _ _ h)

theorem growClusters_places {v vol : Volume} {d d' : Dirent}
    (h : Fs.growClusters v d newSize = some (vol, d')) :
    d'.parentDirOff = d.parentDirOff ∧ d'.parentDirent = d.parentDirent := by
  simp only [Fs.growClusters, Option.bind_eq_bind, Option.bind_eq_some_iff, Option.pure_def,
    Option.some.injEq, Prod.mk.injEq] at h
  obtain ⟨⟨v₁, d₁, oldSize⟩, hfirst, clus, -, ⟨v₂, pointer⟩, -, -, rfl⟩ := h
  rw [Fs.takeFirst] at hfirst
  split at hfirst
  · simp only [Option.some.injEq, Prod.mk.injEq] at hfirst
    obtain ⟨-, rfl, -⟩ := hfirst
    exact ⟨rfl, rfl⟩
  · simp only [Option.bind_eq_bind, Option.bind_eq_some_iff, Option.pure_def, Option.some.injEq,
      Prod.mk.injEq] at hfirst
    obtain ⟨pointer, -, -, rfl, -⟩ := hfirst
    exact ⟨rfl, rfl⟩

theorem extendWith_places (hwrite : KeepsPlaces write)
    (h : Fs.extendWith (Fs.syncWith write) fs f newSize = some fs₁) : SamePlaces fs fs₁ := by
  rw [Fs.extendWith] at h
  split at h
  · simp only [Option.bind_eq_bind, Option.bind_eq_some_iff] at h
    obtain ⟨⟨vol, d⟩, hgrow, hsync⟩ := h
    obtain ⟨hoff, hdir⟩ := growClusters_places hgrow
    have hset : SamePlaces fs ({ fs with vol }.setDirent f d) := .setDirent hoff hdir
    exact hset.trans (syncWith_places hwrite hsync)
  · cases h

theorem keepsPlaces_writeWith (fuel : Nat) : KeepsPlaces (Fs.writeWith fuel) := by
  induction fuel with
  | zero => exact nofun
  | succ fuel ih =>
    intro fs f src off n fs' h
    rw [Fs.writeWith] at h
    split at h
    · cases h
    · simp only [Option.bind_eq_bind, Option.bind_eq_some_iff, Option.pure_def,
        Option.some.injEq] at h
      obtain ⟨fs₁, hreach, vol, -, rfl⟩ := h
      rw [Fs.reachWith] at hreach
      change SamePlaces fs fs₁
      split at hreach
      · exact extendWith_places ih hreach
      · exact Option.some.inj hreach ▸ .refl fs

theorem keepsPlaces_fatfileWrite : KeepsPlaces Fs.fatfileWrite :=
  fun fs => keepsPlaces_writeWith _ fs

theorem longLoop_places (hwrite : KeepsPlaces write) {junk : Nat → Nat → Wchar} {dir off : Nat}
    {is : List Nat} {name : Name} (h : longLoop write junk dir off is name fs = some fs₁) :
    SamePlaces fs fs₁ := by
  induction is generalizing name fs with
  | nil => exact Option.some.inj h ▸ .refl fs
  | cons i is ih =>
    simp only [longLoop, Option.bind_eq_bind, Option.bind_eq_some_iff] at h
    obtain ⟨fs₂, hstep, hrest⟩ := h
    have hplaces := hwrite _ _ _ _ _ _ hstep
    cases hnext : (fillLongEntry (junk i) name).2 with
    | none =>
      rw [hnext] at hrest
      exact Option.some.inj hrest ▸ hplaces
    | some name =>
      rw [hnext] at hrest
      exact hplaces.trans (ih hrest)

theorem newItem_places {v vol : Volume} {d d' : Dirent} {dir : Nat} {isDir : Bool}
    (h : v.newItem d dir isDir = some (vol, d')) :
    d'.parentDirOff = d.parentDirOff ∧ d'.parentDirent = some dir := by
  cases isDir with
  | false =>
    simp only [Volume.newItem, Bool.false_eq_true, if_false, Option.map_eq_some_iff,
      Prod.mk.injEq] at h
    obtain ⟨r, -, -, rfl⟩ := h
    exact ⟨rfl, rfl⟩
  | true =>
    simp only [Volume.newItem, if_true, Option.map_eq_some_iff, Prod.mk.injEq] at h
    obtain ⟨r, -, -, rfl⟩ := h
    exact ⟨rfl, rfl⟩

end Places

section Slots

variable {write : Writer} {junk : Nat → Nat → Wchar} {k k' : Vfs} {path : List Byte} {isDir : Bool}
  {f dir : Nat}

/-- The offsets that `dir_alloc_entry` reserves for a name. -/
def Vfs.reservedOffsets (k : Vfs) (dir : Nat) (name : Name) : Option (List Nat) := do
  let (_, k) ← k.direntAlloc
  let (startOff, endOff) ← k.fs.reserve dir (getEntryCountByName name)
  return markedOffsets startOff endOff

/-- The offsets of the short entry at `off` and of the long entries before it. -/
def entryOffsets (off cnt : Nat) : List Nat := (List.range cnt).map (slotBefore off)

/-- Slot `j` of a directory. -/
def Fs.slotOf (fs : Fs) (dir j : Nat) : Fin direntSize → Byte :=
  fun i => fs.byteOf dir (direntSize * j + i)

/-- A directory in memory. -/
def Fs.directory (fs : Fs) (rounds dir : Nat) : Directory where
  read buf j := (fs.fatfileRead dir buf 0 j direntSize).map Prod.snd
  fileSize := (fs.dirent dir).fileSize
  clusSize := fs.vol.clusSize
  count := fs.vol.countClusters rounds

/-- The creation of `f` in `dir` has not disturbed the directory. -/
structure Undisturbed (k k' : Vfs) (dir f : Nat) (name : Name) : Prop where
  free : ∀ j, direntSize * j < (k.fs.dirent dir).fileSize →
    k'.fs.slotOf dir j ≠ k.fs.slotOf dir j → k.fs.byteOf dir (direntSize * j) = 0
  reserved : ∃ offs, k.reservedOffsets dir name = some offs ∧
    ∀ off, off ∈ entryOffsets (k'.fs.dirent f).parentDirOff (getEntryCountByName name) ↔ off ∈ offs
  decoded : ∀ stack rounds pool es, (k.fs.directory rounds dir).scan stack rounds pool = .ok es →
    ∃ rounds' pool' es', (k'.fs.directory rounds' dir).scan stack rounds' pool' = .ok es' ∧
      ∀ e ∈ es, e ∈ es'

/-- One short entry, and long entries for the characters with their zero. -/
theorem getEntryCountByName_eq (name : Name) :
    getEntryCountByName name = 1 + (name.length + bytesLongent) / bytesLongent := by
  rw [getEntryCountByName, bytesLongent]
  generalize name.length = n
  by_cases hlong : 11 < n + 1
  · by_cases hfull : (n + 1) % 13 = 0
    · rw [if_pos hlong, if_pos hfull]
      omega
    · rw [if_pos hlong, if_neg hfull]
      omega
  · rw [if_neg hlong]
    omega

theorem getEntryCountByName_bounds {name : Name} (h : name.length < maxNameLen) :
    2 ≤ getEntryCountByName name ∧ getEntryCountByName name ≤ 11 := by
  rw [maxNameLen] at h
  rw [getEntryCountByName_eq, bytesLongent]
  omega

/-- Where a new entry is recorded. -/
theorem createWith_place (hwrite : KeepsPlaces write)
    (h : k.createWith write junk path isDir = some (k', some f)) :
    ∃ dir k₀ startOff endOff offset f₀, (k'.fs.dirent f).parentDirent = some dir ∧
      k.direntAlloc = some (f₀, k₀) ∧
      k₀.fs.reserve dir (getEntryCountByName (lastName path)) = some (startOff, endOff) ∧
      behindMarks startOff endOff = some offset ∧ (k'.fs.dirent f).parentDirOff =
        (offset + direntSize * (getEntryCountByName (lastName path) - 1)) % 2 ^ 32 := by
  obtain ⟨record, k₁, vol, d, fs, -, -, hfile, hitem, hsync, rfl⟩ := createWith_eq_some h
  obtain ⟨f₀, k₀, k₂, fs₂, halloc, hentry, hlong, rfl⟩ := dirAllocFile_eq_some hfile
  obtain ⟨startOff, endOff, offset, fs₁, k₃, hreserve, hbehind, -, -, rfl⟩ :=
    dirAllocEntry_eq_some hentry
  obtain ⟨hoff, hdir⟩ := newItem_places hitem
  have hsynced := syncWith_places hwrite hsync f
  simp only [Fs.setDirent, update_self] at hsynced
  have hnamed := (longLoop_places hwrite hlong f).1
  simp only [Vfs.dget, Vfs.setName, Vfs.setPlace, Fs.setDirent, update_self] at hnamed
  exact ⟨record.parentDir, k₀, startOff, endOff, offset, f₀, hsynced.2.trans hdir, halloc,
    hreserve, hbehind, (hsynced.1.trans hoff).trans hnamed⟩

/-- The recorded offset is not one of those that are marked. -/
theorem place_not_mem_marked {fs : Fs} {cnt startOff endOff offset : Nat}
    (hcnt : 2 ≤ cnt ∧ cnt ≤ 11) (hreserve : fs.reserve dir cnt = some (startOff, endOff))
    (hbehind : behindMarks startOff endOff = some offset) :
    (offset + direntSize * (cnt - 1)) % 2 ^ 32 ∉ markedOffsets startOff endOff := by
  intro hmem
  rw [markedOffsets] at hmem
  split at hmem
  · next hle =>
    obtain ⟨i, hi, heq⟩ := List.mem_map.mp hmem
    rw [List.mem_range] at hi
    have hspan : endOff ≤ startOff + direntSize * (cnt - 1) := by
      simp only [Fs.reserve, Option.bind_eq_some_iff] at hreserve
      obtain ⟨run, -, hrun⟩ := hreserve
      split at hrun
      · cases hrun
      · cases run with
        | none =>
          obtain ⟨rfl, rfl⟩ : _ ∧ _ := by simpa using hrun
          exact Nat.mod_le _ _
        | some last =>
          obtain ⟨rfl, rfl⟩ : _ ∧ _ := by simpa using hrun
          omega
    rw [behindMarks, if_neg (by omega)] at hbehind
    split at hbehind
    · next hfits =>
      obtain rfl := Option.some.inj hbehind
      simp only [direntSize] at *
      omega
    · cases hbehind
  · exact absurd hmem List.not_mem_nil

/-- Every creation puts the short entry outside the slots that are reserved for it. -/
theorem created_disturbs (hname : (lastName path).length < maxNameLen)
    (h : k.createItemAt junk path isDir = some (k', some f))
    (hdir : (k'.fs.dirent f).parentDirent = some dir) :
      ¬Undisturbed k k' dir f (lastName path) := by
  obtain ⟨dir', k₀, startOff, endOff, offset, f₀, hdir', halloc, hreserve, hbehind, hplace⟩ :=
    createWith_place keepsPlaces_fatfileWrite h
  obtain rfl : dir' = dir := Option.some.inj (hdir'.symm.trans hdir)
  have hcnt := getEntryCountByName_bounds hname
  rintro ⟨-, ⟨offs, hoffs, hsame⟩, -⟩
  obtain rfl : markedOffsets startOff endOff = offs := by
    simpa only [Vfs.reservedOffsets, halloc, Option.bind_eq_bind, Option.bind_some, hreserve,
      Option.pure_def, Option.some.injEq] using hoffs
  have hshort : (k'.fs.dirent f).parentDirOff ∈
      entryOffsets (k'.fs.dirent f).parentDirOff (getEntryCountByName (lastName path)) := by
    refine List.mem_map.mpr ⟨0, List.mem_range.mpr (by omega), ?_⟩
    have hlt : (k'.fs.dirent f).parentDirOff < 2 ^ 32 := hplace ▸ Nat.mod_lt _ (by decide)
    rw [slotBefore, Nat.mul_zero, Nat.sub_zero, Nat.add_mod_right, Nat.mod_eq_of_lt hlt]
  have hmem := (hsame _).mp hshort
  rw [hplace] at hmem
  exact place_not_mem_marked hcnt hreserve hbehind hmem

theorem createdA_disturbs :
    ∃ k', oneDirectory.createItemAt (fun _ _ => 0) pathA false = some (k', some 2) ∧
      ¬Undisturbed oneDirectory k' 0 2 (lastName pathA) := by
  obtain ⟨k', hrun⟩ := createA_ok false
  have hdir : (k'.fs.dirent 2).parentDirent = some 0 := by
    have hmap : (oneDirectory.createItemAt (fun _ _ => 0) pathA false).map
        (fun r => (r.1.fs.dirent 2).parentDirent) = some (some 0) := by decide +kernel
    rwa [hrun, Option.map_some, Option.some.injEq] at hmap
  exact ⟨k', hrun, created_disturbs (by decide) hrun hdir⟩

/-- The names that a scan of the root finds. -/
def Vfs.rootNames (k : Vfs) : Option (List Name) :=
  ((k.fs.directory 9 0).scan onesStack 9 9).toOption.map fun es => es.map Entry.name

/-- The two free slots are reserved. The long entry goes over the entry of the file `OLD` in
the slot behind them, and the file is not found any more. -/
theorem createA_over_old : oneDirectory.reservedOffsets 0 (lastName pathA) = some [0, 32] ∧
      ((oneDirectory.createItemAt (fun _ _ => 0) pathA false).map fun r =>
        (entryOffsets (r.1.fs.dirent 2).parentDirOff 2,
          (List.range 4).map fun j => r.1.fs.byteOf 0 (32 * j))) =
        some ([96, 64], [fat32InvalidEntry, fat32InvalidEntry, lastLongEntry, 0x41]) ∧
      (List.range 4).map (fun j => oneDirectory.fs.byteOf 0 (32 * j)) = [0, 0, 0x4F, 0] ∧
      oneDirectory.rootNames =
        some [[0x4F, 0x4C, 0x44, 0x20, 0x20, 0x20, 0x20, 0x20, 0x20, 0x20, 0x20]] ∧
      ((oneDirectory.createItemAt (fun _ _ => 0) pathA false).bind fun r => r.1.rootNames) =
        some [lastName pathA] := by
  decide +kernel

end Slots

end KernelTravel.Fat32

import KernelTravel.Userprog.MmapAnon

/-!
# Mappings of a file

`fd_mapping` reads the whole file into a buffer of 512 bytes on the stack of the kernel. A request
for pages within the file is one for a file of at least a page, and then the read goes past the
buffer, over what the stack holds above it.

Without the buffer the mapping would still not be that of the file: the loop that enters the pages
uses one address for all of them, and `page_table_add` stops at the second one.
-/

namespace KernelTravel.Userprog

open Mm Outcome

namespace OpenFile

variable {file file' : OpenFile}

/-- Byte `k` of the file, by its pointer pages once they are filled. -/
def byte (file : OpenFile) (k : Nat) : Byte :=
  match file.filepntInit with
  | .ok file => file.fs.byteOf file.dirent k
  | .error _ => 0

theorem fileSize_filepntInit (h : file.filepntInit = .ok file') :
    file'.fileSize = file.fileSize := by
  unfold filepntInit at h
  dsimp only at h
  split at h
  · cases h
    simp [fileSize, Fat32.Fs.setDirent]
  · cases h

/-- A file is read as a whole. -/
theorem readAll_of_long (hlong : bufLen < file.fileSize) : file.readAll = .error .fault := by
  have hread : ∀ n mem, file.fs.fatfileRead file.dirent (fun _ => 0) 0 0 file.fileSize =
    some (n, mem) →
      n = file.fileSize := by
    intro n mem h
    rw [Fat32.Fs.fatfileRead] at h
    change (if file.fileSize ≤ 0 then _ else _) = _ at h
    rw [if_neg (by omega)] at h
    change (if (if file.fileSize < (0 + file.fileSize) % 2 ^ 32 then file.fileSize - 0
      else file.fileSize) = 0 then _ else _) = _ at h
    rw [Nat.sub_zero, ite_self, if_neg (by omega)] at h
    obtain ⟨_, -, heq⟩ := Option.map_eq_some_iff.mp h
    cases heq
    exact ite_self _
  rw [readAll]
  split
  next n mem hsome => rw [if_neg (by rw [hread n mem hsome]; omega)]
  next => rfl

theorem fdMapping_of_long (hlong : bufLen < file.fileSize) (startPage endPage : Int) :
    file.fdMapping startPage endPage = .error .fault := by
  rw [fdMapping]
  cases hinit : file.filepntInit with
  | error e =>
    unfold filepntInit at hinit
    dsimp only at hinit
    split at hinit
    · cases hinit
    · cases hinit
      rfl
  | ok file' =>
    have hlong' : bufLen < file'.fileSize := fileSize_filepntInit hinit ▸ hlong
    change (file'.readAll >>= _) = _
    rw [readAll_of_long hlong']
    rfl

end OpenFile

namespace UserSpace

variable {u u' : UserSpace} {file : OpenFile} {c : MmapArgs} {addr : Nat}
  {rbInsertColor : SearchTree Nat → SearchTree Nat}

/-- The byte that the process sees at an address. -/
def byteAt (u : UserSpace) (vaddr : Nat) : Option Byte :=
  (u.phys.translate u.proc.pgdir vaddr).map fun f =>
    BitVec.ofNat 8 (u.phys.mem f (vaddr % pageSize / 8) / 256 ^ (vaddr % 8))

/-- The call answers an error or a range with the bytes of the file, or there is no memory for
it. -/
def FileMmapRight (rbInsertColor : SearchTree Nat → SearchTree Nat) (u : UserSpace)
    (file : OpenFile) (c : MmapArgs) : Prop :=
  Ends (u.sysMmap rbInsertColor (some file) c)
    (fun r => IsErr r.1 ∨ ∀ k < c.len.toNat, r.2.byteAt (r.1 + k) =
      some (file.byte (c.offset.toNat + k)))
    (· = .noMemory)

/-- The pool does not have the two pages for the file and the area. -/
def OutOfPages (u : UserSpace) : Prop := (u.getPage >>= getPage) = .error .noMemory

/-- Two pages are never entered at one address. -/
theorem addFilePages_two {role : Roles} (sound : u.Sound role) (vAddr : Int → Nat) (i : Nat) :
    ∀ u', u.addFilePages addr vAddr (i + 2) ≠ .ok u' := by
  intro u' h
  obtain ⟨phys, hfirst, h⟩ := bind_eq_ok.mp h
  obtain ⟨phys', hsecond, -⟩ := bind_eq_ok.mp h
  have hagain :=
    Phys.pageTableAdd_again sound.placed sound.owns (by decide) hfirst (vAddr i) pteAttr
  cases hagain.symm.trans hsecond

/-- The pages lie within the file. -/
structure Within (c : MmapArgs) (file : OpenFile) : Prop where
  offset : c.offset.toNat % pageSize = 0
  len : c.len.toNat % pageSize = 0
  inside : c.offset.toNat + c.len.toNat ≤ file.fileSize
  size : file.fileSize < 2 ^ 32

theorem Within.size_eq (within : Within c file) : c.size = c.len.toNat := by
  obtain ⟨-, hlen, hinside, hsize⟩ := within
  unfold MmapArgs.size pageAlign
  unfold pageSize at hlen
  omega

/-- Such a request is refused only when it is empty or there are too many areas. -/
theorem Within.refused_iff (within : Within c file) :
    u.mm.MmapRefused (some 0) c.len.toNat c.offset.toNat ↔
    c.len.toNat = 0 ∨ sysctlMaxMapCount < u.mm.mapCount := by
  have hsize := within.size_eq
  obtain ⟨hoffset, hlen, hinside, hfile⟩ := within
  unfold MmapArgs.size at hsize
  unfold pageSize at hoffset
  rw [MmStruct.MmapRefused, hsize]
  simp only [MmStruct.fileMmapOk, maxLfsFilesize, Nat.shiftRight_eq_div_pow, decide_eq_true_eq]
  omega

theorem refused_of_some (h : c.len.toNat = 0 ∨ sysctlMaxMapCount < u.mm.mapCount) :
    u.Refused c := by
  rcases h with h | h
  · refine .inr (.inr (.inl ?_))
    rw [h]
    rfl
  · exact .inr (.inr (.inr (.inr (.inl h))))

theorem getPage_setMm (u : UserSpace) (mm : MmStruct) :
    { u with mm }.getPage = u.getPage.map fun u => { u with mm } := by
  rw [getPage, getPage]
  cases u.phys.getPage with
  | ok out => rfl
  | error e => rfl

/-- A request that is not refused comes to `fd_mapping`, and from there it does not come back. -/
theorem doMmap_file (guarded : u.Guarded) (inv : u.mm.Inv) (hlong : OpenFile.bufLen < file.fileSize)
    (taken : ¬u.mm.MmapRefused (some 0) c.len.toNat c.offset.toNat) :
    u.doMmap rbInsertColor (some file) c =
      match u.getPage with
      | .ok _ => .error .fault
      | .error _ => .error .noMemory := by
  obtain ⟨a, mmapCache, freeAreaCache, hchoose, -⟩ :=
    MmStruct.chooseAddr_spec inv c.addr.toNat c.size c.longFlags
  have ends := getPage_ends guarded
  have hget := getPage_setMm u { u.mm with mmapCache, freeAreaCache }
  rw [doMmap, placeMmap_of_not_refused (some file) taken, chooseAddr, hchoose]
  simp only [bind, Except.bind, makeArea, mapFile]
  rw [hget]
  cases hpage : u.getPage with
  | error e =>
    rw [hpage] at ends
    cases ends
    rfl
  | ok u₁ =>
    simp only [Except.map, OpenFile.fdMapping_of_long hlong]

/-- A mapping of pages within a file is right only when it is refused or when the two pages cannot
be taken that come before `fd_mapping`. -/
theorem fileMmap_right_iff (guarded : u.Guarded) (inv : u.mm.Inv) (within : Within c file) :
    u.FileMmapRight rbInsertColor file c ↔
      c.len.toNat = 0 ∨ sysctlMaxMapCount < u.mm.mapCount ∨ u.OutOfPages := by
  have ends := getPage_ends guarded
  change Ends (u.getPage >>= fun u => u.doMmap rbInsertColor (some file) c) _ _ ↔ _
  rw [OutOfPages]
  cases hpage : u.getPage with
  | error e =>
    rw [hpage] at ends
    cases ends
    exact iff_of_true rfl (.inr (.inr rfl))
  | ok u₁ =>
    obtain ⟨guarded₁, hmm, -⟩ : u₁.Guarded ∧ u₁.mm = u.mm ∧ _ := ends.of_eq_ok hpage
    change Ends (u₁.doMmap rbInsertColor (some file) c) _ _ ↔ _ ∨ _ ∨ u₁.getPage = _
    by_cases refused : c.len.toNat = 0 ∨ sysctlMaxMapCount < u.mm.mapCount
    · obtain ⟨r, herr, hplace⟩ := placeMmap_refused rbInsertColor (some file)
        (refused_of_some (u := u₁) (hmm ▸ refused))
      refine iff_of_true ?_ (refused.imp_right .inl)
      rw [doMmap, hplace]
      exact .inl herr
    · have hlong : OpenFile.bufLen < file.fileSize := by
        have hinside := within.inside
        have hlen := within.len
        unfold OpenFile.bufLen
        unfold pageSize at hlen
        omega
      rw [doMmap_file guarded₁ (hmm ▸ inv) hlong (hmm ▸ mt within.refused_iff.mp refused),
        ← or_assoc]
      cases hpage₁ : u₁.getPage with
      | error e =>
        have ends₁ := getPage_ends guarded₁
        rw [hpage₁] at ends₁
        cases ends₁
        exact iff_of_true rfl (.inr rfl)
      | ok u₂ =>
        refine iff_of_false (fun h => ?_) (not_or.mpr ⟨refused, fun h => ?_⟩)
        · cases h
        · cases h

/-! ## One page of a file -/

/-- A file of one page, in the first cluster of its volume. -/
def pageFile : OpenFile where
  fs :=
    { vol := ⟨4096, 8, fun _ => Fat32.fat32Eof, fun _ => 0x61⟩
      count := 1
      dirent := fun _ =>
        { firstClus := 2, fileSize := 4096, pointer := ⟨fun _ => some fun i => i + 2⟩
          parentDirOff := 0, parentDirent := none, rawDirent := fun _ => 0 } }
  dirent := 0
  valid := true
  firstDataSec := 64
  secPerClus := 8
  data := fun sec => some (0x9000000090000000 + sec * 512)
  vAddr := fun _ => 0

def onePage : MmapArgs := ⟨0, 0x1000, 1, 0x02, 0⟩

theorem onePage_within : Within onePage pageFile := ⟨by decide, by decide, by decide, by decide⟩

/-- The pool has both pages. -/
theorem start_pages : ∃ u₁ u₂, start.getPage = .ok u₁ ∧ u₁.Guarded ∧ u₁.mm = start.mm ∧
    u₁.getPage = .ok u₂ := by
  have roomy : start.phys.pool.Roomy (0 + 1 + 1) := startPool_roomy.mono (by decide)
  obtain ⟨u₁, hget₁, ⟨guarded₁, hmm, -⟩, roomy₁⟩ :=
    ((getPage_ends start_guarded).and (getPage_roomy roomy)).exists_ok fun e h => h.2 h.1
  obtain ⟨u₂, hget₂, -⟩ :=
    ((getPage_ends guarded₁).and (getPage_roomy roomy₁)).exists_ok fun e h => h.2 h.1
  exact ⟨u₁, u₂, hget₁, guarded₁, hmm, hget₂⟩

theorem fileMmap_right_iff_onePage : ¬start.FileMmapRight id pageFile onePage := by
  rw [fileMmap_right_iff start_guarded (.initial _) onePage_within]
  rintro (h | h | h)
  · exact absurd h (by decide)
  · exact absurd h (by decide)
  · obtain ⟨u₁, u₂, hget₁, -, -, hget₂⟩ := start_pages
    rw [OutOfPages, hget₁, ok_bind, hget₂] at h
    cases h

theorem addFilePages_two_start :
    start.Guarded ∧ ∀ u', start.addFilePages 0x10000 (fun _ => 0) 2 ≠ .ok u' := by
  obtain ⟨role, sound⟩ := start_guarded.1
  exact ⟨start_guarded, addFilePages_two sound _ 0⟩

/-- With memory left, mapping the page ends with the stack of the kernel overwritten. -/
theorem onePage_overruns_stack :
    start.sysMmap id (some pageFile) onePage = .error .fault ∧
    ¬start.FileMmapRight id pageFile onePage := by
  obtain ⟨u₁, u₂, hget₁, guarded₁, hmm, hget₂⟩ := start_pages
  have inv₁ : u₁.mm.Inv := hmm ▸ MmStruct.Inv.initial _
  have taken : ¬u₁.mm.MmapRefused (some 0) onePage.len.toNat onePage.offset.toNat := by
    rw [onePage_within.refused_iff, hmm]
    decide
  have hdo : u₁.doMmap id (some pageFile) onePage = .error .fault := by
    rw [doMmap_file guarded₁ inv₁ (by decide) taken, hget₂]
  have hsys : start.sysMmap id (some pageFile) onePage = .error .fault := by
    change (start.getPage >>= fun u => u.doMmap id (some pageFile) onePage) = _
    rw [hget₁, ok_bind, hdo]
  refine ⟨hsys, fun right => ?_⟩
  rw [FileMmapRight, hsys] at right
  cases right

end UserSpace

end KernelTravel.Userprog

import KernelTravel.Mm.VmaSearch
import Mathlib.Tactic.Common

/-!
# What a call changes in an address space

`sys_mmap` and `sys_brk` act on the areas of the calling process, on its `brk` and on
`free_area_cache`, the place where the next search starts. A call that is refused leaves
them as they are; one that is not refused adds an area, and the tree grows.
-/

namespace KernelTravel.Mm

namespace MmStruct

/-- The tree of areas, each as its range. -/
def vmaTree (mm : MmStruct) : SearchTree (Nat × Nat) :=
  mm.mmRb.map fun v => ((mm.area v).vmStart, (mm.area v).vmEnd)

/-- Tree and cursor of two address spaces agree. -/
def SameAreas (mm mm' : MmStruct) : Prop :=
  mm'.vmaTree = mm.vmaTree ∧ mm'.freeAreaCache = mm.freeAreaCache

section Search

variable {mm mm' : MmStruct} {addr len flags a : Nat}

theorem findVma_frame (mm : MmStruct) (addr : Nat) :
    ∃ mmapCache, (mm.findVma addr).2 = { mm with mmapCache } := by
  have search : ∀ vma : Option Nat, ∃ mmapCache,
      (if vma.isSome then { mm with mmapCache := vma } else mm) = { mm with mmapCache } := by
    intro vma
    cases vma with
    | none => exact ⟨mm.mmapCache, rfl⟩
    | some v => exact ⟨some v, rfl⟩
  rw [findVma]
  cases hcache : mm.mmapCache with
  | none => exact search _
  | some v =>
    dsimp only
    split
    · exact ⟨mm.mmapCache, rfl⟩
    · exact search _

theorem fullSearch_frame {found : Option Nat} {start : Nat}
    (h : mm.fullSearch start len = some (found, mm')) :
    ∃ mmapCache, mm' = { mm with mmapCache } := by
  obtain ⟨mmapCache, hfind⟩ := mm.findVma_frame start
  obtain ⟨found', -, hret⟩ := Option.bind_eq_some_iff.mp h
  cases hret
  exact ⟨mmapCache, hfind⟩

theorem searchArea_frame (h : mm.searchArea len = some (a, mm')) :
    ∃ mmapCache freeAreaCache, mm' = { mm with mmapCache, freeAreaCache } := by
  obtain ⟨⟨found, mm₁⟩, hfirst, h⟩ := Option.bind_eq_some_iff.mp h
  obtain ⟨cache, rfl⟩ := fullSearch_frame hfirst
  dsimp only at h
  split at h
  · obtain ⟨⟨found₂, mm₂⟩, hsecond, h⟩ := Option.bind_eq_some_iff.mp h
    obtain ⟨cache₂, rfl⟩ := fullSearch_frame hsecond
    cases found₂ with
    | none =>
      cases h
      exact ⟨cache₂, mm.freeAreaCache, rfl⟩
    | some b =>
      cases h
      exact ⟨cache₂, _, rfl⟩
  · cases found with
    | none =>
      cases h
      exact ⟨cache, mm.freeAreaCache, rfl⟩
    | some b =>
      cases h
      exact ⟨cache, _, rfl⟩

theorem getUnmappedArea_frame (h : mm.getUnmappedArea addr len flags = some (a, mm')) :
    ∃ mmapCache freeAreaCache, mm' = { mm with mmapCache, freeAreaCache } := by
  have hint : ∃ mmapCache, (if addr ≠ 0 then mm.findVma (pageAlign addr) else (none, mm)).2
      = { mm with mmapCache } := by
    split
    · exact mm.findVma_frame _
    · exact ⟨mm.mmapCache, rfl⟩
  obtain ⟨cache, hcache⟩ := hint
  by_cases hlong : taskSize - mmapMinAddr < len
  · rw [getUnmappedArea, if_pos hlong] at h
    cases h
    exact ⟨mm.mmapCache, mm.freeAreaCache, rfl⟩
  by_cases hfixed : flags &&& mapFixed ≠ 0
  · rw [getUnmappedArea, if_neg hlong, if_pos hfixed] at h
    cases h
    exact ⟨mm.mmapCache, mm.freeAreaCache, rfl⟩
  · rw [getUnmappedArea, if_neg hlong, if_neg hfixed] at h
    dsimp only at h
    rw [hcache] at h
    generalize (if addr ≠ 0 then mm.findVma (pageAlign addr) else (none, mm)).1 = vma at h
    split at h
    · cases h
      exact ⟨cache, mm.freeAreaCache, rfl⟩
    · obtain ⟨mmapCache, freeAreaCache, rfl⟩ := searchArea_frame h
      exact ⟨mmapCache, freeAreaCache, rfl⟩

theorem chooseAddr_frame (h : mm.chooseAddr addr len flags = some (a, mm')) :
    ∃ mmapCache freeAreaCache, mm' = { mm with mmapCache, freeAreaCache } := by
  rw [chooseAddr] at h
  split at h
  · exact getUnmappedArea_frame h
  · cases h
    exact ⟨mm.mmapCache, mm.freeAreaCache, rfl⟩

end Search

section Change

variable {rbInsertColor : SearchTree Nat → SearchTree Nat} {mm mm' : MmStruct}
  {file : Option Nat} {addr len flags offset pgoff : Nat}

/-- A new area makes the tree larger. -/
theorem length_addArea (color : ∀ t, (rbInsertColor t).inorder = t.inorder) {place : Option Place}
    (h : mm.addArea rbInsertColor addr len place = some mm') :
    mm'.mmRb.inorder.length = mm.mmRb.inorder.length + 1 := by
  obtain ⟨place, -, h⟩ := Option.bind_eq_some_iff.mp h
  obtain ⟨t, hinsert, h⟩ := Option.bind_eq_some_iff.mp h
  cases h
  change (rbInsertColor t).inorder.length = _
  rw [color, (SearchTree.insertAt_perm hinsert).length_eq, List.length_cons]

theorem SameAreas.length_eq (same : SameAreas mm mm') :
    mm'.mmRb.inorder.length = mm.mmRb.inorder.length := by
  simpa [vmaTree] using congrArg (fun t => t.inorder.length) same.1

/-- The request does not move the cursor: its address is taken as it is, or it is too long, or its
hint is free, or there is no gap for it, or only gaps below the cursor, of which the lowest one
that is long enough has the cursor at the end of the range taken. -/
def KeepsCursor (mm : MmStruct) (addr len flags : Nat) : Prop :=
  flags &&& mapForInitFile ≠ 0 ∨ taskSize - mmapMinAddr < len ∨ flags &&& mapFixed ≠ 0 ∨
    mm.Sorted ∧ (mm.HintFits ((addr + taskUnmappedBase) % 2 ^ 64) len ∨
      ¬mm.Gap mm.freeAreaCache len ∧ (¬mm.Gap taskUnmappedBase len ∨
        ∃ a, mm.LowestGap taskUnmappedBase len a ∧ a + len = mm.freeAreaCache))

/-- The request ends at one of the tests before a new area is made, and the search that comes
before the last of them does not move the cursor. -/
def MmapIdle (mm : MmStruct) (file : Option Nat) (addr len flags offset : Nat) : Prop :=
  (offset + pageAlign len) % 2 ^ 64 < offset ∨ offset % 4096 ≠ 0 ∨ pageAlign len = 0 ∨
    (offset >>> 12 + pageAlign len >>> 12) % 2 ^ 64 < offset >>> 12 ∨
    sysctlMaxMapCount < mm.mapCount ∨
    (file.isSome ∧ ¬fileMmapOk (offset >>> 12) (pageAlign len)) ∧
      mm.KeepsCursor addr (pageAlign len) flags

/-- The cursor after a placement is the one before in these cases. -/
theorem Placement.cursor_eq_iff {a cursor : Nat} (hpos : 0 < len)
    (place : mm.Placement addr len a cursor) : cursor = mm.freeAreaCache ↔
      mm.HintFits addr len ∨ ¬mm.Gap mm.freeAreaCache len ∧ (¬mm.Gap taskUnmappedBase len ∨
        ∃ b, mm.LowestGap taskUnmappedBase len b ∧ b + len = mm.freeAreaCache) := by
  cases place with
  | hint fits => exact iff_of_true rfl (.inl fits)
  | search occupied place =>
    rw [or_iff_right occupied]
    cases place with
    | cursor lowest =>
      have := lowest.above
      exact iff_of_false (by omega) fun h => h.1 lowest.gap
    | nowhere full full' => exact iff_of_true rfl ⟨full, .inl full'⟩
    | base full lowest =>
      rw [and_iff_right full, or_iff_right (not_not.mpr lowest.gap)]
      refine ⟨fun h => ⟨a, lowest, h⟩, ?_⟩
      rintro ⟨b, lowest', h⟩
      rw [lowest.unique lowest']
      exact h

/-- An address is chosen and the cursor is where it was. -/
def ChoosesInPlace (mm : MmStruct) (addr len flags : Nat) : Prop :=
  ∃ a mm', mm.chooseAddr addr len flags = some (a, mm') ∧ mm'.freeAreaCache = mm.freeAreaCache

theorem chooseAddr_unsearched (h : flags &&& mapForInitFile ≠ 0 ∨
    taskSize - mmapMinAddr < len ∨ flags &&& mapFixed ≠ 0) :
    ∃ a, mm.chooseAddr addr len flags = some (a, mm) := by
  rw [chooseAddr]
  split
  next hinit =>
    rw [getUnmappedArea]
    split
    next => exact ⟨_, rfl⟩
    next hlen =>
      rw [if_pos ((h.resolve_left (not_not.mpr hinit)).resolve_left hlen)]
      exact ⟨_, rfl⟩
  next => exact ⟨_, rfl⟩

theorem chooseAddr_placement (sorted : Sorted mm) (searched : ¬(flags &&& mapForInitFile ≠ 0 ∨
    taskSize - mmapMinAddr < len ∨ flags &&& mapFixed ≠ 0)) :
    ∃ a mmapCache freeAreaCache,
      mm.chooseAddr addr len flags = some (a, { mm with mmapCache, freeAreaCache }) ∧
      (∀ v ∈ mmapCache, v ∈ mm.areas) ∧
      mm.Placement ((addr + taskUnmappedBase) % 2 ^ 64) len a freeAreaCache := by
  simp only [not_or, not_not, Nat.not_lt] at searched
  rw [chooseAddr, if_pos searched.1]
  exact getUnmappedArea_spec sorted searched.2.1 searched.2.2

theorem choosesInPlace_of_keepsCursor (hpos : 0 < len) (keeps : mm.KeepsCursor addr len flags) :
    mm.ChoosesInPlace addr len flags := by
  by_cases unsearched : flags &&& mapForInitFile ≠ 0 ∨ taskSize - mmapMinAddr < len ∨
      flags &&& mapFixed ≠ 0
  · obtain ⟨a, hchoose⟩ := @chooseAddr_unsearched mm addr _ _ unsearched
    exact ⟨a, mm, hchoose, rfl⟩
  · rw [KeepsCursor, ← or_assoc, ← or_assoc, or_assoc (c := flags &&& mapFixed ≠ 0)] at keeps
    obtain ⟨sorted, hplace⟩ := keeps.resolve_left unsearched
    obtain ⟨a, mmapCache, freeAreaCache, hchoose, -, place⟩ :=
      chooseAddr_placement sorted unsearched
    exact ⟨a, _, hchoose, (place.cursor_eq_iff hpos).mpr hplace⟩

theorem keepsCursor_of_choosesInPlace (sorted : Sorted mm) (hpos : 0 < len)
    (inPlace : mm.ChoosesInPlace addr len flags) : mm.KeepsCursor addr len flags := by
  by_cases unsearched : flags &&& mapForInitFile ≠ 0 ∨ taskSize - mmapMinAddr < len ∨
      flags &&& mapFixed ≠ 0
  · exact unsearched.imp_right fun h => h.imp_right .inl
  · obtain ⟨a, mmapCache, freeAreaCache, hchoose, -, place⟩ :=
      @chooseAddr_placement mm addr _ _ sorted unsearched
    obtain ⟨a', mm', hchoose', hcursor⟩ := inPlace
    cases hchoose.symm.trans hchoose'
    exact .inr (.inr (.inr ⟨sorted, (place.cursor_eq_iff hpos).mp hcursor⟩))

theorem doMmapPgoff_same_iff (color : ∀ t, (rbInsertColor t).inorder = t.inorder) :
    (∃ r mm', mm.doMmapPgoff rbInsertColor file addr len flags pgoff = some (r, mm') ∧
      SameAreas mm mm') ↔ pageAlign len = 0 ∨ (pgoff + pageAlign len >>> 12) % 2 ^ 64 < pgoff ∨
      sysctlMaxMapCount < mm.mapCount ∨ (file.isSome ∧ ¬fileMmapOk pgoff (pageAlign len)) ∧
        mm.ChoosesInPlace addr (pageAlign len) flags := by
  rw [doMmapPgoff, ChoosesInPlace]
  by_cases hlen : pageAlign len = 0
  · simp [hlen, SameAreas]
  by_cases hover : (pgoff + pageAlign len >>> 12) % 2 ^ 64 < pgoff
  · rw [if_neg hlen, if_pos hover]
    exact iff_of_true ⟨_, mm, rfl, rfl, rfl⟩ (.inr (.inl hover))
  by_cases hcount : sysctlMaxMapCount < mm.mapCount
  · rw [if_neg hlen, if_neg hover, if_pos hcount]
    exact iff_of_true ⟨_, mm, rfl, rfl, rfl⟩ (.inr (.inr (.inl hcount)))
  simp only [hlen, hover, hcount, if_false, false_or]
  cases hchoose : mm.chooseAddr addr (pageAlign len) flags with
  | none => simp
  | some found =>
    obtain ⟨a, mm₁⟩ := found
    obtain ⟨cache, cursor, rfl⟩ := chooseAddr_frame hchoose
    by_cases hfile : file.isSome ∧ ¬fileMmapOk pgoff (pageAlign len)
    · simp [hfile, SameAreas, vmaTree]
    · simp only [Option.bind_eq_bind, Option.bind_some, hfile, if_false, false_and, iff_false]
      rintro ⟨r, mm', h, same⟩
      obtain ⟨mm₂, hadd, h⟩ := Option.bind_eq_some_iff.mp h
      cases h
      have grown := length_addArea color hadd
      rw [same.length_eq] at grown
      exact Nat.ne_of_lt (Nat.lt_succ_self _) grown

theorem doMmap_same_iff (color : ∀ t, (rbInsertColor t).inorder = t.inorder) :
    (∃ r mm', mm.doMmap rbInsertColor file addr len flags offset = some (r, mm') ∧
      SameAreas mm mm') ↔ (offset + pageAlign len) % 2 ^ 64 < offset ∨ offset % 4096 ≠ 0 ∨
      pageAlign len = 0 ∨ (offset >>> 12 + pageAlign len >>> 12) % 2 ^ 64 < offset >>> 12 ∨
      sysctlMaxMapCount < mm.mapCount ∨
      (file.isSome ∧ ¬fileMmapOk (offset >>> 12) (pageAlign len)) ∧
        mm.ChoosesInPlace addr (pageAlign len) flags := by
  rw [doMmap]
  by_cases hwrap : (offset + pageAlign len) % 2 ^ 64 < offset
  · rw [if_pos hwrap]
    exact iff_of_true ⟨_, mm, rfl, rfl, rfl⟩ (.inl hwrap)
  by_cases haligned : offset % 4096 = 0
  · simp only [hwrap, haligned, if_true, if_false, false_or, ne_eq, not_true_eq_false]
    exact doMmapPgoff_same_iff color
  · rw [if_neg hwrap, if_neg haligned]
    exact iff_of_true ⟨_, mm, rfl, rfl, rfl⟩ (.inr (.inl haligned))

/-- An idle request leaves tree and cursor alone, and in a sorted space no other request does. -/
theorem doMmap_same_of_idle (color : ∀ t, (rbInsertColor t).inorder = t.inorder)
    (idle : mm.MmapIdle file addr len flags offset) :
    ∃ r mm', mm.doMmap rbInsertColor file addr len flags offset = some (r, mm') ∧
      SameAreas mm mm' := by
  rw [doMmap_same_iff color]
  by_cases hzero : pageAlign len = 0
  · exact .inr (.inr (.inl hzero))
  · refine idle.imp_right (Or.imp_right (Or.imp_right (Or.imp_right (Or.imp_right ?_))))
    exact And.imp_right (choosesInPlace_of_keepsCursor (Nat.pos_of_ne_zero hzero))

theorem idle_of_doMmap_same (color : ∀ t, (rbInsertColor t).inorder = t.inorder)
    (sorted : Sorted mm) (same : ∃ r mm',
      mm.doMmap rbInsertColor file addr len flags offset = some (r, mm') ∧ SameAreas mm mm') :
    mm.MmapIdle file addr len flags offset := by
  rw [doMmap_same_iff color] at same
  by_cases hzero : pageAlign len = 0
  · exact .inr (.inr (.inl hzero))
  · refine same.imp_right (Or.imp_right (Or.imp_right (Or.imp_right (Or.imp_right ?_))))
    exact And.imp_right (keepsCursor_of_choosesInPlace sorted (Nat.pos_of_ne_zero hzero))

/-- A request is refused, or it chooses an address and adds an area there. -/
theorem doMmap_cases {r : Nat}
    (h : mm.doMmap rbInsertColor file addr len flags offset = some (r, mm')) :
    mm' = mm ∨ ∃ a mm₁, mm.chooseAddr addr (pageAlign len) flags = some (a, mm₁) ∧
      (mm' = mm₁ ∨
        mm₁.addArea rbInsertColor a (pageAlign len) (mm₁.findVmaPrepare a) = some mm') := by
  rw [doMmap] at h
  split at h
  · cases h
    exact .inl rfl
  split at h
  · rw [doMmapPgoff] at h
    dsimp only at h
    split_ifs at h
    · cases h
      exact .inl rfl
    · cases h
      exact .inl rfl
    · cases h
      exact .inl rfl
    · obtain ⟨⟨a, mm₁⟩, hchoose, heq⟩ := Option.bind_eq_some_iff.mp h
      cases heq
      exact .inr ⟨a, mm₁, hchoose, .inl rfl⟩
    · obtain ⟨⟨a, mm₁⟩, hchoose, h⟩ := Option.bind_eq_some_iff.mp h
      obtain ⟨mm₂, hadd, heq⟩ := Option.bind_eq_some_iff.mp h
      cases heq
      exact .inr ⟨a, mm₁, hchoose, .inr hadd⟩
  · cases h
    exact .inl rfl

/-- A request that leaves the tree as it was leaves the space sorted. -/
theorem sorted_doMmap (color : ∀ t, (rbInsertColor t).inorder = t.inorder) (sorted : Sorted mm)
    {r : Nat} (h : mm.doMmap rbInsertColor file addr len flags offset = some (r, mm'))
    (same : SameAreas mm mm') : Sorted mm' := by
  rcases doMmap_cases h with rfl | ⟨a, mm₁, hchoose, hrest⟩
  · exact sorted
  have sorted₁ : Sorted mm₁ := by
    by_cases unsearched : flags &&& mapForInitFile ≠ 0 ∨
        taskSize - mmapMinAddr < pageAlign len ∨ flags &&& mapFixed ≠ 0
    · obtain ⟨a', hchoose'⟩ := @chooseAddr_unsearched mm addr _ _ unsearched
      cases hchoose.symm.trans hchoose'
      exact sorted
    · obtain ⟨a', mmapCache, freeAreaCache, hchoose', hcache, -⟩ :=
        @chooseAddr_placement mm addr _ _ sorted unsearched
      cases hchoose.symm.trans hchoose'
      exact sorted.setCaches hcache freeAreaCache
  rcases hrest with rfl | hadd
  · exact sorted₁
  · obtain ⟨cache, cursor, rfl⟩ := chooseAddr_frame hchoose
    have grown := length_addArea color hadd
    rw [same.length_eq] at grown
    exact absurd grown (Nat.ne_of_lt (Nat.lt_succ_self _))

end Change

end MmStruct

/-- An address space with the fields of `mm_struct` that `sys_brk` uses besides. -/
structure Space where
  areas : MmStruct
  startBrk : Nat
  brk : Nat

namespace Space

section Brk

variable (rbInsertColor : SearchTree Nat → SearchTree Nat)

/-- The shrinking branch unmaps nothing and leaves `brk` as it is. -/
def sysBrk (mm : Space) (brk : Nat) : Option Space :=
  if brk < mm.startBrk then some mm
  else
    let newbrk := pageAlign brk
    let oldbrk := pageAlign mm.brk
    if newbrk = oldbrk then some { mm with brk }
    else if brk ≤ mm.brk then some mm
    else do
      let (addr, areas) ← mm.areas.doBrk rbInsertColor oldbrk ((newbrk + 2 ^ 64 - oldbrk) % 2 ^ 64)
      if addr ≠ oldbrk then return { mm with areas } else return { mm with areas, brk }

end Brk

/-- The request asks for the present value, lies below `start_brk`, would shrink the heap
by a page, or is refused by `do_brk`. -/
def BrkRefused (mm : Space) (brk : Nat) : Prop :=
  brk < mm.startBrk ∨
    if pageAlign brk = pageAlign mm.brk then brk = mm.brk
    else brk ≤ mm.brk ∨
      taskSize - mmapMinAddr < (pageAlign brk + 2 ^ 64 - pageAlign mm.brk) % 2 ^ 64 ∨
      sysctlMaxMapCount < mm.areas.mapCount

/-- What a process sees of its address space. -/
def Same (mm mm' : Space) : Prop := mm.areas.SameAreas mm'.areas ∧ mm'.brk = mm.brk

variable {rbInsertColor : SearchTree Nat → SearchTree Nat} {mm : Space} {brk : Nat}

theorem pageAlign_lt (x : Nat) : pageAlign x < 2 ^ 64 := by
  rw [pageAlign]
  omega

theorem pageAlign_mod (x : Nat) : pageAlign x % 4096 = 0 := by
  rw [pageAlign]
  omega

theorem pageAlign_of_mod {x : Nat} (hx : x < 2 ^ 64) (h : x % 4096 = 0) : pageAlign x = x := by
  rw [pageAlign]
  omega

/-- Growing from one page boundary to another. -/
theorem pageAlign_gap {new old : Nat} (hnew : new < 2 ^ 64) (hold : old < 2 ^ 64)
    (newMod : new % 4096 = 0) (oldMod : old % 4096 = 0) (hne : new ≠ old) :
    pageAlign ((new + 2 ^ 64 - old) % 2 ^ 64) = (new + 2 ^ 64 - old) % 2 ^ 64 ∧
      (new + 2 ^ 64 - old) % 2 ^ 64 ≠ 0 := by
  constructor
  · exact pageAlign_of_mod (Nat.mod_lt _ (by decide)) (by omega)
  · omega

/-- `do_brk` at a page boundary: too long, too many areas, or a new area. -/
theorem doBrk_cases {mm : MmStruct} {addr len : Nat} (haddr : addr % 4096 = 0)
    (hlen : pageAlign len = len) (hpos : len ≠ 0) :
    (taskSize - mmapMinAddr < len ∨ sysctlMaxMapCount < mm.mapCount) ∧
        mm.doBrk rbInsertColor addr len = some (err enomem, mm) ∨
      ¬(taskSize - mmapMinAddr < len ∨ sysctlMaxMapCount < mm.mapCount) ∧
        mm.doBrk rbInsertColor addr len =
          (mm.addArea rbInsertColor addr len (mm.findVmaPrepare addr)).map fun mm =>
          (addr, mm) := by
  rw [MmStruct.doBrk, hlen]
  simp only [hpos, if_false]
  by_cases hlong : taskSize - mmapMinAddr < len
  · refine .inl ⟨.inl hlong, ?_⟩
    have hbits : err enomem % 4096 ≠ 0 := by decide
    have hsign : ((BitVec.ofNat 32 (err enomem)).signExtend 64).toNat = err enomem := by decide
    rw [MmStruct.getUnmappedArea, if_pos hlong]
    simp [hbits, hsign]
  · rw [MmStruct.getUnmappedArea, if_neg hlong, if_pos (by decide)]
    simp only [Option.bind_eq_bind, Option.bind_some, haddr, ne_eq, not_true_eq_false, if_false]
    by_cases hcount : sysctlMaxMapCount < mm.mapCount
    · exact .inl ⟨.inr hcount, by simp [hcount]⟩
    · refine .inr ⟨by simp [hlong, hcount], ?_⟩
      simp only [hcount, if_false, Option.map_eq_bind]
      rfl

theorem err_enomem_ne {addr : Nat} (haddr : addr % 4096 = 0) : err enomem ≠ addr := by
  rw [err, enomem]
  omega

/-- A call adds an area or leaves the areas as they are. -/
theorem sysBrk_areas (color : ∀ t, (rbInsertColor t).inorder = t.inorder) {mm' : Space}
    (h : mm.sysBrk rbInsertColor brk = some mm') (same : mm.areas.SameAreas mm'.areas) :
    mm'.areas = mm.areas := by
  rw [sysBrk] at h
  dsimp only at h
  by_cases hlow : brk < mm.startBrk
  · rw [if_pos hlow] at h
    cases h
    rfl
  by_cases hpage : pageAlign brk = pageAlign mm.brk
  · rw [if_neg hlow, if_pos hpage] at h
    cases h
    rfl
  by_cases hshrink : brk ≤ mm.brk
  · rw [if_neg hlow, if_neg hpage, if_pos hshrink] at h
    cases h
    rfl
  rw [if_neg hlow, if_neg hpage, if_neg hshrink] at h
  obtain ⟨hgap, hpos⟩ := pageAlign_gap (pageAlign_lt brk) (pageAlign_lt mm.brk)
    (pageAlign_mod brk) (pageAlign_mod mm.brk) hpage
  obtain ⟨⟨addr, areas⟩, hbrk, h⟩ := Option.bind_eq_some_iff.mp h
  have hareas : mm'.areas = areas := by
    dsimp only at h
    split at h <;> cases h <;> rfl
  rcases @doBrk_cases rbInsertColor mm.areas _ _ (pageAlign_mod mm.brk) hgap hpos with
    ⟨-, heq⟩ | ⟨-, heq⟩
  · cases hbrk.symm.trans heq
    exact hareas
  · obtain ⟨areas', hadd, hret⟩ := Option.map_eq_some_iff.mp (heq.symm.trans hbrk)
    cases hret
    have grown := MmStruct.length_addArea color hadd
    rw [← hareas, same.length_eq] at grown
    exact absurd grown (Nat.ne_of_lt (Nat.lt_succ_self _))

theorem sysBrk_same_iff (color : ∀ t, (rbInsertColor t).inorder = t.inorder) :
    (∃ mm', mm.sysBrk rbInsertColor brk = some mm' ∧ mm.Same mm') ↔ mm.BrkRefused brk := by
  rw [sysBrk, BrkRefused]
  by_cases hlow : brk < mm.startBrk
  · simp [hlow, Same, MmStruct.SameAreas]
  by_cases hpage : pageAlign brk = pageAlign mm.brk
  · simp [hlow, hpage, Same, MmStruct.SameAreas]
  by_cases hshrink : brk ≤ mm.brk
  · simp [hlow, hpage, hshrink, Same, MmStruct.SameAreas]
  simp only [hlow, hpage, hshrink, if_false, false_or]
  obtain ⟨hgap, hpos⟩ := pageAlign_gap (pageAlign_lt brk) (pageAlign_lt mm.brk)
    (pageAlign_mod brk) (pageAlign_mod mm.brk) hpage
  rcases @doBrk_cases rbInsertColor mm.areas _ _ (pageAlign_mod mm.brk) hgap hpos with
    ⟨hrefused, hbrk⟩ | ⟨hgranted, hbrk⟩
  · simp only [hrefused, iff_true]
    refine ⟨mm, ?_, ⟨rfl, rfl⟩, rfl⟩
    rw [hbrk]
    simp [err_enomem_ne (pageAlign_mod mm.brk)]
  · simp only [hgranted, iff_false]
    rintro ⟨mm', h, same, -⟩
    rw [hbrk] at h
    obtain ⟨⟨addr, areas⟩, hadd, h⟩ := Option.bind_eq_some_iff.mp h
    obtain ⟨areas', hadd, hret⟩ := Option.map_eq_some_iff.mp hadd
    have grown := MmStruct.length_addArea color hadd
    cases hret
    have hareas : mm'.areas = areas := by
      dsimp only at h
      split at h <;> cases h <;> rfl
    rw [← hareas, same.length_eq] at grown
    exact Nat.ne_of_lt (Nat.lt_succ_self _) grown

end Space

end KernelTravel.Mm

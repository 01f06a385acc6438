import KernelTravel.Ext4.BlockMap
import KernelTravel.Ext4.Group

/-!
# Setting an entry of the block map

`ext4_fs_set_inode_data_block_index` writes the number of a block into the inode or into an
indirect block, and on its way allocates the indirect blocks that are missing. It is compared
with the lookup of `ext4_fs_get_inode_dblk_idx`.

A new indirect block is cleared by a `memset` of a whole block on the 512 bytes of a buffer. So
the function only stays in its buffers when nothing has to be allocated.
-/

namespace KernelTravel.Ext4

open Mem (leNum leNum_congr leNum_lt leBytes blit)

/-- Store a number of 32 bits in a buffer. -/
def BufPtr.storeWord (p : BufPtr) (disk : Nat → Byte) (v : Nat) : Option (Nat → Byte) :=
  if p.byte + 4 ≤ bufSize then some (blit disk (p.sector * bufSize + p.byte) 4 (leBytes v))
    else none

/-- An entry of `blocks` is set. -/
def Inode.setBlock (inode : Inode) (k v : Nat) : Inode :=
  { inode with content := blit inode.content (4 * k) 4 (leBytes v) }

/-- `ext4_fs_indirect_find_goal` and `ext4_balloc_alloc_block`: an error number, the new block,
and the inode and the disk afterwards. -/
abbrev NewBlock := Inode → (Nat → Byte) → Option (Int × Nat × Inode × (Nat → Byte))

namespace Super

/-- The `memset` on the buffer of a new block. -/
def zeroBlock (sb : Super) (disk : Nat → Byte) (block : Nat) : Option (Nat → Byte) :=
  if sb.blockSize ≤ bufSize then
    some (blit disk (sb.lba2pba block * bufSize) sb.blockSize fun _ => 0)
  else none

variable (sb : Super) (alloc : NewBlock)

/-- The loop over the indirect blocks. -/
def setWalk (fblock : Nat) : Nat → Nat → Nat → Nat → Inode → (Nat → Byte) →
    Option (Int × Inode × (Nat → Byte))
  | 0, _, _, _, inode, disk => some (0, inode, disk)
  | l + 1, current, blkOffInLvl, offInBlk, inode, disk => do
    let ptr := sb.indirectPtr current offInBlk
    let next ← ptr.loadWord disk
    if l = 0 then
      let disk ← ptr.storeWord disk fblock
      some (0, inode, disk)
    else
      let blkOffInLvl := blkOffInLvl % sb.inodeBlocksPerLevel l
      let offInBlk := blkOffInLvl / sb.inodeBlocksPerLevel (l - 1) % 2 ^ 32
      if next = 0 then
        let (rc, newBlk, inode, disk) ← alloc inode disk
        if rc ≠ 0 then some (rc, inode, disk)
        else
          let disk ← sb.zeroBlock disk newBlk
          let disk ← ptr.storeWord disk newBlk
          setWalk fblock l newBlk blkOffInLvl offInBlk inode disk
      else setWalk fblock l next blkOffInLvl offInBlk inode disk

/-- `ext4_fs_set_inode_data_block_index`. -/
def setInodeDataBlockIndex (inode : Inode) (disk : Nat → Byte) (iblock fblock : Nat) :
    Option (Int × Inode × (Nat → Byte)) :=
  if inode.extents then some (-1, inode, disk)
  else if iblock < 12 then some (0, inode.setBlock iblock fblock, disk)
  else
    let l := sb.level iblock
    if l = 0 then some (-1, inode, disk)
    else
      let blkOffInLvl := (iblock - sb.inodeBlockLimits (l - 1)) % 2 ^ 32
      let current := inode.block (12 + (l - 1))
      let offInBlk := blkOffInLvl / sb.inodeBlocksPerLevel (l - 1) % 2 ^ 32
      if current = 0 then do
        let (rc, newBlk, inode, disk) ← alloc inode disk
        if rc ≠ 0 then some (rc, inode, disk)
        else
          let inode := inode.setBlock (12 + (l - 1)) newBlk
          let disk ← sb.zeroBlock disk newBlk
          sb.setWalk alloc fblock l newBlk blkOffInLvl offInBlk inode disk
      else sb.setWalk alloc fblock l current blkOffInLvl offInBlk inode disk

/-- The get-set law: the call stays in its buffers, and if it succeeds, the lookup gives the new
block for `iblock` and the old one for every other block. -/
def GetSet (inode : Inode) (disk : Nat → Byte) (iblock fblock : Nat) : Prop :=
  ∃ rc inode' disk', sb.setInodeDataBlockIndex alloc inode disk iblock fblock =
      some (rc, inode', disk') ∧
    (rc = 0 → ∀ c, inode'.getInodeDblkIdx sb disk' c =
      if c = iblock then some (0, fblock) else inode.getInodeDblkIdx sb disk c)

end Super

/-! ## Where an entry lies -/

/-- What the indirect blocks give for a block: the way leaves a buffer, an indirect block is
missing, or there is an entry in an indirect block. -/
inductive Way where
  | leaves
  | missing
  | entry (block idx : Nat)
deriving DecidableEq, Repr

namespace Super

variable (sb : Super)

/-- The address of an entry on the disk. -/
def entryAddr (block idx : Nat) : Nat := sb.lba2pba block * bufSize + 4 * idx

def way (disk : Nat → Byte) : Nat → Nat → Nat → Way
  | 0, _, _ => .leaves
  | l + 1, current, off =>
    if current = 0 then .missing
    else if 4 * (off / sb.inodeBlocksPerLevel l) + 4 ≤ bufSize then
      if l = 0 then .entry current off
      else way disk l (leNum disk (sb.entryAddr current (off / sb.inodeBlocksPerLevel l)) 4)
        (off % sb.inodeBlocksPerLevel l)
    else .leaves

/-- The offset of a block within its level. -/
def offInLevel (iblock : Nat) : Nat :=
  (iblock - sb.inodeBlockLimits (sb.level iblock - 1)) % 2 ^ 32

/-- The way to the entry of a block. -/
def wayTo (inode : Inode) (disk : Nat → Byte) (iblock : Nat) : Way :=
  sb.way disk (sb.level iblock) (inode.block (12 + (sb.level iblock - 1))) (sb.offInLevel iblock)

/-- The call keeps the law: the number of the block fits 32 bits, no indirect block is missing,
and no buffer is left. Where a level has more than 2^32 blocks, a block of 2^32 further on has
the same entry; then the entry must not change. A missing indirect block does no harm only
if the allocation of a new one reports an error. -/
def SetSafe (alloc : NewBlock) (inode : Inode) (disk : Nat → Byte) (iblock fblock : Nat) : Prop :=
  if iblock < 12 then fblock < 2 ^ 32
  else match sb.wayTo inode disk iblock with
    | .leaves => False
    | .missing => ∃ rc out, alloc inode disk = some (rc, out) ∧ rc ≠ 0
    | .entry block idx => fblock < 2 ^ 32 ∧
        (sb.inodeBlockLimits (sb.level iblock) ≤ iblock + 2 ^ 32 ∨
          leNum disk (sb.entryAddr block idx) 4 = fblock)

/-- The lookup from an indirect block on. -/
def lookupFrom (disk : Nat → Byte) (l current off : Nat) : Option Nat :=
  sb.indirectWalk disk l current off (off / sb.inodeBlocksPerLevel (l - 1) % 2 ^ 32)

end Super

/-! ## Levels -/

namespace Super

variable {sb : Super} {l c : Nat}

theorem inodeBlockLimits_mono (i : Nat) : sb.inodeBlockLimits i ≤ sb.inodeBlockLimits (i + 1) :=
  Nat.le_add_right _ _

/-- A block behind the direct ones belongs to the level between two limits. -/
theorem level_eq_iff (hc : 12 ≤ c) (hl : 0 < l) (hl3 : l ≤ 3) :
    sb.level c = l ↔ sb.inodeBlockLimits (l - 1) ≤ c ∧ c < sb.inodeBlockLimits l := by
  have h01 := @inodeBlockLimits_mono sb 0
  have h12 := @inodeBlockLimits_mono sb 1
  have h23 := @inodeBlockLimits_mono sb 2
  have h0 : sb.inodeBlockLimits 0 = 12 := rfl
  rw [level]
  obtain rfl | rfl | rfl : l = 1 ∨ l = 2 ∨ l = 3 := by omega
  all_goals
    simp only [Nat.reduceSub, Nat.reduceAdd] at h01 h12 h23 ⊢
    split_ifs
    all_goals first | omega | exact ⟨fun h => (by cases h), fun h => absurd h.2 (by omega)⟩

theorem limits_of_level (hc : 12 ≤ c) (hne : sb.level c ≠ 0) :
    sb.inodeBlockLimits (sb.level c - 1) ≤ c ∧ c < sb.inodeBlockLimits (sb.level c) :=
  (level_eq_iff hc (Nat.pos_of_ne_zero hne) (sb.level_le c)).mp rfl

/-- Within a level, two blocks with one offset are a multiple of 2^32 apart. -/
theorem offInLevel_eq {b : Nat} (hb : 12 ≤ b) (hb32 : b < 2 ^ 32) (hc : 12 ≤ c)
    (hne : sb.level b ≠ 0) (hlevel : sb.level c = sb.level b)
    (hoff : sb.offInLevel c = sb.offInLevel b) : c = b ∨ b + 2 ^ 32 ≤ c := by
  have hbl := (limits_of_level hb hne).1
  have hcl := (limits_of_level hc (hlevel ▸ hne)).1
  rw [offInLevel, offInLevel, hlevel] at hoff
  rw [hlevel] at hcl
  omega

theorem offInLevel_lt : sb.offInLevel c < 2 ^ 32 := Nat.mod_lt _ (Nat.two_pow_pos 32)

end Super

/-! ## One step down -/

namespace Super

variable {sb : Super} {disk disk' : Nat → Byte} {l current off : Nat}

theorem loadWord_eq {idx : Nat} (hin : 4 * idx + 4 ≤ bufSize) :
    (sb.indirectPtr current idx).loadWord disk = some (leNum disk (sb.entryAddr current idx) 4) :=
  if_pos hin

theorem loadWord_none {idx : Nat} (hout : ¬4 * idx + 4 ≤ bufSize) :
    (sb.indirectPtr current idx).loadWord disk = none :=
  if_neg hout

theorem storeWord_eq {idx : Nat} (hin : 4 * idx + 4 ≤ bufSize) (v : Nat) :
    (sb.indirectPtr current idx).storeWord disk v =
      some (blit disk (sb.entryAddr current idx) 4 (leBytes v)) :=
  if_pos hin

theorem lookupFrom_succ (hoff : off < 2 ^ 32) : sb.lookupFrom disk (l + 1) current off =
    if 4 * (off / sb.inodeBlocksPerLevel l) + 4 ≤ bufSize then
      let next := leNum disk (sb.entryAddr current (off / sb.inodeBlocksPerLevel l)) 4
      if next = 0 then some 0
      else if l = 0 then some next
      else sb.lookupFrom disk l next (off % sb.inodeBlocksPerLevel l)
    else none := by
  have hdigit : off / sb.inodeBlocksPerLevel (l + 1 - 1) % 2 ^ 32 =
      off / sb.inodeBlocksPerLevel l :=
    Nat.mod_eq_of_lt (Nat.lt_of_le_of_lt (Nat.div_le_self _ _) hoff)
  rw [lookupFrom, hdigit, indirectWalk]
  by_cases hin : 4 * (off / sb.inodeBlocksPerLevel l) + 4 ≤ bufSize
  · rw [loadWord_eq hin, if_pos hin]
    rfl
  · rw [loadWord_none hin, if_neg hin]
    rfl

/-- Writing follows the way. -/
theorem setWalk_eq (hsize : bufSize < sb.blockSize) (alloc : NewBlock) (fblock : Nat)
    (inode : Inode) (hoff : off < 2 ^ 32) (hne : current ≠ 0) :
    sb.setWalk alloc fblock (l + 1) current off
        (off / sb.inodeBlocksPerLevel l % 2 ^ 32) inode disk =
      match sb.way disk (l + 1) current off with
      | .leaves => none
      | .missing => (alloc inode disk).bind fun (rc, _, inode, disk) =>
        if rc ≠ 0 then some (rc, inode, disk) else none
      | .entry block idx =>
        some (0, inode, blit disk (sb.entryAddr block idx) 4 (leBytes fblock)) := by
  induction l generalizing current off with
  | zero =>
    have hdigit : off / sb.inodeBlocksPerLevel 0 % 2 ^ 32 = off := by
      rw [inodeBlocksPerLevel, Nat.div_one, Nat.mod_eq_of_lt hoff]
    have hdiv : off / sb.inodeBlocksPerLevel 0 = off := Nat.div_one off
    rw [setWalk, hdigit, way, if_neg hne, hdiv]
    dsimp only
    by_cases hin : 4 * off + 4 ≤ bufSize
    · rw [loadWord_eq hin, storeWord_eq hin, if_pos hin]
      rfl
    · rw [loadWord_none hin, if_neg hin]
      rfl
  | succ l ih =>
    have hdigit : off / sb.inodeBlocksPerLevel (l + 1) % 2 ^ 32 =
        off / sb.inodeBlocksPerLevel (l + 1) :=
      Nat.mod_eq_of_lt (Nat.lt_of_le_of_lt (Nat.div_le_self _ _) hoff)
    have hrest : off % sb.inodeBlocksPerLevel (l + 1) < 2 ^ 32 :=
      Nat.lt_of_le_of_lt (Nat.mod_le _ _) hoff
    rw [setWalk, hdigit, way, if_neg hne]
    dsimp only
    by_cases hin : 4 * (off / sb.inodeBlocksPerLevel (l + 1)) + 4 ≤ bufSize
    · rw [loadWord_eq hin, if_pos hin, Option.bind_eq_bind, Option.bind_some,
        if_neg (Nat.succ_ne_zero l), if_neg (Nat.succ_ne_zero l)]
      by_cases hzero : leNum disk (sb.entryAddr current (off / sb.inodeBlocksPerLevel (l + 1))) 4 =
        0
      · -- an indirect block is missing, and the new one cannot be cleared
        rw [if_pos hzero, hzero, way, if_pos rfl]
        refine Option.bind_congr fun out _ => ?_
        obtain ⟨rc, newBlk, inode', disk'⟩ := out
        dsimp only
        split_ifs
        · rfl
        · rw [zeroBlock, if_neg (Nat.not_le.mpr hsize)]
          rfl
      · rw [if_neg hzero]
        exact ih hrest hzero
    · rw [loadWord_none hin, if_neg hin]
      rfl

end Super

/-! ## A word changes -/

section

variable {sb : Super} {disk disk' : Nat → Byte} {l current off block idx : Nat}

/-- Distinct elements of the list have disjoint images. -/
theorem disjoint_of_nodup_flatMap {α β : Type} {xs : List α} {f : α → List β}
    (h : (xs.flatMap f).Nodup) {x y : α} (hx : x ∈ xs) (hy : y ∈ xs) (hne : x ≠ y) :
    List.Disjoint (f x) (f y) := by
  have hsymm : Std.Symm (Function.onFun List.Disjoint f) := ⟨fun _ _ hd => List.Disjoint.symm hd⟩
  exact (List.nodup_flatMap.mp h).2.forall hx hy hne

namespace Super

/-- The entry lies in an indirect block of the file. -/
theorem way_entry (hcurrent : current < 2 ^ 32) (h : sb.way disk l current off = .entry block idx) :
    current ≠ 0 ∧ block ∈ sb.indirectBlocks disk l current ∧ block < 2 ^ 32 ∧
      4 * idx + 4 ≤ bufSize := by
  induction l generalizing current off with
  | zero => cases h
  | succ l ih =>
    rw [way] at h
    split_ifs at h with hzero hin hlast
    · cases h
      rw [hlast, inodeBlocksPerLevel, Nat.div_one] at hin
      rw [indirectBlocks, if_neg hzero]
      exact ⟨hzero, List.mem_cons_self, hcurrent, hin⟩
    · obtain ⟨-, hmem, hlt, hidx⟩ := ih (leNum_lt ..) h
      refine ⟨hzero, ?_, hlt, hidx⟩
      have hdigit : off / sb.inodeBlocksPerLevel l < bufSize / 4 := by
        generalize off / sb.inodeBlocksPerLevel l = k at hin
        omega
      rw [indirectBlocks, if_neg hzero]
      exact List.mem_cons_of_mem _ (List.mem_flatMap.mpr ⟨_, List.mem_range.mpr hdigit, hmem⟩)

/-- The last step of the way. -/
theorem way_last (h : sb.way disk 1 current off = .entry block idx) :
    4 * off + 4 ≤ bufSize ∧ current = block ∧ off = idx := by
  have hdiv : off / sb.inodeBlocksPerLevel 0 = off := Nat.div_one off
  rw [way, hdiv] at h
  split_ifs at h with hzero hin hlast
  · cases h
    exact ⟨hin, rfl, rfl⟩
  · exact absurd rfl hlast

/-- What another step of the way says. -/
theorem way_step (hlast : l ≠ 0) (h : sb.way disk (l + 1) current off = .entry block idx) :
    4 * (off / sb.inodeBlocksPerLevel l) + 4 ≤ bufSize ∧
      sb.way disk l (leNum disk (sb.entryAddr current (off / sb.inodeBlocksPerLevel l)) 4)
        (off % sb.inodeBlocksPerLevel l) = .entry block idx := by
  rw [way] at h
  split_ifs at h with hzero hin
  exact ⟨hin, h⟩

/-- The block of the entry is met once only. -/
theorem ne_of_way_step (hcurrent : current ≠ 0) (hlast : l ≠ 0)
    (nodup : (sb.indirectBlocks disk (l + 1) current).Nodup)
    (h : sb.way disk (l + 1) current off = .entry block idx) : current ≠ block := by
  obtain ⟨hin, hnext⟩ := way_step hlast h
  obtain ⟨-, hmem, -, -⟩ := way_entry (leNum_lt ..) hnext
  rw [indirectBlocks, if_neg hcurrent, List.nodup_cons] at nodup
  have hdigit : off / sb.inodeBlocksPerLevel l < bufSize / 4 := by
    generalize off / sb.inodeBlocksPerLevel l = k at hin
    omega
  rintro rfl
  exact nodup.1 (List.mem_flatMap.mpr ⟨_, List.mem_range.mpr hdigit, hmem⟩)

variable (hsize : sb.blockSize ≤ 2 ^ 16)

include hsize

theorem entryAddr_eq (hblock : block < 2 ^ 32) :
    sb.entryAddr block idx = block * sb.blockSize + 4 * idx := by
  rw [entryAddr, Sblock.start_eq hsize (by omega)]

/-- To write an entry changes no other block. -/
theorem sameBlock_blit {b : Nat} (hblock : block < 2 ^ 32) (hne : b ≠ block)
    (hidx : 4 * idx + 4 ≤ bufSize) (src : Nat → Byte) :
    SameBlock sb disk (blit disk (sb.entryAddr block idx) 4 src) b := by
  intro j hj
  have hlarge := @Sblock.bufSize_le_blockSize sb.toSblock
  rw [entryAddr_eq hsize hblock, Mem.blit_apply, if_neg]
  rintro ⟨hlow, hhigh⟩
  apply hne
  have hpos : 0 < sb.blockSize := by omega
  have hb : (sb.blockSize * b + j) / sb.blockSize = b := by
    rw [Nat.mul_add_div hpos, Nat.div_eq_of_lt hj, Nat.add_zero]
  have hblk : (sb.blockSize * b + j) / sb.blockSize = block := by
    rw [Nat.mul_comm block, Nat.mul_comm b] at hlow hhigh
    have hsplit : sb.blockSize * b + j =
        sb.blockSize * block + (sb.blockSize * b + j - sb.blockSize * block) := by omega
    rw [hsplit, Nat.mul_add_div hpos, Nat.div_eq_of_lt (by omega), Nat.add_zero]
  exact hb.symm.trans hblk

theorem SameBlock.entry_eq (hcurrent : current < 2 ^ 32) (same : SameBlock sb disk disk' current)
    {k : Nat} (hk : 4 * k + 4 ≤ bufSize) :
    leNum disk' (sb.entryAddr current k) 4 = leNum disk (sb.entryAddr current k) 4 :=
  same.leNum_eq hsize (by omega) hk

/-- The lookup gives the word at the end of the way, on every disk with the same way. -/
theorem lookupFrom_entry (hcurrent : current < 2 ^ 32) (hoff : off < 2 ^ 32)
    (nodup : (sb.indirectBlocks disk l current).Nodup)
    (h : sb.way disk l current off = .entry block idx)
    (same : ∀ b ∈ sb.indirectBlocks disk l current, b ≠ block → SameBlock sb disk disk' b) :
    sb.lookupFrom disk' l current off = some (leNum disk' (sb.entryAddr block idx) 4) := by
  induction l generalizing current off with
  | zero => cases h
  | succ l ih =>
    obtain ⟨hne, -, -, -⟩ := way_entry hcurrent h
    rw [lookupFrom_succ hoff]
    dsimp only
    by_cases hlast : l = 0
    · subst hlast
      have hdiv : off / sb.inodeBlocksPerLevel 0 = off := Nat.div_one off
      obtain ⟨hin, rfl, rfl⟩ := way_last h
      rw [hdiv, if_pos hin, if_pos rfl]
      split_ifs with hzero
      · rw [hzero]
      · rfl
    · obtain ⟨hin, hnext⟩ := way_step hlast h
      have hother := ne_of_way_step hne hlast nodup h
      rw [indirectBlocks, if_neg hne] at nodup same
      have hword := SameBlock.entry_eq hsize hcurrent (same current List.mem_cons_self hother) hin
      obtain ⟨hchild, -, -, -⟩ := way_entry (leNum_lt ..) hnext
      have hdigit : off / sb.inodeBlocksPerLevel l < bufSize / 4 := by
        generalize off / sb.inodeBlocksPerLevel l = k at hin
        omega
      have hmem := List.mem_range.mpr hdigit
      rw [if_pos hin, hword, if_neg hchild, if_neg hlast]
      refine ih (leNum_lt ..) (Nat.lt_of_le_of_lt (Nat.mod_le _ _) hoff)
        ((List.nodup_flatMap.mp (List.nodup_cons.mp nodup).2).1 _ hmem) hnext fun b hb => ?_
      exact same b (List.mem_cons_of_mem _ (List.mem_flatMap.mpr ⟨_, hmem, hb⟩))

/-- The lookup with another offset does not meet the word. -/
theorem lookupFrom_other (hcurrent : current < 2 ^ 32) (hoff : off < 2 ^ 32)
    (nodup : (sb.indirectBlocks disk l current).Nodup)
    (h : sb.way disk l current off = .entry block idx) (src : Nat → Byte) {off' : Nat}
    (hoff' : off' < 2 ^ 32) (hother : off' ≠ off) :
    sb.lookupFrom (blit disk (sb.entryAddr block idx) 4 src) l current off' =
      sb.lookupFrom disk l current off' := by
  induction l generalizing current off off' with
  | zero => cases h
  | succ l ih =>
    obtain ⟨hne, -, hblock, hidx⟩ := way_entry hcurrent h
    rw [lookupFrom_succ hoff', lookupFrom_succ hoff']
    dsimp only
    by_cases hin' : 4 * (off' / sb.inodeBlocksPerLevel l) + 4 ≤ bufSize
    swap
    · rw [if_neg hin', if_neg hin']
    rw [if_pos hin', if_pos hin']
    by_cases hlast : l = 0
    · -- another word of the same block
      subst hlast
      have hdiv : ∀ o, o / sb.inodeBlocksPerLevel 0 = o := Nat.div_one
      obtain ⟨-, rfl, rfl⟩ := way_last h
      have hword : leNum (blit disk (sb.entryAddr current off) 4 src)
          (sb.entryAddr current (off' / sb.inodeBlocksPerLevel 0)) 4 =
            leNum disk (sb.entryAddr current (off' / sb.inodeBlocksPerLevel 0)) 4 := by
        rw [hdiv]
        refine Mem.leNum_blit_of_disjoint _ _ ?_
        rw [entryAddr, entryAddr]
        omega
      rw [hword, if_pos rfl, if_pos rfl]
    · obtain ⟨hin, hnext⟩ := way_step hlast h
      have hcur := ne_of_way_step hne hlast nodup h
      have hword := SameBlock.entry_eq hsize hcurrent
        (@sameBlock_blit sb disk block idx hsize current hblock hcur hidx src) hin'
      rw [hword]
      rw [indirectBlocks, if_neg hne] at nodup
      have hrest := (List.nodup_cons.mp nodup).2
      have hdigit : ∀ k, 4 * k + 4 ≤ bufSize → k ∈ List.range (bufSize / 4) := fun k hk =>
        List.mem_range.mpr (by omega)
      split_ifs with hzero
      · rfl
      · by_cases hk : off' / sb.inodeBlocksPerLevel l = off / sb.inodeBlocksPerLevel l
        · rw [hk]
          refine ih (leNum_lt ..) (Nat.lt_of_le_of_lt (Nat.mod_le _ _) hoff)
            ((List.nodup_flatMap.mp hrest).1 _ (hdigit _ hin)) hnext
            (Nat.lt_of_le_of_lt (Nat.mod_le _ _) hoff') fun hmod => hother ?_
          rw [← Nat.div_add_mod off' (sb.inodeBlocksPerLevel l), hk, hmod, Nat.div_add_mod]
        · -- another child, which does not hold the block
          have hdisjoint := disjoint_of_nodup_flatMap hrest (hdigit _ hin') (hdigit _ hin) hk
          obtain ⟨-, hmem, -, -⟩ := way_entry (leNum_lt ..) hnext
          refine indirectWalk_congr hsize l (leNum_lt ..) hzero (fun b hb => ?_) _ _
          refine sameBlock_blit hsize hblock ?_ hidx src
          rintro rfl
          exact hdisjoint hb hmem

end Super

end

/-! ## The law -/

section

variable {sb : Super} {alloc : NewBlock} {inode : Inode} {disk : Nat → Byte} {b c p : Nat}

namespace Inode

theorem block_setBlock (k k' v : Nat) :
    (inode.setBlock k v).block k' = if k' = k then v % 2 ^ 32 else inode.block k' := by
  rw [block, setBlock]
  split_ifs with h
  · rw [h]
    exact Mem.leNum_blit_self _ _ 4 v
  · exact Mem.leNum_blit_of_disjoint _ _ (by omega)

/-- The lookup behind the direct blocks. -/
theorem getInodeDblkIdx_indirect (hsize : inode.size ≠ 0) (hext : inode.extents = false)
    (hc : 12 ≤ c) : inode.getInodeDblkIdx sb disk c = if sb.level c = 0 then some (-1, 0)
      else if inode.block (12 + (sb.level c - 1)) = 0 then some (0, 0)
      else (sb.lookupFrom disk (sb.level c) (inode.block (12 + (sb.level c - 1)))
        (sb.offInLevel c)).map (0, ·) := by
  rw [getInodeDblkIdx, if_neg hsize, hext, if_neg Bool.false_ne_true, if_neg (Nat.not_lt.mpr hc)]
  rfl

theorem getInodeDblkIdx_direct (hsize : inode.size ≠ 0) (hext : inode.extents = false)
    (hc : c < 12) : inode.getInodeDblkIdx sb disk c = some (0, inode.block c) := by
  rw [getInodeDblkIdx, if_neg hsize, hext, if_neg Bool.false_ne_true, if_pos hc]

end Inode

namespace Super

theorem set_direct (hext : inode.extents = false) (hb : b < 12) :
    sb.setInodeDataBlockIndex alloc inode disk b p = some (0, inode.setBlock b p, disk) := by
  rw [setInodeDataBlockIndex, hext, if_neg Bool.false_ne_true, if_pos hb]

/-- The call follows the way to the entry. -/
theorem set_indirect (hsize : bufSize < sb.blockSize) (hext : inode.extents = false) (hb : 12 ≤ b)
    (hlevel : sb.level b ≠ 0) : sb.setInodeDataBlockIndex alloc inode disk b p =
      match sb.wayTo inode disk b with
      | .leaves => none
      | .missing => (alloc inode disk).bind fun (rc, _, inode, disk) =>
        if rc ≠ 0 then some (rc, inode, disk) else none
      | .entry block idx =>
        some (0, inode, blit disk (sb.entryAddr block idx) 4 (leBytes p)) := by
  rw [setInodeDataBlockIndex, hext, if_neg Bool.false_ne_true, if_neg (Nat.not_lt.mpr hb)]
  dsimp only
  rw [if_neg hlevel, wayTo]
  have hoff : sb.offInLevel b < 2 ^ 32 := offInLevel_lt
  rw [← offInLevel]
  generalize sb.offInLevel b = off at hoff
  obtain ⟨l, hl⟩ := Nat.exists_eq_succ_of_ne_zero hlevel
  rw [hl, Nat.succ_sub_one]
  by_cases hzero : inode.block (12 + l) = 0
  · rw [if_pos hzero, hzero, way, if_pos rfl]
    refine Option.bind_congr fun out _ => ?_
    obtain ⟨rc, newBlk, inode', disk'⟩ := out
    dsimp only
    split_ifs
    · rfl
    · rw [zeroBlock, if_neg (Nat.not_le.mpr hsize)]
      rfl
  · rw [if_neg hzero]
    exact setWalk_eq hsize alloc p inode hoff hzero

/-- The lookups after an entry of an indirect block has been written. -/
theorem lookup_written (hsize : sb.blockSize ≤ 2 ^ 16) (hfile : inode.size ≠ 0)
    (hext : inode.extents = false) (hlevel : sb.level b ≠ 0)
    (tree : (inode.mapBlocks sb disk).Nodup) {block idx : Nat}
    (hway : sb.wayTo inode disk b = .entry block idx) :
    (∀ {disk'}, (∀ x, x ≠ block → SameBlock sb disk disk' x) →
      12 ≤ c → sb.level c = sb.level b → sb.offInLevel c = sb.offInLevel b →
      inode.getInodeDblkIdx sb disk' c = some (0, leNum disk' (sb.entryAddr block idx) 4)) ∧
    ∀ src, ¬(12 ≤ c ∧ sb.level c = sb.level b ∧ sb.offInLevel c = sb.offInLevel b) →
      inode.getInodeDblkIdx sb (blit disk (sb.entryAddr block idx) 4 src) c =
        inode.getInodeDblkIdx sb disk c := by
  have hroot : ∀ k, inode.block k < 2 ^ 32 := fun k => leNum_lt ..
  obtain ⟨hne, hmem, hblock, hidx⟩ := way_entry (hroot _) hway
  rw [Inode.mapBlocks, hext, if_neg Bool.false_ne_true] at tree
  have hlist : ∀ c, sb.level c ≠ 0 → sb.level c - 1 ∈ List.range 3 := fun c hc =>
    List.mem_range.mpr (by have := sb.level_le c; omega)
  have hsucc : ∀ c, sb.level c ≠ 0 → sb.level c - 1 + 1 = sb.level c := fun c hc =>
    Nat.sub_add_cancel (Nat.pos_of_ne_zero hc)
  have nodup : (sb.indirectBlocks disk (sb.level b)
      (inode.block (12 + (sb.level b - 1)))).Nodup := by
    have h := (List.nodup_flatMap.mp tree).1 _ (hlist b hlevel)
    rwa [hsucc b hlevel] at h
  constructor
  · intro disk' same hc hlvl hoff
    rw [Inode.getInodeDblkIdx_indirect hfile hext hc, hlvl, hoff, if_neg hlevel, if_neg hne,
      lookupFrom_entry hsize (hroot _) offInLevel_lt nodup hway fun x _ => same x]
    rfl
  · intro src hother
    rcases Nat.lt_or_ge c 12 with hc | hc
    · rw [Inode.getInodeDblkIdx_direct hfile hext hc, Inode.getInodeDblkIdx_direct hfile hext hc]
    · rw [Inode.getInodeDblkIdx_indirect hfile hext hc,
        Inode.getInodeDblkIdx_indirect hfile hext hc]
      by_cases hlc : sb.level c = 0
      · rw [if_pos hlc, if_pos hlc]
      by_cases hhole : inode.block (12 + (sb.level c - 1)) = 0
      · rw [if_neg hlc, if_neg hlc, if_pos hhole, if_pos hhole]
      rw [if_neg hlc, if_neg hlc, if_neg hhole, if_neg hhole]
      by_cases hlvl : sb.level c = sb.level b
      · rw [hlvl, lookupFrom_other hsize (hroot _) offInLevel_lt nodup hway src offInLevel_lt
          fun h => hother ⟨hc, hlvl, h⟩]
      · -- the indirect blocks of another level
        have hkne : sb.level c - 1 ≠ sb.level b - 1 := fun h => hlvl (by omega)
        have hdisjoint := disjoint_of_nodup_flatMap tree (hlist c hlc) (hlist b hlevel) hkne
        rw [hsucc c hlc, hsucc b hlevel] at hdisjoint
        refine congrArg _ (sb.indirectWalk_congr hsize _ (hroot _) hhole (fun x hx => ?_) _ _)
        refine sameBlock_blit hsize hblock ?_ hidx src
        rintro rfl
        exact hdisjoint hx hmem

/-- The law for a block whose entry is there. -/
theorem getSet_entry (hsize : sb.blockSize ≤ 2 ^ 16) (hfile : inode.size ≠ 0)
    (hext : inode.extents = false) (hb : 12 ≤ b) (hb32 : b < 2 ^ 32) (hlevel : sb.level b ≠ 0)
    (tree : (inode.mapBlocks sb disk).Nodup) {block idx : Nat}
    (hway : sb.wayTo inode disk b = .entry block idx) :
    (∀ c, inode.getInodeDblkIdx sb (blit disk (sb.entryAddr block idx) 4 (leBytes p)) c =
      if c = b then some (0, p) else inode.getInodeDblkIdx sb disk c) ↔
    p < 2 ^ 32 ∧ (sb.inodeBlockLimits (sb.level b) ≤ b + 2 ^ 32 ∨
      leNum disk (sb.entryAddr block idx) 4 = p) := by
  obtain ⟨-, -, hblock, hidx⟩ := way_entry (leNum_lt ..) hway
  have hlaw := fun c => @lookup_written sb inode disk b c hsize hfile hext hlevel tree _ _ hway
  have hold : ∀ c, 12 ≤ c → sb.level c = sb.level b → sb.offInLevel c = sb.offInLevel b →
      inode.getInodeDblkIdx sb disk c = some (0, leNum disk (sb.entryAddr block idx) 4) := fun c =>
    (hlaw c).1 fun _ _ _ _ => rfl
  have hnew : ∀ c, 12 ≤ c → sb.level c = sb.level b → sb.offInLevel c = sb.offInLevel b →
      inode.getInodeDblkIdx sb (blit disk (sb.entryAddr block idx) 4 (leBytes p)) c =
        some (0, p % 2 ^ 32) := by
    intro c hc hlvl hoff
    have h := (hlaw c).1 (fun x hx => @sameBlock_blit sb disk block idx hsize x hblock hx hidx
      (leBytes p)) hc hlvl hoff
    rwa [Mem.leNum_blit_self] at h
  obtain ⟨hlow, hhigh⟩ := limits_of_level hb hlevel
  constructor
  · intro h
    have hself := h b
    rw [if_pos rfl, hnew b hb rfl rfl, Option.some.injEq, Prod.mk.injEq] at hself
    refine ⟨by omega, ?_⟩
    by_contra hboth
    rw [not_or] at hboth
    -- the block 2^32 further on has the same entry
    have hc : 12 ≤ b + 2 ^ 32 := by omega
    have hlvl : sb.level (b + 2 ^ 32) = sb.level b :=
      (level_eq_iff hc (Nat.pos_of_ne_zero hlevel) (sb.level_le b)).mpr (by omega)
    have hoff : sb.offInLevel (b + 2 ^ 32) = sb.offInLevel b := by
      rw [offInLevel, offInLevel, hlvl]
      omega
    have hfar := h (b + 2 ^ 32)
    rw [if_neg (by omega), hnew _ hc hlvl hoff, hold _ hc hlvl hoff, Option.some.injEq,
      Prod.mk.injEq] at hfar
    omega
  · rintro ⟨hp, hfree⟩ c
    have hmod : p % 2 ^ 32 = p := Nat.mod_eq_of_lt hp
    by_cases hsame : 12 ≤ c ∧ sb.level c = sb.level b ∧ sb.offInLevel c = sb.offInLevel b
    · obtain ⟨hc, hlvl, hoff⟩ := hsame
      rw [hnew c hc hlvl hoff, hmod]
      split_ifs with hcb
      · rfl
      · rw [hold c hc hlvl hoff]
        have hfar := (offInLevel_eq hb hb32 hc hlevel hlvl hoff).resolve_left hcb
        have hcl := (limits_of_level hc (hlvl ▸ hlevel)).2
        rw [hlvl] at hcl
        rw [hfree.resolve_left (by omega)]
    · rw [(hlaw c).2 _ hsame, if_neg]
      rintro rfl
      exact hsame ⟨hb, rfl, rfl⟩

/-- Exactly the safe calls keep the get-set law. -/
theorem getSet_iff (admitted : sb.Admitted) (hfile : inode.size ≠ 0) (hext : inode.extents = false)
    (tree : (inode.mapBlocks sb disk).Nodup) (hb : b < sb.inodeBlockLimits 3) (hb32 : b < 2 ^ 32)
    (alloc : NewBlock) (p : Nat) :
    sb.GetSet alloc inode disk b p ↔ sb.SetSafe alloc inode disk b p := by
  have hsize : sb.blockSize ≤ 2 ^ 16 := admitted.2
  have hlarge : bufSize < sb.blockSize := by
    rw [Fs.blockSize_eq, bufSize]
    have := Nat.two_pow_pos sb.logBlockSize
    omega
  rw [SetSafe]
  split_ifs with hdirect
  · have hfile' : (inode.setBlock b p).size ≠ 0 := hfile
    have hext' : (inode.setBlock b p).extents = false := hext
    rw [GetSet, set_direct hext hdirect]
    constructor
    · rintro ⟨rc, inode', disk', heq, hlaw⟩
      cases heq
      have hself := hlaw rfl b
      rw [if_pos rfl, Inode.getInodeDblkIdx_direct hfile' hext' hdirect, Inode.block_setBlock,
        if_pos rfl, Option.some.injEq, Prod.mk.injEq] at hself
      omega
    · intro hp
      refine ⟨0, _, disk, rfl, fun _ c => ?_⟩
      rcases Nat.lt_or_ge c 12 with hc | hc
      · rw [Inode.getInodeDblkIdx_direct hfile' hext' hc,
          Inode.getInodeDblkIdx_direct hfile hext hc, Inode.block_setBlock, Nat.mod_eq_of_lt hp]
        split_ifs <;> rfl
      · rw [Inode.getInodeDblkIdx_indirect hfile' hext' hc,
          Inode.getInodeDblkIdx_indirect hfile hext hc, Inode.block_setBlock,
          if_neg (show 12 + (sb.level c - 1) ≠ b by omega), if_neg (show c ≠ b by omega)]
  · have hb12 := Nat.le_of_not_lt hdirect
    have hlevel : sb.level b ≠ 0 := by
      rw [level]
      split_ifs
      all_goals decide
    rw [GetSet, set_indirect hlarge hext hb12 hlevel]
    cases hway : sb.wayTo inode disk b with
    | leaves =>
      constructor
      · rintro ⟨rc, inode', disk', heq, -⟩
        cases heq
      · exact fun h => h.elim
    | missing =>
      dsimp only
      constructor
      · rintro ⟨rc, inode', disk', heq, -⟩
        obtain ⟨out, halloc, heq⟩ := Option.bind_eq_some_iff.mp heq
        obtain ⟨rc', newBlk, inode'', disk''⟩ := out
        dsimp only at heq
        split_ifs at heq with hrc
        exact ⟨rc', _, halloc, hrc⟩
      · rintro ⟨rc, out, halloc, hrc⟩
        obtain ⟨newBlk, inode', disk'⟩ := out
        refine ⟨rc, inode', disk', ?_, fun h => absurd h hrc⟩
        rw [halloc, Option.bind_some]
        exact if_pos hrc
    | entry block idx =>
      dsimp only
      rw [← getSet_entry hsize hfile hext hb12 hb32 hlevel tree hway]
      constructor
      · rintro ⟨rc, inode', disk', heq, hlaw⟩
        cases heq
        exact hlaw rfl
      · exact fun h => ⟨0, inode, _, rfl, fun _ => h⟩

end Super

end

/-! ## A file with one indirect block -/

/-- A file whose block 50 is its single indirect block. -/
def indirectInode : Inode where
  size := 1000000
  softlink := false
  blocksCount := 0
  extents := false
  content k := if k = 48 then 50 else 0

/-- An allocator that finds block 60. -/
def give60 : NewBlock := fun inode disk => some (0, 60, inode, disk)

theorem indirectInode_tree : (indirectInode.mapBlocks smallSuper fun _ => 0).Nodup := by
  decide +kernel

theorem getSet_block20 : smallSuper.GetSet give60 indirectInode (fun _ => 0) 20 77 := by
  have hway : smallSuper.wayTo indirectInode (fun _ => 0) 20 = .entry 50 8 := by decide +kernel
  refine (Super.getSet_iff smallSuper_admitted (by decide) rfl indirectInode_tree
    (by decide +kernel) (by decide) give60 77).mpr ?_
  rw [Super.SetSafe, if_neg (by decide), hway]
  exact ⟨by decide, .inl (by decide +kernel)⟩

/-- Block 212 has its entry behind the first 512 bytes of the indirect block, for block 300 an
indirect block would have to be cleared, and a number above 2^32 is cut. -/
theorem set_breaks_law : smallSuper.Admitted ∧
    (indirectInode.mapBlocks smallSuper fun _ => 0).Nodup ∧
    (smallSuper.setInodeDataBlockIndex give60 indirectInode (fun _ => 0) 212 77).isNone ∧
    (smallSuper.setInodeDataBlockIndex give60 indirectInode (fun _ => 0) 300 77).isNone ∧
    (smallSuper.setInodeDataBlockIndex give60 indirectInode (fun _ => 0) 3 (2 ^ 32 + 5)).map
      (fun (rc, inode, disk) => (rc, inode.getInodeDblkIdx smallSuper disk 3)) =
        some (0, some (0, 5)) :=
  ⟨smallSuper_admitted, indirectInode_tree, by decide +kernel, by decide +kernel, by decide +kernel⟩

end KernelTravel.Ext4

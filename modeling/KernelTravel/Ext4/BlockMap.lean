import KernelTravel.Ext4.Address
import KernelTravel.Ext4.Extent

/-!
# The map of a file

`ext4_fs_get_inode_dblk_idx` finds the block of the disk for a block of a file, by the extent
tree or by the indirect blocks. Both are read from an image of the disk, one buffer for each
block, and the lookup depends on the image in these blocks only.
-/

namespace KernelTravel

namespace Extent

abbrev Nodes := Ref → Node

def Node.child (n : Node) (i : Nat) : Ref := .block (n.entry i).idxPblock

/-- The nodes below `r`. -/
def below (nd : Nodes) : Nat → Ref → List Ref
  | 0, _ => []
  | d + 1, r => (List.range (nd r).entriesCount).flatMap fun i =>
    (nd r).child i :: below nd d ((nd r).child i)

/-- `ext4_extent_get_blocks` for one block, without `create`. -/
def St.getBlock {σ : Type} (A : Allocator σ) (fuel : Nat) (s : St σ) (l : Nat) :
    Option (Int × Nat) :=
  (s.getBlocks A fuel l 1 false).map fun out => (out.ret, out.result)

end Extent

/-! ## The inode and the image -/

namespace Ext4

open Mem (leNum leNum_congr leNum_lt)
open Extent (Node Nodes Ref St Allocator PathElem below)

/-- The node at the address `a`, with `room` entries in its memory. -/
def nodeAt (m : Nat → Byte) (a room : Nat) : Node where
  magic := leNum m a 2
  entriesCount := leNum m (a + 2) 2
  maxEntriesCount := leNum m (a + 4) 2
  depth := leNum m (a + 6) 2
  entry i :=
    if i < room then
      ⟨leNum m (a + (12 + 12 * i)) 4, leNum m (a + (12 + 12 * i) + 4) 4,
        leNum m (a + (12 + 12 * i) + 8) 4⟩
    else ⟨0, 0, 0⟩

/-- What a lookup uses of an inode. `extents` stands for the feature of the file system and the
flag of the inode, `content` for the bytes of `blocks`. -/
structure Inode where
  size : Nat
  softlink : Bool
  blocksCount : Nat
  extents : Bool
  content : Nat → Byte

/-- A number of 32 bits in a buffer. -/
def BufPtr.loadWord (p : BufPtr) (disk : Nat → Byte) : Option Nat :=
  if p.byte + 4 ≤ bufSize then some (leNum disk (p.sector * bufSize + p.byte) 4) else none

namespace Super

/-- `inode_blocks_per_level`. -/
def inodeBlocksPerLevel (sb : Super) : Nat → Nat
  | 0 => 1
  | i + 1 => sb.inodeBlocksPerLevel i * (sb.blockSize / 4)

/-- `inode_block_limits`. -/
def inodeBlockLimits (sb : Super) : Nat → Nat
  | 0 => 12
  | i + 1 => sb.inodeBlockLimits i + sb.inodeBlocksPerLevel (i + 1)

/-- The number of indirect blocks before a block. -/
def level (sb : Super) (iblock : Nat) : Nat :=
  if iblock < sb.inodeBlockLimits 1 then 1
  else if iblock < sb.inodeBlockLimits 2 then 2
  else if iblock < sb.inodeBlockLimits 3 then 3
  else 0

theorem level_le (sb : Super) (iblock : Nat) : sb.level iblock ≤ 3 := by
  rw [level]
  split_ifs
  all_goals decide

/-- The loop over the indirect blocks. -/
def indirectWalk (sb : Super) (disk : Nat → Byte) : Nat → Nat → Nat → Nat → Option Nat
  | 0, current, _, _ => some current
  | l + 1, current, blkOffInLvl, offInBlk => do
    let next ← (sb.indirectPtr current offInBlk).loadWord disk
    if next = 0 then some 0
    else if l = 0 then some next
    else
      let blkOffInLvl := blkOffInLvl % sb.inodeBlocksPerLevel l
      sb.indirectWalk disk l next blkOffInLvl
        (blkOffInLvl / sb.inodeBlocksPerLevel (l - 1) % 2 ^ 32)

/-- The blocks that the loop reads, from the block `current` on. -/
def indirectBlocks (sb : Super) (disk : Nat → Byte) : Nat → Nat → List Nat
  | 0, _ => []
  | l + 1, current =>
    if current = 0 then []
    else current :: (List.range (bufSize / 4)).flatMap fun k =>
      sb.indirectBlocks disk l (leNum disk (sb.lba2pba current * bufSize + 4 * k) 4)

end Super

/-- No block is allocated for a lookup. -/
def noAlloc : Allocator Unit := ⟨fun _ _ => (.error enospc, ()), fun _ _ _ => ()⟩

namespace Inode

/-- An entry of `blocks`. -/
def block (inode : Inode) (k : Nat) : Nat := leNum inode.content (4 * k) 4

/-- The nodes of the extent tree in an image. -/
def nodes (sb : Super) (inode : Inode) (disk : Nat → Byte) : Nodes
  | .inode => nodeAt inode.content 0 (Ref.room .inode)
  | .block b => nodeAt disk (sb.lba2pba b * bufSize) (Ref.room (.block b))

def depth (inode : Inode) : Nat := leNum inode.content 6 2

/-- The state of the extent functions, with no walk in use. -/
def extentState (sb : Super) (inode : Inode) (disk : Nat → Byte) : St Unit where
  logBlockSize := sb.logBlockSize
  inodeIndex := 0
  inodesPerGroup := sb.inodesPerGroup
  node := inode.nodes sb disk
  dirty _ := false
  stray := []
  path _ := PathElem.zero
  balloc := ()

/-- `ext4_fs_get_inode_dblk_idx`. -/
def getInodeDblkIdx (sb : Super) (inode : Inode) (disk : Nat → Byte) (iblock : Nat) :
    Option (Int × Nat) :=
  if inode.size = 0 then some (0, 0)
  else if inode.extents then (inode.extentState sb disk).getBlock noAlloc 0 iblock
  else if iblock < 12 then some (0, inode.block iblock)
  else
    let l := sb.level iblock
    if l = 0 then some (-1, 0)
    else
      let blkOffInLvl := (iblock - sb.inodeBlockLimits (l - 1)) % 2 ^ 32
      let current := inode.block (12 + (l - 1))
      if current = 0 then some (0, 0)
      else (sb.indirectWalk disk l current blkOffInLvl
        (blkOffInLvl / sb.inodeBlocksPerLevel (l - 1) % 2 ^ 32)).map (0, ·)

/-- The blocks in which the map of the file is kept. -/
def mapBlocks (sb : Super) (inode : Inode) (disk : Nat → Byte) : List Nat :=
  if inode.extents then
    (below (inode.nodes sb disk) inode.depth .inode).filterMap fun
      | .inode => none
      | .block b => some b
  else (List.range 3).flatMap fun k => sb.indirectBlocks disk (k + 1) (inode.block (12 + k))

end Inode

/-! ## The lookup depends on the blocks of the map -/

section Congr

variable {sb : Super} {disk disk' : Nat → Byte}

theorem Sblock.start_eq {sb : Sblock} (hsize : sb.blockSize ≤ 2 ^ 16) {b : Nat} (hb : b < 2 ^ 48) :
    sb.lba2pba b * bufSize = b * sb.blockSize := by
  rw [Sblock.lba2pba_mul, Nat.mod_eq_of_lt]
  calc b * sb.blockSize ≤ b * 2 ^ 16 := Nat.mul_le_mul_left b hsize
    _ < 2 ^ 48 * 2 ^ 16 := Nat.mul_lt_mul_of_pos_right hb (by decide)

theorem Sblock.bufSize_le_blockSize {sb : Sblock} : bufSize ≤ sb.blockSize := by
  have hpos : 0 < sb.blockSize := by
    rw [Sblock.blockSize, Nat.shiftLeft_eq]
    exact Nat.mul_pos (by decide) (Nat.two_pow_pos _)
  exact Nat.le_of_dvd hpos Sblock.bufSize_dvd_blockSize

/-- The blocks agree on the bytes of the block `b`. -/
def SameBlock (sb : Super) (disk disk' : Nat → Byte) (b : Nat) : Prop :=
  ∀ j < sb.blockSize, disk' (b * sb.blockSize + j) = disk (b * sb.blockSize + j)

theorem SameBlock.leNum_eq (hsize : sb.blockSize ≤ 2 ^ 16) {b : Nat} (hb : b < 2 ^ 48)
    (same : SameBlock sb disk disk' b) {o k : Nat} (ho : o + k ≤ bufSize) :
    leNum disk' (sb.lba2pba b * bufSize + o) k = leNum disk (sb.lba2pba b * bufSize + o) k := by
  have hlarge := @Sblock.bufSize_le_blockSize sb.toSblock
  rw [Sblock.start_eq hsize hb]
  refine leNum_congr fun j hj => ?_
  rw [Nat.add_assoc]
  exact same _ (by omega)

theorem Super.indirectWalk_congr (hsize : sb.blockSize ≤ 2 ^ 16) (l : Nat) {current : Nat}
    (hlt : current < 2 ^ 32) (hne : current ≠ 0)
    (same : ∀ b ∈ sb.indirectBlocks disk l current, SameBlock sb disk disk' b) (o k : Nat) :
    sb.indirectWalk disk' l current o k = sb.indirectWalk disk l current o k := by
  induction l generalizing current o k with
  | zero => rfl
  | succ l ih =>
    rw [indirectBlocks, if_neg hne] at same
    have hblock := same current List.mem_cons_self
    have hload : (sb.indirectPtr current k).loadWord disk' =
        (sb.indirectPtr current k).loadWord disk := by
      rw [BufPtr.loadWord, BufPtr.loadWord]
      split_ifs with hin
      · exact congrArg some (hblock.leNum_eq hsize (by omega) hin)
      · rfl
    rw [indirectWalk, indirectWalk, hload]
    refine Option.bind_congr fun next hnext => ?_
    split_ifs with hzero hlast
    · rfl
    · rfl
    · rw [BufPtr.loadWord] at hnext
      split_ifs at hnext with hin
      cases hnext
      have hk : k < bufSize / 4 := by
        have hin' : 4 * k + 4 ≤ bufSize := hin
        omega
      refine ih (leNum_lt ..) hzero (fun b hb => same b ?_) _ _
      exact List.mem_cons_of_mem _ (List.mem_flatMap.mpr ⟨k, List.mem_range.mpr hk, hb⟩)

end Congr

end Ext4

end KernelTravel

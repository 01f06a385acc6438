import KernelTravel.Ext4.Bitmap

/-!
# The block allocator of ext4

`ext4_block.c` searches a clear bit first at the goal, then near it, then in the rest of
the goal's group and at last in the other groups. The state has the superblock, the group
descriptors and the sectors of the disk as the sector cache shows them. Checksums and
the block counter of the inode are written here and read nowhere in these functions; they
are left out.

Only the first sector of a bitmap block is ever read, and only the first sector of a
block of descriptors. The search in the other groups and `ext4_balloc_free_blocks` do not
store the buffer that they read and use an uninitialised pointer instead. What that
pointer holds is an argument, `stale`: the sector whose buffer it points to, or `none`
for an address that is no buffer. An operation answers `none` where it follows such an
address or leaves the 512 bytes of its buffer.
-/

namespace KernelTravel.Ext4

def bufSize : Nat := 512

structure Sblock where
  firstDataBlock : Nat
  logBlockSize : Nat
  blocksPerGroup : Nat
  blocksCount : Nat
  freeBlocksCount : BitVec 64
  descSize : Nat

namespace Sblock

def blockSize (s : Sblock) : Nat := 1024 <<< s.logBlockSize

def getDescSize (s : Sblock) : Nat := if s.descSize < 32 then 32 else s.descSize

/-- The number that block addresses are divided from. -/
def relAddr (s : Sblock) (baddr : Nat) : Nat :=
  if s.firstDataBlock ≠ 0 ∧ baddr ≠ 0 then baddr - 1 else baddr

def bgidOfBlock (s : Sblock) (baddr : Nat) : Nat := s.relAddr baddr / s.blocksPerGroup % 2 ^ 32

def addrToIdxBg (s : Sblock) (baddr : Nat) : Nat := s.relAddr baddr % s.blocksPerGroup

def blockOfBgid (s : Sblock) (bgid : Nat) : Nat :=
  (if s.firstDataBlock ≠ 0 then 1 else 0) + bgid * s.blocksPerGroup % 2 ^ 32

def bgIdxToAddr (s : Sblock) (index bgid : Nat) : Nat :=
  (s.blocksPerGroup * bgid + if s.firstDataBlock ≠ 0 then index + 1 else index) % 2 ^ 32

def blockGroupCnt (s : Sblock) : Nat :=
  let count := s.blocksCount / s.blocksPerGroup % 2 ^ 32
  if s.blocksCount % s.blocksPerGroup ≠ 0 then (count + 1) % 2 ^ 32 else count

def blocksInGroupCnt (s : Sblock) (bgid : Nat) : Nat :=
  let last := (s.blockGroupCnt + 2 ^ 32 - 1) % 2 ^ 32
  if bgid < last then s.blocksPerGroup
  else (s.blocksCount + 2 ^ 64 - last * s.blocksPerGroup % 2 ^ 32) % 2 ^ 32

/-- `EXT4_LBA2PBA`. -/
def lba2pba (s : Sblock) (block : Nat) : Nat := block * s.blockSize % 2 ^ 64 / 512

end Sblock

structure Bgroup where
  blockBitmap : Nat
  freeBlocksCountLo : BitVec 16
  freeBlocksCountHi : BitVec 16
  flags : BitVec 16

namespace Bgroup

def inodeUninit : BitVec 16 := 1#16
def blockUninit : BitVec 16 := 2#16

def getFreeBlocksCount (bg : Bgroup) (s : Sblock) : Nat :=
  bg.freeBlocksCountLo.toNat + if 32 < s.getDescSize then bg.freeBlocksCountHi.toNat * 2 ^ 16 else 0

def setFreeBlocksCount (bg : Bgroup) (s : Sblock) (cnt : Nat) : Bgroup :=
  { bg with
    freeBlocksCountLo := BitVec.ofNat 16 cnt
    freeBlocksCountHi :=
      if 32 < s.getDescSize then BitVec.ofNat 16 (cnt / 2 ^ 16) else bg.freeBlocksCountHi }

end Bgroup

structure Fs where
  sb : Sblock
  bg : Nat → Bgroup
  sector : Nat → Nat → Byte

namespace Fs

/-- The descriptor lies in the one sector that is read. -/
def DescInSector (fs : Fs) (bgid : Nat) : Prop :=
  bgid % (fs.sb.blockSize / fs.sb.getDescSize) * fs.sb.getDescSize +
    (if 32 < fs.sb.getDescSize then 64 else 32) ≤ bufSize

instance (fs : Fs) (bgid : Nat) : Decidable (fs.DescInSector bgid) :=
  inferInstanceAs (Decidable (_ ≤ _))

/-- A group whose bitmaps are not initialised is initialised here: the block bitmap through
an uninitialised pointer, the inode bitmap with a whole block of bytes written to a buffer
of one sector. -/
def getBlockGroupRef (fs : Fs) (bgid : Nat) : Option Bgroup :=
  if fs.DescInSector bgid ∧ (fs.bg bgid).flags &&& Bgroup.blockUninit = 0#16 ∧
      (fs.bg bgid).flags &&& Bgroup.inodeUninit = 0#16 then some (fs.bg bgid)
  else none

/-- The sector that is read of the bitmap of a group. -/
def bitmapSector (fs : Fs) (bgid : Nat) : Nat := fs.sb.lba2pba (fs.bg bgid).blockBitmap

/-- A buffer that holds a sector. -/
def buffer (fs : Fs) (sector : Nat) : Bmap := ⟨bufSize, fs.sector sector⟩

def freeCount (fs : Fs) (bgid : Nat) : Nat := (fs.bg bgid).getFreeBlocksCount fs.sb

/-- Store the counters of the superblock and of a group. -/
def setFreeCounts (fs : Fs) (bgid : Nat) (sbFree : BitVec 64) (bgFree : BitVec 32) : Fs :=
  { fs with
    sb := { fs.sb with freeBlocksCount := sbFree }
    bg := Function.update fs.bg bgid ((fs.bg bgid).setFreeBlocksCount fs.sb bgFree.toNat) }

/-- Write a buffer back to its sector. -/
def store (fs : Fs) (sector : Nat) (b : Bmap) : Fs :=
  { fs with sector := Function.update fs.sector sector b.byte }

end Fs

/-- What `ext4_balloc_alloc_block` returns: the block, or an error number. -/
inductive AllocResult where
  | block (fblock : Nat)
  | error (r : Int)
deriving DecidableEq, Repr

def enospc : Int := 28

namespace Fs

/-- Set the bit in the buffer and go on at `success`. -/
def takeBit (fs : Fs) (bgid sector idx : Nat) : Option (AllocResult × Fs) := do
  let b ← (fs.buffer sector).bitSet idx
  let fs := fs.store sector b
  let fs := fs.setFreeCounts bgid (fs.sb.freeBlocksCount - 1)
    (BitVec.ofNat 32 (fs.freeCount bgid) - 1)
  return (.block (fs.sb.bgIdxToAddr idx bgid), fs)

/-- The search in one of the other groups, through the uninitialised `b.buf`. -/
def allocInGroup (fs : Fs) (stale : Option Nat) (bgid : Nat) : Option (AllocResult × Fs) := do
  let sector ← stale
  let idx := fs.sb.addrToIdxBg (fs.sb.blockOfBgid bgid)
  let found ← (fs.buffer sector).bitFindClr idx (fs.sb.blocksInGroupCnt bgid)
  match found with
  | some relBlkIdx => fs.takeBit bgid sector relBlkIdx
  | none => return (.error enospc, fs)

/-- The loop behind `goal_failed`. -/
def allocInOthers (fs : Fs) (stale : Option Nat) : Nat → Nat → Option (AllocResult × Fs)
  | 0, _ => some (.error (-1), fs)
  | count + 1, bgid => do
    let bg ← fs.getBlockGroupRef bgid
    if bg.getFreeBlocksCount fs.sb = 0 then
      fs.allocInOthers stale count ((bgid + 1) % fs.sb.blockGroupCnt)
    else fs.allocInGroup stale bgid

/-- The search in the goal's group: the goal, the bits near it, the rest of the group. -/
def allocInGoalGroup (fs : Fs) (bgid idx : Nat) : Option (AllocResult × Fs) := do
  let first := fs.sb.addrToIdxBg (fs.sb.blockOfBgid bgid)
  let idx := if idx < first then first else idx
  let sector := fs.bitmapSector bgid
  let clr ← (fs.buffer sector).isBitClr idx
  if clr then fs.takeBit bgid sector idx
  else
    let blkInBg := fs.sb.blocksInGroupCnt bgid
    let endIdx := min ((idx + 63) % 2 ^ 32 / 64 * 64) blkInBg
    let near ← (fs.buffer sector).scanClr (endIdx - (idx + 1)) (idx + 1)
    match near with
    | some tmpIdx => fs.takeBit bgid sector tmpIdx
    | none =>
      let found ← (fs.buffer sector).bitFindClr idx blkInBg
      match found with
      | some relBlkIdx => fs.takeBit bgid sector relBlkIdx
      | none => return (.error enospc, fs)

def allocBlock (fs : Fs) (stale : Option Nat) (goal : Nat) : Option (AllocResult × Fs) := do
  let bgid := fs.sb.bgidOfBlock goal
  let bg ← fs.getBlockGroupRef bgid
  if bg.getFreeBlocksCount fs.sb = 0 then
    fs.allocInOthers stale fs.sb.blockGroupCnt ((bgid + 1) % fs.sb.blockGroupCnt)
  else fs.allocInGoalGroup bgid (fs.sb.addrToIdxBg goal)

/-- One round of the loop of `ext4_balloc_free_blocks`, with the number of blocks it frees. -/
def freeInGroup (fs : Fs) (stale : Option Nat) (bgid first count : Nat) : Option (Nat × Fs) := do
  let _ ← fs.getBlockGroupRef bgid
  let idx := fs.sb.addrToIdxBg first
  let freeCnt := (fs.sb.blockSize * 8 + 2 ^ 32 - idx) % 2 ^ 32
  let freeCnt := if freeCnt < count then freeCnt else count
  let sector ← stale
  let b ← (fs.buffer sector).bitsFree idx freeCnt
  let fs := fs.store sector b
  return (freeCnt, fs.setFreeCounts bgid (fs.sb.freeBlocksCount + BitVec.ofNat 64 freeCnt)
    (BitVec.ofNat 32 (fs.freeCount bgid) + BitVec.ofNat 32 freeCnt))

/-- The loop over the groups, and the `ASSERT` behind it. `blk` is a new variable in every
round. -/
def freeInGroups (fs : Fs) (stale : Nat → Option Nat) : Nat → Nat → Nat → Nat → Option Fs
  | 0, _, _, count => if count = 0 then some fs else none
  | rounds + 1, bgid, first, count => do
    let (freeCnt, fs) ← fs.freeInGroup (stale bgid) bgid first count
    freeInGroups fs stale rounds (bgid + 1) (first + freeCnt) (count - freeCnt)

def freeBlocks (fs : Fs) (stale : Nat → Option Nat) (first count : Nat) : Option Fs :=
  let bgFirst := fs.sb.bgidOfBlock first
  let bgLast := fs.sb.bgidOfBlock ((first + count + (2 ^ 64 - 1)) % 2 ^ 64)
  fs.freeInGroups stale (bgLast + 1 - bgFirst) bgFirst first count

end Fs

end KernelTravel.Ext4

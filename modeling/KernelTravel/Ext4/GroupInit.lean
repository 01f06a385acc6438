import KernelTravel.Ext4.Address

/-!
# Bitmaps that are initialised when a group is first used

`ext4_fs_get_block_group_ref` of `fs/ext4/ext4_fs.c` with the functions that fill in the bitmaps and
the inode table of a group whose descriptor says that they are not there yet. Each of them clears
or sets as many bytes as a block has in the buffer of one sector, and
`ext4_fs_init_block_bitmap` does it through a pointer that it has not set; what the pointer
holds is an argument, as for the allocator.

`getBlockGroupRef_toFs` says that the model of the allocator, in which no such group is ever
initialised, is the whole function.
-/

namespace KernelTravel.Ext4

namespace Bmap

/-- `memset` of a part of a buffer. -/
def fill (b : Bmap) (start n : Nat) (value : Byte) : Option Bmap :=
  if n = 0 ∨ start + n ≤ b.size then some { b with byte := Mem.blit b.byte start n fun _ => value }
    else none

def setAll (b : Bmap) (bits : List Nat) : Option Bmap := bits.foldlM bitSet b

/-- `ext4_fs_mark_bitmap_end`. -/
def markBitmapEnd (b : Bmap) (startBit endBit : Nat) : Option Bmap :=
  if endBit ≤ startBit then some b
  else do
    let i := (startBit + 7) / 8 * 8
    let b ← b.setAll (List.range' startBit (i - startBit))
    if i < endBit then b.fill (i / 8) ((endBit - i) / 8) 0xff else some b

end Bmap

/-- The file system with what an initialisation reads besides the allocator. -/
structure LazyFs where
  sb : Super
  flexBg : Bool
  reservedGdtBlocks : Nat
  bg : Nat → Bgroup
  inodeBitmap : Nat → Nat
  inodeTable : Nat → Nat
  sector : Nat → Nat → Byte

namespace LazyFs

def toFs (fs : LazyFs) : Fs := ⟨fs.sb.toSblock, fs.bg, fs.sector⟩

def itableZeroed : BitVec 16 := 4#16

/-- `ext4_bg_num_gdb`, with `ext4_bg_num_gdb_nometa` and `ext4_bg_num_gdb_meta`. -/
def bgNumGdb (fs : LazyFs) (group : Nat) : Nat :=
  let dscPerBlock := fs.sb.dscCnt
  if !fs.sb.metaBg ∨ group / dscPerBlock < fs.sb.firstMetaBg then
    if !fs.sb.isSuperInBg group then 0
    else if fs.sb.metaBg then fs.sb.firstMetaBg
    else (fs.sb.blockGroupCnt + dscPerBlock - 1) % 2 ^ 32 / dscPerBlock
  else
    let first := group / dscPerBlock * dscPerBlock
    if group = first ∨ group = first + 1 ∨ group = first + dscPerBlock - 1 then 1 else 0

/-- `bit_max`: the blocks of the superblock and of the descriptors at the start of the group. -/
def bitMax (fs : LazyFs) (index : Nat) : Nat :=
  let hasSuper := if fs.sb.isSuperInBg index then 1 else 0
  if !fs.sb.metaBg ∨ index < fs.sb.firstMetaBg * fs.sb.dscCnt % 2 ^ 32 then
    if hasSuper ≠ 0 then (hasSuper + fs.bgNumGdb index + fs.reservedGdtBlocks) % 2 ^ 32 else 0
  else (hasSuper + fs.bgNumGdb index) % 2 ^ 32

def groupBlocks (fs : LazyFs) (index : Nat) : Nat :=
  let last := (fs.sb.blockGroupCnt + 2 ^ 32 - 1) % 2 ^ 32
  if index = last then
    (fs.sb.blocksCount + 2 ^ 64 - fs.sb.firstDataBlock +
      2 ^ 32 - fs.sb.blocksPerGroup * last % 2 ^ 32) % 2 ^ 32
  else fs.sb.blocksPerGroup

def inodeTableBcnt (fs : LazyFs) : Nat :=
  fs.sb.inodesPerGroup * fs.sb.inodeSize % 2 ^ 32 / fs.sb.blockSize

/-- The bit of a metadata block. Without `flex_bg` the block is taken to be in the group. -/
def metaBit (fs : LazyFs) (index block : Nat) : List Nat :=
  if !fs.flexBg ∨ fs.sb.bgidOfBlock block = index
    then [(block + 2 ^ 64 - fs.sb.blockOfBgid index) % 2 ^ 32] else []

/-- `ext4_fs_init_block_bitmap`. The buffer that is read is not used. -/
def initBlockBitmap (fs : LazyFs) (stale : Option Nat) (index : Nat) : Option LazyFs := do
  let sector ← stale
  let b ← (⟨bufSize, fs.sector sector⟩ : Bmap).fill 0 fs.sb.blockSize 0
  let b ← b.setAll (List.range (fs.bitMax index))
  let b ← b.setAll (fs.metaBit index (fs.bg index).blockBitmap)
  let b ← b.setAll (fs.metaBit index (fs.inodeBitmap index))
  let b ← b.setAll
    ((List.range' (fs.inodeTable index) fs.inodeTableBcnt).flatMap (fs.metaBit index))
  let b ← b.markBitmapEnd (fs.groupBlocks index) (fs.sb.blockSize * 8)
  return { fs with sector := Function.update fs.sector sector b.byte }

/-- `ext4_fs_init_inode_bitmap`. -/
def initInodeBitmap (fs : LazyFs) (index : Nat) : Option LazyFs := do
  let sector := fs.sb.lba2pba (fs.inodeBitmap index)
  let b ← (⟨bufSize, fs.sector sector⟩ : Bmap).fill 0 ((fs.sb.inodesPerGroup + 7) % 2 ^ 32 / 8) 0
  let i := (fs.sb.inodesPerGroup + 7) % 2 ^ 32 / 8 * 8
  let b ← b.setAll (List.range' fs.sb.inodesPerGroup (i - fs.sb.inodesPerGroup))
  let b ← if i < fs.sb.blockSize * 8 then b.fill (i / 8) ((fs.sb.blockSize * 8 - i) / 8) 0xff
    else some b
  return { fs with sector := Function.update fs.sector sector b.byte }

def inodesInGroupCnt (fs : LazyFs) (bgid : Nat) : Nat :=
  let last := (fs.sb.blockGroupCnt + 2 ^ 32 - 1) % 2 ^ 32
  if bgid < last then fs.sb.inodesPerGroup
  else (fs.sb.inodesCount + 2 ^ 32 - last * fs.sb.inodesPerGroup % 2 ^ 32) % 2 ^ 32

/-- The blocks that `ext4_fs_init_inode_table` clears. -/
def tableBlocks (fs : LazyFs) (index : Nat) : List Nat :=
  let inodesPerBlock := fs.sb.blockSize / fs.sb.inodeSize
  let inodes := fs.inodesInGroupCnt index
  List.range' (fs.inodeTable index) (inodes / inodesPerBlock + if inodes % inodesPerBlock ≠ 0
    then 1 else 0)

/-- `ext4_fs_init_inode_table`. -/
def initInodeTable (fs : LazyFs) (index : Nat) : Option LazyFs :=
  (fs.tableBlocks index).foldlM (fun fs fblock => do
    let sector := fs.sb.lba2pba fblock
    let b ← (⟨bufSize, fs.sector sector⟩ : Bmap).fill 0 fs.sb.blockSize 0
    return { fs with sector := Function.update fs.sector sector b.byte }) fs

def clearFlag (fs : LazyFs) (bgid : Nat) (flag : BitVec 16) : LazyFs :=
  { fs with
    bg := Function.update fs.bg bgid { fs.bg bgid with flags := (fs.bg bgid).flags &&& ~~~flag } }

def setFlag (fs : LazyFs) (bgid : Nat) (flag : BitVec 16) : LazyFs :=
  { fs with
    bg := Function.update fs.bg bgid { fs.bg bgid with flags := (fs.bg bgid).flags ||| flag } }

/-- The group has a flag. -/
def HasFlag (fs : LazyFs) (bgid : Nat) (flag : BitVec 16) : Prop :=
  (fs.bg bgid).flags &&& flag ≠ 0#16

instance (fs : LazyFs) (bgid : Nat) (flag : BitVec 16) : Decidable (fs.HasFlag bgid flag) :=
  inferInstanceAs (Decidable (_ ≠ _))

/-- `ext4_fs_get_block_group_ref`: the file system after the call. -/
def getBlockGroupRef (fs : LazyFs) (stale : Option Nat) (bgid : Nat) : Option LazyFs :=
  if fs.toFs.DescInSector bgid then do
    let fs ← if fs.HasFlag bgid Bgroup.blockUninit then
        (fs.initBlockBitmap stale bgid).map (·.clearFlag bgid Bgroup.blockUninit)
      else some fs
    if fs.HasFlag bgid Bgroup.inodeUninit then do
      let fs ← (fs.initInodeBitmap bgid).map (·.clearFlag bgid Bgroup.inodeUninit)
      if fs.HasFlag bgid itableZeroed then some fs
      else (fs.initInodeTable bgid).map (·.setFlag bgid itableZeroed)
    else some fs
  else none

section Spec

/-- The byte of a block. -/
def blockByte (fs : LazyFs) (block k : Nat) : Byte :=
  fs.sector (fs.sb.lba2pba block + k / bufSize) (k % bufSize)

/-- A sector of a block. -/
def OnBlock (fs : LazyFs) (block sector : Nat) : Prop :=
  fs.sb.lba2pba block ≤ sector ∧ sector < fs.sb.lba2pba block + fs.sb.blockSize / bufSize

/-- The positions of a bitmap that stand for blocks in use by the file system itself, or for
none. -/
def IsMeta (fs : LazyFs) (bgid k : Nat) : Prop :=
  let block := fs.sb.blockOfBgid bgid + k
  k < fs.bitMax bgid ∨ block = (fs.bg bgid).blockBitmap ∨ block = fs.inodeBitmap bgid ∨
    (fs.inodeTable bgid ≤ block ∧ block < fs.inodeTable bgid + fs.inodeTableBcnt) ∨
    fs.groupBlocks bgid ≤ k

/-- `fs'` is `fs` with the block bitmap of a group in place. -/
structure Initialised (fs : LazyFs) (bgid : Nat) (fs' : LazyFs) : Prop where
  bits : ∀ k < 8 * fs.sb.blockSize, Bits.get (fs'.blockByte (fs.bg bgid).blockBitmap) k ↔
    fs.IsMeta bgid k
  flag : ¬fs'.HasFlag bgid Bgroup.blockUninit
  groups : ∀ g ≠ bgid, fs'.bg g = fs.bg g
  frame : ∀ s, ¬fs.OnBlock (fs.bg bgid).blockBitmap s →
    (fs.HasFlag bgid Bgroup.inodeUninit →
      ¬fs.OnBlock (fs.inodeBitmap bgid) s ∧ ∀ block ∈ fs.tableBlocks bgid, ¬fs.OnBlock block s) →
    fs'.sector s = fs.sector s

end Spec

section Results

variable {fs : LazyFs}

theorem bufSize_lt_blockSize (s : Sblock) : bufSize < s.blockSize :=
  (show bufSize < 1024 by decide).trans_le Nat.le_shiftLeft

theorem fill_block (s : Sblock) (byte : Nat → Byte) (value : Byte) :
    (⟨bufSize, byte⟩ : Bmap).fill 0 s.blockSize value = none := by
  have hlt := bufSize_lt_blockSize s
  exact if_neg (by simp only [Nat.zero_add]; omega)

/-- Whatever the pointer holds, the bytes of a block do not fit into the buffer. -/
theorem initBlockBitmap_eq_none (fs : LazyFs) (stale : Option Nat) (index : Nat) :
    fs.initBlockBitmap stale index = none := by
  cases stale with
  | none => rfl
  | some sector => rw [initBlockBitmap, Option.bind_eq_bind, Option.bind_some, fill_block]; rfl

theorem setAll_size {b b' : Bmap} {bits : List Nat} (h : b.setAll bits = some b') :
    b'.size = b.size := by
  induction bits generalizing b with
  | nil => exact congrArg Bmap.size (Option.some.inj h).symm
  | cons bit bits ih =>
    rw [Bmap.setAll, List.foldlM_cons, Option.bind_eq_bind, Option.bind_eq_some_iff] at h
    obtain ⟨mid, hset, hrest⟩ := h
    refine (ih hrest).trans ?_
    rw [Bmap.bitSet] at hset
    split at hset
    · exact (congrArg Bmap.size (Option.some.inj hset)).symm
    · cases hset

/-- Either the part of the bits in use or that behind them leaves the buffer. -/
theorem initInodeBitmap_eq_none (hipg : fs.sb.inodesPerGroup + 7 < 2 ^ 32) (index : Nat) :
    fs.initInodeBitmap index = none := by
  have hlt := bufSize_lt_blockSize fs.sb.toSblock
  rw [Option.eq_none_iff_forall_ne_some]
  intro fs' h
  rw [initInodeBitmap, Nat.mod_eq_of_lt hipg] at h
  simp only [Option.bind_eq_bind, Option.bind_eq_some_iff] at h
  obtain ⟨b, hclear, b₁, hset, hend⟩ := h
  rw [Bmap.fill] at hclear
  split at hclear
  · next hfit =>
    have hsize : b₁.size = bufSize :=
      (setAll_size hset).trans (congrArg Bmap.size (Option.some.inj hclear)).symm
    have hinside : (fs.sb.inodesPerGroup + 7) / 8 ≤ bufSize :=
      hfit.elim (by omega) fun hle => by simpa using hle
    rw [if_pos (by omega), Bmap.fill, if_neg (by rw [hsize]; omega)] at hend
    exact Option.some_ne_none _ hend.symm
  · cases hclear

/-- The groups that are not yet initialised are those for which there is no answer. -/
theorem getBlockGroupRef_toFs (hipg : fs.sb.inodesPerGroup + 7 < 2 ^ 32) (stale : Option Nat)
    (bgid : Nat) :
    (fs.getBlockGroupRef stale bgid).map (fun fs' => fs'.bg bgid) =
    fs.toFs.getBlockGroupRef bgid := by
  rw [getBlockGroupRef, Fs.getBlockGroupRef]
  by_cases hdesc : fs.toFs.DescInSector bgid
  · rw [if_pos hdesc]
    by_cases hblock : fs.HasFlag bgid Bgroup.blockUninit
    · rw [if_pos hblock, initBlockBitmap_eq_none, if_neg fun h => hblock h.2.1]
      rfl
    · rw [if_neg hblock]
      simp only [Option.bind_eq_bind, Option.bind_some]
      by_cases hinode : fs.HasFlag bgid Bgroup.inodeUninit
      · rw [if_pos hinode, initInodeBitmap_eq_none hipg, if_neg fun h => hinode h.2.2]
        rfl
      · rw [if_neg hinode, if_pos ⟨hdesc, not_not.mp hblock, not_not.mp hinode⟩]
        rfl
  · rw [if_neg hdesc, if_neg fun h => hdesc h.1]
    rfl

/-- A group without a block bitmap never gets one. -/
theorem not_initialised (fs : LazyFs) (stale : Option Nat) (bgid : Nat)
    (hflag : fs.HasFlag bgid Bgroup.blockUninit) :
    ¬∃ fs', fs.getBlockGroupRef stale bgid = some fs' ∧ fs.Initialised bgid fs' := by
  rintro ⟨fs', hrun, -⟩
  rw [getBlockGroupRef, if_pos hflag, initBlockBitmap_eq_none] at hrun
  split at hrun <;> cases hrun

/-- Group 1 of a file system with 32 groups, without a block bitmap. -/
def oneUninit : LazyFs where
  sb := smallSuper
  flexBg := false
  reservedGdtBlocks := 0
  bg := Function.update (fun _ => ⟨3, 0, 0, 0⟩) 1 ⟨8195, 0, 0, Bgroup.blockUninit⟩
  inodeBitmap g := 4 + 8192 * g
  inodeTable g := 5 + 8192 * g
  sector _ _ := 0

/-- Also when the pointer happens to point to the buffer of the bitmap. -/
theorem not_initialised_oneUninit :
    ¬∃ fs', oneUninit.getBlockGroupRef (some (smallSuper.lba2pba 8195)) 1 = some fs' ∧
      oneUninit.Initialised 1 fs' :=
  not_initialised oneUninit _ 1 (by decide)

theorem getBlockGroupRef_toFs_oneUninit :
    (oneUninit.getBlockGroupRef none 1).map (fun fs => fs.bg 1) =
    oneUninit.toFs.getBlockGroupRef 1 :=
  getBlockGroupRef_toFs (by decide) none 1

theorem oneUninit_no_answer :
    oneUninit.HasFlag 1 Bgroup.blockUninit ∧ oneUninit.toFs.DescInSector 1 ∧
      (oneUninit.getBlockGroupRef (some (smallSuper.lba2pba 8195)) 1).isNone ∧
      (oneUninit.getBlockGroupRef none 1).isNone := by
  decide

end Results

end LazyFs

end KernelTravel.Ext4

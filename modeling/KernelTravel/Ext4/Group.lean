import KernelTravel.Ext4.Balloc
import Mathlib.Algebra.Order.BigOperators.Group.Finset
import Mathlib.Order.Interval.Finset.Nat

/-!
# Block groups: bitmaps and free counts

A bit of a group's bitmap is a bit of one of the sectors of the bitmap block. While the
layout of the file system is sound, writing the first sector of one bitmap changes no bit
of another, and counters that move with the bits keep agreeing with them.
-/

namespace KernelTravel.Ext4

namespace Fs

/-- The number of bits in a sector. -/
def sectorBits : Nat := 4096

/-- Bit `i` of the bitmap of a group, in whichever sector of the block it lies. -/
def bit (fs : Fs) (g i : Nat) : Bool :=
  Bits.get (fs.sector (fs.bitmapSector g + i / sectorBits)) (i % sectorBits)

/-- The blocks of a group that its bitmap shows as free. -/
def clearBits (fs : Fs) (g : Nat) : Finset Nat :=
  (Finset.range (fs.sb.blocksInGroupCnt g)).filter fun i => fs.bit g i = false

/-- The superblock describes a file system of fewer than 2^32 blocks of at most 64 KiB,
whose groups have bitmap blocks of their own that are large enough. -/
structure Layout (fs : Fs) : Prop where
  perGroup : 0 < fs.sb.blocksPerGroup
  blocks : 0 < fs.sb.blocksCount ∧ fs.sb.blocksCount < 2 ^ 32
  blockSize : fs.sb.logBlockSize ≤ 6
  onDisk : ∀ g < fs.sb.blockGroupCnt, (fs.bg g).blockBitmap * fs.sb.blockSize < 2 ^ 64
  oneBlock : ∀ g < fs.sb.blockGroupCnt, fs.sb.blocksInGroupCnt g ≤ 8 * fs.sb.blockSize
  distinct : ∀ g < fs.sb.blockGroupCnt, ∀ g' < fs.sb.blockGroupCnt,
    (fs.bg g).blockBitmap = (fs.bg g').blockBitmap → g = g'

/-- The counters agree with the bitmaps. -/
structure Agree (fs : Fs) : Prop where
  groups : ∀ g < fs.sb.blockGroupCnt, fs.freeCount g = (fs.clearBits g).card
  total : fs.sb.freeBlocksCount.toNat = ∑ g ∈ Finset.range fs.sb.blockGroupCnt, fs.freeCount g

end Fs

/-! ## Block numbers -/

namespace Sblock

variable {s : Sblock} {g i : Nat}

/-- The groups cover the blocks: all but the last one are full. -/
theorem blockGroupCnt_bounds (hper : 0 < s.blocksPerGroup) (hpos : 0 < s.blocksCount)
    (hsmall : s.blocksCount < 2 ^ 32) : 0 < s.blockGroupCnt ∧ s.blockGroupCnt < 2 ^ 32 ∧
      (s.blockGroupCnt - 1) * s.blocksPerGroup < s.blocksCount ∧
      s.blocksCount ≤ s.blockGroupCnt * s.blocksPerGroup := by
  have hsum := Nat.div_add_mod s.blocksCount s.blocksPerGroup
  have hrest := Nat.mod_lt s.blocksCount hper
  have hquot : s.blocksCount / s.blocksPerGroup ≤
      s.blocksPerGroup * (s.blocksCount / s.blocksPerGroup) := Nat.le_mul_of_pos_left _ hper
  simp only [blockGroupCnt]
  rw [Nat.mod_eq_of_lt (by omega : s.blocksCount / s.blocksPerGroup < 2 ^ 32)]
  generalize s.blocksCount / s.blocksPerGroup = q at hsum hquot
  generalize s.blocksCount % s.blocksPerGroup = r at hsum hrest
  split
  next hr =>
    rw [Nat.mod_eq_of_lt (by omega : q + 1 < 2 ^ 32), Nat.add_sub_cancel, Nat.add_mul,
      Nat.mul_comm q]
    omega
  next hr =>
    obtain rfl : r = 0 := by omega
    have hq : q ≠ 0 := by
      rintro rfl
      omega
    obtain ⟨q, rfl⟩ := Nat.exists_eq_succ_of_ne_zero hq
    rw [Nat.succ_sub_one, Nat.mul_comm q, Nat.mul_comm (q + 1)]
    rw [Nat.mul_succ] at hsum hquot ⊢
    omega

theorem blocksInGroupCnt_bounds (hper : 0 < s.blocksPerGroup) (hpos : 0 < s.blocksCount)
    (hsmall : s.blocksCount < 2 ^ 32) (hg : g < s.blockGroupCnt) :
    s.blocksInGroupCnt g ≤ s.blocksPerGroup ∧
      s.blocksPerGroup * g + s.blocksInGroupCnt g ≤ s.blocksCount := by
  obtain ⟨hcnt, hcnt32, hlow, hhigh⟩ := blockGroupCnt_bounds hper hpos hsmall
  obtain ⟨last, hlast⟩ := Nat.exists_eq_succ_of_ne_zero (Nat.ne_of_gt hcnt)
  have hmod : (s.blockGroupCnt + 2 ^ 32 - 1) % 2 ^ 32 = last := by omega
  rw [hlast, Nat.succ_sub_one] at hlow
  rw [hlast, Nat.succ_mul] at hhigh
  simp only [blocksInGroupCnt, hmod]
  split
  next hfull =>
    refine ⟨Nat.le_refl _, ?_⟩
    calc s.blocksPerGroup * g + s.blocksPerGroup
        = (g + 1) * s.blocksPerGroup := by rw [Nat.succ_mul, Nat.mul_comm]
      _ ≤ last * s.blocksPerGroup := Nat.mul_le_mul_right _ hfull
      _ ≤ s.blocksCount := Nat.le_of_lt hlow
  next hlastGroup =>
    obtain rfl : g = last := by omega
    rw [Nat.mul_comm s.blocksPerGroup]
    generalize g * s.blocksPerGroup = covered at hlow hhigh
    omega

/-- The first bit of a group's bitmap stands for the group's first block. -/
theorem addrToIdxBg_blockOfBgid (h : s.blocksPerGroup * g < 2 ^ 32) :
    s.addrToIdxBg (s.blockOfBgid g) = 0 := by
  have hmod : g * s.blocksPerGroup % 2 ^ 32 = s.blocksPerGroup * g := by
    rw [Nat.mul_comm, Nat.mod_eq_of_lt h]
  rw [addrToIdxBg, relAddr, blockOfBgid, hmod]
  by_cases hfirst : s.firstDataBlock = 0
  · simp [hfirst]
  · rw [if_pos hfirst, if_pos ⟨hfirst, by omega⟩, Nat.add_sub_cancel_left, Nat.mul_mod_right]

/-- The number of a block names its group and its bit. -/
theorem relAddr_bgIdxToAddr (h : s.blocksPerGroup * g + i + 1 < 2 ^ 32) :
    s.relAddr (s.bgIdxToAddr i g) = s.blocksPerGroup * g + i := by
  rw [relAddr, bgIdxToAddr]
  by_cases hfirst : s.firstDataBlock = 0
  · simp only [hfirst, ne_eq, not_true_eq_false, if_false, false_and]
    exact Nat.mod_eq_of_lt (by omega)
  · rw [if_pos hfirst, Nat.mod_eq_of_lt (by omega), if_pos ⟨hfirst, by omega⟩]
    omega

theorem bgidOfBlock_bgIdxToAddr (hi : i < s.blocksPerGroup)
    (h : s.blocksPerGroup * g + i + 1 < 2 ^ 32) : s.bgidOfBlock (s.bgIdxToAddr i g) = g := by
  have hg : g ≤ s.blocksPerGroup * g := Nat.le_mul_of_pos_left _ (by omega)
  rw [bgidOfBlock, relAddr_bgIdxToAddr h, Nat.mul_add_div (by omega), Nat.div_eq_of_lt hi]
  exact Nat.mod_eq_of_lt (by omega)

theorem addrToIdxBg_bgIdxToAddr (hi : i < s.blocksPerGroup)
    (h : s.blocksPerGroup * g + i + 1 < 2 ^ 32) : s.addrToIdxBg (s.bgIdxToAddr i g) = i := by
  rw [addrToIdxBg, relAddr_bgIdxToAddr h, Nat.mul_add_mod, Nat.mod_eq_of_lt hi]

/-- The group and the index of a block give its number back. -/
def AddrRight (s : Sblock) (a : Nat) : Prop := s.bgIdxToAddr (s.addrToIdxBg a) (s.bgidOfBlock a) = a

/-- `ext4_balloc_get_block_of_bgid` is the smallest address of the group. -/
def FirstOfGroup (s : Sblock) (g : Nat) : Prop :=
  s.bgidOfBlock (s.blockOfBgid g) = g ∧
    ∀ a, s.firstDataBlock ≤ a → a < 2 ^ 64 → s.bgidOfBlock a = g → s.blockOfBgid g ≤ a

section Decomposition

variable {a : Nat}

theorem relAddr_eq_sub (hfirst : s.firstDataBlock ≤ 1) (ha : s.firstDataBlock ≤ a) :
    s.relAddr a = a - s.firstDataBlock := by
  rw [relAddr]
  split <;> omega

/-- The product has 32 bits, so the number comes back exactly if it has no more. -/
theorem addrRight_iff (hfirst : s.firstDataBlock ≤ 1) (ha : s.firstDataBlock ≤ a) :
    s.AddrRight a ↔ a < 2 ^ 32 := by
  have hrel := relAddr_eq_sub hfirst ha
  constructor
  · intro right
    rw [← right]
    exact Nat.mod_lt _ (by decide)
  · intro hlt
    have hgroup : s.bgidOfBlock a = (a - s.firstDataBlock) / s.blocksPerGroup := by
      rw [bgidOfBlock, hrel]
      exact Nat.mod_eq_of_lt (Nat.lt_of_le_of_lt (Nat.div_le_self _ _) (by omega))
    have hsum := Nat.div_add_mod (a - s.firstDataBlock) s.blocksPerGroup
    rw [AddrRight, bgIdxToAddr, hgroup, addrToIdxBg, hrel]
    split <;> omega

theorem firstOfGroup_iff (hper : 0 < s.blocksPerGroup) (hfirst : s.firstDataBlock ≤ 1)
    (hg : g < 2 ^ 32) : s.FirstOfGroup g ↔ s.blocksPerGroup * g < 2 ^ 32 := by
  have hstart : s.blockOfBgid g = s.firstDataBlock + s.blocksPerGroup * g % 2 ^ 32 := by
    rw [blockOfBgid, Nat.mul_comm g]
    split <;> omega
  have hrel : s.relAddr (s.blockOfBgid g) = s.blocksPerGroup * g % 2 ^ 32 := by
    rw [relAddr_eq_sub hfirst (hstart ▸ Nat.le_add_right _ _), hstart, Nat.add_sub_cancel_left]
  constructor
  · rintro ⟨hgroup, -⟩
    by_contra hlarge
    have hless : s.blocksPerGroup * g % 2 ^ 32 < s.blocksPerGroup * g := by omega
    rw [bgidOfBlock, hrel] at hgroup
    have hquot := Nat.div_lt_of_lt_mul hless
    have hmod := Nat.mod_le (s.blocksPerGroup * g % 2 ^ 32 / s.blocksPerGroup) (2 ^ 32)
    omega
  · intro hsmall
    rw [Nat.mod_eq_of_lt hsmall] at hrel hstart
    refine ⟨?_, fun a ha _ hgroup => ?_⟩
    · rw [bgidOfBlock, hrel, Nat.mul_div_cancel_left g hper, Nat.mod_eq_of_lt hg]
    · rw [bgidOfBlock, relAddr_eq_sub hfirst ha] at hgroup
      have hquot : g ≤ (a - s.firstDataBlock) / s.blocksPerGroup := hgroup ▸ Nat.mod_le _ _
      have hle := Nat.mul_le_of_le_div _ _ _ hquot
      rw [Nat.mul_comm] at hle
      omega

end Decomposition

/-- Addresses and groups are right as long as they lie below block 2^32. -/
theorem block_numbers_iff (hper : 0 < s.blocksPerGroup) (hfirst : s.firstDataBlock ≤ 1) :
    (∀ a, s.firstDataBlock ≤ a → a < 2 ^ 64 → (s.AddrRight a ↔ a < 2 ^ 32)) ∧
      ∀ g < 2 ^ 32, s.FirstOfGroup g ↔ s.blocksPerGroup * g < 2 ^ 32 :=
  ⟨fun _ ha _ => addrRight_iff hfirst ha, fun _ hg => firstOfGroup_iff hper hfirst hg⟩

/-- Blocks of 1 KiB in groups of 8192. -/
def smallBlocks : Sblock := ⟨1, 0, 8192, 2 ^ 33, 0, 32⟩

theorem block_numbers_iff_smallBlocks :
    smallBlocks.AddrRight 8193 ∧ smallBlocks.FirstOfGroup 3 := by
  obtain ⟨haddr, hgroup⟩ := @block_numbers_iff smallBlocks (by decide) (by decide)
  exact ⟨(haddr 8193 (by decide) (by decide)).mpr (by decide),
    (hgroup 3 (by decide)).mpr (by decide)⟩

/-- Block 2^32 + 1 is the first one of group 2^19, which is said to start at block 1. -/
theorem group_beyond_4G : smallBlocks.bgidOfBlock (2 ^ 32 + 1) = 2 ^ 19 ∧
    smallBlocks.bgIdxToAddr (smallBlocks.addrToIdxBg (2 ^ 32 + 1)) (2 ^ 19) = 1 ∧
    smallBlocks.blockOfBgid (2 ^ 19) = 1 ∧ ¬smallBlocks.AddrRight (2 ^ 32 + 1) ∧
    ¬smallBlocks.FirstOfGroup (2 ^ 19) := by
  refine ⟨by decide, by decide, by decide, ?_, ?_⟩
  · rw [addrRight_iff (by decide) (by decide)]
    decide
  · rw [firstOfGroup_iff (by decide) (by decide) (by decide)]
    decide

end Sblock

/-! ## Counters -/

namespace Bgroup

variable (bg : Bgroup) (s : Sblock)

theorem getFreeBlocksCount_lt : bg.getFreeBlocksCount s < 2 ^ 32 ∧
    (bg.getFreeBlocksCount s < 2 ^ 16 ∨ 32 < s.getDescSize) := by
  have hlo := bg.freeBlocksCountLo.isLt
  have hhi := bg.freeBlocksCountHi.isLt
  rw [getFreeBlocksCount]
  split <;> omega

theorem getFreeBlocksCount_set {cnt : Nat} (hcnt : cnt < 2 ^ 32)
    (hsmall : cnt < 2 ^ 16 ∨ 32 < s.getDescSize) :
    (bg.setFreeBlocksCount s cnt).getFreeBlocksCount s = cnt := by
  rcases Nat.lt_or_ge 32 s.getDescSize with hwide | hnarrow
  · rw [getFreeBlocksCount, setFreeBlocksCount, if_pos hwide, if_pos hwide, BitVec.toNat_ofNat,
      BitVec.toNat_ofNat]
    omega
  · rw [getFreeBlocksCount, if_neg (Nat.not_lt.mpr hnarrow), setFreeBlocksCount,
      BitVec.toNat_ofNat]
    omega

end Bgroup

/-! ## Bits -/

namespace Fs

variable {fs : Fs} {g g' i : Nat}

theorem blockSize_eq (s : Sblock) : s.blockSize = 512 * (2 * 2 ^ s.logBlockSize) := by
  rw [Sblock.blockSize, Nat.shiftLeft_eq]
  omega

theorem bitmapSector_eq (layout : Layout fs) (hg : g < fs.sb.blockGroupCnt) :
    fs.bitmapSector g = (fs.bg g).blockBitmap * (2 * 2 ^ fs.sb.logBlockSize) := by
  have hfit := layout.onDisk g hg
  rw [bitmapSector, Sblock.lba2pba, Nat.mod_eq_of_lt hfit, blockSize_eq, Nat.mul_left_comm,
    Nat.mul_div_cancel_left _ (by decide)]

/-- The bitmaps of different groups share no sector. -/
theorem sector_ne (layout : Layout fs) (hg : g < fs.sb.blockGroupCnt)
    (hg' : g' < fs.sb.blockGroupCnt) (hne : g' ≠ g) (hi : i < 8 * fs.sb.blockSize) :
    fs.bitmapSector g' + i / sectorBits ≠ fs.bitmapSector g := by
  rw [bitmapSector_eq layout hg, bitmapSector_eq layout hg']
  have hdistinct := mt (layout.distinct g' hg' g hg) hne
  have hk : 0 < 2 * 2 ^ fs.sb.logBlockSize := Nat.mul_pos (by decide) (Nat.two_pow_pos _)
  have hoff : i / sectorBits < 2 * 2 ^ fs.sb.logBlockSize := by
    rw [blockSize_eq] at hi
    rw [sectorBits]
    omega
  intro heq
  apply hdistinct
  have := congrArg (· / (2 * 2 ^ fs.sb.logBlockSize)) heq
  simpa [Nat.mul_add_div hk, Nat.add_comm, Nat.add_mul_div_right _ _ hk, Nat.div_eq_of_lt hoff,
    Nat.mul_div_cancel _ hk] using this

theorem bit_of_lt (hi : i < sectorBits) : fs.bit g i = (fs.buffer (fs.bitmapSector g)).bit i := by
  rw [bit, Nat.div_eq_of_lt hi, Nat.mod_eq_of_lt hi]
  rfl

/-- A new first sector of one bitmap, and new counters. -/
def commit (fs : Fs) (g : Nat) (b : Bmap) (sbFree : BitVec 64) (bgFree : BitVec 32) : Fs :=
  (fs.store (fs.bitmapSector g) b).setFreeCounts g sbFree bgFree

variable {b : Bmap} {sbFree : BitVec 64} {bgFree : BitVec 32}

theorem blockBitmap_commit (g' : Nat) :
    ((fs.commit g b sbFree bgFree).bg g').blockBitmap = (fs.bg g').blockBitmap := by
  simp only [commit, setFreeCounts, store, Function.update_apply]
  split
  next h =>
    rw [h]
    rfl
  next => rfl

theorem bitmapSector_commit : (fs.commit g b sbFree bgFree).bitmapSector g' =
    fs.bitmapSector g' := by
  rw [bitmapSector, blockBitmap_commit]
  rfl

theorem Layout.commit (layout : Layout fs) : Layout (fs.commit g b sbFree bgFree) := by
  refine ⟨layout.perGroup, layout.blocks, layout.blockSize, ?_, layout.oneBlock, ?_⟩
  · intro g' hg'
    rw [blockBitmap_commit]
    exact layout.onDisk g' hg'
  · intro g₁ hg₁ g₂ hg₂ heq
    rw [blockBitmap_commit, blockBitmap_commit] at heq
    exact layout.distinct g₁ hg₁ g₂ hg₂ heq

theorem bit_commit (layout : Layout fs) (hg : g < fs.sb.blockGroupCnt)
    (hg' : g' < fs.sb.blockGroupCnt) (hi : i < 8 * fs.sb.blockSize) :
    (fs.commit g b sbFree bgFree).bit g' i =
      if g' = g ∧ i < sectorBits then b.bit i else fs.bit g' i := by
  rw [bit, bitmapSector_commit]
  change Bits.get (Function.update fs.sector (fs.bitmapSector g) b.byte _) _ = _
  split
  next h =>
    obtain ⟨rfl, hlt⟩ := h
    rw [Nat.div_eq_of_lt hlt, Nat.mod_eq_of_lt hlt, Nat.add_zero, Function.update_self]
    rfl
  next h =>
    rw [Function.update_of_ne]
    · rfl
    · by_cases hgg : g' = g
      · subst hgg
        have hlarge : sectorBits ≤ i := Nat.le_of_not_lt fun hlt => h ⟨rfl, hlt⟩
        have := Nat.div_pos hlarge (by decide)
        omega
      · exact sector_ne layout hg hg' hgg hi

theorem freeCount_commit_of_ne (hne : g' ≠ g) :
    (fs.commit g b sbFree bgFree).freeCount g' = fs.freeCount g' := by
  have hbg : (fs.commit g b sbFree bgFree).bg g' = fs.bg g' := Function.update_of_ne hne _ _
  rw [freeCount, hbg]
  rfl

theorem freeCount_commit_self (hrep : bgFree.toNat < 2 ^ 16 ∨ 32 < fs.sb.getDescSize) :
    (fs.commit g b sbFree bgFree).freeCount g = bgFree.toNat := by
  have hbg : (fs.commit g b sbFree bgFree).bg g =
      (fs.bg g).setFreeBlocksCount fs.sb (bgFree.toNat) := Function.update_self g _ fs.bg
  rw [freeCount, hbg]
  exact Bgroup.getFreeBlocksCount_set _ fs.sb bgFree.isLt hrep

theorem mem_clearBits : i ∈ fs.clearBits g ↔ i < fs.sb.blocksInGroupCnt g ∧ fs.bit g i = false := by
  rw [clearBits, Finset.mem_filter, Finset.mem_range]

theorem clearBits_commit_of_ne (layout : Layout fs) (hg : g < fs.sb.blockGroupCnt)
    (hg' : g' < fs.sb.blockGroupCnt) (hne : g' ≠ g) :
    (fs.commit g b sbFree bgFree).clearBits g' = fs.clearBits g' := by
  ext i
  rw [mem_clearBits, mem_clearBits]
  refine and_congr_right fun (hi : i < fs.sb.blocksInGroupCnt g') => ?_
  have hblock := layout.oneBlock g' hg'
  rw [bit_commit layout hg hg' (by omega), if_neg (fun h => hne h.1)]

theorem Layout.card_clearBits_lt (layout : Layout fs) (hg : g < fs.sb.blockGroupCnt) :
    (fs.clearBits g).card < 2 ^ 32 := by
  have hle := Finset.card_filter_le (Finset.range (fs.sb.blocksInGroupCnt g))
    fun i => fs.bit g i = false
  have hblocks := (Sblock.blocksInGroupCnt_bounds layout.perGroup layout.blocks.1 layout.blocks.2
    hg).2
  have hsmall := layout.blocks.2
  rw [Finset.card_range] at hle
  rw [clearBits]
  omega

/-- The sum over all groups fits the counter of the superblock. -/
theorem sum_freeCount_lt (layout : Layout fs)
    (groups : ∀ g < fs.sb.blockGroupCnt, fs.freeCount g = (fs.clearBits g).card) :
    ∑ g ∈ Finset.range fs.sb.blockGroupCnt, fs.freeCount g < 2 ^ 64 := by
  have hgroups := (Sblock.blockGroupCnt_bounds layout.perGroup layout.blocks.1 layout.blocks.2).2.1
  have hsum : ∑ g ∈ Finset.range fs.sb.blockGroupCnt, fs.freeCount g ≤
      (Finset.range fs.sb.blockGroupCnt).card * (2 ^ 32 - 1) := by
    refine Finset.sum_le_card_nsmul _ _ _ fun g hg => ?_
    rw [groups g (Finset.mem_range.mp hg)]
    have := layout.card_clearBits_lt (Finset.mem_range.mp hg)
    omega
  rw [Finset.card_range] at hsum
  omega

/-- Counters that move with the bits keep agreeing with them. -/
theorem Agree.commit (agree : Agree fs) (layout : Layout fs) (hg : g < fs.sb.blockGroupCnt)
    (hcard : ((fs.commit g b sbFree bgFree).clearBits g).card = bgFree.toNat)
    (hrep : bgFree.toNat < 2 ^ 16 ∨ 32 < fs.sb.getDescSize)
    (hsum : (sbFree.toNat + fs.freeCount g) % 2 ^ 64 =
      (fs.sb.freeBlocksCount.toNat + bgFree.toNat) % 2 ^ 64) :
    Agree (fs.commit g b sbFree bgFree) := by
  have hself := @freeCount_commit_self fs g b sbFree bgFree hrep
  have groups : ∀ g' < fs.sb.blockGroupCnt, (fs.commit g b sbFree bgFree).freeCount g' =
      ((fs.commit g b sbFree bgFree).clearBits g').card := by
    intro g' hg'
    by_cases hne : g' = g
    · rw [hne, hself, hcard]
    · rw [freeCount_commit_of_ne hne, clearBits_commit_of_ne layout hg hg' hne, agree.groups g' hg']
  refine ⟨groups, ?_⟩
  have hlt := sum_freeCount_lt (@Layout.commit fs g b sbFree bgFree layout) groups
  have hmem : g ∈ Finset.range fs.sb.blockGroupCnt := Finset.mem_range.mpr hg
  have hothers : ∑ g' ∈ (Finset.range fs.sb.blockGroupCnt).erase g,
      (fs.commit g b sbFree bgFree).freeCount g' =
        ∑ g' ∈ (Finset.range fs.sb.blockGroupCnt).erase g, fs.freeCount g' :=
    Finset.sum_congr rfl fun g' hg' => freeCount_commit_of_ne (Finset.ne_of_mem_erase hg')
  have hold := Finset.add_sum_erase _ (fun g' => fs.freeCount g') hmem
  have hnew := Finset.add_sum_erase _ (fun g' => (fs.commit g b sbFree bgFree).freeCount g') hmem
  change sbFree.toNat = ∑ g' ∈ Finset.range fs.sb.blockGroupCnt, _
  change ∑ g' ∈ Finset.range fs.sb.blockGroupCnt, _ < _ at hlt
  rw [hothers, hself] at hnew
  rw [← agree.total] at hold
  have := sbFree.isLt
  omega

end Fs

end KernelTravel.Ext4

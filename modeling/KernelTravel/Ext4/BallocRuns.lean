import KernelTravel.Ext4.Group
import KernelTravel.Lib.Run

/-!
# Runs of the block allocator

An allocation that finds its clear bit in the first sector of a bitmap, and a release of
blocks whose bits lie there, change exactly the bits they name. `BallocSafe` says when an
operation is of this kind; runs of such operations keep the counters equal to the number
of clear bits.
-/

namespace KernelTravel.Ext4

namespace Fs

variable {fs : Fs} {g g' i : Nat} {b : Bmap} {sbFree : BitVec 64} {bgFree : BitVec 32}

/-! ## Single operations -/

/-- What an allocation has to do: take one clear bit and change no other bit of any bitmap
block, or fail when there is no clear bit. -/
def AllocSpec (fs fs' : Fs) : AllocResult → Prop
  | .block fblock =>
    let g := fs.sb.bgidOfBlock fblock
    let i := fs.sb.addrToIdxBg fblock
    g < fs.sb.blockGroupCnt ∧ i < fs.sb.blocksInGroupCnt g ∧ fs.bit g i = false ∧
      fs'.bit g i = true ∧
      ∀ g' < fs.sb.blockGroupCnt, ∀ i' < 8 * fs.sb.blockSize, ¬(g' = g ∧ i' = i) →
        fs'.bit g' i' = fs.bit g' i'
  | .error _ =>
    (∀ g < fs.sb.blockGroupCnt, ∀ i < fs.sb.blocksInGroupCnt g, fs.bit g i = true) ∧ fs' = fs

/-- The allocation returns, does that, and leaves the file system in order. -/
def Done (fs : Fs) (result : Option (AllocResult × Fs)) : Prop :=
  ∃ r fs', result = some (r, fs') ∧ Layout fs' ∧ Agree fs' ∧ AllocSpec fs fs' r

theorem bound_of_mem (layout : Layout fs) (hg : g < fs.sb.blockGroupCnt)
    (hi : i < fs.sb.blocksInGroupCnt g) :
    i < fs.sb.blocksPerGroup ∧ fs.sb.blocksPerGroup * g + i + 1 < 2 ^ 32 := by
  obtain ⟨hper, hend⟩ := Sblock.blocksInGroupCnt_bounds layout.perGroup layout.blocks.1
    layout.blocks.2 hg
  have := layout.blocks.2
  omega

theorem blocksInGroupCnt_commit :
    (fs.commit g b sbFree bgFree).sb.blocksInGroupCnt g' = fs.sb.blocksInGroupCnt g' := rfl

theorem takeBit_eq (hset : (fs.buffer (fs.bitmapSector g)).bitSet i = some b) :
    fs.takeBit g (fs.bitmapSector g) i = some (.block (fs.sb.bgIdxToAddr i g), fs.commit g b
        (fs.sb.freeBlocksCount - 1) (BitVec.ofNat 32 (fs.freeCount g) - 1)) := by
  rw [takeBit, hset]
  rfl

/-- The bits after one of them has been set in the buffer. -/
theorem bit_commit_set (layout : Layout fs) (hg : g < fs.sb.blockGroupCnt)
    (hbit : ∀ j, b.bit j = if j = i then true else (fs.buffer (fs.bitmapSector g)).bit j)
    (hsector : i < sectorBits) {i' : Nat} (hg' : g' < fs.sb.blockGroupCnt)
    (hi' : i' < 8 * fs.sb.blockSize) : (fs.commit g b sbFree bgFree).bit g' i' =
      if g' = g ∧ i' = i then true else fs.bit g' i' := by
  rw [bit_commit layout hg hg' hi']
  by_cases hgg : g' = g
  · subst hgg
    rcases Nat.lt_or_ge i' sectorBits with hlt | hge
    · rw [if_pos ⟨rfl, hlt⟩, hbit, ← bit_of_lt hlt]
      simp
    · rw [if_neg (by omega), if_neg (by omega)]
  · simp [hgg]

theorem clearBits_commit_set (layout : Layout fs) (hg : g < fs.sb.blockGroupCnt)
    (hbit : ∀ j, b.bit j = if j = i then true else (fs.buffer (fs.bitmapSector g)).bit j)
    (hsector : i < sectorBits) :
    (fs.commit g b sbFree bgFree).clearBits g = (fs.clearBits g).erase i := by
  ext i'
  rw [Finset.mem_erase, mem_clearBits, mem_clearBits, blocksInGroupCnt_commit, and_left_comm]
  refine and_congr_right fun hi' => ?_
  rw [bit_commit_set layout hg hbit hsector hg (Nat.lt_of_lt_of_le hi' (layout.oneBlock g hg))]
  by_cases hii : i' = i <;> simp [hii]

theorem takeBit_spec (layout : Layout fs) (agree : Agree fs) (hg : g < fs.sb.blockGroupCnt)
    (hi : i < fs.sb.blocksInGroupCnt g) (hsector : i < sectorBits) (hclr : fs.bit g i = false) :
    fs.Done (fs.takeBit g (fs.bitmapSector g) i) := by
  obtain ⟨b, hset, -, hbit⟩ := @Bmap.bitSet_spec (fs.buffer (fs.bitmapSector g)) i hsector
  have hmem : i ∈ fs.clearBits g := mem_clearBits.mpr ⟨hi, hclr⟩
  have hpos : 0 < fs.freeCount g := by
    rw [agree.groups g hg]
    exact Finset.card_pos.mpr ⟨i, hmem⟩
  obtain ⟨h32, hrep⟩ := (fs.bg g).getFreeBlocksCount_lt fs.sb
  rw [← freeCount] at h32 hrep
  have hcount : (BitVec.ofNat 32 (fs.freeCount g) - 1).toNat = fs.freeCount g - 1 := by
    rw [BitVec.toNat_sub, BitVec.toNat_ofNat]
    change (2 ^ 32 - 1 + fs.freeCount g % 2 ^ 32) % 2 ^ 32 = _
    omega
  have htotal : (fs.sb.freeBlocksCount - 1).toNat + fs.freeCount g ≡
      fs.sb.freeBlocksCount.toNat + (fs.freeCount g - 1) [MOD 2 ^ 64] := by
    rw [Nat.ModEq, BitVec.toNat_sub]
    change ((2 ^ 64 - 1 + fs.sb.freeBlocksCount.toNat) % 2 ^ 64 + fs.freeCount g) % 2 ^ 64 = _
    omega
  have hi8 : i < 8 * fs.sb.blockSize := Nat.lt_of_lt_of_le hi (layout.oneBlock g hg)
  obtain ⟨hper, haddr⟩ := bound_of_mem layout hg hi
  refine ⟨_, _, takeBit_eq hset, layout.commit,
    agree.commit layout hg ?_ (by rw [hcount]; omega) (by rw [hcount]; exact htotal), ?_⟩
  · rw [clearBits_commit_set layout hg hbit hsector, Finset.card_erase_of_mem hmem, hcount,
      agree.groups g hg]
  · simp only [AllocSpec, Sblock.bgidOfBlock_bgIdxToAddr hper haddr,
      Sblock.addrToIdxBg_bgIdxToAddr hper haddr]
    refine ⟨hg, hi, hclr, ?_, ?_⟩
    · rw [bit_commit_set layout hg hbit hsector hg hi8, if_pos ⟨rfl, rfl⟩]
    · intro g' hg' i' hi' hne
      rw [bit_commit_set layout hg hbit hsector hg' hi', if_neg hne]

/-! ## Allocation -/

/-- The descriptor of a group can be used: it lies in the sector read, and its bitmaps are
initialised. -/
def Readable (fs : Fs) (g : Nat) : Prop :=
  fs.DescInSector g ∧ (fs.bg g).flags &&& Bgroup.blockUninit = 0#16 ∧
    (fs.bg g).flags &&& Bgroup.inodeUninit = 0#16

/-- A clear bit from `i` on, in the first sector of the bitmap. -/
def HasClear (fs : Fs) (g i : Nat) : Prop :=
  ∃ j < fs.sb.blocksInGroupCnt g, i ≤ j ∧ j < sectorBits ∧ fs.bit g j = false

instance (fs : Fs) (g : Nat) : Decidable (fs.Readable g) := inferInstanceAs (Decidable (_ ∧ _ ∧ _))

instance (fs : Fs) (g i : Nat) : Decidable (fs.HasClear g i) :=
  inferInstanceAs (Decidable (∃ j < _, _ ∧ _ ∧ _))

theorem getBlockGroupRef_eq (h : fs.Readable g) : fs.getBlockGroupRef g = some (fs.bg g) := if_pos h

/-- The first clear bit of the buffer, as a bit of the group. -/
theorem HasClear.first (h : fs.HasClear g i) :
    ∃ k, (fs.buffer (fs.bitmapSector g)).FirstClr i k ∧ k < fs.sb.blocksInGroupCnt g ∧
      k < sectorBits ∧ fs.bit g k = false := by
  obtain ⟨j, hj, hij, hsector, hclr⟩ := h
  rw [bit_of_lt hsector] at hclr
  obtain ⟨k, hfirst, hkj⟩ := Bmap.exists_firstClr hij hclr
  have hk : k < sectorBits := by omega
  exact ⟨k, hfirst, by omega, hk, (bit_of_lt hk).trans hfirst.2.1⟩

section Search

variable (layout : Layout fs) (agree : Agree fs) (hg : g < fs.sb.blockGroupCnt)

include layout hg in
theorem firstIdx_eq_zero : fs.sb.addrToIdxBg (fs.sb.blockOfBgid g) = 0 := by
  have hend := (Sblock.blocksInGroupCnt_bounds layout.perGroup layout.blocks.1 layout.blocks.2 hg).2
  have := layout.blocks.2
  exact Sblock.addrToIdxBg_blockOfBgid (by omega)

include layout in
theorem blocksInGroupCnt_lt (hg : g < fs.sb.blockGroupCnt) : fs.sb.blocksInGroupCnt g < 2 ^ 32 := by
  have hend := (Sblock.blocksInGroupCnt_bounds layout.perGroup layout.blocks.1 layout.blocks.2 hg).2
  have := layout.blocks.2
  omega

include layout agree hg in
/-- The three phases in the goal's group find the first clear bit from the goal on. -/
theorem allocInGoalGroup_spec (h : fs.HasClear g i) : fs.Done (fs.allocInGoalGroup g i) := by
  obtain ⟨k, hfirst, hblk, hsector, hclr⟩ := h.first
  have hdone := takeBit_spec layout agree hg hblk hsector hclr
  have hik : i ≤ k := hfirst.1
  have hread := @Bmap.isBitClr_eq (fs.buffer (fs.bitmapSector g)) i (Nat.lt_of_le_of_lt hik hsector)
  simp only [allocInGoalGroup, firstIdx_eq_zero layout hg, Nat.not_lt_zero, if_false, hread,
    Option.bind_eq_bind, Option.bind_some]
  rcases Nat.eq_or_lt_of_le hik with rfl | hlt
  · simpa [hfirst.2.1] using hdone
  have hset : (fs.buffer (fs.bitmapSector g)).bit i = true := hfirst.2.2 i (Nat.le_refl i) hlt
  simp only [hset, Bool.not_true, Bool.false_eq_true, if_false]
  generalize hend : min ((i + 63) % 2 ^ 32 / 64 * 64) (fs.sb.blocksInGroupCnt g) = endIdx
  have hk4096 : k < 4096 := hsector
  rcases Nat.lt_or_ge k endIdx with hnear | hfar
  · have answer : (fs.buffer (fs.bitmapSector g)).ClrAnswer (i + 1) endIdx (some k) :=
      ⟨hfirst.mono (Nat.le_succ i) hlt, hnear⟩
    rw [Bmap.scanClr_eq _ answer (by omega) hsector]
    exact hdone
  · have hnone : (fs.buffer (fs.bitmapSector g)).scanClr (endIdx - (i + 1)) (i + 1) =
        some none := by
      rcases Nat.lt_or_ge endIdx (i + 1) with hempty | hrange
      · rw [Nat.sub_eq_zero_of_le (Nat.le_of_lt hempty)]
        rfl
      · have answer : (fs.buffer (fs.bitmapSector g)).ClrAnswer (i + 1) endIdx none :=
          fun l hl hl' => hfirst.2.2 l (by omega) (by omega)
        exact Bmap.scanClr_eq _ answer (by omega) (hfar.trans hsector.le)
    have hpast : (i + 7) / 8 * 8 ≤ k := by omega
    rw [hnone, Option.bind_some, Bmap.bitFindClr_found hfirst hpast hblk
      (blocksInGroupCnt_lt layout hg) hsector]
    exact hdone

include layout agree hg in
theorem allocInGroup_spec (h : fs.HasClear g 0) :
    fs.Done (fs.allocInGroup (some (fs.bitmapSector g)) g) := by
  obtain ⟨k, hfirst, hblk, hsector, hclr⟩ := h.first
  simp only [allocInGroup, Option.bind_eq_bind, Option.bind_some]
  rw [firstIdx_eq_zero layout hg,
    Bmap.bitFindClr_found hfirst (by omega) hblk (blocksInGroupCnt_lt layout hg) hsector]
  exact takeBit_spec layout agree hg hblk hsector hclr

/-- The walk through the other groups: full ones are passed, and at the first one that is
not the uninitialised pointer has to be the buffer of its bitmap. -/
def OthersSafe (fs : Fs) (stale : Option Nat) : Nat → Nat → Prop
  | 0, _ => True
  | count + 1, g => fs.Readable g ∧
      (fs.freeCount g = 0 → fs.OthersSafe stale count ((g + 1) % fs.sb.blockGroupCnt)) ∧
      (fs.freeCount g ≠ 0 → stale = some (fs.bitmapSector g) ∧ fs.HasClear g 0)

instance decidableOthersSafe (fs : Fs) (stale : Option Nat) :
    ∀ count g, Decidable (fs.OthersSafe stale count g)
  | 0, _ => .isTrue trivial
  | count + 1, g =>
    have := decidableOthersSafe fs stale count ((g + 1) % fs.sb.blockGroupCnt)
    inferInstanceAs (Decidable (_ ∧ (_ → _) ∧ (_ → _ ∧ _)))

include layout agree in
/-- Either a bit is found, or all groups on the way are full. -/
theorem allocInOthers_spec {stale : Option Nat} (count : Nat) (hg : g < fs.sb.blockGroupCnt)
    (safe : fs.OthersSafe stale count g) : fs.Done (fs.allocInOthers stale count g) ∨
      fs.allocInOthers stale count g = some (.error (-1), fs) ∧
        ∀ t < count, fs.freeCount ((g + t) % fs.sb.blockGroupCnt) = 0 := by
  induction count generalizing g with
  | zero => exact .inr ⟨rfl, by simp⟩
  | succ count ih =>
    obtain ⟨hread, hfull, hsome⟩ := safe
    have hstep : fs.allocInOthers stale (count + 1) g =
        if fs.freeCount g = 0 then
          fs.allocInOthers stale count ((g + 1) % fs.sb.blockGroupCnt)
        else fs.allocInGroup stale g := by
      simp only [allocInOthers, getBlockGroupRef_eq hread, Option.bind_eq_bind, Option.bind_some]
      rfl
    rw [hstep]
    by_cases hzero : fs.freeCount g = 0
    · rw [if_pos hzero]
      have hnext : (g + 1) % fs.sb.blockGroupCnt < fs.sb.blockGroupCnt := Nat.mod_lt _ (by omega)
      rcases ih hnext (hfull hzero) with hdone | ⟨heq, hrest⟩
      · exact .inl hdone
      · refine .inr ⟨heq, fun t ht => ?_⟩
        cases t with
        | zero => rw [Nat.add_zero, Nat.mod_eq_of_lt hg, hzero]
        | succ t =>
          have := hrest t (by omega)
          rwa [Nat.mod_add_mod, Nat.add_assoc, Nat.add_comm 1] at this
    · rw [if_neg hzero]
      obtain ⟨rfl, hclear⟩ := hsome hzero
      exact .inl (allocInGroup_spec layout agree hg hclear)

end Search

theorem full_of_freeCount_eq_zero (agree : Agree fs) (hg : g < fs.sb.blockGroupCnt)
    (hzero : fs.freeCount g = 0) (hi : i < fs.sb.blocksInGroupCnt g) : fs.bit g i = true := by
  rw [agree.groups g hg, Finset.card_eq_zero] at hzero
  have hnot : i ∉ fs.clearBits g := by simp [hzero]
  rw [mem_clearBits, not_and, Bool.not_eq_false] at hnot
  exact hnot hi

/-- Counting on from any group comes past every group. -/
theorem exists_add_mod {n start target : Nat} (hstart : start < n) (htarget : target < n) :
    ∃ t < n, (start + t) % n = target := by
  rcases Nat.lt_or_ge target start with hlt | hge
  · refine ⟨target + n - start, by omega, ?_⟩
    rw [show start + (target + n - start) = target + n by omega, Nat.add_mod_right,
      Nat.mod_eq_of_lt htarget]
  · refine ⟨target - start, by omega, ?_⟩
    rw [Nat.add_sub_cancel' hge, Nat.mod_eq_of_lt htarget]

/-- The goal's group has a clear bit from the goal on in its first sector, or it is full
and the walk through the others is safe. -/
def AllocSafe (fs : Fs) (stale : Option Nat) (goal : Nat) : Prop :=
  let g := fs.sb.bgidOfBlock goal
  g < fs.sb.blockGroupCnt ∧ fs.Readable g ∧
    (fs.freeCount g ≠ 0 → fs.HasClear g (fs.sb.addrToIdxBg goal)) ∧
    (fs.freeCount g = 0 →
      fs.OthersSafe stale fs.sb.blockGroupCnt ((g + 1) % fs.sb.blockGroupCnt))

theorem allocBlock_spec (layout : Layout fs) (agree : Agree fs) {stale : Option Nat} {goal : Nat}
    (safe : fs.AllocSafe stale goal) : fs.Done (fs.allocBlock stale goal) := by
  obtain ⟨hg, hread, hgoal, hothers⟩ := safe
  have hstep : fs.allocBlock stale goal =
      if fs.freeCount (fs.sb.bgidOfBlock goal) = 0 then
        fs.allocInOthers stale fs.sb.blockGroupCnt
          ((fs.sb.bgidOfBlock goal + 1) % fs.sb.blockGroupCnt)
      else fs.allocInGoalGroup (fs.sb.bgidOfBlock goal) (fs.sb.addrToIdxBg goal) := by
    simp only [allocBlock, getBlockGroupRef_eq hread, Option.bind_eq_bind, Option.bind_some]
    rfl
  rw [hstep]
  by_cases hzero : fs.freeCount (fs.sb.bgidOfBlock goal) = 0
  · rw [if_pos hzero]
    have hnext : (fs.sb.bgidOfBlock goal + 1) % fs.sb.blockGroupCnt < fs.sb.blockGroupCnt :=
      Nat.mod_lt _ (by omega)
    rcases allocInOthers_spec layout agree _ hnext (hothers hzero) with hdone | ⟨heq, hfull⟩
    · exact hdone
    · refine ⟨_, fs, heq, layout, agree, fun g' hg' i hi => ?_, rfl⟩
      obtain ⟨t, ht, htg⟩ := exists_add_mod hnext hg'
      exact full_of_freeCount_eq_zero agree hg' (htg ▸ hfull t ht) hi
  · rw [if_neg hzero]
    exact allocInGoalGroup_spec layout agree hg (hgoal hzero)

/-! ## Release -/

/-- Bit `i` of group `g` stands for one of the blocks `first, …, first + count - 1`. -/
def Named (fs : Fs) (first count g i : Nat) : Prop :=
  ∃ k < count, fs.sb.bgidOfBlock (first + k) = g ∧ fs.sb.addrToIdxBg (first + k) = i

/-- What a release has to do: clear the named bits and no other bit of any bitmap block. -/
def FreeSpec (fs fs' : Fs) (first count : Nat) : Prop :=
  ∀ g < fs.sb.blockGroupCnt, ∀ i < 8 * fs.sb.blockSize,
    (fs.Named first count g i → fs'.bit g i = false) ∧
    (¬fs.Named first count g i → fs'.bit g i = fs.bit g i)

/-- The blocks are allocated blocks of one group, with bits in the first sector of its
bitmap, the uninitialised pointer is the buffer of that bitmap and the new count fits its
field. A release of no block at the start of a group does nothing. -/
def FreeSafe (fs : Fs) (stale : Nat → Option Nat) (first count : Nat) : Prop :=
  let g := fs.sb.bgidOfBlock first
  let i := fs.sb.addrToIdxBg first
  let last := fs.sb.bgidOfBlock ((first + count + (2 ^ 64 - 1)) % 2 ^ 64)
  count = 0 ∧ last < g ∨
    last = g ∧ g < fs.sb.blockGroupCnt ∧ fs.Readable g ∧ stale g = some (fs.bitmapSector g) ∧
      (fs.sb.firstDataBlock = 0 ∨ first ≠ 0) ∧ i + count ≤ fs.sb.blocksInGroupCnt g ∧
      i + count ≤ sectorBits ∧ (∀ k < count, fs.bit g (i + k) = true) ∧
      (fs.freeCount g + count < 2 ^ 16 ∨ 32 < fs.sb.getDescSize)

section Release

variable {n : Nat}

theorem bit_commit_clear (layout : Layout fs) (hg : g < fs.sb.blockGroupCnt)
    (hcleared : (fs.buffer (fs.bitmapSector g)).Cleared b i n) (hsector : i + n ≤ sectorBits)
    {i' : Nat} (hg' : g' < fs.sb.blockGroupCnt) (hi' : i' < 8 * fs.sb.blockSize) :
    (fs.commit g b sbFree bgFree).bit g' i' =
      if g' = g ∧ i ≤ i' ∧ i' < i + n then false else fs.bit g' i' := by
  rw [bit_commit layout hg hg' hi']
  by_cases hgg : g' = g
  · subst hgg
    rcases Nat.lt_or_ge i' sectorBits with hlt | hge
    · rw [if_pos ⟨rfl, hlt⟩, hcleared.2, ← bit_of_lt hlt]
      simp
    · rw [if_neg (by omega), if_neg (by omega)]
  · simp [hgg]

theorem card_clearBits_commit_clear (layout : Layout fs) (hg : g < fs.sb.blockGroupCnt)
    (hcleared : (fs.buffer (fs.bitmapSector g)).Cleared b i n) (hsector : i + n ≤ sectorBits)
    (hblk : i + n ≤ fs.sb.blocksInGroupCnt g) (hset : ∀ k < n, fs.bit g (i + k) = true) :
    ((fs.commit g b sbFree bgFree).clearBits g).card = (fs.clearBits g).card + n := by
  have hunion : (fs.commit g b sbFree bgFree).clearBits g =
      fs.clearBits g ∪ Finset.Ico i (i + n) := by
    ext i'
    rw [Finset.mem_union, Finset.mem_Ico, mem_clearBits, mem_clearBits, blocksInGroupCnt_commit]
    rcases Nat.lt_or_ge i' (fs.sb.blocksInGroupCnt g) with hlt | hge
    · rw [bit_commit_clear layout hg hcleared hsector hg
        (Nat.lt_of_lt_of_le hlt (layout.oneBlock g hg))]
      by_cases hin : i ≤ i' ∧ i' < i + n <;> simp [hin, hlt]
    · have : ¬i' < fs.sb.blocksInGroupCnt g := Nat.not_lt.mpr hge
      simp only [this, false_and, false_or, false_iff]
      omega
  have hdisjoint : Disjoint (fs.clearBits g) (Finset.Ico i (i + n)) := by
    rw [Finset.disjoint_left]
    intro i' hclear hin
    rw [Finset.mem_Ico] at hin
    have hbit := hset (i' - i) (by omega)
    rw [Nat.add_sub_cancel' hin.1, (mem_clearBits.mp hclear).2] at hbit
    exact Bool.false_ne_true hbit
  rw [hunion, Finset.card_union_of_disjoint hdisjoint, Nat.card_Ico, Nat.add_sub_cancel_left]

theorem freeInGroup_eq {stale : Option Nat} {first count : Nat} (hread : fs.Readable g)
    (hstale : stale = some (fs.bitmapSector g))
    (hcount : count ≤ (fs.sb.blockSize * 8 + 2 ^ 32 - fs.sb.addrToIdxBg first) % 2 ^ 32)
    (hfree : (fs.buffer (fs.bitmapSector g)).bitsFree (fs.sb.addrToIdxBg first) count = some b) :
    fs.freeInGroup stale g first count =
      some (count, fs.commit g b (fs.sb.freeBlocksCount + BitVec.ofNat 64 count)
        (BitVec.ofNat 32 (fs.freeCount g) + BitVec.ofNat 32 count)) := by
  subst hstale
  rw [freeInGroup, getBlockGroupRef_eq hread]
  simp only [Option.bind_eq_bind, Option.bind_some]
  rw [if_neg (Nat.not_lt.mpr hcount), hfree]
  rfl

theorem Layout.freeCnt_eq (layout : Layout fs) {idx : Nat} (hidx : idx ≤ 8 * fs.sb.blockSize) :
    (fs.sb.blockSize * 8 + 2 ^ 32 - idx) % 2 ^ 32 = 8 * fs.sb.blockSize - idx := by
  have hpow : 2 ^ fs.sb.logBlockSize ≤ 2 ^ 6 := Nat.pow_le_pow_right (by decide) layout.blockSize
  have hsize := blockSize_eq fs.sb
  generalize 2 ^ fs.sb.logBlockSize = p at hpow hsize
  omega

/-- Within a group, consecutive blocks have consecutive bits. -/
theorem named_iff (hper : 0 < fs.sb.blocksPerGroup) {first count : Nat}
    (hfirst : fs.sb.firstDataBlock = 0 ∨ first ≠ 0)
    (hfit : fs.sb.addrToIdxBg first + count ≤ fs.sb.blocksPerGroup) :
    fs.Named first count g i ↔ g = fs.sb.bgidOfBlock first ∧
      fs.sb.addrToIdxBg first ≤ i ∧ i < fs.sb.addrToIdxBg first + count := by
  have hrel : ∀ k, fs.sb.relAddr (first + k) = fs.sb.relAddr first + k := by
    intro k
    rw [Sblock.relAddr, Sblock.relAddr]
    rcases hfirst with hzero | hne
    · simp [hzero]
    · by_cases hdata : fs.sb.firstDataBlock = 0
      · simp [hdata]
      · rw [if_pos ⟨hdata, by omega⟩, if_pos ⟨hdata, hne⟩]
        omega
  have hbit : ∀ k < count, fs.sb.addrToIdxBg (first + k) = fs.sb.addrToIdxBg first + k ∧
      fs.sb.bgidOfBlock (first + k) = fs.sb.bgidOfBlock first := by
    intro k hk
    simp only [Sblock.addrToIdxBg, Sblock.bgidOfBlock] at hfit ⊢
    have hsum := Nat.div_add_mod (fs.sb.relAddr first) fs.sb.blocksPerGroup
    have hlt : fs.sb.relAddr first % fs.sb.blocksPerGroup + k < fs.sb.blocksPerGroup := by omega
    rw [hrel, show fs.sb.relAddr first + k = fs.sb.blocksPerGroup *
      (fs.sb.relAddr first / fs.sb.blocksPerGroup) +
        (fs.sb.relAddr first % fs.sb.blocksPerGroup + k) by omega]
    rw [Nat.mul_add_mod, Nat.mod_eq_of_lt hlt, Nat.mul_add_div hper, Nat.div_eq_of_lt hlt,
      Nat.add_zero]
    exact ⟨rfl, rfl⟩
  constructor
  · rintro ⟨k, hk, rfl, rfl⟩
    rw [(hbit k hk).1, (hbit k hk).2]
    omega
  · rintro ⟨rfl, hle, hlt⟩
    refine ⟨i - fs.sb.addrToIdxBg first, by omega, ?_⟩
    obtain ⟨hidx, hgroup⟩ := hbit (i - fs.sb.addrToIdxBg first) (by omega)
    exact ⟨hgroup, hidx.trans (by omega)⟩

theorem freeBlocks_spec (layout : Layout fs) (agree : Agree fs) {stale : Nat → Option Nat}
    {first count : Nat} (safe : fs.FreeSafe stale first count) :
    ∃ fs', fs.freeBlocks stale first count = some fs' ∧ Layout fs' ∧ Agree fs' ∧
      FreeSpec fs fs' first count := by
  rcases safe with ⟨rfl, hlast⟩ | ⟨hlast, hg, hread, hstale, hfirst, hblk, hsector, hset, hfield⟩
  · refine ⟨fs, ?_, layout, agree, fun g _ i _ => ⟨?_, fun _ => rfl⟩⟩
    · rw [freeBlocks, Nat.sub_eq_zero_of_le hlast]
      rfl
    · rintro ⟨k, hk, -⟩
      exact absurd hk (Nat.not_lt_zero k)
  · generalize hgroup : fs.sb.bgidOfBlock first = g at *
    generalize hidx : fs.sb.addrToIdxBg first = i at *
    have hone := layout.oneBlock g hg
    obtain ⟨b, hfree, hcleared⟩ :=
      Bmap.bitsFree_spec (fs.buffer (fs.bitmapSector g)) i count hsector
    have hround := @freeInGroup_eq fs g b (stale g) first count hread hstale
      (by rw [hidx, layout.freeCnt_eq (by omega)]; omega) (hidx ▸ hfree)
    obtain ⟨h32, -⟩ := (fs.bg g).getFreeBlocksCount_lt fs.sb
    rw [← freeCount] at h32
    have hcard : (fs.clearBits g).card + count < 2 ^ 32 := by
      have := (@Layout.commit fs g b 0 0 layout).card_clearBits_lt hg
      rwa [card_clearBits_commit_clear layout hg hcleared hsector hblk hset] at this
    rw [← agree.groups g hg] at hcard
    have hcount : (BitVec.ofNat 32 (fs.freeCount g) + BitVec.ofNat 32 count).toNat =
        fs.freeCount g + count := by
      rw [BitVec.toNat_add, BitVec.toNat_ofNat, BitVec.toNat_ofNat]
      omega
    have htotal : (fs.sb.freeBlocksCount + BitVec.ofNat 64 count).toNat + fs.freeCount g ≡
        fs.sb.freeBlocksCount.toNat + (fs.freeCount g + count) [MOD 2 ^ 64] := by
      rw [Nat.ModEq, BitVec.toNat_add, BitVec.toNat_ofNat]
      omega
    have hresult : fs.freeBlocks stale first count =
        some (fs.commit g b (fs.sb.freeBlocksCount + BitVec.ofNat 64 count)
          (BitVec.ofNat 32 (fs.freeCount g) + BitVec.ofNat 32 count)) := by
      rw [freeBlocks, hgroup, hlast, Nat.add_sub_cancel_left]
      simp only [freeInGroups, hround, Option.bind_eq_bind, Option.bind_some, Nat.sub_self, if_true]
    refine ⟨_, hresult, layout.commit, agree.commit layout hg ?_ (by rw [hcount]; exact hfield)
      (by rw [hcount]; exact htotal), ?_⟩
    · rw [card_clearBits_commit_clear layout hg hcleared hsector hblk hset, hcount,
        agree.groups g hg]
    · intro g' hg' i' hi'
      have hper := (Sblock.blocksInGroupCnt_bounds layout.perGroup layout.blocks.1 layout.blocks.2
        hg).1
      rw [named_iff layout.perGroup hfirst (by omega), hgroup, hidx,
        bit_commit_clear layout hg hcleared hsector hg' hi']
      exact ⟨fun h => if_pos h, fun h => if_neg h⟩

end Release

end Fs

/-! ## Runs -/

inductive BallocOp where
  | alloc (stale : Option Nat) (goal : Nat)
  | free (stale : Nat → Option Nat) (first count : Nat)

def ballocStep (fs : Fs) : BallocOp → Option Fs
  | .alloc stale goal => (fs.allocBlock stale goal).map Prod.snd
  | .free stale first count => fs.freeBlocks stale first count

def BallocSafe (fs : Fs) : BallocOp → Prop
  | .alloc stale goal => fs.AllocSafe stale goal
  | .free stale first count => fs.FreeSafe stale first count

/-- The operation does what it has to do, and the counters agree with the bits after it. -/
def Behaves (fs : Fs) : BallocOp → Prop
  | .alloc stale goal =>
    ∃ r fs', fs.allocBlock stale goal = some (r, fs') ∧ fs'.Agree ∧ fs.AllocSpec fs' r
  | .free stale first count =>
    ∃ fs', fs.freeBlocks stale first count = some fs' ∧ fs'.Agree ∧ fs.FreeSpec fs' first count

instance (fs : Fs) : ∀ op, Decidable (BallocSafe fs op)
  | .alloc _ _ => inferInstanceAs (Decidable (_ ∧ _ ∧ (_ → _) ∧ (_ → _)))
  | .free _ _ _ => inferInstanceAs (Decidable (_ ∧ _ ∨
      _ ∧ _ ∧ _ ∧ _ ∧ (_ ∨ _) ∧ _ ∧ _ ∧ (∀ k < _, _) ∧ (_ ∨ _)))

theorem behaves_of_safe {fs : Fs} (layout : fs.Layout) (agree : fs.Agree) (op : BallocOp)
    (safe : BallocSafe fs op) : Behaves fs op := by
  cases op with
  | alloc stale goal =>
    obtain ⟨r, fs', halloc, -, agree', hspec⟩ := Fs.allocBlock_spec layout agree safe
    exact ⟨r, fs', halloc, agree', hspec⟩
  | free stale first count =>
    obtain ⟨fs', hfree, -, agree', hspec⟩ := Fs.freeBlocks_spec layout agree safe
    exact ⟨fs', hfree, agree', hspec⟩

theorem ballocStep_inv (fs : Fs) (op : BallocOp) (inv : fs.Layout ∧ fs.Agree)
    (safe : BallocSafe fs op) : ∃ fs', ballocStep fs op = some fs' ∧ fs'.Layout ∧ fs'.Agree := by
  obtain ⟨layout, agree⟩ := inv
  cases op with
  | alloc stale goal =>
    obtain ⟨r, fs', halloc, layout', agree', -⟩ := Fs.allocBlock_spec layout agree safe
    exact ⟨fs', by simp only [ballocStep, halloc, Option.map_some], layout', agree'⟩
  | free stale first count =>
    obtain ⟨fs', hfree, layout', agree', -⟩ := Fs.freeBlocks_spec layout agree safe
    exact ⟨fs', hfree, layout', agree'⟩

/-- A run of safe operations ends without a fault, the counters agree with the bitmaps at
its end, and every safe operation from there on behaves. -/
theorem balloc_runs {fs : Fs} (layout : fs.Layout) (agree : fs.Agree) (ops : List BallocOp)
    (safe : Run.Meets ballocStep BallocSafe fs ops) :
    ∃ fs', Run.exec ballocStep fs ops = some fs' ∧ fs'.Agree ∧
      ∀ op, BallocSafe fs' op → Behaves fs' op := by
  obtain ⟨fs', hrun, layout', agree'⟩ := Run.total ⟨layout, agree⟩ safe
    fun fs op inv hsafe => ballocStep_inv fs op inv hsafe
  exact ⟨fs', hrun, agree', fun op hsafe => behaves_of_safe layout' agree' op hsafe⟩

/-- Two groups of sixteen blocks. Block 15 is free in the first one, the blocks 20 to 23 in
the second one. -/
def twoGroups : Fs where
  sb := ⟨0, 0, 16, 32, 5, 32⟩
  bg g := ⟨2 + g, if g = 0 then 1 else 4, 0, 0⟩
  sector s byte :=
    if s = 4 then (if byte = 1 then 0x7f else 0xff) else if byte = 0 then 0x0f else 0xff

theorem twoGroups_layout : twoGroups.Layout :=
  ⟨by decide, by decide, by decide, by decide +kernel, by decide +kernel, by decide +kernel⟩

theorem twoGroups_agree : twoGroups.Agree := ⟨by decide +kernel, by decide +kernel⟩

/-- Fill the first group, go on in the second one, give the block back. -/
def fillAndRelease : List BallocOp :=
  [.alloc none 3, .alloc (some 6) 3, .free (fun _ => some 6) 20 1, .alloc none 18]

theorem balloc_runs_fillAndRelease :
    ∃ fs', Run.exec ballocStep twoGroups fillAndRelease = some fs' ∧ fs'.Agree ∧
      ∀ op, BallocSafe fs' op → Behaves fs' op :=
  balloc_runs twoGroups_layout twoGroups_agree fillAndRelease (by decide +kernel)

/-- With the goal behind the last clear bit of its group the allocation fails, although
both groups have clear bits. -/
theorem alloc_behind_clear_bits_fails : twoGroups.Layout ∧ twoGroups.Agree ∧
      twoGroups.allocBlock none 25 = some (.error enospc, twoGroups) ∧
      ¬Behaves twoGroups (.alloc none 25) := by
  have hfail : twoGroups.allocBlock none 25 = some (.error enospc, twoGroups) := rfl
  refine ⟨twoGroups_layout, twoGroups_agree, hfail, ?_⟩
  rintro ⟨r, fs', halloc, -, hspec⟩
  rw [hfail] at halloc
  cases halloc
  exact absurd (hspec.1 0 (by decide +kernel) 15 (by decide +kernel)) (by decide +kernel)

end KernelTravel.Ext4

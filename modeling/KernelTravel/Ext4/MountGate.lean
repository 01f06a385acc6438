import KernelTravel.Ext4.Address
import Mathlib.Algebra.BigOperators.Group.Finset.Basic

/-!
# The tests before the directory tree is built

`ext4_init` reads the superblock with `fill_sb` and then builds the directory tree. `fill_sb`
answers -1 where a test fails and 0 at its end. It hands on every answer of
`ext4_fs_check_features` other than 0; but that function answers 1 for a file system it
supports, and never 0. And `ext4_init` asserts that the answer is not 0. So the tree is built for
every superblock, and the limits of the block levels, which come after the tests, are never set.

An operation answers `none` where an `ASSERT` fails.
-/

namespace KernelTravel.Ext4

/-- The fields of the superblock that are used while it is mounted. -/
structure MountSb extends Super where
  revLevel : BitVec 32
  featuresIncompatible : BitVec 32
  featuresReadOnly : BitVec 32
  state : BitVec 16
  mountCount : BitVec 16

/-- The block levels of `struct ext4_fs`. -/
structure Levels where
  inodeBlockLimits : Nat → Nat
  inodeBlocksPerLevel : Nat → Nat

/-- `CONFIG_SUPPORTED_FINCOM`. -/
def supportedFincom : BitVec 32 := 0x2 ||| 0x10 ||| 0x40 ||| 0x200 ||| 0x80 ||| (0x4 ||| 0x100)

/-- `CONFIG_SUPPORTED_FRO_COM`. -/
def supportedFroCom : BitVec 32 := 0x1 ||| 0x400 ||| 0x2 ||| 0x10 ||| 0x20 ||| 0x40 ||| 0x8

/-- `EXT4_SUPERBLOCK_STATE_ERROR_FS`. -/
def stateErrorFs : BitVec 16 := 0x2

def directBlockCount : Nat := 12

namespace MountSb

/-- `ext4_fs_check_features`. -/
def checkFeatures (sb : MountSb) : Int :=
  if sb.revLevel = 0 then 1
  else if sb.featuresIncompatible &&& ~~~supportedFincom ≠ 0 then -1
  else if sb.featuresReadOnly &&& ~~~supportedFroCom ≠ 0 then 1
  else 1

end MountSb

/-- A round of the loop of `fill_sb`. -/
def Levels.next (blocksId : Nat) (l : Levels) (i : Nat) : Levels :=
  let per := l.inodeBlocksPerLevel (i - 1) * blocksId % 2 ^ 64
  { inodeBlocksPerLevel := Function.update l.inodeBlocksPerLevel i per
    inodeBlockLimits := Function.update l.inodeBlockLimits i
      ((l.inodeBlockLimits (i - 1) + per) % 2 ^ 64) }

/-- The limits that `fill_sb` sets for blocks of `bsize` bytes. -/
def Levels.set (bsize : Nat) (l : Levels) : Levels :=
  let first : Levels :=
    { inodeBlockLimits := Function.update l.inodeBlockLimits 0 directBlockCount
      inodeBlocksPerLevel := Function.update l.inodeBlocksPerLevel 0 1 }
  [1, 2, 3].foldl (Levels.next (bsize / 4)) first

/-- `fill_sb`, with the superblock that was read. -/
def fillSb (sb : MountSb) (l : Levels) : Int × MountSb × Levels :=
  if !sb.check then (-1, sb, l)
  else if maxBlockSize < sb.blockSize then (-1, sb, l)
  else if sb.checkFeatures ≠ 0 then (sb.checkFeatures, sb, l)
  else (0, { sb with state := stateErrorFs, mountCount := sb.mountCount + 1 }, l.set sb.blockSize)

/-- `ext4_init` up to the call of `build_dirent_ext4tree`. -/
def ext4Init (sb : MountSb) (l : Levels) : Option (MountSb × Levels) :=
  let r := fillSb sb l
  if r.1 ≠ 0 then some r.2 else none

/-! ## What the tests are for -/

/-- A superblock that can be mounted. -/
def MountSb.Accepted (sb : MountSb) : Prop :=
  sb.check ∧ sb.blockSize ≤ maxBlockSize ∧ sb.featuresIncompatible &&& ~~~supportedFincom = 0

instance (sb : MountSb) : Decidable sb.Accepted := inferInstanceAs (Decidable (_ ∧ _ ∧ _))

/-- The number of blocks below an entry of a level, for blocks of `bsize` bytes. -/
def blocksPerLevel (bsize i : Nat) : Nat := (bsize / 4) ^ i

/-- The number of blocks up to a level. -/
def blockLimit (bsize i : Nat) : Nat :=
  directBlockCount + ∑ k ∈ Finset.range i, blocksPerLevel bsize (k + 1)

def Levels.Of (l : Levels) (bsize : Nat) : Prop :=
  ∀ i < 4, l.inodeBlockLimits i = blockLimit bsize i ∧ l.inodeBlocksPerLevel i =
    blocksPerLevel bsize i

/-- The tree is built for the superblocks that can be mounted, and with the limits for their
block size. -/
def GateRight (sb : MountSb) (l : Levels) : Prop :=
  ((∃ r, ext4Init sb l = some r) ↔ sb.Accepted) ∧ ∀ r, ext4Init sb l = some r → r.2.Of sb.blockSize

/-! ## What they do -/

theorem MountSb.checkFeatures_ne_zero (sb : MountSb) : sb.checkFeatures ≠ 0 := by
  rw [checkFeatures]
  split_ifs <;> decide

/-- The end of `fill_sb` is not reached. -/
theorem fillSb_early (sb : MountSb) (l : Levels) :
    (fillSb sb l).1 ≠ 0 ∧ (fillSb sb l).2 = (sb, l) := by
  rw [fillSb]
  split
  · exact ⟨show (-1 : Int) ≠ 0 by decide, rfl⟩
  split
  · exact ⟨show (-1 : Int) ≠ 0 by decide, rfl⟩
  rw [if_pos sb.checkFeatures_ne_zero]
  exact ⟨sb.checkFeatures_ne_zero, rfl⟩

theorem ext4Init_eq (sb : MountSb) (l : Levels) : ext4Init sb l = some (sb, l) := by
  obtain ⟨hne, hsame⟩ := fillSb_early sb l
  rw [ext4Init, if_pos hne, hsame]

/-- When the gate is right: the superblock can be mounted, and the limits were right before. -/
theorem gateRight_iff (sb : MountSb) (l : Levels) :
    GateRight sb l ↔ sb.Accepted ∧ l.Of sb.blockSize := by
  rw [GateRight, ext4Init_eq]
  constructor
  · rintro ⟨hreached, hlevels⟩
    exact ⟨hreached.mp ⟨_, rfl⟩, hlevels _ rfl⟩
  · rintro ⟨haccepted, hlevels⟩
    refine ⟨iff_of_true ⟨_, rfl⟩ haccepted, ?_⟩
    rintro r hr
    obtain rfl := Option.some.inj hr
    exact hlevels

/-- `allocFs` has cleared the structure before it is mounted. -/
def Levels.clear : Levels := ⟨fun _ => 0, fun _ => 0⟩

/-- A superblock that can be mounted. -/
def goodSb : MountSb := { smallSuper with
  revLevel := 1, featuresIncompatible := 0x2c2, featuresReadOnly := 0x1, state := 1,
    mountCount := 0 }

/-- At boot no superblock is right: the tree is built without limits for one that can be mounted,
and also for one whose magic number is wrong. -/
theorem gate_open :
    (goodSb.Accepted ∧ ext4Init goodSb .clear = some (goodSb, .clear) ∧ ¬GateRight goodSb .clear) ∧
      ¬MountSb.Accepted { goodSb with magic := 0 } ∧
      (∃ r, ext4Init { goodSb with magic := 0 } .clear = some r) ∧ ∀ sb, ¬GateRight sb .clear := by
  have hnever : ∀ sb, ¬GateRight sb .clear := by
    rintro sb ⟨-, hlevels⟩
    have hzero := (hlevels _ (ext4Init_eq sb .clear) 1 (by decide)).1
    change 0 = directBlockCount + _ at hzero
    unfold directBlockCount at hzero
    omega
  exact ⟨⟨by decide, ext4Init_eq _ _, hnever _⟩, by decide, ⟨_, ext4Init_eq _ _⟩, hnever⟩

end KernelTravel.Ext4

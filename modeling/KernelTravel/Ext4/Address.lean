import KernelTravel.Ext4.Balloc

/-!
# Where the metadata of ext4 is looked up

A block has 1024 to 65536 bytes, a buffer of the sector cache 512. An accessor asks for the
sector at which a block begins and adds the offset within the block to the address of that
one buffer. `ext4_fs_get_inode_ref` alone goes on to the sector that holds the offset.

`Site` names the accessors and what they are called with. A byte that lies outside of the
buffer is not loaded at all.
-/

namespace KernelTravel.Ext4

/-- The fields of the superblock that addresses are computed from, and those that
`ext4_sb_check` looks at. `csumOk` is the answer of `ext4_sb_verify_csum`. -/
structure Super extends Sblock where
  magic : Nat
  inodesCount : Nat
  inodesPerGroup : Nat
  inodeSize : Nat
  firstInode : Nat
  firstMetaBg : Nat
  metaBg : Bool
  sparseSuper : Bool
  csumOk : Bool

def superblockMagic : Nat := 0xEF53
def maxBlockSize : Nat := 65536
def maxDescSize : Nat := 64

namespace Super

/-- `ext4_sb_check`. -/
def check (sb : Super) : Bool :=
  sb.magic = superblockMagic ∧ sb.inodesCount ≠ 0 ∧ sb.blocksCount ≠ 0 ∧ sb.blocksPerGroup ≠ 0 ∧
    sb.inodesPerGroup ≠ 0 ∧ 128 ≤ sb.inodeSize ∧ 11 ≤ sb.firstInode ∧ 32 ≤ sb.getDescSize ∧
    sb.getDescSize ≤ maxDescSize ∧ sb.csumOk

/-- The tests of `fill_sb`. -/
def Admitted (sb : Super) : Prop := sb.check ∧ sb.blockSize ≤ maxBlockSize

instance (sb : Super) : Decidable sb.Admitted := inferInstanceAs (Decidable (_ ∧ _))

/-- `is_power_of`. The number gets smaller in each round, which bounds their number. -/
def isPowerOf (b : Nat) : Nat → Nat → Bool
  | 0, _ => false
  | rounds + 1, a =>
    if a < b then false
    else if a = b then true
    else if a % b ≠ 0 then false
    else isPowerOf b rounds (a / b)

/-- `ext4_sb_sparse`. -/
def sparse (group : Nat) : Bool :=
  if group ≤ 1 then true
  else if group % 2 = 0 then false
  else isPowerOf 7 group group || isPowerOf 5 group group || isPowerOf 3 group group

/-- `ext4_sb_is_super_in_bg`. -/
def isSuperInBg (sb : Super) (group : Nat) : Bool := !(sb.sparseSuper && !sparse group)

def firstBgBlockNo (sb : Super) (bgid : Nat) : Nat := bgid * sb.blocksPerGroup + sb.firstDataBlock

/-- `ext4_fs_get_descriptor_block`. -/
def getDescriptorBlock (sb : Super) (bgid dscPerBlock : Nat) : Nat :=
  let dscId := bgid / dscPerBlock
  if !sb.metaBg ∨ dscId < sb.firstMetaBg then (sb.firstDataBlock + dscId + 1) % 2 ^ 32
  else ((if sb.isSuperInBg bgid then 1 else 0) + sb.firstBgBlockNo bgid) % 2 ^ 64

def dscCnt (sb : Super) : Nat := sb.blockSize / sb.getDescSize

end Super

/-- An address in the buffer of a sector. -/
structure BufPtr where
  sector : Nat
  byte : Nat

/-- The byte `j` places behind the address. -/
def BufPtr.load (p : BufPtr) (disk : Nat → Byte) (j : Nat) : Option Byte :=
  if p.byte + j < bufSize then some (disk (p.sector * bufSize + (p.byte + j))) else none

namespace Super

/-- `bufRead(1, EXT4_LBA2PBA(block), 1)->data->data + offset`. -/
def blockPtr (sb : Super) (block offset : Nat) : BufPtr := ⟨sb.lba2pba block, offset⟩

/-- The pointer of `ext4_fs_get_block_group_ref`. -/
def blockGroupPtr (sb : Super) (bgid : Nat) : BufPtr :=
  sb.blockPtr (sb.getDescriptorBlock bgid sb.dscCnt) (bgid % sb.dscCnt * sb.getDescSize)

/-- The byte of a bitmap that `ext4_bmap_is_bit_clr`, `ext4_bmap_bit_set` and
`ext4_bmap_bit_clr` use. -/
def bitmapPtr (sb : Super) (block bit : Nat) : BufPtr := sb.blockPtr block (bit >>> 3)

/-- The entry of `ext4_dir_iterator_set`. The `data` of the buffer is taken as set, although
`ext4_dir_iterator_seek` clears it in a buffer that it leaves. -/
def dirEntryPtr (sb : Super) (block currOff : Nat) : BufPtr :=
  sb.blockPtr block (currOff % sb.blockSize)

/-- The entry of an indirect block in `ext4_fs_get_inode_dblk_idx_internal`. -/
def indirectPtr (sb : Super) (block offInBlk : Nat) : BufPtr := sb.blockPtr block (4 * offInBlk)

/-- Where an inode lies in the table of its group. -/
def inodeByteOffset (sb : Super) (index : Nat) : Nat :=
  (index + 2 ^ 32 - 1) % 2 ^ 32 % sb.inodesPerGroup * sb.inodeSize % 2 ^ 32

/-- The pointer of `ext4_fs_get_inode_ref`. -/
def inodePtr (sb : Super) (tableStart index : Nat) : BufPtr :=
  let blockId := (tableStart + sb.inodeByteOffset index / sb.blockSize) % 2 ^ 64
  let offsetInBlock := sb.inodeByteOffset index % sb.blockSize
  if bufSize ≤ offsetInBlock then
    ⟨(sb.lba2pba blockId + offsetInBlock / bufSize) % 2 ^ 64, offsetInBlock % bufSize⟩
  else sb.blockPtr blockId offsetInBlock

end Super

/-- An accessor with its arguments. -/
inductive Site where
  | descriptor (bgid : Nat)
  | bitmap (block bit : Nat)
  | dirEntry (block currOff : Nat)
  | indirect (block offInBlk : Nat)
  | inode (tableStart index : Nat)

namespace Site

/-- The address that the code computes. -/
def ptr (sb : Super) : Site → BufPtr
  | descriptor bgid => sb.blockGroupPtr bgid
  | bitmap block bit => sb.bitmapPtr block bit
  | dirEntry block currOff => sb.dirEntryPtr block currOff
  | indirect block offInBlk => sb.indirectPtr block offInBlk
  | inode tableStart index => sb.inodePtr tableStart index

/-- The block that is meant. -/
def block (sb : Super) : Site → Nat
  | descriptor bgid => sb.getDescriptorBlock bgid sb.dscCnt
  | bitmap block _ | dirEntry block _ | indirect block _ => block
  | inode tableStart index => (tableStart + sb.inodeByteOffset index / sb.blockSize) % 2 ^ 64

/-- The offset within that block. -/
def offset (sb : Super) : Site → Nat
  | descriptor bgid => bgid % sb.dscCnt * sb.getDescSize
  | bitmap _ bit => bit / 8
  | dirEntry _ currOff => currOff % sb.blockSize
  | indirect _ offInBlk => 4 * offInBlk
  | inode _ index => sb.inodeByteOffset index % sb.blockSize

/-- How far into the buffer the site lies. -/
def inBuffer (sb : Super) : Site → Nat
  | inode tableStart index => (inode tableStart index).offset sb % bufSize
  | site => site.offset sb

/-- The byte `j` places behind the site is the one of the disk, whatever the disk holds. -/
def Reads (sb : Super) (site : Site) (j : Nat) : Prop :=
  ∀ disk, (site.ptr sb).load disk j =
    some (disk (site.block sb * sb.blockSize + site.offset sb + j))

end Site

/-! ## Sectors and blocks -/

/-- Which byte of the disk a pointer reads is seen on the disk that has only this byte set. -/
theorem BufPtr.load_eq_iff {p : BufPtr} {j a : Nat} : (∀ disk, p.load disk j = some (disk a)) ↔
      p.byte + j < bufSize ∧ p.sector * bufSize + (p.byte + j) = a := by
  constructor
  · intro h
    have hmark := h fun k => if k = a then 1 else 0
    simp only [load, if_true] at hmark
    split_ifs at hmark with hin heq
    · exact ⟨hin, heq⟩
    · exact absurd hmark (by decide)
  · rintro ⟨hin, rfl⟩ disk
    rw [load, if_pos hin]

namespace Sblock

variable {sb : Sblock}

theorem bufSize_dvd_blockSize : bufSize ∣ sb.blockSize := by
  rw [blockSize, Nat.shiftLeft_eq]
  exact Dvd.dvd.mul_right (by decide) _

theorem lba2pba_mul (block : Nat) : sb.lba2pba block * bufSize = block * sb.blockSize % 2 ^ 64 := by
  have hdvd : bufSize ∣ block * sb.blockSize % 2 ^ 64 :=
    (Nat.dvd_mod_iff (by decide)).mpr (bufSize_dvd_blockSize.mul_left block)
  exact Nat.div_mul_cancel hdvd

theorem lba2pba_lt (block : Nat) : sb.lba2pba block < 2 ^ 55 := by
  have hlt := Nat.mod_lt (block * sb.blockSize) (show 0 < 2 ^ 64 by decide)
  rw [lba2pba]
  omega

end Sblock

namespace Site

variable {sb : Super} {site : Site} {j : Nat}

theorem ptr_byte : (site.ptr sb).byte = site.inBuffer sb := by
  cases site with
  | descriptor bgid => rfl
  | bitmap block bit => exact Nat.shiftRight_eq_div_pow bit 3
  | dirEntry block currOff => rfl
  | indirect block offInBlk => rfl
  | inode tableStart index =>
    simp only [ptr, Super.inodePtr, inBuffer, offset]
    split_ifs with h
    · rfl
    · exact (Nat.mod_eq_of_lt (Nat.lt_of_not_le h)).symm

/-- Sector and offset together: they miss the block only where its place is not below 2^64. -/
theorem ptr_place (hsize : sb.blockSize ≤ maxBlockSize) :
    (site.ptr sb).sector * bufSize + site.inBuffer sb =
      site.block sb * sb.blockSize % 2 ^ 64 + site.offset sb := by
  cases site with
  | descriptor bgid => exact congrArg (· + _) (Sblock.lba2pba_mul _)
  | bitmap block bit => exact congrArg (· + _) (Sblock.lba2pba_mul _)
  | dirEntry block currOff => exact congrArg (· + _) (Sblock.lba2pba_mul _)
  | indirect block offInBlk => exact congrArg (· + _) (Sblock.lba2pba_mul _)
  | inode tableStart index =>
    simp only [ptr, Super.inodePtr, inBuffer, offset, block]
    set blockId := (tableStart + sb.inodeByteOffset index / sb.blockSize) % 2 ^ 64
    set off := sb.inodeByteOffset index % sb.blockSize
    have hsum := Nat.div_add_mod off bufSize
    split_ifs with h
    · have hpos : 0 < sb.blockSize := by
        rw [Sblock.blockSize, Nat.shiftLeft_eq]
        exact Nat.mul_pos (by decide) (Nat.two_pow_pos _)
      have hoff : off < maxBlockSize := lt_of_lt_of_le (Nat.mod_lt _ hpos) hsize
      have hsector := @Sblock.lba2pba_lt sb.toSblock blockId
      rw [Nat.mod_eq_of_lt (by simp only [maxBlockSize, bufSize] at *; omega), Nat.add_mul,
        Sblock.lba2pba_mul]
      simp only [bufSize] at *
      omega
    · rw [Nat.mod_eq_of_lt (Nat.lt_of_not_le h)]
      exact congrArg (· + _) (Sblock.lba2pba_mul _)

theorem not_reads (h : bufSize ≤ site.inBuffer sb + j) : ¬site.Reads sb j := by
  intro hreads
  have hin := (BufPtr.load_eq_iff.mp hreads).1
  rw [ptr_byte] at hin
  omega

end Site

/-- For every admitted superblock an accessor reads the byte that is meant if and only if the
byte lies in the first sector of its block; for an inode, in the sector in which the inode
begins. -/
theorem site_reads_iff {sb : Super} (admitted : sb.Admitted) (site : Site) (j : Nat) :
    site.Reads sb j ↔ site.block sb * sb.blockSize < 2 ^ 64 ∧ site.inBuffer sb + j < bufSize := by
  have hplace := @Site.ptr_place sb site admitted.2
  rw [Site.Reads, BufPtr.load_eq_iff, Site.ptr_byte]
  constructor
  · rintro ⟨hin, heq⟩
    have hmod : site.block sb * sb.blockSize % 2 ^ 64 = site.block sb * sb.blockSize := by omega
    exact ⟨hmod ▸ Nat.mod_lt _ (by decide), hin⟩
  · rintro ⟨hdisk, hin⟩
    rw [Nat.mod_eq_of_lt hdisk] at hplace
    exact ⟨hin, by omega⟩

/-! ## The allocator of blocks

Its model answers `none` outside of the buffer, at the addresses of this file. -/

namespace Fs

variable {fs : Fs} {sb : Super}

/-- The test of a bit loads the byte of `bitmapPtr`. -/
theorem isBitClr_eq_load {disk : Nat → Byte}
    (hdisk : ∀ a, disk a = fs.sector (a / bufSize) (a % bufSize)) (block bit : Nat) :
    (fs.buffer (sb.lba2pba block)).isBitClr bit =
      ((sb.bitmapPtr block bit).load disk 0).map fun b =>
        decide (b &&& (1#8 <<< (bit % 8)) = 0#8) := by
  rw [Bmap.isBitClr, BufPtr.load, Super.bitmapPtr, Super.blockPtr, Nat.shiftRight_eq_div_pow]
  change (if bit / 8 < bufSize then _ else _) =
    Option.map _ (if bit / 8 + 0 < bufSize then _ else _)
  rw [Nat.add_zero]
  split_ifs with h
  · have hplace : disk (sb.lba2pba block * bufSize + bit / 8) =
        fs.sector (sb.lba2pba block) (bit / 8) := by
      rw [hdisk, Nat.mul_comm, Nat.mul_add_div (by decide), Nat.div_eq_of_lt h, Nat.add_zero,
        Nat.mul_add_mod, Nat.mod_eq_of_lt h]
    simp only [Option.map_some, hplace]
    rfl
  · rfl

/-- A descriptor is readable for the allocator if the last of its bytes lies in the buffer. -/
theorem descInSector_iff (hsb : sb.toSblock = fs.sb) (bgid : Nat) :
    fs.DescInSector bgid ↔
      (Site.descriptor bgid).inBuffer sb + ((if 32 < sb.getDescSize then 64 else 32) - 1) <
      bufSize := by
  rw [DescInSector, ← hsb]
  simp only [Site.inBuffer, Site.offset, Super.dscCnt]
  split_ifs <;> omega

end Fs

/-- A superblock of the smallest block size, with descriptors of 32 bytes. -/
def smallSuper : Super where
  firstDataBlock := 1
  logBlockSize := 0
  blocksPerGroup := 8192
  blocksCount := 262144
  freeBlocksCount := 0
  descSize := 32
  magic := superblockMagic
  inodesCount := 8192
  inodesPerGroup := 256
  inodeSize := 256
  firstInode := 11
  firstMetaBg := 0
  metaBg := false
  sparseSuper := true
  csumOk := true

theorem smallSuper_admitted : smallSuper.Admitted := by decide

/-- The descriptor of group 15 ends with the first sector of the table. -/
theorem site_reads_group15 : (Site.descriptor 15).Reads smallSuper 31 :=
  (site_reads_iff smallSuper_admitted (.descriptor 15) 31).mpr (by decide)

/-- That of group 16, bit 4096 of a bitmap, a directory entry at 512 and entry 128 of an
indirect block are not in the buffer. -/
theorem sites_outside_buffer : smallSuper.Admitted ∧ ¬(Site.descriptor 16).Reads smallSuper 0 ∧
    ¬(Site.bitmap 3 4096).Reads smallSuper 0 ∧ ¬(Site.dirEntry 40 512).Reads smallSuper 0 ∧
    ¬(Site.indirect 41 128).Reads smallSuper 0 :=
  ⟨smallSuper_admitted, Site.not_reads (by decide), Site.not_reads (by decide),
    Site.not_reads (by decide), Site.not_reads (by decide)⟩

end KernelTravel.Ext4

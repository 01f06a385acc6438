import KernelTravel.Fat32.Volume

/-!
# The FAT on the disk

`fatRead` and `fatWrite` of `fs/fat32/cluster.c` at the level of sectors, for a volume whose
super block `partition_format` has filled in. The sector cache is taken as a flat disk of
bytes. `fatRead_fatWrite` is the law of the table, and `volume_fatWrite` says that the one
table of `Volume` stands for all the copies.

The sector of an entry is computed with 32-bit numbers, which is harmless as long as the
copies of the FAT end inside the partition.
-/

namespace KernelTravel.Fat32

/-- Sectors have the size of a buffer. -/
def secSize : Nat := 512

structure Bpb where
  bytesPerSec : Nat
  secPerClus : Nat
  rsvdSecCnt : Nat
  fatCnt : Nat
  hiddSec : Nat
  totSec : Nat
  fatSz : Nat
  rootClus : Nat

structure SuperBlock where
  firstDataSec : Nat
  dataSecCnt : Nat
  dataClusCnt : Nat
  bytesPerClus : Nat
  bpb : Bpb

inductive FormatError where
  | unknownFs
  | devError
  deriving DecidableEq

/-- The fields of the boot sector that the driver reads. -/
def bootBpb (disk : Nat → Byte) : Bpb where
  bytesPerSec := Mem.leNum disk 11 2
  secPerClus := Mem.leNum disk 13 1
  rsvdSecCnt := Mem.leNum disk 14 2
  fatCnt := Mem.leNum disk 16 1
  hiddSec := Mem.leNum disk 28 4
  totSec := Mem.leNum disk 32 4
  fatSz := Mem.leNum disk 36 4
  rootClus := Mem.leNum disk 44 4

/-- `BS_FilSysType` starts with `FAT32`. -/
def isFat32 (disk : Nat → Byte) : Bool :=
  (List.range 5).map (fun k => disk (82 + k)) = [0x46, 0x41, 0x54, 0x33, 0x32]

def fillSuperBlock (bpb : Bpb) : SuperBlock :=
  let firstDataSec := (bpb.rsvdSecCnt + bpb.fatCnt * bpb.fatSz) % 2 ^ 32
  let dataSecCnt := (bpb.totSec + 2 ^ 32 - firstDataSec) % 2 ^ 32
  { firstDataSec
    dataSecCnt
    dataClusCnt := dataSecCnt / bpb.secPerClus
    bytesPerClus := bpb.secPerClus * bpb.bytesPerSec
    bpb }

def partitionFormat (disk : Nat → Byte) : Except FormatError SuperBlock :=
  if isFat32 disk then
    if secSize ≠ (bootBpb disk).bytesPerSec then .error .devError
    else .ok (fillSuperBlock (bootBpb disk))
  else .error .unknownFs

namespace SuperBlock

/-- `fatno * fat_sz` and the sum with the reserved sectors are 32-bit numbers. -/
def clusterFatSec (sb : SuperBlock) (cluster fatno : Nat) : Nat :=
  (sb.bpb.rsvdSecCnt + fatno * sb.bpb.fatSz) % 2 ^ 32 + cluster * 4 / sb.bpb.bytesPerSec

def clusterFatSecIndex (sb : SuperBlock) (cluster : Nat) : Nat :=
  cluster * 4 % sb.bpb.bytesPerSec / 4

/-- The address of the word `fat[clusterFatSecIndex]` in the sector of the entry. -/
def fatEntryPos (sb : SuperBlock) (cluster fatno : Nat) : Nat :=
  sb.clusterFatSec cluster fatno * secSize + sb.clusterFatSecIndex cluster * 4

def fatWrite (sb : SuperBlock) (disk : Nat → Byte) (cluster : Nat) (content : BitVec 32) :
    Nat → Byte :=
  Mem.blitEach disk (sb.fatEntryPos cluster) sb.bpb.fatCnt 4 (Mem.leBytes content.toNat)

def fatRead (sb : SuperBlock) (disk : Nat → Byte) (cluster : Nat) : Nat :=
  if cluster < 2 ∨ (sb.dataClusCnt + 1) % 2 ^ 32 < cluster then 0
  else Mem.leNum disk (sb.fatEntryPos cluster 0) 4

/-- The sizes of the boot sector fit together: there is a FAT, the copies end inside the
partition, and a copy has an entry for every cluster. -/
structure Consistent (sb : SuperBlock) : Prop where
  copies : 0 < sb.bpb.fatCnt
  fits : sb.bpb.rsvdSecCnt + sb.bpb.fatCnt * sb.bpb.fatSz ≤ sb.bpb.totSec
  entries : (sb.dataClusCnt + 2) * 4 ≤ sb.bpb.fatSz * secSize

/-- The first byte of a copy of the FAT. -/
def copyPos (sb : SuperBlock) (fatno : Nat) : Nat :=
  (sb.bpb.rsvdSecCnt + fatno * sb.bpb.fatSz) * secSize

/-- The sectors of all the copies. -/
def InFatRegion (sb : SuperBlock) (sec : Nat) : Prop :=
  sb.bpb.rsvdSecCnt ≤ sec ∧ sec < sb.bpb.rsvdSecCnt + sb.bpb.fatCnt * sb.bpb.fatSz

end SuperBlock

/-- What a successful `partition_format` leaves. -/
theorem partitionFormat_ok {disk : Nat → Byte} {sb : SuperBlock}
    (h : partitionFormat disk = .ok sb) :
    sb = fillSuperBlock (bootBpb disk) ∧ sb.bpb.bytesPerSec = secSize ∧ sb.bpb.totSec < 2 ^ 32 := by
  have hfill : secSize = (bootBpb disk).bytesPerSec ∧ fillSuperBlock (bootBpb disk) = sb := by
    rw [partitionFormat] at h
    split at h
    · split at h
      · cases h
      · next heq => exact ⟨not_not.mp heq, Except.ok.inj h⟩
    · cases h
  obtain ⟨hsec, rfl⟩ := hfill
  exact ⟨rfl, hsec.symm, Mem.leNum_lt disk 32 4⟩

namespace SuperBlock

section Layout

variable {sb : SuperBlock} {boot disk : Nat → Byte} {cluster fatno : Nat}

/-- A copy begins behind the one before it. -/
theorem copyPos_le (sb : SuperBlock) {i j : Nat} (h : j < i) :
    sb.copyPos j + sb.bpb.fatSz * secSize ≤ sb.copyPos i := by
  have hmul : (j + 1) * sb.bpb.fatSz ≤ i * sb.bpb.fatSz := Nat.mul_le_mul_right _ h
  rw [Nat.add_mul, Nat.one_mul] at hmul
  simp only [copyPos, secSize]
  omega

section Consistent

variable (format : partitionFormat boot = .ok sb) (consistent : sb.Consistent)

include format consistent

/-- The sector and the index of an entry are those of its place in the copy. -/
theorem fatEntryPos_eq (hfatno : fatno < sb.bpb.fatCnt) :
    sb.fatEntryPos cluster fatno = sb.copyPos fatno + cluster * 4 := by
  obtain ⟨-, hsec, htot⟩ := partitionFormat_ok format
  have hfits := consistent.fits
  have hentries := consistent.entries
  have hmul : (fatno + 1) * sb.bpb.fatSz ≤ sb.bpb.fatCnt * sb.bpb.fatSz :=
    Nat.mul_le_mul_right _ hfatno
  rw [Nat.add_mul, Nat.one_mul] at hmul
  have hsmall : (sb.bpb.rsvdSecCnt + fatno * sb.bpb.fatSz) % 2 ^ 32 =
      sb.bpb.rsvdSecCnt + fatno * sb.bpb.fatSz := by
    simp only [secSize] at hentries
    exact Nat.mod_eq_of_lt (by omega)
  rw [fatEntryPos, clusterFatSec, clusterFatSecIndex, hsmall, hsec, copyPos]
  simp only [secSize]
  omega

theorem dataClusCnt_lt : sb.dataClusCnt + 2 < 2 ^ 32 ∧
    sb.firstDataSec = sb.bpb.rsvdSecCnt + sb.bpb.fatCnt * sb.bpb.fatSz := by
  obtain ⟨hfill, -, htot⟩ := partitionFormat_ok format
  have hfits := consistent.fits
  have hentries := consistent.entries
  have hcopy : 1 * sb.bpb.fatSz ≤ sb.bpb.fatCnt * sb.bpb.fatSz :=
    Nat.mul_le_mul_right _ consistent.copies
  have hfirst : sb.firstDataSec = (sb.bpb.rsvdSecCnt + sb.bpb.fatCnt * sb.bpb.fatSz) % 2 ^ 32 := by
    rw [hfill]
    rfl
  have hcount : sb.dataSecCnt = (sb.bpb.totSec + 2 ^ 32 - sb.firstDataSec) % 2 ^ 32 := by
    rw [hfill]
    rfl
  have hclus : sb.dataClusCnt ≤ sb.dataSecCnt := by
    rw [hfill]
    exact Nat.div_le_self _ _
  simp only [secSize] at hentries
  omega

/-- The bytes of a copy after a write: only the four of the entry are new. -/
theorem fatWrite_copy (hcluster : cluster < sb.dataClusCnt + 2) (content : BitVec 32)
    (hfatno : fatno < sb.bpb.fatCnt) {k : Nat} (hk : k < sb.bpb.fatSz * secSize) :
    sb.fatWrite disk cluster content (sb.copyPos fatno + k) =
      if cluster * 4 ≤ k ∧ k < cluster * 4 + 4 then Mem.leBytes content.toNat (k - cluster * 4)
      else disk (sb.copyPos fatno + k) := by
  have hentries := consistent.entries
  have hpos : ∀ i < sb.bpb.fatCnt, sb.fatEntryPos cluster i = sb.copyPos i + cluster * 4 :=
    fun i hi => fatEntryPos_eq format consistent hi
  split
  · next hin =>
    have happart : ∀ i < sb.bpb.fatCnt, ∀ j < i,
        sb.fatEntryPos cluster j + 4 ≤ sb.fatEntryPos cluster i := by
      intro i hi j hj
      have := sb.copyPos_le hj
      rw [hpos i hi, hpos j (hj.trans hi)]
      omega
    have haddr : sb.copyPos fatno + k = sb.fatEntryPos cluster fatno + (k - cluster * 4) := by
      rw [hpos fatno hfatno]
      omega
    rw [haddr]
    exact Mem.blitEach_inside disk _ happart hfatno (by omega)
  · next hout =>
    refine Mem.blitEach_outside disk _ fun i hi => ?_
    rw [hpos i hi]
    rcases Nat.lt_trichotomy i fatno with hlt | rfl | hgt
    · have := sb.copyPos_le hlt
      omega
    · omega
    · have := sb.copyPos_le hgt
      omega

theorem fatWrite_outside (hcluster : cluster < sb.dataClusCnt + 2) (content : BitVec 32)
    {sec k : Nat} (hsec : ¬sb.InFatRegion sec) (hk : k < secSize) :
    sb.fatWrite disk cluster content (sec * secSize + k) = disk (sec * secSize + k) := by
  have hentries := consistent.entries
  refine Mem.blitEach_outside disk _ fun i hi => ?_
  rw [fatEntryPos_eq format consistent hi, copyPos]
  have hmul : (i + 1) * sb.bpb.fatSz ≤ sb.bpb.fatCnt * sb.bpb.fatSz := Nat.mul_le_mul_right _ hi
  rw [Nat.add_mul, Nat.one_mul] at hmul
  simp only [InFatRegion, secSize] at *
  omega

/-- The entry of a cluster in the first copy. -/
theorem fatRead_eq (disk : Nat → Byte) (c : Nat) :
    sb.fatRead disk c =
      if 2 ≤ c ∧ c ≤ sb.dataClusCnt + 1 then Mem.leNum disk (sb.copyPos 0 + c * 4) 4 else 0 := by
  have hcnt := (dataClusCnt_lt format consistent).1
  rw [fatRead, Nat.mod_eq_of_lt (Nat.lt_of_succ_lt hcnt),
    fatEntryPos_eq format consistent consistent.copies]
  split <;> split <;> first | rfl | omega

theorem leNum_fatWrite_self (hcluster : cluster < sb.dataClusCnt + 2) (content : BitVec 32)
    (hfatno : fatno < sb.bpb.fatCnt) :
    Mem.leNum (sb.fatWrite disk cluster content) (sb.copyPos fatno + cluster * 4) 4 =
      content.toNat := by
  have hentries := consistent.entries
  rw [Mem.leNum_leBytes (v := content.toNat)]
  · exact Nat.mod_eq_of_lt content.isLt
  · intro j hj
    rw [Nat.add_assoc, fatWrite_copy format consistent hcluster content hfatno (by omega),
      if_pos (by omega), Nat.add_sub_cancel_left]

theorem leNum_fatWrite_of_ne (hcluster : cluster < sb.dataClusCnt + 2)
    (content : BitVec 32) {c : Nat}
    (hc : (c + 1) * 4 ≤ sb.bpb.fatSz * secSize) (hne : c ≠ cluster)
    (hfatno : fatno < sb.bpb.fatCnt) :
    Mem.leNum (sb.fatWrite disk cluster content) (sb.copyPos fatno + c * 4) 4 =
      Mem.leNum disk (sb.copyPos fatno + c * 4) 4 := by
  refine Mem.leNum_congr fun j hj => ?_
  rw [Nat.add_assoc, fatWrite_copy format consistent hcluster content hfatno (by omega),
    if_neg (by omega)]

end Consistent

/-- A write is read back and changes no other entry. The copies that agreed on a byte of
the table still do, and the sectors outside the FAT stay. -/
theorem fatRead_fatWrite (format : partitionFormat boot = .ok sb) (consistent : sb.Consistent)
    (disk : Nat → Byte) (hcluster : 2 ≤ cluster ∧ cluster ≤ sb.dataClusCnt + 1) (x : BitVec 32) :
    sb.fatRead (sb.fatWrite disk cluster x) cluster = x.toNat ∧
      (∀ c, c ≠ cluster → sb.fatRead (sb.fatWrite disk cluster x) c = sb.fatRead disk c) ∧
      (∀ i < sb.bpb.fatCnt, ∀ j < sb.bpb.fatCnt, ∀ k < sb.bpb.fatSz * secSize,
        disk (sb.copyPos i + k) = disk (sb.copyPos j + k) →
          sb.fatWrite disk cluster x (sb.copyPos i + k) =
            sb.fatWrite disk cluster x (sb.copyPos j + k)) ∧
      ∀ sec, ¬sb.InFatRegion sec → ∀ k < secSize,
        sb.fatWrite disk cluster x (sec * secSize + k) = disk (sec * secSize + k) := by
  have hlt : cluster < sb.dataClusCnt + 2 := Nat.lt_succ_of_le hcluster.2
  have hentries := consistent.entries
  refine ⟨?_, fun c hne => ?_, fun i hi j hj k hk hagree => ?_, fun sec hsec k hk => ?_⟩
  · rw [fatRead_eq format consistent, if_pos hcluster]
    exact leNum_fatWrite_self format consistent hlt x consistent.copies
  · rw [fatRead_eq format consistent, fatRead_eq format consistent]
    split
    · exact leNum_fatWrite_of_ne format consistent hlt x (by omega) hne consistent.copies
    · rfl
  · rw [fatWrite_copy format consistent hlt x hi hk, fatWrite_copy format consistent hlt x hj hk,
      hagree]
  · exact fatWrite_outside format consistent hlt x hsec hk

/-- The volume that the disk holds: its table is the first copy of the FAT. -/
def volume (sb : SuperBlock) (disk : Nat → Byte) : Volume where
  clusSize := sb.bytesPerClus
  dataClusCnt := sb.dataClusCnt
  fat c := if (c + 1) * 4 ≤ sb.bpb.fatSz * secSize
    then Mem.leNum disk (sb.copyPos 0 + c * 4) 4 else 0
  data a := disk (sb.firstDataSec * secSize + a)

theorem volume_fatRead (format : partitionFormat boot = .ok sb) (consistent : sb.Consistent)
    (disk : Nat → Byte) (c : Nat) : (sb.volume disk).fatRead c = sb.fatRead disk c := by
  have hentries := consistent.entries
  rw [fatRead_eq format consistent, Volume.fatRead]
  by_cases hc : 2 ≤ c ∧ c ≤ sb.dataClusCnt + 1
  · have hcluster : (sb.volume disk).IsCluster c := ⟨hc.1, Nat.lt_succ_of_le hc.2⟩
    rw [if_pos hcluster, if_pos hc]
    exact if_pos (by omega)
  · have hcluster : ¬(sb.volume disk).IsCluster c := fun h => hc ⟨h.1, Nat.le_of_lt_succ h.2⟩
    rw [if_neg hcluster, if_neg hc]

/-- Writing all the copies is writing the one table of the volume. -/
theorem volume_fatWrite (format : partitionFormat boot = .ok sb) (consistent : sb.Consistent)
    (disk : Nat → Byte) (hcluster : cluster < sb.dataClusCnt + 2) (x : BitVec 32) :
    sb.volume (sb.fatWrite disk cluster x) = (sb.volume disk).fatWrite cluster x.toNat := by
  have hentries := consistent.entries
  have hfat : (sb.volume (sb.fatWrite disk cluster x)).fat =
      Function.update (sb.volume disk).fat cluster x.toNat := by
    funext c
    rcases eq_or_ne c cluster with rfl | hne
    · rw [Function.update_self]
      exact (if_pos (by omega)).trans
        (leNum_fatWrite_self format consistent hcluster x consistent.copies)
    · rw [Function.update_of_ne hne]
      simp only [volume]
      split
      · next hc => exact leNum_fatWrite_of_ne format consistent hcluster x hc hne consistent.copies
      · rfl
  have hdata : (sb.volume (sb.fatWrite disk cluster x)).data = (sb.volume disk).data := by
    funext a
    have hfirst := (dataClusCnt_lt format consistent).2
    have hsec : ¬sb.InFatRegion (sb.firstDataSec + a / secSize) :=
      fun h => absurd h.2 (Nat.not_lt.mpr (hfirst ▸ Nat.le_add_right _ _))
    have hsame :=
      @fatWrite_outside sb boot disk cluster format consistent hcluster x _ (a % secSize)
      hsec (Nat.mod_lt a (by decide))
    have haddr : (sb.firstDataSec + a / secSize) * secSize + a % secSize =
        sb.firstDataSec * secSize + a := by
      rw [Nat.add_mul, Nat.add_assoc, Nat.mul_comm (a / secSize), Nat.div_add_mod]
    rw [haddr] at hsame
    exact hsame
  rw [Volume.fatWrite, ← hfat, ← hdata]
  rfl

end Layout

end SuperBlock

/-- Sectors of 512 bytes, one reserved sector, two copies of one sector and 17 clusters. -/
def smallBoot : Nat → Byte := fun k =>
  [(12, 0x02), (13, 1), (14, 1), (16, 2), (32, 20), (36, 1), (44, 2),
    (82, 0x46), (83, 0x41), (84, 0x54), (85, 0x33), (86, 0x32)].lookup k |>.getD 0

theorem smallBoot_format :
    partitionFormat smallBoot = .ok (fillSuperBlock (bootBpb smallBoot)) := by
  rw [partitionFormat, if_pos (by decide), if_neg (by decide)]

theorem smallBoot_consistent : (fillSuperBlock (bootBpb smallBoot)).Consistent where
  copies := by decide
  fits := by decide
  entries := by decide

theorem fatRead_fatWrite_smallBoot :
    let sb := fillSuperBlock (bootBpb smallBoot)
    let disk := sb.fatWrite smallBoot 5 0x0fffffff
    sb.fatRead disk 5 = 0x0fffffff ∧ (∀ c, c ≠ 5 → sb.fatRead disk c = sb.fatRead smallBoot c) ∧
      ∀ sec, ¬sb.InFatRegion sec → ∀ k < secSize,
        disk (sec * secSize + k) = smallBoot (sec * secSize + k) := by
  obtain ⟨hself, hother, -, houtside⟩ := SuperBlock.fatRead_fatWrite smallBoot_format
    smallBoot_consistent smallBoot (show 2 ≤ 5 ∧ 5 ≤ _ by decide) 0x0fffffff
  exact ⟨hself, hother, houtside⟩

end KernelTravel.Fat32

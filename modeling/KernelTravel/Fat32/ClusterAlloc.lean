import KernelTravel.Fat32.Table

/-!
# Allocating a cluster on the disk

`clusterSec`, `clusterZero` and `clusterAlloc` of `fs/fat32/cluster.c` over the sectors. The search
for a free cluster goes from the one behind `prev` to the end of the table and does not come back,
so a volume with free clusters below `prev` only is taken for full.
-/

namespace KernelTravel.Fat32

namespace SuperBlock

/-- The first sector of a cluster. -/
def clusterSec (sb : SuperBlock) (cluster : Nat) : Nat :=
  sb.firstDataSec + (cluster - 2) * sb.bpb.secPerClus

/-- A round of the loop clears a sector. -/
def clusterZero (sb : SuperBlock) (disk : Nat → Byte) (cluster : Nat) : Nat → Byte :=
  Mem.blitEach disk (fun i => (sb.clusterSec cluster + i) * secSize)
    ((sb.bytesPerClus + sb.bpb.bytesPerSec - 1) / sb.bpb.bytesPerSec) sb.bpb.bytesPerSec fun _ => 0

/-- The clusters that the loop of `clusterAlloc` looks at. -/
def searchRange (sb : SuperBlock) (prev : Nat) : List Nat :=
  let first := if prev = 0 then 2 else prev + 1
  List.range' first ((sb.dataClusCnt + 2) % 2 ^ 32 - first)

/-- The stores for the cluster that is found. -/
def takeCluster (sb : SuperBlock) (disk : Nat → Byte) (prev cluster : Nat) : Nat → Byte :=
  let disk := if prev ≠ 0 then sb.fatWrite disk prev (BitVec.ofNat 32 cluster) else disk
  sb.clusterZero (sb.fatWrite disk cluster (BitVec.ofNat 32 fat32Eof)) cluster

def clusterAlloc (sb : SuperBlock) (disk : Nat → Byte) (prev : Nat) : Nat × (Nat → Byte) :=
  match (sb.searchRange prev).find? fun cluster => sb.fatRead disk cluster = 0 with
  | some cluster => (cluster, sb.takeCluster disk prev cluster)
  | none => (0, disk)

section Spec

def IsFree (sb : SuperBlock) (disk : Nat → Byte) (c : Nat) : Prop :=
  2 ≤ c ∧ c ≤ sb.dataClusCnt + 1 ∧ sb.fatRead disk c = 0

/-- The end of a chain, or 0 for a chain that is still empty. -/
def IsChainEnd (sb : SuperBlock) (disk : Nat → Byte) (prev : Nat) : Prop :=
  prev = 0 ∨ 2 ≤ prev ∧ prev ≤ sb.dataClusCnt + 1 ∧
    fat32NotEndCluster (sb.fatRead disk prev) = false

/-- A byte of the entry of a cluster in one of the copies of the FAT. -/
def OnEntry (sb : SuperBlock) (c a : Nat) : Prop :=
  ∃ fatno < sb.bpb.fatCnt, sb.copyPos fatno + c * 4 ≤ a ∧ a < sb.copyPos fatno + c * 4 + 4

/-- A byte of the sectors of a cluster. -/
def OnCluster (sb : SuperBlock) (c a : Nat) : Prop :=
  sb.clusterSec c * secSize ≤ a ∧ a < sb.clusterSec c * secSize + sb.bytesPerClus

/-- Cluster `c` was free, and `disk'` is the disk with it behind `prev`. -/
structure Allocated (sb : SuperBlock) (disk : Nat → Byte) (prev c : Nat) (disk' : Nat → Byte) :
    Prop where
  free : sb.IsFree disk c
  last : ∀ fatno < sb.bpb.fatCnt, Mem.leNum disk' (sb.copyPos fatno + c * 4) 4 = fat32Eof
  link : prev ≠ 0 → ∀ fatno < sb.bpb.fatCnt, Mem.leNum disk' (sb.copyPos fatno + prev * 4) 4 = c
  zero : ∀ a, sb.OnCluster c a → disk' a = 0
  frame : ∀ a, ¬sb.OnEntry c a → (prev ≠ 0 → ¬sb.OnEntry prev a) → ¬sb.OnCluster c a →
    disk' a = disk a

/-- What an allocation is to do: take a free cluster if there is one, and change nothing
otherwise. -/
structure AllocRight (sb : SuperBlock) (disk : Nat → Byte) (prev : Nat) (out : Nat × (Nat → Byte)) :
    Prop where
  taken : out.1 ≠ 0 → sb.Allocated disk prev out.1 out.2
  full : out.1 = 0 → out.2 = disk ∧ ∀ c, ¬sb.IsFree disk c

end Spec

section Bytes

variable {sb : SuperBlock} {boot disk : Nat → Byte} {cluster a : Nat}
variable (format : partitionFormat boot = .ok sb)

include format

theorem bytesPerClus_eq : sb.bytesPerClus = sb.bpb.secPerClus * secSize := by
  obtain ⟨hfill, hsec, -⟩ := partitionFormat_ok format
  rw [← hsec, hfill]
  rfl

/-- The sectors of a cluster are cleared, and nothing else. -/
theorem clusterZero_apply (disk : Nat → Byte) (cluster a : Nat) :
    (sb.OnCluster cluster a → sb.clusterZero disk cluster a = 0) ∧
      (¬sb.OnCluster cluster a → sb.clusterZero disk cluster a = disk a) := by
  have hsec := (partitionFormat_ok format).2.1
  have hbytes := bytesPerClus_eq format
  have hrounds : (sb.bytesPerClus + sb.bpb.bytesPerSec - 1) / sb.bpb.bytesPerSec =
      sb.bpb.secPerClus := by
    rw [hsec, hbytes, secSize]
    omega
  rw [OnCluster, clusterZero, hrounds, hsec, hbytes]
  simp only [secSize]
  refine ⟨fun hin => ?_, fun hout => Mem.blitEach_outside disk _ fun i hi => by omega⟩
  have haddr : a = (sb.clusterSec cluster + (a / 512 - sb.clusterSec cluster)) * 512 + a % 512 := by
    omega
  rw [haddr]
  exact @Mem.blitEach_inside disk (fun i => (sb.clusterSec cluster + i) * 512) _ 512 _ _
    (fun _ => 0) (fun i _ j hj => by omega) (by omega) (Nat.mod_lt a (by decide))

variable (consistent : sb.Consistent)

include consistent

theorem fatWrite_off_entry (x : BitVec 32) (ha : ¬sb.OnEntry cluster a) :
    sb.fatWrite disk cluster x a = disk a := by
  refine Mem.blitEach_outside disk _ fun i hi => ?_
  rw [fatEntryPos_eq format consistent hi]
  by_contra hin
  exact ha ⟨i, hi, by omega, by omega⟩

/-- The entries lie before the clusters. -/
theorem not_onCluster_of_entry {c fatno j : Nat} (hc : (c + 1) * 4 ≤ sb.bpb.fatSz * secSize)
    (hfatno : fatno < sb.bpb.fatCnt) (hj : j < 4) :
    ¬sb.OnCluster cluster (sb.copyPos fatno + c * 4 + j) := by
  have hfirst := (dataClusCnt_lt format consistent).2
  have hmul : (fatno + 1) * sb.bpb.fatSz ≤ sb.bpb.fatCnt * sb.bpb.fatSz :=
    Nat.mul_le_mul_right _ hfatno
  rw [Nat.add_mul, Nat.one_mul] at hmul
  simp only [OnCluster, clusterSec, copyPos, secSize] at *
  omega

theorem leNum_clusterZero {c fatno : Nat} (hc : (c + 1) * 4 ≤ sb.bpb.fatSz * secSize)
    (hfatno : fatno < sb.bpb.fatCnt) :
    Mem.leNum (sb.clusterZero disk cluster) (sb.copyPos fatno + c * 4) 4 =
      Mem.leNum disk (sb.copyPos fatno + c * 4) 4 :=
  Mem.leNum_congr fun _ hj => (clusterZero_apply format disk cluster _).2
    (not_onCluster_of_entry format consistent hc hfatno hj)

end Bytes

section Alloc

variable {sb : SuperBlock} {boot disk : Nat → Byte} {prev c : Nat}

section Consistent

variable (format : partitionFormat boot = .ok sb) (consistent : sb.Consistent)

include format consistent

theorem mem_searchRange (hprev : sb.IsChainEnd disk prev) :
    c ∈ sb.searchRange prev ↔ 2 ≤ c ∧ c ≤ sb.dataClusCnt + 1 ∧ prev < c := by
  rw [searchRange, Nat.mod_eq_of_lt (dataClusCnt_lt format consistent).1, List.mem_range'_1]
  obtain rfl | ⟨hlow, -, -⟩ := hprev
  · rw [if_pos rfl]
    omega
  · rw [if_neg (by omega)]
    omega

theorem takeCluster_allocated (hfree : sb.IsFree disk c) (hlt : prev < c) :
    sb.Allocated disk prev c (sb.takeCluster disk prev c) := by
  have hc : c < sb.dataClusCnt + 2 := Nat.lt_succ_of_le hfree.2.1
  have hp : prev < sb.dataClusCnt + 2 := hlt.trans hc
  have hword : c < 2 ^ 32 := hc.trans (dataClusCnt_lt format consistent).1
  have hentries := consistent.entries
  refine ⟨hfree, fun fatno hfatno => ?_, fun hne fatno hfatno => ?_, fun a ha => ?_,
    fun a hc hp ha => ?_⟩
  · rw [takeCluster, leNum_clusterZero format consistent (by omega) hfatno,
      leNum_fatWrite_self format consistent hc _ hfatno]
    rfl
  · rw [takeCluster, leNum_clusterZero format consistent (by omega) hfatno,
      leNum_fatWrite_of_ne format consistent hc _ (by omega) hlt.ne hfatno, if_pos hne,
      leNum_fatWrite_self format consistent hp _ hfatno, BitVec.toNat_ofNat, Nat.mod_eq_of_lt hword]
  · exact (clusterZero_apply format _ c a).1 ha
  · rw [takeCluster, (clusterZero_apply format _ c a).2 ha,
      fatWrite_off_entry format consistent _ hc]
    split
    · next hne => exact fatWrite_off_entry format consistent _ (hp hne)
    · rfl

/-- Clearing the sectors is clearing the cluster of the volume. -/
theorem volume_clusterZero (disk : Nat → Byte) (c : Nat) :
    sb.volume (sb.clusterZero disk c) = (sb.volume disk).clusterZero c := by
  have hfat : (sb.volume (sb.clusterZero disk c)).fat = (sb.volume disk).fat := by
    funext d
    simp only [volume]
    split
    · next hd => exact leNum_clusterZero format consistent hd consistent.copies
    · rfl
  have hstart : sb.clusterSec c * secSize =
      sb.firstDataSec * secSize + (c - 2) * sb.bytesPerClus := by
    rw [clusterSec, Nat.add_mul, bytesPerClus_eq format, Nat.mul_assoc]
  have hdata : (sb.volume (sb.clusterZero disk c)).data =
      ((sb.volume disk).clusterZero c).data := by
    funext a
    have happly := clusterZero_apply format disk c (sb.firstDataSec * secSize + a)
    rw [OnCluster, hstart] at happly
    change sb.clusterZero disk c (sb.firstDataSec * secSize + a) =
      Mem.blit (sb.volume disk).data ((c - 2) * sb.bytesPerClus) sb.bytesPerClus (fun _ => 0) a
    rw [Mem.blit_apply]
    split
    · exact happly.1 (by omega)
    · exact happly.2 (by omega)
  exact congrArg₂ (Volume.mk sb.bytesPerClus sb.dataClusCnt) hfat hdata

/-- The allocation of `Volume` is the one on the disk. -/
theorem volume_clusterAlloc (disk : Nat → Byte) (prev : Nat) : (sb.volume disk).clusterAlloc prev =
      ((sb.clusterAlloc disk prev).1, sb.volume (sb.clusterAlloc disk prev).2) := by
  have hcnt := (dataClusCnt_lt format consistent).1
  have hrange : (sb.volume disk).searchRange prev = sb.searchRange prev := by
    rw [searchRange, Nat.mod_eq_of_lt hcnt]
    rfl
  rw [Volume.clusterAlloc, clusterAlloc, hrange]
  simp only [volume_fatRead format consistent]
  cases hfind : (sb.searchRange prev).find? fun cluster => sb.fatRead disk cluster = 0 with
  | none => rfl
  | some c =>
    have hmem := List.mem_of_find?_eq_some hfind
    rw [searchRange, Nat.mod_eq_of_lt hcnt, List.mem_range'_1] at hmem
    have hc : c < sb.dataClusCnt + 2 := by omega
    refine Prod.ext rfl ?_
    change (sb.volume disk).takeCluster prev c = sb.volume (sb.takeCluster disk prev c)
    rw [takeCluster, volume_clusterZero format consistent, volume_fatWrite format consistent _ hc,
      Volume.takeCluster]
    by_cases hne : prev ≠ 0
    · rw [if_neg hne] at hmem
      rw [if_pos hne, if_pos hne, volume_fatWrite format consistent _ (by omega),
        BitVec.toNat_ofNat, Nat.mod_eq_of_lt (by omega)]
      rfl
    · rw [if_neg hne, if_neg hne]
      rfl

end Consistent

theorem volume_clusterAlloc_smallBoot :
    let sb := fillSuperBlock (bootBpb smallBoot)
    (sb.volume smallBoot).clusterAlloc 0 =
      ((sb.clusterAlloc smallBoot 0).1, sb.volume (sb.clusterAlloc smallBoot 0).2) :=
  volume_clusterAlloc smallBoot_format smallBoot_consistent smallBoot 0

/-- An allocation is right exactly if it has not overlooked all the free clusters. -/
theorem clusterAlloc_right_iff (format : partitionFormat boot = .ok sb) (consistent : sb.Consistent)
    (hprev : sb.IsChainEnd disk prev) : sb.AllocRight disk prev (sb.clusterAlloc disk prev) ↔
      ((∃ c, sb.IsFree disk c) → ∃ c, sb.IsFree disk c ∧ prev < c) := by
  rw [clusterAlloc]
  cases hfind : (sb.searchRange prev).find? fun cluster => sb.fatRead disk cluster = 0 with
  | some c =>
    obtain ⟨hlow, hhigh, hlt⟩ :=
      (mem_searchRange format consistent hprev).mp (List.mem_of_find?_eq_some hfind)
    have hfree : sb.IsFree disk c := ⟨hlow, hhigh, by simpa using List.find?_some hfind⟩
    refine iff_of_true ⟨fun _ => ?_, fun hzero => ?_⟩ fun _ => ⟨c, hfree, hlt⟩
    · exact takeCluster_allocated format consistent hfree hlt
    · exact absurd (show c = 0 from hzero) (by omega)
  | none =>
    have hnone : ∀ c, sb.IsFree disk c → ¬prev < c := fun c hfree hlt =>
      of_decide_eq_false (Bool.eq_false_iff.mpr (List.find?_eq_none.mp hfind c
        ((mem_searchRange format consistent hprev).mpr ⟨hfree.1, hfree.2.1, hlt⟩))) hfree.2.2
    refine ⟨fun h hsome => ?_,
      fun h => ⟨fun hne => absurd rfl hne, fun _ => ⟨rfl, fun c hfree => ?_⟩⟩⟩
    · obtain ⟨c, hfree⟩ := hsome
      exact absurd hfree ((h.full rfl).2 c)
    · obtain ⟨d, hd, hlt⟩ := h ⟨c, hfree⟩
      exact hnone d hd hlt

/-- The chain of cluster 2, with free clusters behind it. -/
theorem clusterAlloc_right_smallBoot :
    let sb := fillSuperBlock (bootBpb smallBoot)
    let disk := sb.fatWrite smallBoot 2 0x0fffffff
    sb.AllocRight disk 2 (sb.clusterAlloc disk 2) :=
  (clusterAlloc_right_iff smallBoot_format smallBoot_consistent
    (.inr ⟨by decide, by decide, by decide +kernel⟩)).mpr fun _ =>
      ⟨3, ⟨by decide, by decide, by decide +kernel⟩, by decide⟩

/-- The chain ends with the last cluster, and all the others are free. -/
theorem clusterAlloc_overlooks :
    let sb := fillSuperBlock (bootBpb smallBoot)
    let disk := sb.fatWrite smallBoot 18 0x0fffffff
    sb.IsChainEnd disk 18 ∧ sb.IsFree disk 2 ∧ (sb.clusterAlloc disk 18).1 = 0 ∧
      ¬sb.AllocRight disk 18 (sb.clusterAlloc disk 18) := by
  intro sb disk
  have hfree : sb.IsFree disk 2 := ⟨by decide, by decide, by decide +kernel⟩
  have hzero : (sb.clusterAlloc disk 18).1 = 0 := by decide +kernel
  exact ⟨.inr ⟨by decide, by decide, by decide +kernel⟩, hfree, hzero,
    fun h => (h.full hzero).2 2 hfree⟩

end Alloc

end SuperBlock

end KernelTravel.Fat32

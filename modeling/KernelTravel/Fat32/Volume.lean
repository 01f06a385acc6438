import KernelTravel.Lib.Bytes
import Mathlib.Data.List.Range

/-!
# Clusters of a FAT32 volume

`fs/fat32/cluster.c` over the sector cache, which is taken as a flat disk. All copies of
the FAT are written together and only the first is read, so `fat` is one table. The data
area is one byte memory: clusters with consecutive numbers are adjacent, and a transfer
starts at the first byte of its cluster. A transfer through a number that is not a
cluster of the volume answers `none`; it would leave the data area.

`fs/fat32/filepnt.c` keeps the cluster numbers of an open file in pages of 1024 entries.
-/

namespace KernelTravel.Fat32

open Function

def fat32Eof : Nat := 0xfffffff

def fat32NotEndCluster (cluster : Nat) : Bool := cluster < 0x0ffffff8

structure Volume where
  clusSize : Nat
  dataClusCnt : Nat
  fat : Nat → Nat
  data : Nat → Byte

namespace Volume

/-- The numbers that name a cluster. -/
def IsCluster (v : Volume) (cluster : Nat) : Prop := 2 ≤ cluster ∧ cluster < v.dataClusCnt + 2

instance (v : Volume) (cluster : Nat) : Decidable (v.IsCluster cluster) :=
  inferInstanceAs (Decidable (_ ∧ _))

/-- `clusterSec`, in bytes from the start of the data area. -/
def clusterPos (v : Volume) (cluster : Nat) : Nat := (cluster - 2) * v.clusSize

def clusterWrite (v : Volume) (cluster offset : Nat) (src : Nat → Byte) (n : Nat) : Option Volume :=
  if n = 0 ∨ v.IsCluster cluster then
    some { v with data := Mem.blit v.data (v.clusterPos cluster + offset) n src }
  else none

/-- `n` bytes are copied to `dst` in the memory of the caller. -/
def clusterRead (v : Volume) (cluster offset : Nat) (mem : Nat → Byte) (dst n : Nat) :
    Option (Nat → Byte) :=
  if n = 0 ∨ v.IsCluster cluster then
    some (Mem.blit mem dst n fun k => v.data (v.clusterPos cluster + offset + k))
  else none

def fatWrite (v : Volume) (cluster content : Nat) : Volume :=
  { v with fat := update v.fat cluster content }

def fatRead (v : Volume) (cluster : Nat) : Nat := if v.IsCluster cluster then v.fat cluster else 0

def clusterZero (v : Volume) (cluster : Nat) : Volume :=
  { v with data := Mem.blit v.data (v.clusterPos cluster) v.clusSize fun _ => 0 }

/-- The clusters that `clusterAlloc` looks at: those above `prev`. It does not come back
to the ones below. -/
def searchRange (v : Volume) (prev : Nat) : List Nat :=
  let first := if prev = 0 then 2 else prev + 1
  List.range' first (v.dataClusCnt + 2 - first)

/-- Link the free cluster behind `prev` and clear it. -/
def takeCluster (v : Volume) (prev cluster : Nat) : Volume :=
  let v := if prev ≠ 0 then v.fatWrite prev cluster else v
  (v.fatWrite cluster fat32Eof).clusterZero cluster

/-- The answer is 0 when no cluster is found. -/
def clusterAlloc (v : Volume) (prev : Nat) : Nat × Volume :=
  match (v.searchRange prev).find? fun cluster => v.fatRead cluster = 0 with
  | some cluster => (cluster, v.takeCluster prev cluster)
  | none => (0, v)

/-- The loop of `clus_sequence_free`. -/
def freeSequence : Nat → Volume → Nat → Option Volume
  | 0, _, _ => none
  | fuel + 1, v, clus =>
    let nxt := v.fatRead clus
    let v := v.fatWrite clus 0
    if fat32NotEndCluster nxt then freeSequence fuel v nxt else some v

/-- A chain that ends has at most as many clusters as the volume. -/
def clusSequenceFree (v : Volume) (clus : Nat) : Option Volume :=
  freeSequence (v.dataClusCnt + 1) v clus

end Volume

def pageNclusno : Nat := 1024

/-- Five pages are named in the entry itself and 512 in its third-level page. -/
def pointerPages : Nat := 5 + 512

def pointerLimit : Nat := pointerPages * pageNclusno

/-- The pages of `second` and then those of `third`; a page is zeroed when it is taken. -/
structure DirentPointer where
  page : Nat → Option (Nat → Nat)

namespace DirentPointer

/-- Beyond the last page the third-level page is overrun. -/
def setval (p : DirentPointer) (i value : Nat) : Option DirentPointer :=
  if i / pageNclusno < pointerPages then
    let twicep := (p.page (i / pageNclusno)).getD fun _ => 0
    some ⟨update p.page (i / pageNclusno)
      (some (update twicep (i % pageNclusno) value))⟩
  else none

def getclusbyno (p : DirentPointer) (fileClusNo : Nat) : Option Nat :=
  if fileClusNo / pageNclusno < pointerPages then
    (p.page (fileClusNo / pageNclusno)).map fun twicep => twicep (fileClusNo % pageNclusno)
  else none

theorem getclusbyno_setval_self {p q : DirentPointer} {i value : Nat}
    (h : p.setval i value = some q) : q.getclusbyno i = some value := by
  simp only [setval, Option.ite_none_right_eq_some, Option.some.injEq] at h
  obtain ⟨hi, rfl⟩ := h
  simp [getclusbyno, hi]

/-- The other entries of the page stay, and so do the other pages. -/
theorem getclusbyno_setval_of_ne {p q : DirentPointer} {i j value clus : Nat}
    (h : p.setval i value = some q) (hj : p.getclusbyno j = some clus) (hne : j ≠ i) :
    q.getclusbyno j = some clus := by
  simp only [setval, Option.ite_none_right_eq_some, Option.some.injEq] at h
  simp only [getclusbyno, Option.ite_none_right_eq_some, Option.map_eq_some_iff] at hj ⊢
  obtain ⟨-, rfl⟩ := h
  obtain ⟨hpage, twicep, htwicep, rfl⟩ := hj
  refine ⟨hpage, ?_⟩
  rcases eq_or_ne (j / pageNclusno) (i / pageNclusno) with hsame | hother
  · have hentry : j % pageNclusno ≠ i % pageNclusno := by
      intro heq
      exact hne
        (by rw [← Nat.div_add_mod j pageNclusno, ← Nat.div_add_mod i pageNclusno, hsame, heq])
    rw [hsame] at htwicep ⊢
    simp [htwicep, update_of_ne hentry]
  · exact ⟨twicep, (update_of_ne hother _ _).trans htwicep, rfl⟩

/-- An entry that appears besides the one that is set is that of a zeroed page. -/
theorem eq_zero_or_of_setval {p q : DirentPointer} {i j value clus : Nat}
    (h : p.setval i value = some q) (hj : q.getclusbyno j = some clus) (hne : j ≠ i) :
    clus = 0 ∨ p.getclusbyno j = some clus := by
  cases hp : p.getclusbyno j with
  | some old =>
    have hkept := getclusbyno_setval_of_ne h hp hne
    exact .inr (hkept.symm.trans hj)
  | none =>
    simp only [setval, Option.ite_none_right_eq_some, Option.some.injEq] at h
    simp only [getclusbyno, Option.ite_none_right_eq_some, Option.map_eq_some_iff] at hj
    obtain ⟨-, rfl⟩ := h
    obtain ⟨hpage, twicep, htwicep, rfl⟩ := hj
    simp only [getclusbyno, hpage, if_true, Option.map_eq_none_iff] at hp
    rcases eq_or_ne (j / pageNclusno) (i / pageNclusno) with hsame | hother
    · have hentry : j % pageNclusno ≠ i % pageNclusno := by
        intro heq
        exact hne (by
          rw [← Nat.div_add_mod j pageNclusno, ← Nat.div_add_mod i pageNclusno, hsame, heq])
      rw [hsame] at htwicep hp
      simp only [update_self, hp, Option.getD_none, Option.some.injEq] at htwicep
      rw [← htwicep, update_of_ne hentry]
      exact .inl rfl
    · have hold := (update_of_ne hother _ _).symm.trans htwicep
      rw [hp] at hold
      exact absurd hold (by simp)

theorem lt_pointerLimit {p : DirentPointer} {i clus : Nat} (h : p.getclusbyno i = some clus) :
    i < pointerLimit := by
  simp only [getclusbyno, Option.ite_none_right_eq_some] at h
  exact (Nat.div_lt_iff_lt_mul (by decide)).mp h.1

theorem setval_isSome {p : DirentPointer} {i : Nat} (h : i < pointerLimit) (value : Nat) :
    ∃ q, p.setval i value = some q := by
  exact ⟨_, if_pos ((Nat.div_lt_iff_lt_mul (by decide)).mpr h)⟩

end DirentPointer

end KernelTravel.Fat32

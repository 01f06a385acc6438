import KernelTravel.Fat32.Linked
import Mathlib.Data.List.GetD

/-!
# Extending a file

The bytes of a file are those of its clusters in the order of the chain. `Grows` says that
an operation only appends clusters to the chain: the bytes that were there stay, and the
new clusters are zero.

`growClusters_spec` is the outcome of `file_extend` while its arithmetic stays within 32
bits, the pointer pages suffice and enough clusters are free above the last cluster of
the file. Free clusters below it are not found.
-/

namespace KernelTravel.Fat32

/-- Where the data area holds byte `k` of a file with the clusters `xs`. -/
def Volume.filePos (v : Volume) (xs : List Nat) (k : Nat) : Nat :=
  v.clusterPos (xs.getD (k / v.clusSize) 0) + k % v.clusSize

def Volume.byteAt (v : Volume) (xs : List Nat) (k : Nat) : Byte := v.data (v.filePos xs k)

/-- Cluster sizes are powers of two, and the end marks are not cluster numbers. -/
structure Geometry (v : Volume) : Prop where
  power : v.clusSize ∣ 2 ^ 32
  count : v.dataClusCnt + 2 ≤ 0x0ffffff8

theorem Geometry.pos {v : Volume} (geometry : Geometry v) : 0 < v.clusSize :=
  Nat.pos_of_dvd_of_pos geometry.power (by decide)

theorem Geometry.evolves {v v' : Volume} {xs xs' : List Nat} (geometry : Geometry v)
    (step : Evolves v v' xs xs') : Geometry v' :=
  ⟨step.clusSize ▸ geometry.power, step.dataClusCnt ▸ geometry.count⟩

structure Grows (v v' : Volume) (xs xs' : List Nat) : Prop extends Evolves v v' xs xs' where
  appended : ∃ ys, xs' = xs ++ ys
  kept : ∀ k < xs.length * v.clusSize, v'.byteAt xs' k = v.byteAt xs k
  zeroed : ∀ k, xs.length * v.clusSize ≤ k → k < xs'.length * v.clusSize → v'.byteAt xs' k = 0

namespace Grows

variable {v v' v'' : Volume} {first : Nat} {pointer : DirentPointer}
  {xs xs' xs'' : List Nat} {c : Nat}

theorem refl (v : Volume) (xs : List Nat) : Grows v v xs xs where
  toEvolves := .refl v xs
  appended := ⟨[], (List.append_nil xs).symm⟩
  kept _ _ := rfl
  zeroed k hle hlt := absurd hlt (by omega)

theorem length_le (h : Grows v v' xs xs') : xs.length ≤ xs'.length := by
  obtain ⟨ys, rfl⟩ := h.appended
  simp

theorem trans (h : Grows v v' xs xs') (h' : Grows v' v'' xs' xs'') : Grows v v'' xs xs'' where
  toEvolves := h.toEvolves.trans h'.toEvolves
  appended := by
    obtain ⟨ys, rfl⟩ := h.appended
    obtain ⟨zs, rfl⟩ := h'.appended
    exact ⟨ys ++ zs, List.append_assoc ..⟩
  kept k hk := by
    have hlt : k < xs'.length * v'.clusSize := by
      rw [h.clusSize]
      exact hk.trans_le (Nat.mul_le_mul_right _ h.length_le)
    exact (h'.kept k hlt).trans (h.kept k hk)
  zeroed k hle hlt := by
    rw [← h.clusSize] at hlt
    rcases Nat.lt_or_ge k (xs'.length * v'.clusSize) with hmid | hhigh
    · rw [h'.kept k hmid]
      exact h.zeroed k hle (by rw [← h.clusSize]; exact hmid)
    · exact h'.zeroed k hhigh hlt

/-- Appending one free cluster. -/
theorem take (h : Linked v first pointer xs) (hsize : 0 < v.clusSize) (hcluster : v.IsCluster c)
    (hfree : v.fat c = 0) : Grows v (v.takeCluster (Linked.lastOf xs) c) xs (xs ++ [c]) where
  toEvolves := by
    refine .take hcluster hfree ?_
    rcases List.eq_nil_or_concat xs with rfl | ⟨as, x, rfl⟩
    · exact .inl rfl
    · exact .inr (by simp)
  appended := ⟨[c], rfl⟩
  kept k hk := by
    have hindex : k / v.clusSize < xs.length := Nat.div_lt_of_lt_mul (by rwa [Nat.mul_comm])
    obtain ⟨hcs, -, hdata⟩ := v.takeCluster_frame (Linked.lastOf xs) c
    have hmem : xs.getD (k / v.clusSize) 0 ∈ xs := by
      rw [List.getD_eq_getElem _ _ hindex]
      exact List.getElem_mem hindex
    have hpos : (v.takeCluster (Linked.lastOf xs) c).filePos (xs ++ [c]) k = v.filePos xs k := by
      rw [Volume.filePos, Volume.filePos, Volume.clusterPos, Volume.clusterPos, hcs,
        List.getD_append _ _ _ _ hindex]
    rw [Volume.byteAt, Volume.byteAt, hpos, hdata, Mem.blit_apply, if_neg]
    rintro ⟨hle, hlt⟩
    obtain ⟨o, ho⟩ := Nat.exists_eq_add_of_le hle
    obtain ⟨heq, -⟩ := Volume.clusterPos_inj (h.clusters _ hmem) hcluster (Nat.mod_lt k hsize)
      (by omega) ho
    exact h.fat_ne_zero hmem (heq ▸ hfree)
  zeroed k hle hlt := by
    obtain ⟨hcs, -, hdata⟩ := v.takeCluster_frame (Linked.lastOf xs) c
    have hindex : k / v.clusSize = xs.length := by
      rw [List.length_append, List.length_singleton] at hlt
      exact Nat.div_eq_of_lt_le (by rwa [Nat.mul_comm] at *) hlt
    have hmod := Nat.mod_lt k hsize
    rw [Volume.byteAt, Volume.filePos, hcs, hindex, hdata, Mem.blit_apply, if_pos]
    simp only [Volume.clusterPos, hcs]
    simp
    omega

end Grows

theorem Volume.clusters_le_iff {v : Volume} (hsize : 0 < v.clusSize) {size n : Nat} :
    v.clusters size ≤ n ↔ size ≤ n * v.clusSize := by
  rw [clusters, Nat.div_le_iff_le_mul hsize]
  omega

/-- What `file_extend` needs in order to reach `upto` bytes from the clusters `xs`. -/
structure RoomFor (v : Volume) (xs : List Nat) (upto : Nat) : Prop where
  arith : v.clusters upto * v.clusSize < 2 ^ 32
  pages : v.clusters upto ≤ pointerLimit
  free : v.clusters upto ≤ xs.length + v.freeAbove (Linked.lastOf xs)

section Loop

variable {v : Volume} {first newSize : Nat} {pointer : DirentPointer} {xs : List Nat}

/-- One allocation on the way to `newSize`. -/
theorem RoomFor.alloc (room : RoomFor v xs newSize) (h : Linked v first pointer xs)
    (geometry : Geometry v) (hneed : xs.length < v.clusters newSize) :
    ∃ c v' pointer', v.clusterAlloc (Linked.lastOf xs) = (c, v') ∧
      pointer.setval xs.length c = some pointer' ∧ c ≠ 0 ∧
      Linked v' (if first = 0 then c else first) pointer' (xs ++ [c]) ∧
      Grows v v' xs (xs ++ [c]) ∧ RoomFor v' (xs ++ [c]) newSize := by
  have hroom := room.free
  obtain ⟨c, halloc, -, hcluster, hfree, habove⟩ :=
    @Volume.clusterAlloc_spec v (Linked.lastOf xs) (by omega)
  obtain ⟨pointer', hset⟩ :=
    @DirentPointer.setval_isSome pointer xs.length (hneed.trans_le room.pages) c
  have grown := Grows.take h geometry.pos hcluster hfree
  have hclusters : (v.takeCluster (Linked.lastOf xs) c).clusters newSize = v.clusters newSize := by
    rw [Volume.clusters, Volume.clusters, grown.clusSize]
  refine ⟨c, _, pointer', halloc, hset, ?_, h.take geometry.count hcluster hfree hset,
    grown, ?_, ?_, ?_⟩
  · have := hcluster.1
    omega
  · rw [hclusters, grown.clusSize]
    exact room.arith
  · rw [hclusters]
    exact room.pages
  · rw [hclusters, Linked.lastOf_concat, List.length_append, List.length_singleton]
    omega

theorem extendLoop_spec (room : RoomFor v xs newSize) (h : Linked v first pointer xs)
    (hfirst : first ≠ 0) (geometry : Geometry v) (hpos : 0 < xs.length)
    (hle : xs.length ≤ v.clusters newSize) {fuel : Nat}
      (hfuel : v.clusters newSize - xs.length < fuel) :
    ∃ v' pointer' xs', Fs.extendLoop newSize fuel (xs.length - 1) (Linked.lastOf xs) v pointer =
        some (v', pointer') ∧
      Linked v' first pointer' xs' ∧ xs'.length = v.clusters newSize ∧ Grows v v' xs xs' := by
  -- induction on the fuel; each round appends one cluster
  induction fuel generalizing v pointer xs with
  | zero => exact absurd hfuel (Nat.not_lt_zero _)
  | succ fuel ih =>
    have hindex : xs.length - 1 + 1 = xs.length := Nat.sub_add_cancel hpos
    have hsmall : xs.length * v.clusSize < 2 ^ 32 :=
      (Nat.mul_le_mul_right _ hle).trans_lt room.arith
    rw [Fs.extendLoop, hindex, Nat.mod_eq_of_lt hsmall]
    rcases Nat.lt_or_ge xs.length (v.clusters newSize) with hneed | hdone
    · have htest : xs.length * v.clusSize < newSize := by
        rw [← Nat.not_le, ← Volume.clusters_le_iff geometry.pos]
        omega
      obtain ⟨c, v₁, pointer₁, halloc, hset, -, hlinked, grown, room₁⟩ :=
        room.alloc h geometry hneed
      rw [if_neg hfirst] at hlinked
      have hclusters : v₁.clusters newSize = v.clusters newSize := by
        rw [Volume.clusters, Volume.clusters, grown.clusSize]
      have hlength : (xs ++ [c]).length = xs.length + 1 := by simp
      obtain ⟨v', pointer', xs', hrun, hlinked', hlen, grown'⟩ := ih room₁ hlinked
        (geometry.evolves grown.toEvolves) (by omega) (by omega) (by omega)
      refine ⟨v', pointer', xs', ?_, hlinked', hlen.trans hclusters, grown.trans grown'⟩
      rw [Linked.lastOf_concat, hlength, Nat.add_sub_cancel] at hrun
      rw [if_pos htest, halloc]
      simpa only [hset, Option.bind_eq_bind, Option.bind_some] using hrun
    · have htest : ¬xs.length * v.clusSize < newSize := by
        rw [Nat.not_lt, ← Volume.clusters_le_iff geometry.pos]
        exact hdone
      exact ⟨v, pointer, xs, if_neg htest, h, by omega, .refl v xs⟩

end Loop

section Grow

variable {v : Volume} {d : Dirent} {newSize : Nat} {xs : List Nat}

theorem Geometry.round_up (geometry : Geometry v) {q : Nat} (h : q * v.clusSize < 2 ^ 32) :
    q * v.clusSize + v.clusSize ≤ 2 ^ 32 := by
  obtain ⟨k, hk⟩ := geometry.power
  rw [hk, Nat.mul_comm] at h ⊢
  have hlt : q < k := Nat.lt_of_mul_lt_mul_left h
  calc v.clusSize * q + v.clusSize = v.clusSize * (q + 1) := (Nat.mul_succ ..).symm
    _ ≤ v.clusSize * k := Nat.mul_le_mul_left _ hlt

/-- The number of clusters is computed as intended below 4 GiB. -/
theorem Geometry.old_clusters (geometry : Geometry v) {size : Nat}
    (h : v.clusters size * v.clusSize < 2 ^ 32) :
    (size + v.clusSize - 1) % 2 ^ 32 / v.clusSize = v.clusters size := by
  have hround := geometry.round_up h
  have hle := (Volume.clusters_le_iff geometry.pos).mp (Nat.le_refl (v.clusters size))
  rw [Nat.mod_eq_of_lt (by have := geometry.pos; omega), Volume.clusters]

theorem Linked.getLast_table {first : Nat} {pointer : DirentPointer}
    (h : Linked v first pointer xs) (hpos : 0 < xs.length) :
    pointer.getclusbyno (pred32 xs.length) = some (lastOf xs) := by
  have hlast := h.table (xs.length - 1) (by omega)
  rw [show pred32 xs.length = xs.length - 1 from if_neg (by omega), hlast, lastOf,
    List.getLast?_eq_getElem?, List.getElem?_eq_getElem (by omega), Option.getD_some]

theorem Linked.first_eq_zero_iff {first : Nat} {pointer : DirentPointer}
    (h : Linked v first pointer xs) : first = 0 ↔ xs = [] := by
  have hhead := h.chain.head?
  rw [← List.head?_eq_none_iff, ← hhead, headOf]
  split <;> simp_all

/-- The first part of `file_extend` leaves a file that has a cluster. -/
theorem takeFirst_spec (geometry : Geometry v) (h : Linked v d.firstClus d.pointer xs)
    (hlength : xs.length = v.clusters d.fileSize) (hmore : d.fileSize < newSize)
    (room : RoomFor v xs newSize) :
    ∃ v' first pointer xs' oldSize,
      Fs.takeFirst v d = some (v', { d with firstClus := first, pointer }, oldSize) ∧
      Linked v' first pointer xs' ∧ 0 < xs'.length ∧ xs'.length ≤ v.clusters newSize ∧
      (oldSize + v.clusSize - 1) % 2 ^ 32 / v.clusSize = xs'.length ∧
      Grows v v' xs xs' ∧ RoomFor v' xs' newSize := by
  have hmono : xs.length ≤ v.clusters newSize := by
    rw [hlength]
    exact Nat.div_le_div_right (by omega)
  rcases eq_or_ne d.firstClus 0 with hempty | hfirst
  · have hnil := h.first_eq_zero_iff.mp hempty
    subst hnil
    have hneed : ([] : List Nat).length < v.clusters newSize := by
      rw [← Nat.not_le, Volume.clusters_le_iff geometry.pos]
      simp only [List.length_nil, Nat.zero_mul]
      omega
    obtain ⟨c, v₁, pointer₁, halloc, hset, -, hlinked, grown, room₁⟩ := room.alloc h geometry hneed
    rw [if_pos hempty] at hlinked
    have hsmall : v.clusSize < 2 ^ 32 := by
      refine Nat.lt_of_le_of_lt ?_ room.arith
      exact Nat.le_mul_of_pos_left _ hneed
    refine ⟨v₁, c, pointer₁, [c], 1, ?_, hlinked, by simp, hneed, ?_, grown, room₁⟩
    · rw [Fs.takeFirst, if_neg (not_not.mpr hempty)]
      simp only [show v.clusterAlloc 0 = (c, v₁) from halloc,
        show d.pointer.setval 0 c = some pointer₁ from hset, Option.bind_eq_bind, Option.bind_some]
      rfl
    · rw [Nat.add_sub_cancel_left, Nat.mod_eq_of_lt hsmall, Nat.div_self geometry.pos]
      rfl
  · refine ⟨v, d.firstClus, d.pointer, xs, d.fileSize, if_pos hfirst, h, ?_, hmono, ?_,
      .refl v xs, room⟩
    · exact List.length_pos_of_ne_nil fun hnil => hfirst (h.first_eq_zero_iff.mpr hnil)
    · rw [hlength]
      refine geometry.old_clusters ?_
      rw [← hlength]
      exact (Nat.mul_le_mul_right _ hmono).trans_lt room.arith

/-- The clusters of a file after `file_extend`. -/
theorem growClusters_spec (geometry : Geometry v) (h : Linked v d.firstClus d.pointer xs)
    (hlength : xs.length = v.clusters d.fileSize) (hmore : d.fileSize < newSize)
    (room : RoomFor v xs newSize) :
    ∃ v' first pointer xs', Fs.growClusters v d newSize =
        some (v', { d with firstClus := first, pointer, fileSize := newSize }) ∧
      Linked v' first pointer xs' ∧ xs'.length = v.clusters newSize ∧ Grows v v' xs xs' := by
  obtain ⟨v₁, first, pointer₁, xs₁, oldSize, htake, hlinked, hpos, hle, hold, grown, room₁⟩ :=
    takeFirst_spec geometry h hlength hmore room
  have hclusters : v₁.clusters newSize = v.clusters newSize := by
    rw [Volume.clusters, Volume.clusters, grown.clusSize]
  have hfirst : first ≠ 0 := by
    rw [ne_eq, hlinked.first_eq_zero_iff]
    exact List.ne_nil_of_length_pos hpos
  have hpages := room₁.pages
  obtain ⟨v', pointer, xs', hloop, hlinked', hlen, grown'⟩ :=
    @extendLoop_spec v₁ first newSize pointer₁ xs₁ room₁ hlinked hfirst
      (geometry.evolves grown.toEvolves) hpos (by omega) (pointerLimit + 1) (by omega)
  refine ⟨v', first, pointer, xs', ?_, hlinked', hlen.trans hclusters, grown.trans grown'⟩
  rw [Fs.growClusters, htake]
  simp only [Option.bind_eq_bind, Option.bind_some, grown.clusSize, hold,
    hlinked.getLast_table hpos, hloop, Option.pure_def]

end Grow

end KernelTravel.Fat32

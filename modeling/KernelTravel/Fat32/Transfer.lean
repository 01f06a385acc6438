import KernelTravel.Fat32.Drop
import KernelTravel.Lib.Scatter

/-!
# Transfers to the clusters of a file

`Fatfile_write` looks every cluster up in the pointer pages, so inside the clusters of the
file it writes exactly the named positions. The loop compares a 32-bit product with the
last position, which is right below the cluster that ends at 4 GiB.

`Fatfile_read` looks only its first cluster up and then counts the cluster number up, so
it reads the file where the clusters of the range follow each other on the disk.
-/

namespace KernelTravel.Fat32

open Scatter

variable {v : Volume} {first : Nat} {pointer : DirentPointer} {xs : List Nat}

theorem Volume.filePos_add {i o : Nat} (hi : i < xs.length) (ho : o < v.clusSize) :
    v.filePos xs (i * v.clusSize + o) = v.clusterPos xs[i] + o := by
  have hdiv : (i * v.clusSize + o) / v.clusSize = i := by
    rw [Nat.add_comm, Nat.add_mul_div_right _ _ (by omega), Nat.div_eq_of_lt ho, Nat.zero_add]
  have hmod : (i * v.clusSize + o) % v.clusSize = o := by
    rw [Nat.mul_comm, Nat.mul_add_mod, Nat.mod_eq_of_lt ho]
  rw [filePos, hdiv, hmod, List.getD_eq_getElem _ _ hi]

/-- The positions of a file have bytes of their own. -/
theorem Linked.filePos_inj (h : Linked v first pointer xs) (hsize : 0 < v.clusSize) {j k : Nat}
    (hj : j < xs.length * v.clusSize) (hk : k < xs.length * v.clusSize)
    (heq : v.filePos xs j = v.filePos xs k) : j = k := by
  have hj' : j / v.clusSize < xs.length := Nat.div_lt_of_lt_mul (by rwa [Nat.mul_comm])
  have hk' : k / v.clusSize < xs.length := Nat.div_lt_of_lt_mul (by rwa [Nat.mul_comm])
  rw [Volume.filePos, Volume.filePos, List.getD_eq_getElem _ _ hj',
    List.getD_eq_getElem _ _ hk'] at heq
  obtain ⟨hcluster, hoffset⟩ := Volume.clusterPos_inj (h.clusters _ (List.getElem_mem hj'))
    (h.clusters _ (List.getElem_mem hk')) (Nat.mod_lt j hsize) (Nat.mod_lt k hsize) heq
  have hindex := (h.nodup.getElem_inj_iff).mp hcluster
  rw [← Nat.div_add_mod j v.clusSize, ← Nat.div_add_mod k v.clusSize, hindex, hoffset]

/-- The pointer pages hold every cluster of the file. -/
theorem Linked.length_le_pointerLimit (h : Linked v first pointer xs) :
    xs.length ≤ pointerLimit := by
  rcases Nat.eq_zero_or_pos xs.length with hzero | hpos
  · omega
  · have := DirentPointer.lt_pointerLimit (h.table (xs.length - 1) (by omega))
    omega

/-- The cluster of the first position of a range, and the position in it. -/
theorem Geometry.first_cluster (geometry : Geometry v) {off n : Nat} (hn : 0 < n)
    (hinside : off + n ≤ xs.length * v.clusSize) :
    (off / v.clusSize * v.clusSize + off % v.clusSize = off ∧ off % v.clusSize < v.clusSize ∧
      (off / v.clusSize + 1) * v.clusSize = off / v.clusSize * v.clusSize + v.clusSize) ∧
    off + n ≤ v.clusters (off + n) * v.clusSize ∧ off / v.clusSize < xs.length ∧
      off / v.clusSize < v.clusters (off + n) := by
  have hpos := geometry.pos
  have hcover := (Volume.clusters_le_iff hpos).mp (Nat.le_refl (v.clusters (off + n)))
  refine ⟨⟨Nat.div_add_mod' .., Nat.mod_lt off hpos, Nat.succ_mul ..⟩, hcover, ?_, ?_⟩
  · exact (Nat.div_lt_iff_lt_mul hpos).mpr (by omega)
  · exact (Nat.div_lt_iff_lt_mul hpos).mpr (by omega)

section Write

variable {src : Nat → Byte} {off n : Nat}

/-- A write inside one cluster. -/
theorem Linked.clusterWrite_spec (h : Linked v first pointer xs) (data : Nat → Byte) {i o m : Nat}
    (hi : i < xs.length) (hfit : o + m ≤ v.clusSize) :
    ∃ data', { v with data }.clusterWrite xs[i] o src m = some { v with data := data' } ∧
      Wrote (v.filePos xs) (i * v.clusSize + o) m src data data' := by
  refine ⟨_, if_pos (.inr (h.clusters _ (List.getElem_mem hi))), Wrote.blit fun j hj => ?_⟩
  rw [Nat.add_assoc, Volume.filePos_add hi (by omega), Nat.add_assoc]
  rfl

/-- The loop from cluster `i` on, with `len` bytes written. -/
theorem writeLoop_spec (h : Linked v first pointer xs) (geometry : Geometry v) (hn : 0 < n)
    (hinside : off + n ≤ xs.length * v.clusSize)
    (harith : v.clusters (off + n) * v.clusSize < 2 ^ 32)
    {fuel i len : Nat} (data : Nat → Byte) (hi : i ≤ v.clusters (off + n))
    (hlen : off + len = min (i * v.clusSize) (off + n))
    (hfuel : v.clusters (off + n) - i < fuel) :
    ∃ data', Fs.writeLoop pointer src n (off + n - 1) fuel i len { v with data } =
        some { v with data := data' } ∧
      Wrote (v.filePos xs) (off + len) (n - len) (fun k => src (len + k)) data data' := by
  induction fuel generalizing i len data with
  | zero => exact absurd hfuel (Nat.not_lt_zero _)
  | succ fuel ih =>
    have hsmall : i * v.clusSize < 2 ^ 32 := (Nat.mul_le_mul_right _ hi).trans_lt harith
    have hpos := geometry.pos
    rw [Fs.writeLoop]
    change ∃ data', (if i * v.clusSize % 2 ^ 32 ≤ off + n - 1 then _ else _) = _ ∧ _
    rw [Nat.mod_eq_of_lt hsmall]
    rcases Nat.lt_or_ge (i * v.clusSize) (off + n) with hmore | hdone
    · have hstart : off + len = i * v.clusSize := by omega
      have hi' : i < v.clusters (off + n) := by
        rw [← Nat.not_le, Volume.clusters_le_iff hpos]
        omega
      have hindex : i < xs.length := Nat.lt_of_mul_lt_mul_right (hmore.trans_le hinside)
      have hsucc : (i + 1) * v.clusSize = i * v.clusSize + v.clusSize := Nat.succ_mul ..
      obtain ⟨data₁, hwrite, hwrote⟩ := @Linked.clusterWrite_spec v first pointer xs
        (fun k => src (len + k)) h data i 0 (min v.clusSize (n - len)) hindex (by omega)
      obtain ⟨data', hrun, hrest⟩ := @ih (i + 1) (len + min v.clusSize (n - len)) data₁ hi'
        (by omega) (by omega)
      refine ⟨data', ?_, ?_⟩
      · rw [if_pos (by omega), h.table i hindex]
        simp only [Option.bind_eq_bind, Option.bind_some, hwrite, hrun]
      · rw [Nat.add_zero, ← hstart] at hwrote
        rw [show n - len =
          min v.clusSize (n - len) + (n - (len + min v.clusSize (n - len))) by omega]
        refine hwrote.append ?_ fun j hj k hk heq => ?_
        · simpa only [Nat.add_assoc] using hrest
        · have := h.filePos_inj hpos (by omega) (by omega) heq
          omega
    · refine ⟨data, if_neg (by omega), ?_⟩
      rw [show n - len = 0 by omega]
      exact .nil

/-- A write inside the clusters of the file. -/
theorem writeClusters_spec (h : Linked v first pointer xs) (geometry : Geometry v) (hn : 0 < n)
    (hinside : off + n ≤ xs.length * v.clusSize)
    (harith : v.clusters (off + n) * v.clusSize < 2 ^ 32) :
    ∃ data, Fs.writeClusters v pointer src off n = some { v with data } ∧
      Wrote (v.filePos xs) off n src v.data data := by
  have hpos := geometry.pos
  obtain ⟨⟨hsplit, hmod, hsucc⟩, hcover, hindex, hbelow⟩ := geometry.first_cluster hn hinside
  obtain ⟨data₁, hwrite, hwrote⟩ := @Linked.clusterWrite_spec v first pointer xs src h v.data
    (off / v.clusSize) (off % v.clusSize) (min n (v.clusSize - off % v.clusSize)) hindex (by omega)
  have hpages : v.clusters (off + n) ≤ pointerLimit := by
    have hle : v.clusters (off + n) ≤ xs.length := (Volume.clusters_le_iff hpos).mpr hinside
    exact hle.trans h.length_le_pointerLimit
  obtain ⟨data, hrun, hrest⟩ := @writeLoop_spec v first pointer xs src off n h geometry hn hinside
    harith (pointerLimit + 1) (off / v.clusSize + 1) (min n (v.clusSize - off % v.clusSize)) data₁
    hbelow (by omega) (Nat.lt_succ_of_le ((Nat.sub_le _ _).trans hpages))
  refine ⟨data, ?_, ?_⟩
  · rw [Fs.writeClusters, h.table _ hindex]
    simp only [Option.bind_eq_bind, Option.bind_some]
    rw [show v.clusterWrite _ _ _ _ = _ from hwrite, Option.bind_some,
      Nat.mod_eq_of_lt (show off + n - 1 < 2 ^ 32 by omega)]
    exact hrun
  · rw [hsplit] at hwrote
    rw [show n = min n (v.clusSize - off % v.clusSize) +
      (n - min n (v.clusSize - off % v.clusSize)) by omega]
    refine hwrote.append hrest fun j hj k hk heq => ?_
    have := h.filePos_inj hpos (by omega) (by omega) heq
    omega

end Write

section Read

variable {mem : Nat → Byte} {dst off n : Nat}

/-- The clusters from index `i` up to the position `upto` have consecutive numbers. -/
def Consecutive (v : Volume) (xs : List Nat) (i upto : Nat) : Prop :=
  ∀ j, i ≤ j → j < v.clusters upto → xs.getD j 0 = xs.getD i 0 + (j - i)

/-- A read inside one cluster that continues what has been read. -/
theorem Linked.clusterRead_spec (h : Linked v first pointer xs) {i o len m : Nat}
    (hi : i < xs.length) (hfit : o + m ≤ v.clusSize) (hpos : off + len = i * v.clusSize + o) :
    v.clusterRead xs[i] o (Mem.blit mem dst len fun k => v.byteAt xs (off + k)) (dst + len) m =
      some (Mem.blit mem dst (len + m) fun k => v.byteAt xs (off + k)) := by
  have hcluster : m = 0 ∨ v.IsCluster xs[i] := .inr (h.clusters _ (List.getElem_mem hi))
  rw [Volume.clusterRead, if_pos hcluster, Option.some.injEq]
  refine Mem.blit_append mem fun j hj => ?_
  rw [Volume.byteAt, ← Nat.add_assoc off, hpos, Nat.add_assoc (i * v.clusSize),
    Volume.filePos_add hi (by omega), Nat.add_assoc]

/-- The loop from cluster `i` on, with `len` bytes read. -/
theorem readLoop_spec (h : Linked v first pointer xs) (geometry : Geometry v) {start : Nat}
    (hinside : off + n ≤ xs.length * v.clusSize)
    (harith : v.clusters (off + n) * v.clusSize < 2 ^ 32)
      (consecutive : Consecutive v xs start (off + n))
    (hn : 0 < n) {fuel i len : Nat} (hstart : start < i) (hi : i ≤ v.clusters (off + n))
    (hlen : off + len = min (i * v.clusSize) (off + n)) (hfuel : v.clusters (off + n) - i < fuel) :
    Fs.readLoop v dst n (off + n - 1) fuel i (xs.getD start 0 + (i - 1 - start)) len
        (Mem.blit mem dst len fun k => v.byteAt xs (off + k)) =
      some (Mem.blit mem dst n fun k => v.byteAt xs (off + k)) := by
  induction fuel generalizing i len with
  | zero => exact absurd hfuel (Nat.not_lt_zero _)
  | succ fuel ih =>
    have hsmall : i * v.clusSize < 2 ^ 32 := (Nat.mul_le_mul_right _ hi).trans_lt harith
    have hpos := geometry.pos
    rw [Fs.readLoop, Nat.mod_eq_of_lt hsmall]
    rcases Nat.lt_or_ge (i * v.clusSize) (off + n) with hmore | hdone
    · have hi' : i < v.clusters (off + n) := by
        rw [← Nat.not_le, Volume.clusters_le_iff hpos]
        omega
      have hindex : i < xs.length := Nat.lt_of_mul_lt_mul_right (hmore.trans_le hinside)
      have hsucc : (i + 1) * v.clusSize = i * v.clusSize + v.clusSize := Nat.succ_mul ..
      have hnext : xs.getD start 0 + (i - 1 - start) + 1 = xs[i] := by
        rw [← List.getD_eq_getElem xs 0 hindex, consecutive i hstart.le hi']
        omega
      have hread := @Linked.clusterRead_spec v first pointer xs mem dst off h i 0 len
        (min v.clusSize (n - len)) hindex (by omega) (by omega)
      have hrun := @ih (i + 1) (len + min v.clusSize (n - len)) (by omega) hi' (by omega) (by omega)
      rw [if_pos (by omega), hnext, hread, Option.bind_eq_bind, Option.bind_some]
      rw [show xs.getD start 0 + (i + 1 - 1 - start) = xs[i] by omega] at hrun
      exact hrun
    · rw [if_neg (by omega), show len = n by omega]

/-- A read inside the file whose clusters are consecutive. -/
theorem readClusters_spec (h : Linked v first pointer xs) (geometry : Geometry v) (hn : 0 < n)
    (hinside : off + n ≤ xs.length * v.clusSize)
    (harith : v.clusters (off + n) * v.clusSize < 2 ^ 32)
    (consecutive : Consecutive v xs (off / v.clusSize) (off + n)) :
    Fs.readClusters v pointer mem dst off n =
      some (Mem.blit mem dst n fun k => v.byteAt xs (off + k)) := by
  have hpos := geometry.pos
  obtain ⟨⟨hsplit, hmod, hsucc⟩, hcover, hindex, hbelow⟩ := geometry.first_cluster hn hinside
  have hread := @Linked.clusterRead_spec v first pointer xs mem dst off h (off / v.clusSize)
    (off % v.clusSize) 0 (min n (v.clusSize - off % v.clusSize)) hindex (by omega) (by omega)
  rw [Mem.blit_zero, Nat.add_zero, Nat.zero_add] at hread
  have hfuel : v.clusters (off + n) ≤ v.dataClusCnt :=
    ((Volume.clusters_le_iff hpos).mpr hinside).trans h.length_le_dataClusCnt
  have hrun := @readLoop_spec v first pointer xs mem dst off n h geometry (off / v.clusSize) hinside
    harith consecutive hn (v.dataClusCnt + 2) (off / v.clusSize + 1)
    (min n (v.clusSize - off % v.clusSize)) (Nat.lt_succ_self _) hbelow (by omega)
    (Nat.lt_of_le_of_lt (Nat.sub_le _ _) (by omega))
  rw [Nat.add_sub_cancel, Nat.sub_self, Nat.add_zero, List.getD_eq_getElem _ _ hindex] at hrun
  rw [Fs.readClusters, h.table _ hindex]
  simp only [Option.bind_eq_bind, Option.bind_some, hread,
    Nat.mod_eq_of_lt (show off + n - 1 < 2 ^ 32 by omega)]
  exact hrun

end Read

end KernelTravel.Fat32

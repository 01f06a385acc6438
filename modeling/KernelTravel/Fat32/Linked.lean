import KernelTravel.Fat32.File
import KernelTravel.Lib.Chain

/-!
# The cluster chain of a file

`Linked v first pointer xs` couples the three places that know the clusters of a file:
its first cluster, the FAT and the pointer pages all describe the list `xs`.

`Evolves v v' xs xs'` is what an operation may do to the volume while the clusters of its
file change from `xs` to `xs'`: clusters in use elsewhere keep their entry and their
bytes, and new clusters were free.
-/

namespace KernelTravel.Fat32

open Function

/-- The clusters that hold `size` bytes. -/
def Volume.clusters (v : Volume) (size : Nat) : Nat := (size + v.clusSize - 1) / v.clusSize

/-- The link that the FAT holds for a cluster. -/
def Volume.next (v : Volume) (cluster : Nat) : Option Nat :=
  if fat32NotEndCluster (v.fat cluster) then some (v.fat cluster) else none

theorem Volume.next_congr {v v' : Volume} {cluster : Nat} (h : v'.fat cluster = v.fat cluster) :
    v'.next cluster = v.next cluster := by
  rw [next, next, h]

/-- A first cluster of 0 stands for an empty file. -/
def headOf (first : Nat) : Option Nat := if first = 0 then none else some first

structure Linked (v : Volume) (first : Nat) (pointer : DirentPointer) (xs : List Nat) : Prop where
  chain : Chain.Follows v.next (headOf first) xs
  nodup : xs.Nodup
  clusters : ∀ c ∈ xs, v.IsCluster c
  table : ∀ i (h : i < xs.length), pointer.getclusbyno i = some xs[i]
  beyond : ∀ i c, xs.length ≤ i → pointer.getclusbyno i = some c → c = 0

structure Evolves (v v' : Volume) (xs xs' : List Nat) : Prop where
  clusSize : v'.clusSize = v.clusSize
  dataClusCnt : v'.dataClusCnt = v.dataClusCnt
  fat : ∀ c, v.fat c ≠ 0 → c ∉ xs → v'.fat c = v.fat c
  taken : ∀ c ∈ xs', c ∈ xs ∨ v.fat c = 0
  data : ∀ c, v.IsCluster c → v.fat c ≠ 0 → c ∉ xs → ∀ o < v.clusSize,
    v'.data (v.clusterPos c + o) = v.data (v.clusterPos c + o)

namespace Evolves

variable {v v' v'' : Volume} {xs xs' xs'' : List Nat}

theorem isCluster (h : Evolves v v' xs xs') {c : Nat} : v'.IsCluster c ↔ v.IsCluster c := by
  rw [Volume.IsCluster, Volume.IsCluster, h.dataClusCnt]

theorem clusterPos (h : Evolves v v' xs xs') (c : Nat) : v'.clusterPos c = v.clusterPos c := by
  rw [Volume.clusterPos, Volume.clusterPos, h.clusSize]

theorem refl (v : Volume) (xs : List Nat) : Evolves v v xs xs :=
  ⟨rfl, rfl, fun _ _ _ => rfl, fun _ hc => .inl hc, fun _ _ _ _ _ _ => rfl⟩

theorem trans (h : Evolves v v' xs xs') (h' : Evolves v' v'' xs' xs'') : Evolves v v'' xs xs'' := by
  have used : ∀ c, v.fat c ≠ 0 → c ∉ xs → v'.fat c ≠ 0 ∧ c ∉ xs' := by
    intro c hc hmem
    refine ⟨by rw [h.fat c hc hmem]; exact hc, fun hmem' => ?_⟩
    exact (h.taken c hmem').elim hmem hc
  refine ⟨h'.clusSize.trans h.clusSize, h'.dataClusCnt.trans h.dataClusCnt, ?_, ?_, ?_⟩
  · intro c hc hmem
    obtain ⟨hc', hmem'⟩ := used c hc hmem
    exact (h'.fat c hc' hmem').trans (h.fat c hc hmem)
  · intro c hc
    rcases Classical.em (c ∈ xs ∨ v.fat c = 0) with hfree | hused
    · exact hfree
    · obtain ⟨hmem, hfat⟩ := not_or.mp hused
      obtain ⟨hc', hmem'⟩ := used c hfat hmem
      exact absurd (h'.taken c hc) (not_or.mpr ⟨hmem', hc'⟩)
  · intro c hcl hc hmem o ho
    obtain ⟨hc', hmem'⟩ := used c hc hmem
    have hlater := h'.data c (h.isCluster.mpr hcl) hc' hmem' o (by rw [h.clusSize]; exact ho)
    rw [h.clusterPos] at hlater
    exact hlater.trans (h.data c hcl hc hmem o ho)

end Evolves

/-- Different clusters occupy different bytes. -/
theorem Volume.clusterPos_inj {v : Volume} {c d o p : Nat} (hc : v.IsCluster c)
    (hd : v.IsCluster d) (ho : o < v.clusSize) (hp : p < v.clusSize)
    (h : v.clusterPos c + o = v.clusterPos d + p) : c = d ∧ o = p := by
  have hquot : ∀ x y : Nat, y < v.clusSize → (x * v.clusSize + y) / v.clusSize = x := by
    intro x y hy
    rw [Nat.add_comm, Nat.add_mul_div_right _ _ (by omega), Nat.div_eq_of_lt hy, Nat.zero_add]
  have heq : c - 2 = d - 2 := by
    rw [← hquot (c - 2) o ho, ← hquot (d - 2) p hp]
    exact congrArg (· / v.clusSize) h
  have hlow := hc.1
  have hlow' := hd.1
  obtain rfl : c = d := by omega
  exact ⟨rfl, Nat.add_left_cancel h⟩

section Alloc

variable {v : Volume} {prev c : Nat}

/-- The free clusters that `clusterAlloc` can find. -/
def Volume.freeAbove (v : Volume) (prev : Nat) : Nat :=
  (v.searchRange prev).countP fun cluster => v.fatRead cluster = 0

theorem Volume.mem_searchRange : c ∈ v.searchRange prev ↔ prev < c ∧ v.IsCluster c := by
  simp only [searchRange, List.mem_range'_1, IsCluster]
  split <;> omega

theorem Volume.takeCluster_fat (v : Volume) (prev c : Nat) :
    (v.takeCluster prev c).fat = update
      (if prev ≠ 0 then update v.fat prev c else v.fat) c fat32Eof := by
  rw [takeCluster]
  split <;> rfl

theorem Volume.takeCluster_frame (v : Volume) (prev c : Nat) :
    (v.takeCluster prev c).clusSize = v.clusSize ∧
      (v.takeCluster prev c).dataClusCnt = v.dataClusCnt ∧
      (v.takeCluster prev c).data = Mem.blit v.data (v.clusterPos c) v.clusSize fun _ => 0 := by
  rw [takeCluster]
  split <;> exact ⟨rfl, rfl, rfl⟩

/-- The clusters behind a cluster of the search are those that the next search looks at. -/
theorem Volume.searchRange_split {as bs : List Nat} (h : v.searchRange prev = as ++ c :: bs) :
    bs = v.searchRange c := by
  have hc : c ∈ v.searchRange prev := by simp [h]
  obtain ⟨hprev, hcluster⟩ := mem_searchRange.mp hc
  obtain ⟨k, hk, -, hrest⟩ := List.range'_eq_append_iff.mp h
  obtain ⟨hstart, hpos, rfl⟩ := List.range'_eq_cons_iff.mp hrest.symm
  have hlow := hcluster.1
  have hfirst : (if c = 0 then 2 else c + 1) = c + 1 := if_neg (by omega)
  simp only [searchRange, hfirst]
  congr 1
  omega

/-- Above the first free cluster there is one free cluster less. -/
theorem Volume.clusterAlloc_spec (h : 0 < v.freeAbove prev) :
    ∃ c, v.clusterAlloc prev = (c, v.takeCluster prev c) ∧ prev < c ∧ v.IsCluster c ∧ v.fat c = 0 ∧
      (v.takeCluster prev c).freeAbove c + 1 = v.freeAbove prev := by
  cases hfind : (v.searchRange prev).find? fun cluster => v.fatRead cluster = 0 with
  | none =>
    rw [freeAbove, List.countP_eq_zero.mpr (List.find?_eq_none.mp hfind)] at h
    exact absurd h (Nat.lt_irrefl 0)
  | some c =>
    obtain ⟨hfree, as, bs, hsplit, hused⟩ := List.find?_eq_some_iff_append.mp hfind
    have hc : c ∈ v.searchRange prev := by simp [hsplit]
    obtain ⟨hprev, hcluster⟩ := mem_searchRange.mp hc
    have hzero : v.fat c = 0 := by simpa [fatRead, hcluster] using hfree
    refine ⟨c, by simp [clusterAlloc, hfind], hprev, hcluster, hzero, ?_⟩
    have hbelow : as.countP (fun cluster => v.fatRead cluster = 0) = 0 :=
      List.countP_eq_zero.mpr fun a ha => by simpa using hused a ha
    have habove : (v.takeCluster prev c).freeAbove c =
        bs.countP fun cluster => v.fatRead cluster = 0 := by
      obtain ⟨-, hcnt, -⟩ := v.takeCluster_frame prev c
      have hrange : (v.takeCluster prev c).searchRange c = bs := by
        rw [searchRange_split hsplit, searchRange, searchRange, hcnt]
      rw [freeAbove, hrange]
      refine List.countP_congr fun a ha => ?_
      rw [searchRange_split hsplit, mem_searchRange] at ha
      have hfat : (v.takeCluster prev c).fat a = v.fat a := by
        rw [takeCluster_fat, update_of_ne (by omega)]
        split
        · exact update_of_ne (by omega) _ _
        · rfl
      have hcluster' : (v.takeCluster prev c).IsCluster a := by
        rw [IsCluster, hcnt]
        exact ha.2
      rw [fatRead, fatRead, hfat, if_pos ha.2, if_pos hcluster']
    rw [habove, freeAbove, hsplit, List.countP_append, hbelow, Nat.zero_add,
      List.countP_cons_of_pos (p := fun cluster => decide (v.fatRead cluster = 0)) hfree]

theorem Evolves.take {xs : List Nat} (hcluster : v.IsCluster c) (hfree : v.fat c = 0)
    (hprev : prev = 0 ∨ prev ∈ xs) : Evolves v (v.takeCluster prev c) xs (xs ++ [c]) where
  clusSize := (v.takeCluster_frame prev c).1
  dataClusCnt := (v.takeCluster_frame prev c).2.1
  fat d hd hmem := by
    have hdc : d ≠ c := fun heq => hd (heq ▸ hfree)
    rw [Volume.takeCluster_fat, update_of_ne hdc]
    split
    · next hne =>
      refine update_of_ne ?_ _ _
      rintro rfl
      exact hprev.elim hne hmem
    · rfl
  taken d hd := by
    rcases List.mem_append.mp hd with hmem | hlast
    · exact .inl hmem
    · exact .inr (List.mem_singleton.mp hlast ▸ hfree)
  data d hd hused hmem o ho := by
    rw [(v.takeCluster_frame prev c).2.2, Mem.blit_apply, if_neg]
    rintro ⟨hle, hlt⟩
    obtain ⟨p, hp⟩ := Nat.exists_eq_add_of_le hle
    obtain ⟨rfl, -⟩ := Volume.clusterPos_inj hd hcluster ho (by omega) hp
    exact hused hfree

end Alloc

namespace Linked

variable {v v' : Volume} {first : Nat} {pointer pointer' : DirentPointer}
  {xs xs' ys : List Nat} {c : Nat}

/-- A cluster of a chain is not free. -/
theorem fat_ne_zero (h : Linked v first pointer xs) (hc : c ∈ xs) : v.fat c ≠ 0 := by
  obtain ⟨as, bs, rfl⟩ := List.append_of_mem hc
  intro hzero
  have hnext : v.next c = some 0 := by simp [Volume.next, hzero, fat32NotEndCluster]
  have hrest := h.chain.suffix.2.head?
  rw [hnext] at hrest
  have hmem : 0 ∈ bs := List.mem_of_head? hrest.symm
  have hrange := h.clusters 0 (by simp [hmem])
  exact absurd hrange.1 (by decide)

/-- The clusters of another file keep their links. -/
theorem frame (h : Linked v first pointer ys) (step : Evolves v v' xs xs')
    (apart : xs.Disjoint ys) : Linked v' first pointer ys where
  chain := by
    refine h.chain.congr fun c hc => ?_
    exact Volume.next_congr (step.fat c (h.fat_ne_zero hc) fun hmem => apart hmem hc)
  nodup := h.nodup
  clusters c hc := step.isCluster.mpr (h.clusters c hc)
  table := h.table
  beyond := h.beyond

/-- No operation on one file can make it share a cluster with another. -/
theorem apart_of_evolves (h : Linked v first pointer ys) (step : Evolves v v' xs xs')
    (apart : xs.Disjoint ys) : xs'.Disjoint ys := by
  intro c hc hmem
  exact (step.taken c hc).elim (fun hx => apart hx hmem) (h.fat_ne_zero hmem)

/-- The last cluster of a chain, as `clusterAlloc` is given it. -/
def lastOf (xs : List Nat) : Nat := xs.getLast?.getD 0

@[simp] theorem lastOf_concat (xs : List Nat) (x : Nat) : lastOf (xs ++ [x]) = x := by
  simp [lastOf]

/-- The chain is linked on from its last cluster, or from the entry of the file. -/
theorem chain_take (h : Linked v first pointer xs) (hcount : v.dataClusCnt + 2 ≤ 0x0ffffff8)
    (hcluster : v.IsCluster c) (fresh : c ∉ xs) :
    Chain.Follows (v.takeCluster (lastOf xs) c).next (headOf (if first = 0 then c else first))
      (xs ++ [c]) := by
  have hlow := hcluster.1
  have hhigh := hcluster.2
  have hend : (v.takeCluster (lastOf xs) c).next c = none := by
    rw [Volume.next, Volume.takeCluster_fat, update_self]
    rfl
  rcases List.eq_nil_or_concat xs with rfl | ⟨as, x, rfl⟩
  · have hfirst : first = 0 := by simpa [headOf, Chain.Follows] using h.chain
    rw [if_pos hfirst]
    exact ⟨if_neg (by omega), hend⟩
  · rw [List.concat_eq_append] at h fresh hend ⊢
    have hlowx := (h.clusters x (by simp)).1
    have hfirst : first ≠ 0 := by
      intro hzero
      have hhead := h.chain.head?
      rw [hzero, headOf, if_pos rfl] at hhead
      simp at hhead
    have hxc : x ≠ c := by
      rintro rfl
      exact fresh (by simp)
    have hfat : (v.takeCluster (lastOf (as ++ [x])) c).fat =
        update (update v.fat x c) c fat32Eof := by
      rw [Volume.takeCluster_fat, lastOf_concat, if_pos (by omega)]
    have hlink : (v.takeCluster (lastOf (as ++ [x])) c).next x = some c := by
      rw [Volume.next, hfat, update_of_ne hxc, update_self, if_pos]
      exact decide_eq_true (by omega)
    rw [if_neg hfirst, List.append_assoc]
    refine h.chain.insert_after hlink (hend.trans h.chain.next_last.symm) h.nodup fresh ?_
    intro z hzx hzc
    refine Volume.next_congr ?_
    rw [hfat, update_of_ne hzc, update_of_ne hzx]

/-- Allocating one more cluster. -/
theorem take (h : Linked v first pointer xs) (hcount : v.dataClusCnt + 2 ≤ 0x0ffffff8)
    (hcluster : v.IsCluster c) (hfree : v.fat c = 0)
    (hset : pointer.setval xs.length c = some pointer') :
    Linked (v.takeCluster (lastOf xs) c) (if first = 0 then c else first) pointer' (xs ++ [c]) := by
  have fresh : c ∉ xs := fun hmem => h.fat_ne_zero hmem hfree
  refine ⟨h.chain_take hcount hcluster fresh, ?_, ?_, ?_, ?_⟩
  · exact List.nodup_append.mpr ⟨h.nodup, by simp, by
      rintro a ha b hb rfl
      exact fresh (List.mem_singleton.mp hb ▸ ha)⟩
  · intro d hd
    rw [Volume.IsCluster, (v.takeCluster_frame _ c).2.1]
    rcases List.mem_append.mp hd with hd | hd
    · exact h.clusters d hd
    · exact List.mem_singleton.mp hd ▸ hcluster
  · intro i hi
    rcases Nat.lt_or_ge i xs.length with hlt | hge
    · rw [List.getElem_append_left hlt]
      exact DirentPointer.getclusbyno_setval_of_ne hset (h.table i hlt) (by omega)
    · obtain rfl : i = xs.length := by
        rw [List.length_append, List.length_singleton] at hi
        omega
      rw [List.getElem_concat_length rfl]
      exact DirentPointer.getclusbyno_setval_self hset
  · intro i d hi hget
    rw [List.length_append, List.length_singleton] at hi
    rcases DirentPointer.eq_zero_or_of_setval hset hget (by omega) with hzero | hold
    · exact hzero
    · exact h.beyond i d (by omega) hold

end Linked

end KernelTravel.Fat32

import KernelTravel.Fat32.Grow

/-!
# Cutting a chain short

`file_shrink` marks the last cluster that stays as the end, walks the rest of the chain to
free it and clears the entries of the pointer pages.
-/

namespace KernelTravel.Fat32

variable {v : Volume} {first : Nat} {pointer : DirentPointer} {xs : List Nat}

/-- Clearing entries keeps the others. -/
theorem clear_spec (is : List Nat) (pointer : DirentPointer) (hin : ∀ i ∈ is, i < pointerLimit) :
    ∃ pointer', is.foldlM (fun pointer i => pointer.setval i 0) pointer = some pointer' ∧
      (∀ i c, i ∉ is → pointer.getclusbyno i = some c → pointer'.getclusbyno i = some c) ∧
      (∀ i c, pointer'.getclusbyno i = some c → c = 0 ∨ i ∉ is ∧
        pointer.getclusbyno i = some c) := by
  induction is generalizing pointer with
  | nil => exact ⟨pointer, rfl, fun _ _ _ h => h, fun _ _ h => .inr ⟨by simp, h⟩⟩
  | cons i is ih =>
    obtain ⟨pointer₁, hset⟩ := @DirentPointer.setval_isSome pointer i (hin i (by simp)) 0
    obtain ⟨pointer', hrun, hkeep, hback⟩ := ih pointer₁ fun j hj => hin j (by simp [hj])
    refine ⟨pointer', ?_, ?_, ?_⟩
    · rw [List.foldlM_cons, hset]
      exact hrun
    · intro j c hj hget
      exact hkeep j c (List.not_mem_of_not_mem_cons hj)
        (DirentPointer.getclusbyno_setval_of_ne hset hget (List.ne_of_not_mem_cons hj))
    · intro j c hget
      rcases hback j c hget with hzero | ⟨hrest, hold⟩
      · exact .inl hzero
      · rcases eq_or_ne j i with rfl | hne
        · rw [DirentPointer.getclusbyno_setval_self hset] at hold
          exact .inl (Option.some.inj hold).symm
        · rcases DirentPointer.eq_zero_or_of_setval hset hold hne with hzero | hold
          · exact .inl hzero
          · exact .inr ⟨List.not_mem_cons_of_ne_of_not_mem hne hrest, hold⟩

/-- The volume with the clusters `ys` free. -/
def Volume.freed (v : Volume) (ys : List Nat) : Volume :=
  { v with fat := fun d => if d ∈ ys then 0 else v.fat d }

theorem Volume.freed_fatWrite (v : Volume) (c : Nat) (ys : List Nat) :
    (v.fatWrite c 0).freed ys = v.freed (c :: ys) := by
  have hfat : ∀ d, (if d ∈ ys then 0 else Function.update v.fat c 0 d) =
      if d ∈ c :: ys then 0 else v.fat d := by
    intro d
    rcases eq_or_ne d c with rfl | hne
    · simp
    · simp [hne]
  simp only [freed, fatWrite, hfat]

theorem Volume.freed_nil (v : Volume) : v.freed [] = v := by
  simp [freed]

/-- `clus_sequence_free` frees the clusters of a chain and no others. -/
theorem freeSequence_spec {c : Nat} {ys : List Nat}
    (chain : Chain.Follows v.next (some c) (c :: ys))
    (nodup : (c :: ys).Nodup) (clusters : ∀ d ∈ c :: ys, v.IsCluster d) {fuel : Nat}
    (hfuel : ys.length < fuel) : Volume.freeSequence fuel v c = some (v.freed (c :: ys)) := by
  induction fuel generalizing v c ys with
  | zero => exact absurd hfuel (Nat.not_lt_zero _)
  | succ fuel ih =>
    have hread : v.fatRead c = v.fat c := if_pos (clusters c List.mem_cons_self)
    have hnext := chain.2
    rw [Volume.freeSequence, hread, ← Volume.freed_fatWrite]
    cases hmore : fat32NotEndCluster (v.fat c) with
    | false =>
      rw [Volume.next, hmore] at hnext
      obtain rfl : ys = [] := List.head?_eq_none_iff.mp hnext.head?.symm
      rw [Volume.freed_nil]
      rfl
    | true =>
      rw [Volume.next, hmore, if_pos rfl] at hnext
      obtain ⟨ys, rfl⟩ : ∃ zs, ys = v.fat c :: zs := List.head?_eq_some_iff.mp hnext.head?.symm
      obtain ⟨hfresh, nodup⟩ := List.nodup_cons.mp nodup
      refine ih ?_ nodup (fun d hd => clusters d (List.mem_cons_of_mem _ hd)) (by
        rw [List.length_cons] at hfuel
        omega)
      refine hnext.congr fun d hd => ?_
      have hne : d ≠ c := fun heq => hfresh (heq ▸ hd)
      exact Volume.next_congr (Function.update_of_ne hne _ _)

section Drop

variable {as bs : List Nat} {x y : Nat}

/-- Ending the chain at `x`. -/
theorem Linked.chain_drop (h : Linked v first pointer (as ++ x :: bs)) :
    Chain.Follows ((v.fatWrite x fat32Eof).freed bs).next (headOf first) (as ++ [x]) := by
  obtain ⟨hxs, hapart⟩ := List.nodup_append.mp h.nodup |>.2
  have hxbs : x ∉ bs := (List.nodup_cons.mp hxs).1
  refine h.chain.truncate ?_ fun z hz => Volume.next_congr ?_
  · have hfat : ((v.fatWrite x fat32Eof).freed bs).fat x = fat32Eof := by
      simp [Volume.freed, Volume.fatWrite, hxbs]
    rw [Volume.next, hfat]
    rfl
  · have hzx : z ≠ x := hapart z hz x List.mem_cons_self
    have hzbs : z ∉ bs := fun hmem => hapart z hz z (List.mem_cons_of_mem _ hmem) rfl
    simp [Volume.freed, Volume.fatWrite, hzbs, hzx]

/-- A chain has at most as many clusters as the volume. -/
theorem Linked.length_le_dataClusCnt (h : Linked v first pointer xs) :
    xs.length ≤ v.dataClusCnt := by
  have hsub : xs ⊆ List.range' 2 v.dataClusCnt := by
    intro c hc
    obtain ⟨hlow, hhigh⟩ := h.clusters c hc
    exact List.mem_range'_1.mpr ⟨hlow, by omega⟩
  simpa using (List.subperm_of_subset h.nodup hsub).length_le

/-- The pointer pages after the entries from `k` on are cleared. -/
theorem Linked.table_drop (h : Linked v first pointer xs) (k : Nat) :
    ∃ pointer', (List.range' k (xs.length - k)).foldlM
      (fun pointer i => pointer.setval i 0) pointer =
        some pointer' ∧
      (∀ i (hi : i < (xs.take k).length), pointer'.getclusbyno i = some (xs.take k)[i]) ∧
      (∀ i c, (xs.take k).length ≤ i → pointer'.getclusbyno i = some c → c = 0) := by
  obtain ⟨pointer', hrun, hkeep, hback⟩ := clear_spec (List.range' k (xs.length - k)) pointer (by
    intro i hi
    have := List.mem_range'_1.mp hi
    have := h.table i (by omega)
    exact DirentPointer.lt_pointerLimit this)
  refine ⟨pointer', hrun, ?_, ?_⟩
  · intro i hi
    rw [List.length_take] at hi
    rw [List.getElem_take]
    refine hkeep i _ ?_ (h.table i (by omega))
    rw [List.mem_range'_1]
    omega
  · intro i c hi hget
    rcases hback i c hget with hzero | ⟨hout, hold⟩
    · exact hzero
    · rw [List.mem_range'_1] at hout
      rw [List.length_take] at hi
      exact h.beyond i c (by omega) hold

/-- The volume before the rest of the chain is freed: the cluster before it is marked. -/
def Volume.marked (v : Volume) (xs : List Nat) (k : Nat) : Volume :=
  if k = 0 then v else v.fatWrite (Linked.lastOf (xs.take k)) fat32Eof

theorem Volume.marked_frame (v : Volume) (xs : List Nat) (k : Nat) :
    (v.marked xs k).clusSize = v.clusSize ∧ (v.marked xs k).dataClusCnt = v.dataClusCnt ∧
      (v.marked xs k).data = v.data := by
  rw [marked]
  split <;> exact ⟨rfl, rfl, rfl⟩

/-- Only the last cluster that stays is marked. -/
theorem Volume.marked_fat (v : Volume) {k c : Nat} (hk : k < xs.length) (hc : c ∉ xs.take k) :
    (v.marked xs k).fat c = v.fat c := by
  rw [marked]
  split
  · rfl
  · next hzero =>
    refine Function.update_of_ne ?_ _ _
    rintro rfl
    have hne : xs.take k ≠ [] := List.ne_nil_of_length_pos (by rw [List.length_take]; omega)
    rw [Linked.lastOf, List.getLast?_eq_some_getLast hne] at hc
    exact hc (List.getLast_mem hne)

/-- The rest of the chain is freed. -/
theorem Linked.freeRest (h : Linked v first pointer xs) {k : Nat} (hk : k < xs.length) :
    (v.marked xs k).clusSequenceFree xs[k] = some ((v.marked xs k).freed (xs.drop k)) := by
  have hdrop : xs.drop k = xs[k] :: xs.drop (k + 1) := List.drop_eq_getElem_cons hk
  have hsub : ∀ d ∈ xs.drop k, d ∈ xs := fun d hd => List.mem_of_mem_drop hd
  have hapart : ∀ d ∈ xs.drop k, d ∉ xs.take k := by
    intro d hd hmem
    have hnodup := h.nodup
    rw [← List.take_append_drop k xs] at hnodup
    exact (List.nodup_append.mp hnodup).2.2 d hmem d hd rfl
  have hchain : Chain.Follows (v.marked xs k).next (xs.drop k).head? (xs.drop k) := by
    have hrest := h.chain
    rw [← List.take_append_drop k xs] at hrest
    exact hrest.suffix.congr fun d hd => Volume.next_congr (v.marked_fat hk (hapart d hd))
  rw [hdrop, List.head?_cons, ← hdrop] at hchain
  rw [hdrop] at hchain hsub ⊢
  refine freeSequence_spec hchain ?_ ?_ ?_
  · rw [← hdrop]
    exact (List.drop_sublist k xs).nodup h.nodup
  · intro d hd
    rw [Volume.IsCluster, (v.marked_frame xs k).2.1]
    exact h.clusters d (hsub d hd)
  · have hle := h.length_le_dataClusCnt
    rw [List.length_drop, (v.marked_frame xs k).2.1]
    omega

/-- The step that marks the end, through the pointer pages. -/
theorem Linked.mark (h : Linked v first pointer xs) {k : Nat} (hk : k < xs.length) :
    Fs.markEnd v pointer k = some (v.marked xs k) := by
  rcases eq_or_ne k 0 with rfl | hzero
  · rfl
  · rw [Fs.markEnd, if_pos hzero, h.table (k - 1) (by omega), Volume.marked, if_neg hzero,
      Linked.lastOf, List.getLast?_take, if_neg hzero, List.getElem?_eq_getElem (by omega)]
    rfl

theorem Linked.chain_take_drop (h : Linked v first pointer xs) {k : Nat} (hk : k < xs.length) :
    Chain.Follows ((v.marked xs k).freed (xs.drop k)).next (headOf (if k = 0 then 0 else first))
      (xs.take k) := by
  cases k with
  | zero => rfl
  | succ j =>
    have htake : xs.take (j + 1) = xs.take j ++ [xs[j]] := List.take_succ_eq_append_getElem _
    have hsplit : xs = xs.take j ++ xs[j] :: xs.drop (j + 1) := by
      rw [← List.drop_eq_getElem_cons, List.take_append_drop]
    have hlinked := h
    rw [hsplit] at hlinked
    rw [Volume.marked, if_neg (Nat.succ_ne_zero j), if_neg (Nat.succ_ne_zero j), htake,
      lastOf_concat]
    exact hlinked.chain_drop

/-- The clusters of a file after the second part of `file_shrink`. -/
theorem dropClusters_spec (h : Linked v first pointer xs) {k : Nat} (hk : k ≤ xs.length) :
    ∃ v' pointer', Fs.dropClusters v pointer k xs.length = some (v', pointer') ∧
      v'.data = v.data ∧ Evolves v v' xs (xs.take k) ∧
      Linked v' (if k = 0 then 0 else first) pointer' (xs.take k) := by
  rcases Nat.lt_or_eq_of_le hk with hlt | rfl
  · obtain ⟨hsize, hcount, hdata⟩ := v.marked_frame xs k
    obtain ⟨pointer', hclear, htable, hbeyond⟩ := h.table_drop k
    have hout : ∀ c, c ∉ xs → ((v.marked xs k).freed (xs.drop k)).fat c = v.fat c := by
      intro c hc
      exact (if_neg fun hmem => hc (List.mem_of_mem_drop hmem)).trans
        (v.marked_fat hlt fun hmem => hc (List.mem_of_mem_take hmem))
    refine ⟨(v.marked xs k).freed (xs.drop k), pointer', ?_, hdata, ?_, ?_⟩
    · rw [Fs.dropClusters, if_pos hlt, h.table k hlt]
      simp only [Option.bind_eq_bind, Option.bind_some, h.mark hlt, h.freeRest hlt, hclear]
      rfl
    · exact ⟨hsize, hcount, fun c _ hc => hout c hc, fun c hc => .inl (List.mem_of_mem_take hc),
        fun _ _ _ _ _ _ => congrFun hdata _⟩
    · refine ⟨?_, (List.take_sublist k xs).nodup h.nodup, ?_, htable, hbeyond⟩
      · exact h.chain_take_drop hlt
      · intro c hc
        rw [Volume.IsCluster, show ((v.marked xs k).freed (xs.drop k)).dataClusCnt = _ from hcount]
        exact h.clusters c (List.mem_of_mem_take hc)
  · refine ⟨v, pointer, if_neg (Nat.lt_irrefl _), rfl, ?_, ?_⟩
    · rw [List.take_length]
      exact .refl v xs
    · rw [List.take_length]
      split
      · next hzero =>
        have hfirst := h.first_eq_zero_iff.mpr (List.length_eq_zero_iff.mp hzero)
        rw [hfirst] at h
        exact h
      · exact h

end Drop

end KernelTravel.Fat32

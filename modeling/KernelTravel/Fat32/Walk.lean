import KernelTravel.Fat32.Transfer

/-!
# Loops along the FAT

`countClusters`, `filepnt_init` and `clus_sequence_free` follow the links of the FAT until
they read an end mark. None of them looks at where a link leads: `fatRead` answers 0 for a
number that is not a cluster, 0 is not an end mark, and from there the loops read 0 for
ever. A loop ends exactly when the links lead through clusters of the volume to an end mark.
-/

namespace KernelTravel.Fat32

namespace Volume

/-- The loop of `countClusters`. -/
def countLoop (v : Volume) : Nat → Nat → Nat → Option Nat
  | 0, _, _ => none
  | rounds + 1, clus, i =>
    if fat32NotEndCluster clus then countLoop v rounds (v.fatRead clus) (i + 1) else some i

/-- The number of rounds bounds the loop; `none` means that it has not come to its end. -/
def countClusters (v : Volume) (rounds firstClus : Nat) : Option Nat :=
  if firstClus = 0 then some 0 else v.countLoop rounds firstClus 0

/-- The loop of `filepnt_init`. -/
def filepntLoop (v : Volume) : Nat → Nat → Nat → DirentPointer → Option DirentPointer
  | 0, _, _, _ => none
  | rounds + 1, i, clus, pointer =>
    if fat32NotEndCluster clus then do
      let pointer ← pointer.setval i clus
      filepntLoop v rounds (i + 1) (v.fatRead clus) pointer
    else some pointer

/-- The flag `valid` of the pointer pages is set when the file has clusters. -/
def filepntInit (v : Volume) (rounds firstClus : Nat) (valid : Bool) (pointer : DirentPointer) :
    Option (Bool × DirentPointer) :=
  if valid then some (true, pointer)
  else if firstClus = 0 then some (false, pointer)
  else (v.filepntLoop rounds 0 firstClus pointer).map fun pointer => (true, pointer)

end Volume

/-- An end mark in place of the first cluster stands for no cluster. -/
def startOf (first : Nat) : Option Nat := if fat32NotEndCluster first then some first else none

/-- The links from `first` on lead through the clusters `xs` to an end mark. -/
structure Chained (v : Volume) (first : Nat) (xs : List Nat) : Prop where
  follows : Chain.Follows v.next (startOf first) xs
  clusters : ∀ c ∈ xs, v.IsCluster c

section Chained

variable {v : Volume} {first : Nat} {xs ys : List Nat}

theorem Chained.nodup (h : Chained v first xs) : xs.Nodup := h.follows.nodup

theorem Chained.unique (h : Chained v first xs) (h' : Chained v first ys) : xs = ys :=
  h.follows.unique h'.follows

theorem chained_nil (hend : fat32NotEndCluster first = false) : Chained v first [] :=
  ⟨by rw [startOf, hend]; rfl, fun c hc => absurd hc (List.not_mem_nil)⟩

/-- 0 is neither a cluster nor an end mark. -/
theorem not_chained_zero : ¬Chained v 0 xs := by
  intro h
  obtain ⟨ys, rfl⟩ : ∃ ys, xs = 0 :: ys := List.head?_eq_some_iff.mp h.follows.head?.symm
  exact absurd (h.clusters 0 List.mem_cons_self).1 (by decide)

theorem Chained.cons (hmore : fat32NotEndCluster first = true)
    (h : Chained v (v.fatRead first) xs) : Chained v first (first :: xs) := by
  have hcluster : v.IsCluster first := by
    by_contra hout
    rw [Volume.fatRead, if_neg hout] at h
    exact not_chained_zero h
  have hread : v.fatRead first = v.fat first := if_pos hcluster
  have hfollows := h.follows
  rw [hread] at hfollows
  exact ⟨⟨by rw [startOf, hmore]; rfl, hfollows⟩, List.forall_mem_cons.mpr ⟨hcluster, h.clusters⟩⟩

/-- A chain with a cluster starts with it and goes on with what the FAT holds for it. -/
theorem Chained.uncons {c : Nat} (h : Chained v first (c :: xs)) :
    c = first ∧ fat32NotEndCluster first = true ∧ Chained v (v.fatRead first) xs := by
  obtain ⟨hstart, hrest⟩ := h.follows
  have hmore : fat32NotEndCluster first = true := by
    by_contra hend
    rw [startOf, if_neg hend] at hstart
    cases hstart
  rw [startOf, if_pos hmore, Option.some.injEq] at hstart
  subst hstart
  have hread : v.fatRead first = v.fat first := if_pos (h.clusters first List.mem_cons_self)
  exact ⟨rfl, hmore, by rw [hread]; exact hrest,
    fun d hd => h.clusters d (List.mem_cons_of_mem _ hd)⟩

theorem Chained.end_of_nil (h : Chained v first []) : fat32NotEndCluster first = false := by
  by_contra hmore
  have hstart : startOf first = none := h.follows
  rw [startOf, if_pos (Bool.eq_true_of_not_eq_false hmore)] at hstart
  cases hstart

theorem chained_of_countLoop {rounds i n : Nat} (hrun : v.countLoop rounds first i = some n) :
    ∃ xs, Chained v first xs ∧ xs.length < rounds ∧ n = i + xs.length := by
  induction rounds generalizing first i with
  | zero => cases hrun
  | succ rounds ih =>
    rw [Volume.countLoop] at hrun
    split at hrun
    · next hmore =>
      obtain ⟨xs, chained, hlt, rfl⟩ := ih hrun
      exact ⟨first :: xs, .cons hmore chained, Nat.succ_lt_succ hlt,
        by rw [List.length_cons]; omega⟩
    · next hend =>
      exact ⟨[], chained_nil (Bool.eq_false_of_not_eq_true hend), Nat.succ_pos _,
        (Option.some.inj hrun).symm⟩

theorem Chained.countLoop (h : Chained v first xs) {rounds : Nat} (hrounds : xs.length < rounds)
    (i : Nat) : v.countLoop rounds first i = some (i + xs.length) := by
  induction xs generalizing first rounds i with
  | nil =>
    obtain ⟨rounds, rfl⟩ : ∃ k, rounds = k + 1 := ⟨rounds - 1, by omega⟩
    exact if_neg (by rw [h.end_of_nil]; decide)
  | cons c xs ih =>
    obtain ⟨rounds, rfl⟩ : ∃ k, rounds = k + 1 := ⟨rounds - 1, by omega⟩
    obtain ⟨rfl, hmore, rest⟩ := h.uncons
    have hrun := ih rest (Nat.lt_of_succ_lt_succ hrounds) (i + 1)
    rw [List.length_cons, Volume.countLoop, if_pos hmore, hrun, Nat.add_right_comm, Nat.add_assoc]

/-- `countClusters` comes to its end along a chain and on no other content of the FAT. -/
theorem countClusters_ends_iff :
    (∃ rounds n, v.countClusters rounds first = some n) ↔ first = 0 ∨ ∃ xs, Chained v first xs := by
  rcases eq_or_ne first 0 with rfl | hne
  · exact ⟨fun _ => .inl rfl, fun _ => ⟨0, 0, rfl⟩⟩
  · constructor
    · rintro ⟨rounds, n, hrun⟩
      rw [Volume.countClusters, if_neg hne] at hrun
      obtain ⟨xs, chained, -⟩ := chained_of_countLoop hrun
      exact .inr ⟨xs, chained⟩
    · rintro (rfl | ⟨xs, chained⟩)
      · exact absurd rfl hne
      · exact ⟨xs.length + 1, _, (if_neg hne).trans (chained.countLoop (Nat.lt_succ_self _) 0)⟩

section Pointer

variable {pointer pointer' : DirentPointer}

theorem chained_of_filepntLoop {rounds i : Nat}
    (hrun : v.filepntLoop rounds i first pointer = some pointer') (hi : i ≤ pointerLimit) :
    ∃ xs, Chained v first xs ∧ xs.length < rounds ∧ i + xs.length ≤ pointerLimit := by
  induction rounds generalizing first i pointer with
  | zero => cases hrun
  | succ rounds ih =>
    rw [Volume.filepntLoop] at hrun
    split at hrun
    · next hmore =>
      obtain ⟨next, hset, hrun⟩ := Option.bind_eq_some_iff.mp hrun
      have hlt : i < pointerLimit :=
        DirentPointer.lt_pointerLimit (DirentPointer.getclusbyno_setval_self hset)
      obtain ⟨xs, chained, hrounds, hlimit⟩ := ih hrun hlt
      exact ⟨first :: xs, .cons hmore chained, Nat.succ_lt_succ hrounds, by
        rw [List.length_cons]
        omega⟩
    · next hend =>
      exact ⟨[], chained_nil (Bool.eq_false_of_not_eq_true hend), Nat.succ_pos _, hi⟩

/-- The pages hold the chain from index `i` on. The other entries are as they were, or those
of a zeroed page. -/
structure Filled (pointer pointer' : DirentPointer) (i : Nat) (xs : List Nat) : Prop where
  table : ∀ k (h : k < xs.length), pointer'.getclusbyno (i + k) = some xs[k]
  kept : ∀ j c, (j < i ∨ i + xs.length ≤ j) → pointer.getclusbyno j = some c →
    pointer'.getclusbyno j = some c
  fresh : ∀ j c, (j < i ∨ i + xs.length ≤ j) → pointer'.getclusbyno j = some c →
    c = 0 ∨ pointer.getclusbyno j = some c

theorem Filled.nil (pointer : DirentPointer) (i : Nat) : Filled pointer pointer i [] :=
  ⟨fun _ h => absurd h (Nat.not_lt_zero _), fun _ _ _ h => h, fun _ _ _ h => .inr h⟩

theorem Filled.cons {next : DirentPointer} {i c : Nat} (hset : pointer.setval i c = some next)
    (h : Filled next pointer' (i + 1) xs) : Filled pointer pointer' i (c :: xs) where
  table k hk := by
    cases k with
    | zero =>
      exact h.kept i c (.inl (Nat.lt_succ_self i)) (DirentPointer.getclusbyno_setval_self hset)
    | succ k =>
      have hentry := h.table k (Nat.lt_of_succ_lt_succ hk)
      rwa [Nat.add_assoc, Nat.add_comm 1] at hentry
  kept j d hj hget := by
    rw [List.length_cons] at hj
    exact h.kept j d (by omega) (DirentPointer.getclusbyno_setval_of_ne hset hget (by omega))
  fresh j d hj hget := by
    rw [List.length_cons] at hj
    rcases h.fresh j d (by omega) hget with hzero | hold
    · exact .inl hzero
    · exact DirentPointer.eq_zero_or_of_setval hset hold (by omega)

theorem Chained.filepntLoop (h : Chained v first xs) {rounds i : Nat} (hrounds : xs.length < rounds)
    (hlimit : i + xs.length ≤ pointerLimit) (pointer : DirentPointer) :
    ∃ pointer', v.filepntLoop rounds i first pointer = some pointer' ∧
      Filled pointer pointer' i xs := by
  induction xs generalizing first rounds i pointer with
  | nil =>
    obtain ⟨rounds, rfl⟩ : ∃ k, rounds = k + 1 := ⟨rounds - 1, by omega⟩
    exact ⟨pointer, if_neg (by rw [h.end_of_nil]; decide), .nil pointer i⟩
  | cons c xs ih =>
    obtain ⟨rounds, rfl⟩ : ∃ k, rounds = k + 1 := ⟨rounds - 1, by omega⟩
    obtain ⟨rfl, hmore, rest⟩ := h.uncons
    rw [List.length_cons] at hlimit
    obtain ⟨next, hset⟩ := @DirentPointer.setval_isSome pointer i (by omega) c
    obtain ⟨pointer', hrun, filled⟩ :=
      ih rest (Nat.lt_of_succ_lt_succ hrounds) (show i + 1 + xs.length ≤ _ by omega) next
    refine ⟨pointer', ?_, filled.cons hset⟩
    rw [Volume.filepntLoop, if_pos hmore, hset, Option.bind_eq_bind, Option.bind_some]
    exact hrun

/-- `filepnt_init` also needs that the pointer pages hold the chain. -/
theorem filepntInit_ends_iff {valid : Bool} :
    (∃ rounds r, v.filepntInit rounds first valid pointer = some r) ↔
      valid = true ∨ first = 0 ∨ ∃ xs, Chained v first xs ∧ xs.length ≤ pointerLimit := by
  cases valid with
  | true => exact ⟨fun _ => .inl rfl, fun _ => ⟨0, _, if_pos rfl⟩⟩
  | false =>
    rcases eq_or_ne first 0 with rfl | hne
    · exact ⟨fun _ => .inr (.inl rfl), fun _ => ⟨0, (false, pointer), rfl⟩⟩
    · constructor
      · rintro ⟨rounds, r, hrun⟩
        rw [Volume.filepntInit, if_neg (by decide), if_neg hne, Option.map_eq_some_iff] at hrun
        obtain ⟨pointer', hrun, -⟩ := hrun
        obtain ⟨xs, chained, -, hlimit⟩ := chained_of_filepntLoop hrun (Nat.zero_le _)
        exact .inr (.inr ⟨xs, chained, by rwa [Nat.zero_add] at hlimit⟩)
      · rintro (hvalid | rfl | ⟨xs, chained, hlimit⟩)
        · cases hvalid
        · exact absurd rfl hne
        · obtain ⟨pointer', hrun, -⟩ := chained.filepntLoop (Nat.lt_succ_self _)
            (show 0 + xs.length ≤ _ by omega) pointer
          refine ⟨xs.length + 1, (true, pointer'), ?_⟩
          rw [Volume.filepntInit, if_neg (by decide), if_neg hne, hrun, Option.map_some]

end Pointer

section Free

/-- Freeing a cluster ends no chain that did not end before. -/
theorem Chained.of_fatWrite_zero {c : Nat} (h : Chained (v.fatWrite c 0) first xs) :
    Chained v first xs ∧ c ∉ xs := by
  induction xs generalizing first with
  | nil => exact ⟨chained_nil h.end_of_nil, List.not_mem_nil⟩
  | cons d xs ih =>
    obtain ⟨rfl, hmore, rest⟩ := h.uncons
    have hcluster : v.IsCluster d := h.clusters d List.mem_cons_self
    have hne : d ≠ c := by
      rintro rfl
      have hread : (v.fatWrite d 0).fatRead d = 0 :=
        (if_pos hcluster).trans (Function.update_self ..)
      rw [hread] at rest
      exact not_chained_zero rest
    have hread : (v.fatWrite c 0).fatRead d = v.fatRead d := by
      refine (if_pos (show (v.fatWrite c 0).IsCluster d from hcluster)).trans ?_
      rw [Volume.fatRead, if_pos hcluster]
      exact Function.update_of_ne hne _ _
    rw [hread] at rest
    obtain ⟨chained, hmem⟩ := ih rest
    exact ⟨.cons hmore chained, List.not_mem_cons_of_ne_of_not_mem hne.symm hmem⟩

theorem chained_of_freeSequence {rounds c : Nat} {v' : Volume}
    (hrun : Volume.freeSequence rounds v c = some v') :
    v.IsCluster c ∧ ∃ ys, Chained v (v.fatRead c) ys := by
  induction rounds generalizing v c with
  | zero => cases hrun
  | succ rounds ih =>
    rw [Volume.freeSequence] at hrun
    have hchained : ∃ ys, Chained v (v.fatRead c) ys := by
      split at hrun
      · next hmore =>
        obtain ⟨hcluster, ys, chained⟩ := ih hrun
        exact ⟨_, (chained.cons hmore).of_fatWrite_zero.1⟩
      · next hend => exact ⟨[], chained_nil (Bool.eq_false_of_not_eq_true hend)⟩
    refine ⟨?_, hchained⟩
    by_contra hout
    obtain ⟨ys, chained⟩ := hchained
    rw [Volume.fatRead, if_neg hout] at chained
    exact not_chained_zero chained

/-- `clus_sequence_free` reads the link of its first cluster before it looks at the number. -/
theorem freeSequence_ends_iff {c : Nat} : (∃ rounds v', Volume.freeSequence rounds v c = some v') ↔
      v.IsCluster c ∧ ∃ ys, Chained v (v.fatRead c) ys := by
  constructor
  · rintro ⟨rounds, v', hrun⟩
    exact chained_of_freeSequence hrun
  · rintro ⟨hcluster, ys, chained⟩
    have hread : v.fatRead c = v.fat c := if_pos hcluster
    have hnext : Chain.Follows v.next (v.next c) ys := by
      have := chained.follows
      rw [hread] at this
      exact this
    have hfollows : Chain.Follows v.next (some c) (c :: ys) := ⟨rfl, hnext⟩
    exact ⟨ys.length + 1, _, freeSequence_spec hfollows hfollows.nodup
      (List.forall_mem_cons.mpr ⟨hcluster, chained.clusters⟩) (Nat.lt_succ_self _)⟩

end Free

end Chained

end KernelTravel.Fat32

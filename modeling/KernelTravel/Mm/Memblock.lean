import KernelTravel.Lib.Run
import Mathlib.Algebra.Group.Nat.Defs
import Mathlib.Data.List.Basic

/-!
# The memory regions at boot

`mm/memblock.c`. Two arrays of 32 regions hold the memory that was added and the memory that
was reserved. `memblock_add_range` writes a region to the first element whose size is 0 and
does not change `cnt`, which stays 1. `__next_mem_range` goes over the first `cnt` regions, and
so it sees the first region of either array and no other. When no element is left, the index of
the new region is -1.

The flags and the node of a region are always 0 and are left out. An operation answers `none`
where it writes outside of the array.
-/

namespace KernelTravel.Mm

def physAddrMax : Nat := 2 ^ 64 - 1

/-- `INIT_MEMBLOCK_MEMORY_REGIONS`. -/
def maxRegions : Nat := 32

structure MemRegion where
  base : Nat
  size : Nat
  deriving DecidableEq

structure MemblockType where
  cnt : Nat
  totalSize : Nat
  regions : Nat → MemRegion

structure Memblock where
  memory : MemblockType
  reserved : MemblockType

namespace MemRegion

/-- Behind the region. -/
def stop (r : MemRegion) : Nat := r.base + r.size

def Contains (r : MemRegion) (x : Nat) : Prop := r.base ≤ x ∧ x < r.stop

end MemRegion

/-- `memblock_fit_size`. -/
def memblockFitSize (base size : Nat) : Nat :=
  if size < physAddrMax - base then size else physAddrMax - base

namespace MemblockType

/-- An array of empty regions, with a `cnt` of 1. -/
def initial : MemblockType := ⟨1, 0, fun _ => ⟨0, 0⟩⟩

/-- The search for an empty region, with `none` for an index of -1. -/
def emptyRegion (t : MemblockType) : Nat → Nat → Option Nat
  | 0, _ => none
  | left + 1, i => if (t.regions i).size = 0 then some i else emptyRegion t left (i + 1)

/-- `memblock_add_range`, with the size that fits. -/
def addRange (t : MemblockType) (r : MemRegion) : Option MemblockType :=
  if (t.regions 0).size = 0 ∧ ¬(t.cnt = 1 ∨ t.totalSize = 0) then none
  else (t.emptyRegion maxRegions 0).map fun i =>
    { t with
      regions := Function.update t.regions i r, totalSize := (t.totalSize + r.size) % 2 ^ 64 }

/-- The gap before the region `i` of the array, from the end of the one before it. -/
def gap (t : MemblockType) (i : Nat) : Nat × Nat :=
  (if i = 0 then 0 else (t.regions (i - 1)).stop, if i < t.cnt then (t.regions i).base
    else physAddrMax)

/-- What the loops of `__next_mem_range` come to: a range and the next indices. -/
structure Step where
  range : Nat × Nat
  idxA : Nat
  idxB : Nat

/-- The inner loop of `__next_mem_range`, over the gaps. Without a range it leaves `idx_b`. -/
def nextGap (b : MemblockType) (m : MemRegion) (idxA : Nat) : Nat → Nat → Nat ⊕ Step
  | 0, idxB => .inl idxB
  | left + 1, idxB =>
    let r := b.gap idxB
    if m.stop ≤ r.1 then .inl idxB
    else if m.base < r.2 then
      .inr ⟨(max m.base r.1, min m.stop r.2), if m.stop ≤ r.2 then idxA + 1 else idxA,
        if m.stop ≤ r.2 then idxB else idxB + 1⟩
    else nextGap b m idxA left (idxB + 1)

/-- The outer loop. Without a second array every region is a range. -/
def nextRegion (a : MemblockType) (b : Option MemblockType) : Nat → Nat → Nat → Option Step
  | 0, _, _ => none
  | left + 1, idxA, idxB =>
    let m := a.regions idxA
    match b with
    | none => some ⟨(m.base, m.stop), idxA + 1, idxB⟩
    | some b =>
      match b.nextGap m idxA (b.cnt + 1 - idxB) idxB with
      | .inl idxB => nextRegion a (some b) left (idxA + 1) idxB
      | .inr step => some step

/-- `__next_mem_range`: the range and the new index, or `none` for the index `ULLONG_MAX`. -/
def nextMemRange (a : MemblockType) (b : Option MemblockType) (idx : Nat) :
    Option ((Nat × Nat) × Nat) :=
  let idxA := idx % 2 ^ 32
  let idxB := idx / 2 ^ 32
  (nextRegion a b (a.cnt - idxA) idxA idxB).map fun step =>
    (step.range, step.idxA ||| step.idxB <<< 32)

/-- The ranges of a loop with `__for_each_mem_range`, unless there are more than `rounds`. -/
def rangesFrom (a : MemblockType) (b : Option MemblockType) : Nat → Nat → Option (List (Nat × Nat))
  | 0, _ => none
  | rounds + 1, idx =>
    match nextMemRange a b idx with
    | none => some []
    | some (range, idx) => (rangesFrom a b rounds idx).map (range :: ·)

end MemblockType

namespace Memblock

def initial : Memblock := ⟨.initial, .initial⟩

/-- The ranges of `for_each_free_mem_range`. A range brings one of the two indices on. -/
def freeRanges (s : Memblock) : Option (List (Nat × Nat)) :=
  s.memory.rangesFrom (some s.reserved) (s.memory.cnt + s.reserved.cnt + 2) 0

end Memblock

/-- A call of `memblock_add` or `memblock_reserve`. -/
inductive MemCall where
  | add (base size : BitVec 64)
  | reserve (base size : BitVec 64)

def fitRegion (base size : BitVec 64) : MemRegion :=
  ⟨base.toNat, memblockFitSize base.toNat size.toNat⟩

def memStep (s : Memblock) : MemCall → Option Memblock
  | .add base size => (s.memory.addRange (fitRegion base size)).map fun memory => { s with memory }
  | .reserve base size =>
    (s.reserved.addRange (fitRegion base size)).map fun reserved => { s with reserved }

/-- The regions that calls have added. -/
def addedBy (calls : List MemCall) : List MemRegion :=
  calls.filterMap fun
    | .add base size => some (fitRegion base size)
    | .reserve _ _ => none

/-- The regions that calls have reserved. -/
def reservedBy (calls : List MemCall) : List MemRegion :=
  calls.filterMap fun
    | .add _ _ => none
    | .reserve base size => some (fitRegion base size)

/-- An address in one of the regions. -/
def Covered (regions : List MemRegion) (x : Nat) : Prop := ∃ r ∈ regions, r.Contains x

/-! ## The loop over one region of each array -/

/-- The ranges of the first added region `m` without the first reserved region `r`. -/
def lastRange (m r : MemRegion) : List (Nat × Nat) :=
  if m.stop ≤ r.stop then [] else if m.base < physAddrMax
    then [(max m.base r.stop, min m.stop physAddrMax)] else []

def firstRanges (m r : MemRegion) : List (Nat × Nat) :=
  if m.stop = 0 then []
  else if m.base < r.base then
    (m.base, min m.stop r.base) :: if m.stop ≤ r.base then [] else lastRange m r
  else lastRange m r

section OneRegion

variable {a b : MemblockType} {m : MemRegion}

/-- Behind the only reserved region. -/
theorem nextGap_last (hb : b.cnt = 1) (hm : m.stop ≤ physAddrMax) :
    b.nextGap m 0 1 1 = if m.stop ≤ (b.regions 0).stop then .inl 1 else if m.base < physAddrMax then
        .inr ⟨(max m.base (b.regions 0).stop, min m.stop physAddrMax), 1, 1⟩ else .inl 2 := by
  have hgap : b.gap 1 = ((b.regions 0).stop, physAddrMax) := by simp [MemblockType.gap, hb]
  simp only [MemblockType.nextGap, hgap, if_pos hm, Nat.zero_add, Nat.reduceAdd]

theorem nextMemRange_done (ha : a.cnt = 1) {idx : Nat} (hidx : idx % 2 ^ 32 = 1) :
    a.nextMemRange (some b) idx = none := by
  rw [MemblockType.nextMemRange, hidx, ha]
  rfl

theorem nextMemRange_one (ha : a.cnt = 1) {idx : Nat} (hidx : idx % 2 ^ 32 = 0) :
    a.nextMemRange (some b) idx =
      (b.nextGap (a.regions 0) 0 (b.cnt + 1 - idx / 2 ^ 32) (idx / 2 ^ 32)).elim (fun _ => none)
        fun step => some (step.range, step.idxA ||| step.idxB <<< 32) := by
  simp only [MemblockType.nextMemRange, hidx, ha, Nat.sub_zero, MemblockType.nextRegion]
  cases b.nextGap (a.regions 0) 0 (b.cnt + 1 - idx / 2 ^ 32) (idx / 2 ^ 32) <;> rfl

theorem elim_last {m r : MemRegion} : (if m.stop ≤ r.stop then Sum.inl 1
      else if m.base < physAddrMax then
        .inr (⟨(max m.base r.stop, min m.stop physAddrMax), 1, 1⟩ : MemblockType.Step)
      else .inl 2).elim (fun _ => none)
        (fun step => some (step.range, step.idxA ||| step.idxB <<< 32)) =
        (lastRange m r).head?.map fun range => (range, 2 ^ 32 + 1) := by
  rw [lastRange]
  by_cases hstop : m.stop ≤ r.stop
  · rw [if_pos hstop, if_pos hstop]
    rfl
  · rw [if_neg hstop, if_neg hstop]
    by_cases hbase : m.base < physAddrMax
    · rw [if_pos hbase, if_pos hbase, Sum.elim_inr, List.head?_cons, Option.map_some,
        show 1 ||| 1 <<< 32 = 2 ^ 32 + 1 by decide]
    · rw [if_neg hbase, if_neg hbase]
      rfl

theorem nextMemRange_second (ha : a.cnt = 1) (hb : b.cnt = 1)
    (hm : (a.regions 0).stop ≤ physAddrMax) : a.nextMemRange (some b) (2 ^ 32) =
      (lastRange (a.regions 0) (b.regions 0)).head?.map fun range => (range, 2 ^ 32 + 1) := by
  have hidxB : 2 ^ 32 / 2 ^ 32 = 1 := by decide
  rw [nextMemRange_one ha (by decide), hidxB, hb, nextGap_last hb hm]
  exact elim_last

theorem nextMemRange_first (ha : a.cnt = 1) (hb : b.cnt = 1)
    (hm : (a.regions 0).stop ≤ physAddrMax) :
    a.nextMemRange (some b) 0 = if (a.regions 0).stop = 0 then none
      else if (a.regions 0).base < (b.regions 0).base then
        some (((a.regions 0).base, min (a.regions 0).stop (b.regions 0).base),
          if (a.regions 0).stop ≤ (b.regions 0).base then 1 else 2 ^ 32)
      else (lastRange (a.regions 0) (b.regions 0)).head?.map fun range => (range, 2 ^ 32 + 1) := by
  have hgap : b.gap 0 = (0, (b.regions 0).base) := by simp [MemblockType.gap, hb]
  rw [nextMemRange_one ha (by decide), hb]
  simp only [Nat.zero_div, Nat.sub_zero, Nat.reduceAdd]
  rw [MemblockType.nextGap]
  simp only [hgap, Nat.le_zero, Nat.max_zero, Nat.zero_add, nextGap_last hb hm]
  split
  · rfl
  · split
    · split
      · rw [Sum.elim_inr, show 1 ||| 0 <<< 32 = 1 by decide]
      · rw [Sum.elim_inr, show 0 ||| 1 <<< 32 = 2 ^ 32 by decide]
    · exact elim_last

/-- The loop ends, with the ranges of one region without another. -/
theorem rangesFrom_eq (ha : a.cnt = 1) (hb : b.cnt = 1) (hm : (a.regions 0).stop ≤ physAddrMax) :
    a.rangesFrom (some b) 4 0 = some (firstRanges (a.regions 0) (b.regions 0)) := by
  have hlast : ∀ rounds,
      (match (lastRange (a.regions 0) (b.regions 0)).head?.map fun range => (range, 2 ^ 32 + 1) with
      | none => some []
      | some (range, idx) => (a.rangesFrom (some b) (rounds + 1) idx).map (range :: ·)) =
        some (lastRange (a.regions 0) (b.regions 0)) := by
    intro rounds
    rw [lastRange]
    split_ifs
    · rfl
    · simp only [List.head?_cons, Option.map_some]
      rw [MemblockType.rangesFrom, nextMemRange_done ha (by decide)]
      rfl
    · rfl
  rw [MemblockType.rangesFrom, nextMemRange_first ha hb hm, firstRanges]
  split_ifs with hzero hbefore hstop
  · rfl
  · simp only
    rw [MemblockType.rangesFrom, nextMemRange_done ha (by decide)]
    rfl
  · simp only
    rw [MemblockType.rangesFrom, nextMemRange_second ha hb hm, hlast 1]
    rfl
  · exact hlast 2

end OneRegion

/-! ## What the loop is for -/

/-- Non-empty and disjoint ranges, with the addresses of `free` and no others. -/
structure Exact (ranges : List (Nat × Nat)) (free : Nat → Prop) : Prop where
  nonempty : ∀ range ∈ ranges, range.1 < range.2
  disjoint : ranges.Pairwise fun r r' => r.2 ≤ r'.1 ∨ r'.2 ≤ r.1
  union : ∀ x, (∃ range ∈ ranges, range.1 ≤ x ∧ x < range.2) ↔ free x

/-- An empty region `m` at which the loop does not stop. -/
def PassedOver (m r : MemRegion) : Prop :=
  m.base = 0 ∨ r.base ≤ m.base ∧ (m.base ≤ r.stop ∨ m.base = physAddrMax)

section Ranges

variable {m r : MemRegion}

theorem firstRanges_union (hm : m.stop ≤ physAddrMax) (x : Nat) :
    (∃ range ∈ firstRanges m r, range.1 ≤ x ∧ x < range.2) ↔ m.Contains x ∧ ¬r.Contains x := by
  have hr : r.base ≤ r.stop := Nat.le_add_right _ _
  have hm' : m.base ≤ m.stop := Nat.le_add_right _ _
  simp only [MemRegion.Contains, firstRanges, lastRange]
  split_ifs
  all_goals
    simp only [List.mem_cons, List.not_mem_nil, or_false, exists_eq_or_imp, exists_eq_left,
      false_and, exists_false, false_iff]
    omega

theorem firstRanges_disjoint (m r : MemRegion) :
    (firstRanges m r).Pairwise fun range range' => range.2 ≤ range'.1 ∨ range'.2 ≤ range.1 := by
  have hr : r.base ≤ r.stop := Nat.le_add_right _ _
  rw [firstRanges, lastRange]
  split_ifs <;> simp
  omega

/-- An empty range is only seen when the first region is empty. -/
theorem firstRanges_nonempty (hm : m.stop ≤ physAddrMax) :
    (∀ range ∈ firstRanges m r, range.1 < range.2) ↔ m.size ≠ 0 ∨ PassedOver m r := by
  have hr : r.base ≤ r.stop := Nat.le_add_right _ _
  have hm' : m.stop = m.base + m.size := rfl
  simp only [PassedOver, firstRanges, lastRange]
  split_ifs
  all_goals
    simp only [List.forall_mem_cons, List.not_mem_nil, false_implies, implies_true,
      and_true, true_iff]
    omega

/-- The loop is right about the first regions of the two arrays, and so it is right if these are all
that matters. -/
theorem exact_firstRanges_iff (hm : m.stop ≤ physAddrMax) {free : Nat → Prop} :
    Exact (firstRanges m r) free ↔
      (∀ x, free x ↔ m.Contains x ∧ ¬r.Contains x) ∧ (m.size ≠ 0 ∨ PassedOver m r) := by
  constructor
  · intro h
    exact ⟨fun x => (h.union x).symm.trans (firstRanges_union hm x),
      (firstRanges_nonempty hm).mp h.nonempty⟩
  · rintro ⟨hfree, hempty⟩
    exact ⟨(firstRanges_nonempty hm).mpr hempty, firstRanges_disjoint m r,
      fun x => (firstRanges_union hm x).trans (hfree x).symm⟩

end Ranges

/-! ## The arrays -/

/-- The number of elements that are in use after regions have been added. -/
def used (rs : List MemRegion) : Nat := rs.countP fun r => r.size ≠ 0

/-- The first element after regions have been added: an empty region is written over. -/
def firstSlot (rs : List MemRegion) : MemRegion :=
  rs.foldl (fun first r => if first.size = 0 then r else first) ⟨0, 0⟩

/-- Every region finds an element. -/
def HasRoom (rs : List MemRegion) : Prop := ∀ n < rs.length, used (rs.take n) < maxRegions

instance (rs : List MemRegion) : Decidable (HasRoom rs) :=
  inferInstanceAs (Decidable (∀ n < rs.length, used (rs.take n) < maxRegions))

/-- The array after the regions `rs` have been added. -/
structure Filled (t : MemblockType) (rs : List MemRegion) : Prop where
  cnt : t.cnt = 1
  count : used rs ≤ maxRegions
  low : ∀ i < used rs, (t.regions i).size ≠ 0
  high : ∀ i, used rs ≤ i → i < maxRegions → (t.regions i).size = 0
  first : t.regions 0 = firstSlot rs

namespace Filled

variable {t t' : MemblockType} {rs : List MemRegion} {r : MemRegion}

theorem initial : Filled .initial [] :=
  ⟨rfl, Nat.zero_le _, fun _ h => absurd h (Nat.not_lt_zero _), fun _ _ _ => rfl, rfl⟩

theorem emptyRegion_from (filled : Filled t rs) {left i : Nat} (hi : i ≤ used rs)
    (hleft : i + left = maxRegions) :
    t.emptyRegion left i = if used rs < maxRegions then some (used rs) else none := by
  induction left generalizing i with
  | zero =>
    have := filled.count
    rw [if_neg (by omega)]
    rfl
  | succ left ih =>
    rw [MemblockType.emptyRegion]
    rcases Nat.lt_or_eq_of_le hi with hlt | rfl
    · rw [if_neg (filled.low i hlt)]
      exact ih hlt (by omega)
    · rw [if_pos (filled.high _ (Nat.le_refl _) (by omega)), if_pos (by omega)]

theorem addRange_eq (filled : Filled t rs) (r : MemRegion) :
    t.addRange r = if used rs < maxRegions then
      some { t with
        regions := Function.update t.regions (used rs) r
        totalSize := (t.totalSize + r.size) % 2 ^ 64 }
    else none := by
  rw [MemblockType.addRange, if_neg (fun h => h.2 (.inl filled.cnt)),
    filled.emptyRegion_from (Nat.zero_le _) (Nat.zero_add _)]
  split <;> rfl

theorem used_append (rs : List MemRegion) (r : MemRegion) :
    used (rs ++ [r]) = used rs + if r.size ≠ 0 then 1 else 0 := by
  rw [used, List.countP_append, List.countP_singleton, used]
  simp

theorem used_eq_zero_iff (filled : Filled t rs) : used rs = 0 ↔ (firstSlot rs).size = 0 := by
  rw [← filled.first]
  constructor
  · intro hzero
    exact filled.high 0 (by omega) (by decide)
  · intro hsize
    by_contra hne
    exact filled.low 0 (by omega) hsize

/-- What adding a region does to the array. -/
theorem addRange_cases (filled : Filled t rs) (h : t.addRange r = some t') :
    used rs < maxRegions ∧ t'.cnt = t.cnt ∧ ∀ i, t'.regions i = if i = used rs then r
      else t.regions i := by
  rw [filled.addRange_eq] at h
  split at h
  · next hlt =>
    obtain rfl := Option.some.inj h
    exact ⟨hlt, rfl, fun i => Function.update_apply _ _ _ _⟩
  · cases h

theorem addRange (filled : Filled t rs) (h : t.addRange r = some t') : Filled t' (rs ++ [r]) := by
  obtain ⟨hlt, hcnt, hregions⟩ := filled.addRange_cases h
  have hused := used_append rs r
  refine ⟨hcnt.trans filled.cnt, ?_, ?_, ?_, ?_⟩
  · split at hused <;> omega
  · intro i hi
    rw [hregions]
    split
    · next heq =>
      intro hsize
      rw [hused, if_neg (not_not.mpr hsize)] at hi
      omega
    · refine filled.low i ?_
      split at hused <;> omega
  · intro i hi hmax
    rw [hregions]
    split
    · next heq =>
      by_contra hsize
      rw [hused, if_pos hsize] at hi
      omega
    · refine filled.high i ?_ hmax
      split at hused <;> omega
  · rw [hregions, firstSlot, List.foldl_append]
    change _ = if (firstSlot rs).size = 0 then r else firstSlot rs
    by_cases hzero : used rs = 0
    · rw [if_pos hzero.symm, if_pos (filled.used_eq_zero_iff.mp hzero)]
    · rw [if_neg (Ne.symm hzero), if_neg (fun h => hzero (filled.used_eq_zero_iff.mpr h))]
      exact filled.first

theorem exec (filled : Filled t rs) {more : List MemRegion}
    (run : Run.exec MemblockType.addRange t more = some t') : Filled t' (rs ++ more) := by
  induction more generalizing t rs with
  | nil =>
    cases run
    rwa [List.append_nil]
  | cons r more ih =>
    obtain ⟨next, hadd, hrest⟩ := Run.exec_cons_eq_some.mp run
    have hfilled := ih (filled.addRange hadd) hrest
    rwa [List.append_assoc, List.singleton_append] at hfilled

/-- Regions can be added as long as there is an empty element. -/
theorem exec_isSome_iff (filled : Filled t rs) (more : List MemRegion) :
    (∃ t', Run.exec MemblockType.addRange t more = some t') ↔
      ∀ n < more.length, used (rs ++ more.take n) < maxRegions := by
  induction more generalizing t rs with
  | nil => exact ⟨fun _ n hn => absurd hn (Nat.not_lt_zero n), fun _ => ⟨t, rfl⟩⟩
  | cons r more ih =>
    have hstep := filled.addRange_eq r
    constructor
    · rintro ⟨t', run⟩ n hn
      obtain ⟨next, hadd, hrest⟩ := Run.exec_cons_eq_some.mp run
      cases n with
      | zero =>
        rw [List.take_zero, List.append_nil]
        exact (filled.addRange_cases hadd).1
      | succ n =>
        have hroom := (ih (filled.addRange hadd)).mp ⟨t', hrest⟩ n (Nat.lt_of_succ_lt_succ hn)
        rwa [List.append_assoc, List.singleton_append] at hroom
    · intro hroom
      have hfirst := hroom 0 (Nat.succ_pos _)
      rw [List.take_zero, List.append_nil] at hfirst
      rw [if_pos hfirst] at hstep
      obtain ⟨t', hrest⟩ := (ih (filled.addRange hstep)).mpr fun n hn => by
        have := hroom (n + 1) (Nat.succ_lt_succ hn)
        rwa [List.append_assoc, List.singleton_append]
      exact ⟨t', Run.exec_cons_eq_some.mpr ⟨_, hstep, hrest⟩⟩

end Filled

/-! ## Runs -/

section Runs

variable {calls : List MemCall} {s s' : Memblock}

/-- The two arrays do not know of each other. -/
theorem exec_split : Run.exec memStep s calls = some s' ↔
    Run.exec MemblockType.addRange s.memory (addedBy calls) = some s'.memory ∧
      Run.exec MemblockType.addRange s.reserved (reservedBy calls) = some s'.reserved := by
  induction calls generalizing s with
  | nil =>
    change some s = some s' ↔ some s.memory = some s'.memory ∧ some s.reserved = some s'.reserved
    cases s
    cases s'
    simp
  | cons call calls ih =>
    cases call with
    | add base size =>
      change (Option.map _ _).bind _ = _ ↔ (Option.bind _ _) = _ ∧ _
      cases hadd : s.memory.addRange (fitRegion base size) with
      | none => simp
      | some memory => exact ih
    | reserve base size =>
      change (Option.map _ _).bind _ = _ ↔ _ ∧ (Option.bind _ _) = _
      cases hadd : s.reserved.addRange (fitRegion base size) with
      | none => simp
      | some reserved => exact ih

theorem fitRegion_stop (base size : BitVec 64) : (fitRegion base size).stop ≤ physAddrMax := by
  have hbase : base.toNat ≤ physAddrMax := Nat.le_sub_one_of_lt base.isLt
  rw [fitRegion, MemRegion.stop, memblockFitSize]
  dsimp only
  split <;> omega

theorem foldl_slot_mem (rs : List MemRegion) (first : MemRegion) :
    rs.foldl (fun first r => if first.size = 0 then r else first) first = first ∨
      rs.foldl (fun first r => if first.size = 0 then r else first) first ∈ rs := by
  induction rs generalizing first with
  | nil => exact .inl rfl
  | cons r rs ih =>
    rw [List.foldl_cons]
    split
    · rcases ih r with heq | hmem
      · rw [heq]
        exact .inr List.mem_cons_self
      · exact .inr (List.mem_cons_of_mem _ hmem)
    · exact (ih first).imp_right (List.mem_cons_of_mem _)

theorem firstSlot_addedBy_stop (calls : List MemCall) :
    (firstSlot (addedBy calls)).stop ≤ physAddrMax := by
  rcases foldl_slot_mem (addedBy calls) ⟨0, 0⟩ with hzero | hmem
  · rw [firstSlot, hzero]
    exact Nat.zero_le _
  · obtain ⟨call, -, hcall⟩ := List.mem_filterMap.mp hmem
    cases call with
    | add base size =>
      rw [firstSlot, ← Option.some.inj hcall]
      exact fitRegion_stop base size
    | reserve base size => cases hcall

end Runs

/-- The addresses that have been added and not reserved. -/
def FreeBy (calls : List MemCall) (x : Nat) : Prop :=
  Covered (addedBy calls) x ∧ ¬Covered (reservedBy calls) x

/-- No call writes outside of the arrays; and with at most 32 calls of each kind, the loop gives
exactly what is free. -/
def SweepsRight (calls : List MemCall) : Prop :=
  ∃ s, Run.exec memStep .initial calls = some s ∧
    ((addedBy calls).length ≤ maxRegions → (reservedBy calls).length ≤ maxRegions →
      ∃ ranges, s.freeRanges = some ranges ∧ Exact ranges (FreeBy calls))

/-- The first regions of the arrays say what is free, and an empty one is passed over. -/
def FirstDecides (calls : List MemCall) : Prop :=
  let m := firstSlot (addedBy calls)
  let r := firstSlot (reservedBy calls)
  (∀ x, FreeBy calls x ↔ m.Contains x ∧ ¬r.Contains x) ∧ (m.size ≠ 0 ∨ PassedOver m r)

theorem freeRanges_eq {calls : List MemCall} {s : Memblock}
    (run : Run.exec memStep .initial calls = some s) :
    s.freeRanges =
    some (firstRanges (firstSlot (addedBy calls)) (firstSlot (reservedBy calls))) := by
  obtain ⟨hadded, hreserved⟩ := exec_split.mp run
  have memory : Filled s.memory (addedBy calls) := Filled.initial.exec hadded
  have reserved : Filled s.reserved (reservedBy calls) := Filled.initial.exec hreserved
  have hstop : (s.memory.regions 0).stop ≤ physAddrMax := by
    rw [memory.first]
    exact firstSlot_addedBy_stop calls
  have hranges := rangesFrom_eq memory.cnt reserved.cnt hstop
  rw [memory.first, reserved.first] at hranges
  rw [Memblock.freeRanges, memory.cnt, reserved.cnt]
  exact hranges

theorem exec_memStep_isSome_iff (calls : List MemCall) :
    (∃ s, Run.exec memStep .initial calls = some s) ↔ HasRoom (addedBy calls) ∧
    HasRoom (reservedBy calls) := by
  have hadded := Filled.initial.exec_isSome_iff (addedBy calls)
  have hreserved := Filled.initial.exec_isSome_iff (reservedBy calls)
  simp only [List.nil_append] at hadded hreserved
  rw [HasRoom, HasRoom, ← hadded, ← hreserved]
  constructor
  · rintro ⟨s, run⟩
    obtain ⟨hmemory, hreserved⟩ := exec_split.mp run
    exact ⟨⟨_, hmemory⟩, _, hreserved⟩
  · rintro ⟨⟨memory, hmemory⟩, reserved, hreserved⟩
    exact ⟨⟨memory, reserved⟩, exec_split.mpr ⟨hmemory, hreserved⟩⟩

/-- When the regions are right after a sequence of calls. -/
theorem sweepsRight_iff (calls : List MemCall) :
    SweepsRight calls ↔ HasRoom (addedBy calls) ∧ HasRoom (reservedBy calls) ∧
      ((addedBy calls).length ≤ maxRegions → (reservedBy calls).length ≤ maxRegions →
        FirstDecides calls) := by
  have hexact : Exact (firstRanges (firstSlot (addedBy calls)) (firstSlot (reservedBy calls)))
    (FreeBy calls) ↔
      FirstDecides calls := exact_firstRanges_iff (firstSlot_addedBy_stop calls)
  rw [← and_assoc, ← exec_memStep_isSome_iff]
  constructor
  · rintro ⟨s, run, hsweep⟩
    refine ⟨⟨s, run⟩, fun hadded hreserved => ?_⟩
    obtain ⟨ranges, hranges, hright⟩ := hsweep hadded hreserved
    rw [freeRanges_eq run] at hranges
    obtain rfl := Option.some.inj hranges
    exact hexact.mp hright
  · rintro ⟨⟨s, run⟩, hfirst⟩
    exact ⟨s, run,
      fun hadded hreserved => ⟨_, freeRanges_eq run, hexact.mpr (hfirst hadded hreserved)⟩⟩

/-- The memory of the board, added in two parts. -/
def twoParts : List MemCall :=
  [.add 0x90000000a0000000 0x10000000, .add 0x90000000b0000000 0x20000000]

/-- Of the two parts the loop gives the first only; and of 33 regions the last one is written
in front of the array. -/
theorem twoParts_lost : (∃ s, Run.exec memStep .initial twoParts = some s ∧
      s.freeRanges = some [(0x90000000a0000000, 0x90000000b0000000)]) ∧ ¬SweepsRight twoParts ∧
      Run.exec memStep .initial (List.replicate 33 (.add 0 1)) = none := by
  have hroom : ∃ s, Run.exec memStep .initial twoParts = some s :=
    (exec_memStep_isSome_iff twoParts).mpr (by decide)
  have hranges : firstRanges (firstSlot (addedBy twoParts)) (firstSlot (reservedBy twoParts)) =
      [(0x90000000a0000000, 0x90000000b0000000)] := by decide
  refine ⟨?_, ?_, ?_⟩
  · obtain ⟨s, run⟩ := hroom
    exact ⟨s, run, (freeRanges_eq run).trans (congrArg some hranges)⟩
  · rintro ⟨s, run, hsweep⟩
    obtain ⟨ranges, hfree, hright⟩ := hsweep (by decide) (by decide)
    rw [freeRanges_eq run, hranges] at hfree
    obtain rfl := Option.some.inj hfree
    have hsecond : FreeBy twoParts 0x90000000b0000000 :=
      ⟨⟨fitRegion 0x90000000b0000000 0x20000000, by decide, by decide, by decide⟩,
        fun ⟨r, hr, _⟩ => by cases hr⟩
    obtain ⟨range, hmem, -, hlt⟩ := (hright.union _).mpr hsecond
    rw [List.mem_singleton.mp hmem] at hlt
    exact absurd hlt (by decide)
  · refine Option.eq_none_iff_forall_ne_some.mpr fun s run => ?_
    have hroom := ((exec_memStep_isSome_iff _).mp ⟨s, run⟩).1
    exact absurd (hroom 32 (by decide)) (by decide)

end KernelTravel.Mm

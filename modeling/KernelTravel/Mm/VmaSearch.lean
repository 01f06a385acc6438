import KernelTravel.Lib.Chain
import KernelTravel.Mm.Vma
import Mathlib.Data.List.Perm.Subperm
import Mathlib.Data.Nat.Find

/-!
# Searching the memory areas

As long as list and tree describe the same disjoint areas, `find_vma` finds the first
area that ends after an address, and the loop of `get_unmapped_area` ends at a free range
whenever there is one above its start.
-/

namespace KernelTravel.Mm.MmStruct

/-- The areas of the tree, in order. -/
def areas (mm : MmStruct) : List Nat := mm.mmRb.inorder

/-- The search threshold of `find_vma` and `find_vma_prepare`. -/
def endsAfter (mm : MmStruct) (addr : Nat) (v : Nat) : Bool := addr < (mm.area v).vmEnd

/-- List, tree and counter describe the same disjoint areas. -/
structure Inv (mm : MmStruct) : Prop where
  apart : mm.areas.Pairwise fun v w => (mm.area v).vmEnd ≤ (mm.area w).vmStart
  bounds : ∀ v ∈ mm.areas, (mm.area v).vmStart < (mm.area v).vmEnd ∧ (mm.area v).vmEnd < 2 ^ 64
  fresh : ∀ v ∈ mm.areas, v < mm.fresh
  chain : Chain.Follows (fun v => (mm.area v).vmNext) mm.mmap mm.areas
  count : mm.mapCount = mm.areas.length
  cache : ∀ v ∈ mm.mmapCache, v ∈ mm.areas

/-- No area meets `[addr, addr + len)`. -/
def Free (mm : MmStruct) (addr len : Nat) : Prop :=
  ∀ v ∈ mm.areas, addr + len ≤ (mm.area v).vmStart ∨ (mm.area v).vmEnd ≤ addr

/-- The tree holds disjoint areas in the order of their addresses. -/
structure Ordered (mm : MmStruct) : Prop where
  apart : mm.areas.Pairwise fun v w => (mm.area v).vmEnd ≤ (mm.area w).vmStart
  range : ∀ v ∈ mm.areas, (mm.area v).vmStart ≤ (mm.area v).vmEnd
  cache : ∀ v ∈ mm.mmapCache, v ∈ mm.areas

/-- The list holds the same areas, and none of them is empty or wraps. -/
structure Sorted (mm : MmStruct) : Prop where
  apart : mm.areas.Pairwise fun v w => (mm.area v).vmEnd ≤ (mm.area w).vmStart
  bounds : ∀ v ∈ mm.areas, (mm.area v).vmStart < (mm.area v).vmEnd ∧ (mm.area v).vmEnd < 2 ^ 64
  fresh : ∀ v ∈ mm.areas, v < mm.fresh
  chain : Chain.Follows (fun v => (mm.area v).vmNext) mm.mmap mm.areas
  cache : ∀ v ∈ mm.mmapCache, v ∈ mm.areas

theorem Ordered.threshold {mm : MmStruct} (ordered : Ordered mm) (addr : Nat) :
    SearchTree.Threshold (mm.endsAfter addr) mm.areas := by
  refine ordered.apart.imp_of_mem ?_
  intro v w _ hw hle hv
  have := ordered.range w hw
  simp only [endsAfter, decide_eq_true_eq] at hv ⊢
  omega

namespace Inv

variable {mm : MmStruct}

theorem initial (freeAreaCache : Nat) : Inv (MmStruct.initial freeAreaCache) := by
  refine ⟨.nil, ?_, ?_, rfl, rfl, ?_⟩
  all_goals simp [MmStruct.initial, areas, SearchTree.inorder]

theorem sorted (inv : Inv mm) : Sorted mm :=
  ⟨inv.apart, inv.bounds, inv.fresh, inv.chain, inv.cache⟩

/-- The caches do not describe areas. -/
theorem setCaches (inv : Inv mm) {mmapCache : Option Nat} (hcache : ∀ v ∈ mmapCache, v ∈ mm.areas)
    (freeAreaCache : Nat) : Inv { mm with mmapCache, freeAreaCache } :=
  ⟨inv.apart, inv.bounds, inv.fresh, inv.chain, inv.count, hcache⟩

end Inv

namespace Sorted

variable {mm : MmStruct} {addr len : Nat} {before after : List Nat}

theorem ordered (sorted : Sorted mm) : Ordered mm :=
  ⟨sorted.apart, fun v hv => Nat.le_of_lt (sorted.bounds v hv).1, sorted.cache⟩

theorem nodup (sorted : Sorted mm) : mm.areas.Nodup := by
  refine sorted.apart.imp_of_mem ?_
  rintro v w hv - hle rfl
  have := (sorted.bounds v hv).1
  omega

theorem setCaches (sorted : Sorted mm) {mmapCache : Option Nat}
    (hcache : ∀ v ∈ mmapCache, v ∈ mm.areas) (freeAreaCache : Nat) :
    Sorted { mm with mmapCache, freeAreaCache } :=
  ⟨sorted.apart, sorted.bounds, sorted.fresh, sorted.chain, hcache⟩

theorem length_le_fresh (sorted : Sorted mm) : mm.areas.length ≤ mm.fresh := by
  have sub : mm.areas ⊆ List.range mm.fresh := fun v hv => List.mem_range.mpr (sorted.fresh v hv)
  simpa using (List.subperm_of_subset sorted.nodup sub).length_le

/-- A range that lies between two neighbours meets no area. -/
theorem free_between (sorted : Sorted mm) (split : mm.areas = before ++ after)
    (hbefore : ∀ v ∈ before, (mm.area v).vmEnd ≤ addr)
    (hafter : ∀ v ∈ after.head?, addr + len ≤ (mm.area v).vmStart) : mm.Free addr len := by
  intro v hv
  rw [split, List.mem_append] at hv
  rcases hv with hv | hv
  · exact .inr (hbefore v hv)
  · left
    cases after with
    | nil => cases hv
    | cons w after =>
      have hw : addr + len ≤ (mm.area w).vmStart := hafter w rfl
      rcases List.mem_cons.mp hv with rfl | hv
      · exact hw
      · have behind := (List.pairwise_append.mp (split ▸ sorted.apart)).2.1
        have := (List.pairwise_cons.mp behind).1 v hv
        have := (sorted.bounds w (by simp [split])).1
        omega

end Sorted

/-! ## The searches -/

section Search

variable {mm : MmStruct} {addr len : Nat}

theorem findVmaIn_eq (t : SearchTree Nat) (best : Option Nat)
    (apart : t.inorder.Pairwise fun v w => (mm.area v).vmEnd ≤ (mm.area w).vmStart)
    (threshold : SearchTree.Threshold (mm.endsAfter addr) t.inorder) :
    mm.findVmaIn addr t best = (t.inorder.find? (mm.endsAfter addr)).or best := by
  induction t generalizing best with
  | leaf => rfl
  | node left v right ihl ihr =>
    obtain ⟨apartLeft, apartRight, cross⟩ := List.pairwise_append.mp apart
    obtain ⟨thrLeft, thrRight, thrCross⟩ := List.pairwise_append.mp threshold
    simp only [findVmaIn, SearchTree.inorder, List.find?_append]
    split
    next hend =>
      have hv : mm.endsAfter addr v = true := by simpa [endsAfter] using hend
      split
      next hstart =>
        have none_left : left.inorder.find? (mm.endsAfter addr) = none := by
          refine List.find?_eq_none.mpr fun w hw => ?_
          have := cross w hw v List.mem_cons_self
          simp only [endsAfter, decide_eq_true_eq]
          omega
        simp [none_left, hv]
      next => simp [ihl (some v) apartLeft thrLeft, hv]
    next hend =>
      have hv : mm.endsAfter addr v = false := by simpa [endsAfter] using hend
      have none_left : left.inorder.find? (mm.endsAfter addr) = none := by
        refine List.find?_eq_none.mpr fun w hw hp => ?_
        simp [thrCross w hw v List.mem_cons_self hp] at hv
      simp [none_left, hv, ihr best apartRight.of_cons thrRight.of_cons]

/-- `find_vma` finds the first area that ends after the address, also through its cache. -/
theorem findVma_eq (ordered : Ordered mm) (addr : Nat) :
    ∃ mmapCache, mm.findVma addr = (mm.areas.find? (mm.endsAfter addr), { mm with mmapCache }) ∧
      ∀ v ∈ mmapCache, v ∈ mm.areas := by
  have search : mm.findVmaIn addr mm.mmRb none = mm.areas.find? (mm.endsAfter addr) := by
    rw [findVmaIn_eq mm.mmRb none ordered.apart (ordered.threshold addr), Option.or_none, areas]
  have slow : ∃ mmapCache,
      (let vma := mm.findVmaIn addr mm.mmRb none
       (vma, if vma.isSome then { mm with mmapCache := vma } else mm)) =
        (mm.areas.find? (mm.endsAfter addr), { mm with mmapCache }) ∧
      ∀ v ∈ mmapCache, v ∈ mm.areas := by
    rw [search]
    cases hfind : mm.areas.find? (mm.endsAfter addr) with
    | none => exact ⟨mm.mmapCache, rfl, ordered.cache⟩
    | some v =>
      refine ⟨some v, rfl, ?_⟩
      rintro w ⟨⟩
      exact List.mem_of_find?_eq_some hfind
  cases hcache : mm.mmapCache with
  | none => simpa only [findVma, hcache] using slow
  | some v =>
    have hv : v ∈ mm.areas := ordered.cache v hcache
    simp only [findVma, hcache]
    split
    next hit =>
      refine ⟨some v, Prod.ext ?_ (by simp [← hcache]), by simpa using hv⟩
      -- an earlier area that ends after `addr` would meet the cached one
      obtain ⟨before, after, split⟩ := List.append_of_mem hv
      have miss : before.find? (mm.endsAfter addr) = none := by
        refine List.find?_eq_none.mpr fun w hw => ?_
        have := (List.pairwise_append.mp (split ▸ ordered.apart)).2.2 w hw v List.mem_cons_self
        simp only [endsAfter, decide_eq_true_eq]
        omega
      simp [split, miss, endsAfter, hit.1]
    next => exact slow

/-- A place for `len` bytes at or above `lo`. -/
def Gap (mm : MmStruct) (lo len : Nat) : Prop := ∃ a, lo ≤ a ∧ a + len < 2 ^ 64 ∧ mm.Free a len

instance (mm : MmStruct) (addr len : Nat) : Decidable (mm.Free addr len) :=
  inferInstanceAs (Decidable (∀ v ∈ mm.areas, _ ∨ _))

/-- The lowest place begins at `lo` or at the end of an area. -/
theorem gap_iff (mm : MmStruct) (lo len : Nat) : mm.Gap lo len ↔
    ∃ a ∈ lo :: mm.areas.map fun v => (mm.area v).vmEnd,
      lo ≤ a ∧ a + len < 2 ^ 64 ∧ mm.Free a len := by
  classical
  constructor
  · intro h
    obtain ⟨hlo, hfit, hfree⟩ := Nat.find_spec h
    have least : ∀ b < Nat.find h, ¬(lo ≤ b ∧ b + len < 2 ^ 64 ∧ mm.Free b len) :=
      fun b hb => Nat.find_min h hb
    generalize Nat.find h = a at hlo hfit hfree least
    refine ⟨a, ?_, hlo, hfit, hfree⟩
    rcases Nat.eq_or_lt_of_le hlo with rfl | hlt
    · exact List.mem_cons_self
    -- one address lower some area is in the way, so that one ends at `a`
    have blocked : ¬mm.Free (a - 1) len := fun h => least (a - 1) (by omega) ⟨by omega, by omega, h⟩
    simp only [Free, not_forall, not_or] at blocked
    obtain ⟨v, hv, hstart, hend⟩ := blocked
    refine List.mem_cons_of_mem _ (List.mem_map.mpr ⟨v, hv, ?_⟩)
    rcases hfree v hv with h | h <;> omega
  · rintro ⟨a, -, h⟩
    exact ⟨a, h⟩

instance (mm : MmStruct) (lo len : Nat) : Decidable (mm.Gap lo len) :=
  decidable_of_iff _ (mm.gap_iff lo len).symm

/-- The lowest place for `len` bytes at or above `lo`. -/
structure LowestGap (mm : MmStruct) (lo len a : Nat) : Prop where
  above : lo ≤ a
  fits : a + len < 2 ^ 64
  free : mm.Free a len
  lowest : ∀ b, lo ≤ b → b < a → ¬mm.Free b len

theorem LowestGap.gap {lo a : Nat} (lowest : mm.LowestGap lo len a) : mm.Gap lo len :=
  ⟨a, lowest.above, lowest.fits, lowest.free⟩

theorem LowestGap.unique {lo a b : Nat} (ha : mm.LowestGap lo len a) (hb : mm.LowestGap lo len b) :
    a = b := by
  rcases Nat.lt_trichotomy a b with h | h | h
  · exact absurd ha.free (hb.lowest a ha.above h)
  · exact h
  · exact absurd hb.free (ha.lowest b hb.above h)

/-- The addresses have run out. -/
theorem searchGap_high {vma : Option Nat} {fuel : Nat} (high : maxAddressSpaceSize - len < addr) :
    ∃ found, mm.searchGap len (fuel + 1) vma addr = some found ∧
      (∀ a ∈ found, mm.LowestGap addr len a) ∧ (mm.Gap addr len → found.isSome) := by
  refine ⟨none, if_pos high, by simp, ?_⟩
  rintro ⟨g, hg, hfit, -⟩
  rw [maxAddressSpaceSize] at high
  omega

/-- The areas before `v` end before it, and those behind it end after it. -/
theorem Sorted.ends_split (sorted : Sorted mm) {before after : List Nat} {v : Nat}
    (split : mm.areas = before ++ v :: after) :
    (∀ w ∈ before ++ [v], (mm.area w).vmEnd ≤ (mm.area v).vmEnd) ∧
      ∀ w ∈ after, (mm.area v).vmEnd < (mm.area w).vmEnd := by
  obtain ⟨-, behind, across⟩ := List.pairwise_append.mp (split ▸ sorted.apart)
  refine ⟨fun w hw => ?_, fun w hw => ?_⟩
  · rcases List.mem_append.mp hw with hw | hw
    · have := across w hw v List.mem_cons_self
      have := (sorted.bounds v (by simp [split])).1
      omega
    · rw [List.mem_singleton.mp hw]
  · have := (List.pairwise_cons.mp behind).1 w hw
    have := (sorted.bounds w (by simp [split, hw])).1
    omega

/-- Every place from `addr` on that is free lies behind an area that is in the way. -/
theorem Free.behind {v b : Nat} (hv : v ∈ mm.areas) (hmeets : (mm.area v).vmStart < addr + len)
    (hb : addr ≤ b) (free : mm.Free b len) : (mm.area v).vmEnd ≤ b := by
  rcases free v hv with h | h <;> omega

/-- The loop ends; what it finds is the lowest gap, and it finds something if there is one. The
areas `before` have been passed, `after` are still to come. -/
theorem searchGap_spec (sorted : Sorted mm) (hlen : len < 2 ^ 64) {before after : List Nat}
    {fuel : Nat} (split : mm.areas = before ++ after)
    (hbefore : ∀ v ∈ before, (mm.area v).vmEnd ≤ addr)
    (hafter : ∀ v ∈ after, addr < (mm.area v).vmEnd) (hfuel : after.length < fuel) :
    ∃ found, mm.searchGap len fuel after.head? addr = some found ∧
      (∀ a ∈ found, mm.LowestGap addr len a) ∧ (mm.Gap addr len → found.isSome) := by
  obtain ⟨fuel, rfl⟩ := Nat.exists_eq_succ_of_ne_zero (Nat.ne_of_gt (Nat.zero_lt_of_lt hfuel))
  induction after generalizing before addr fuel with
  | nil =>
    rcases Nat.lt_or_ge (maxAddressSpaceSize - len) addr with high | low
    · exact searchGap_high high
    · refine ⟨some addr, if_neg (Nat.not_lt.mpr low), ?_, fun _ => rfl⟩
      rintro a ⟨⟩
      rw [maxAddressSpaceSize] at low
      exact ⟨Nat.le_refl _, by omega, sorted.free_between split hbefore (by simp),
        fun b _ _ => by omega⟩
  | cons v after ih =>
    have hv : v ∈ mm.areas := by simp [split]
    rcases Nat.lt_or_ge (maxAddressSpaceSize - len) addr with high | low
    · exact searchGap_high high
    have hfit : addr + len < 2 ^ 64 := by
      rw [maxAddressSpaceSize] at low
      omega
    have hmod : (addr + len) % 2 ^ 64 = addr + len := Nat.mod_eq_of_lt hfit
    have hstep : mm.searchGap len (fuel + 1) (some v) addr =
        if addr + len ≤ (mm.area v).vmStart then some (some addr)
        else mm.searchGap len fuel (mm.area v).vmNext (mm.area v).vmEnd := by
      simp only [searchGap, if_neg (Nat.not_lt.mpr low), endsBefore, Option.all_some, hmod,
        decide_eq_true_eq]
    rw [List.head?_cons, hstep]
    rcases Nat.lt_or_ge (mm.area v).vmStart (addr + len) with hmeets | hends
    · have hnext : (mm.area v).vmNext = after.head? := (split ▸ sorted.chain).suffix.2.head?
      obtain ⟨passed, hpast⟩ := sorted.ends_split split
      have hfuel' : after.length < fuel := by simpa using hfuel
      obtain ⟨fuel, rfl⟩ := Nat.exists_eq_succ_of_ne_zero (Nat.ne_of_gt (Nat.zero_lt_of_lt hfuel'))
      obtain ⟨found, hsearch, hlowest, hgap⟩ := ih (by simpa using split) passed hpast fuel hfuel'
      refine ⟨found, by rw [if_neg (by omega), hnext, hsearch], fun a ha => ?_, ?_⟩
      · obtain ⟨habove, hfits, hfree, hleast⟩ := hlowest a ha
        have := hafter v List.mem_cons_self
        refine ⟨by omega, hfits, hfree, fun b hb hlt free => ?_⟩
        exact hleast b (free.behind hv hmeets hb) hlt free
      · rintro ⟨g, hg, hfit, free⟩
        exact hgap ⟨g, free.behind hv hmeets hg, hfit, free⟩
    · refine ⟨some addr, if_pos hends, ?_, fun _ => rfl⟩
      rintro a ⟨⟩
      exact ⟨Nat.le_refl _, hfit, sorted.free_between split hbefore (by simpa using hends),
        fun b _ _ => by omega⟩

theorem fullSearch_spec (sorted : Sorted mm) (hlen : len < 2 ^ 64) (start : Nat) :
    ∃ found mmapCache, mm.fullSearch start len = some (found, { mm with mmapCache }) ∧
      (∀ v ∈ mmapCache, v ∈ mm.areas) ∧ (∀ a ∈ found, mm.LowestGap start len a) ∧
      (mm.Gap start len → found.isSome) := by
  obtain ⟨mmapCache, hfind, hcache⟩ := findVma_eq sorted.ordered start
  have sorted' := sorted.setCaches hcache mm.freeAreaCache
  have hfuel : (SearchTree.upper (mm.endsAfter start) mm.areas).length < mm.fresh + 1 := by
    have := sorted.length_le_fresh
    have := (List.dropWhile_sublist (fun v => !mm.endsAfter start v) (l := mm.areas)).length_le
    rw [SearchTree.upper]
    omega
  have hbefore : ∀ v ∈ SearchTree.lower (mm.endsAfter start) mm.areas,
      (mm.area v).vmEnd ≤ start := fun v hv => by
    simpa [endsAfter] using SearchTree.not_of_mem_lower hv
  have hafter : ∀ v ∈ SearchTree.upper (mm.endsAfter start) mm.areas,
      start < (mm.area v).vmEnd := fun v hv => by
    simpa [endsAfter] using SearchTree.of_mem_upper (sorted.ordered.threshold start) hv
  obtain ⟨found, hsearch, hlowest, hgap⟩ := searchGap_spec sorted' hlen
    (SearchTree.lower_append_upper (mm.endsAfter start) mm.areas).symm hbefore hafter hfuel
  have same : ∀ a, LowestGap { mm with mmapCache } start len a → mm.LowestGap start len a :=
    fun a h => ⟨h.above, h.fits, h.free, h.lowest⟩
  refine ⟨found, mmapCache, ?_, hcache, fun a ha => same a (hlowest a ha), hgap⟩
  rw [fullSearch, hfind, SearchTree.find?_eq_head?_upper]
  simp only [hsearch, Option.bind_eq_bind, Option.bind_some, Option.pure_def]

/-- The page-aligned hint is free. -/
def HintFits (mm : MmStruct) (addr len : Nat) : Prop :=
  addr ≠ 0 ∧ pageAlign addr + len < 2 ^ 64 ∧ mm.Free (pageAlign addr) len

/-- A request for any place can be met: at its hint, or above one of the two addresses at
which the search starts. -/
def Placeable (mm : MmStruct) (addr len : Nat) : Prop :=
  mm.HintFits addr len ∨ mm.Gap mm.freeAreaCache len ∨ mm.Gap taskUnmappedBase len

instance (mm : MmStruct) (addr len : Nat) : Decidable (mm.Placeable addr len) :=
  inferInstanceAs (Decidable ((_ ∧ _ ∧ _) ∨ _ ∨ _))

/-- Where a request goes that has no place at its hint, and where the next search starts: to the
lowest gap from the cursor on, to the lowest one from the base on, or nowhere. -/
inductive SearchPlace (mm : MmStruct) (len : Nat) : Nat → Nat → Prop
  | cursor {a : Nat} (lowest : mm.LowestGap mm.freeAreaCache len a) : SearchPlace mm len a (a + len)
  | base {a : Nat} (full : ¬mm.Gap mm.freeAreaCache len)
      (lowest : mm.LowestGap taskUnmappedBase len a) : SearchPlace mm len a (a + len)
  | nowhere (full : ¬mm.Gap mm.freeAreaCache len) (full' : ¬mm.Gap taskUnmappedBase len) :
      SearchPlace mm len (err 1) mm.freeAreaCache

/-- Both rounds of the search. -/
theorem searchArea_spec (sorted : Sorted mm) (hlen : len < 2 ^ 64) :
    ∃ a mmapCache freeAreaCache,
      mm.searchArea len = some (a, { mm with mmapCache, freeAreaCache }) ∧
      (∀ v ∈ mmapCache, v ∈ mm.areas) ∧ mm.SearchPlace len a freeAreaCache := by
  obtain ⟨found, mmapCache, hfirst, hcache, hlowest, hgap⟩ :=
    fullSearch_spec sorted hlen mm.freeAreaCache
  have sorted' := sorted.setCaches hcache mm.freeAreaCache
  obtain ⟨found', mmapCache', hsecond, hcache', hlowest', hgap'⟩ :=
    fullSearch_spec sorted' hlen taskUnmappedBase
  simp only [searchArea, hfirst, Option.bind_eq_bind, Option.bind_some]
  cases found with
  | some a =>
    have place := SearchPlace.cursor (hlowest a rfl)
    rw [← Nat.mod_eq_of_lt (hlowest a rfl).fits] at place
    exact ⟨a, mmapCache, _, rfl, hcache, place⟩
  | none =>
    have full : ¬mm.Gap mm.freeAreaCache len := fun h => by cases hgap h
    by_cases hstart : mm.freeAreaCache = taskUnmappedBase
    · exact ⟨err 1, mmapCache, mm.freeAreaCache, by simp [hstart], hcache,
        .nowhere full (hstart ▸ full)⟩
    · simp only [Option.isNone_none, true_and, ne_eq, hstart, not_false_eq_true, if_true, hsecond,
        Option.bind_some]
      cases found' with
      | some a =>
        have lowest : mm.LowestGap taskUnmappedBase len a := by
          obtain ⟨habove, hfits, hfree, hleast⟩ := hlowest' a rfl
          exact ⟨habove, hfits, hfree, hleast⟩
        have place := SearchPlace.base full lowest
        rw [← Nat.mod_eq_of_lt lowest.fits] at place
        exact ⟨a, mmapCache', _, rfl, hcache', place⟩
      | none =>
        exact ⟨err 1, mmapCache', mm.freeAreaCache, rfl, hcache',
          .nowhere full fun h => by cases hgap' h⟩

/-- The test of the hint is exact. -/
theorem endsBefore_iff_free (sorted : Sorted mm) (hfit : addr + len < 2 ^ 64) :
    mm.endsBefore (mm.areas.find? (mm.endsAfter addr)) addr len = true ↔ mm.Free addr len := by
  have test : mm.endsBefore (mm.areas.find? (mm.endsAfter addr)) addr len = true ↔
      ∀ v ∈ mm.areas.find? (mm.endsAfter addr), addr + len ≤ (mm.area v).vmStart := by
    rw [endsBefore, Nat.mod_eq_of_lt hfit]
    cases mm.areas.find? (mm.endsAfter addr) <;> simp
  rw [test]
  constructor
  · intro hafter
    rw [SearchTree.find?_eq_head?_upper] at hafter
    refine sorted.free_between (SearchTree.lower_append_upper _ _).symm (fun v hv => ?_) hafter
    simpa [endsAfter] using SearchTree.not_of_mem_lower hv
  · intro free v hv
    have hend : addr < (mm.area v).vmEnd := by simpa [endsAfter] using List.find?_some hv
    rcases free v (List.mem_of_find?_eq_some hv) with h | h
    · exact h
    · omega

/-- Where a request for any place goes, and where the next search starts: to its hint if that is
free, and otherwise where the search leads. -/
inductive Placement (mm : MmStruct) (addr len : Nat) : Nat → Nat → Prop
  | hint (fits : mm.HintFits addr len) : Placement mm addr len (pageAlign addr) mm.freeAreaCache
  | search {a cursor : Nat} (occupied : ¬mm.HintFits addr len)
      (place : mm.SearchPlace len a cursor) : Placement mm addr len a cursor

/-- A place is free, or there is none. -/
theorem Placement.free {a cursor : Nat} (place : mm.Placement addr len a cursor) :
    a + len < 2 ^ 64 ∧ mm.Free a len ∨ a = err 1 ∧ ¬mm.Placeable addr len := by
  cases place with
  | hint fits => exact .inl fits.2
  | search occupied place =>
    cases place with
    | cursor lowest => exact .inl ⟨lowest.fits, lowest.free⟩
    | base _ lowest => exact .inl ⟨lowest.fits, lowest.free⟩
    | nowhere full full' => exact .inr ⟨rfl, fun h => h.elim occupied fun h => h.elim full full'⟩

theorem SearchPlace.unique {a b next next' : Nat} (ha : mm.SearchPlace len a next)
    (hb : mm.SearchPlace len b next') : a = b := by
  cases ha with
  | cursor lowest =>
    cases hb with
    | cursor lowest' => exact lowest.unique lowest'
    | base full _ => exact absurd lowest.gap full
    | nowhere full _ => exact absurd lowest.gap full
  | base full lowest =>
    cases hb with
    | cursor lowest' => exact absurd lowest'.gap full
    | base _ lowest' => exact lowest.unique lowest'
    | nowhere _ full' => exact absurd lowest.gap full'
  | nowhere full full' =>
    cases hb with
    | cursor lowest' => exact absurd lowest'.gap full
    | base _ lowest' => exact absurd lowest'.gap full'
    | nowhere _ _ => rfl

theorem Placement.unique {a b next next' : Nat} (ha : mm.Placement addr len a next)
    (hb : mm.Placement addr len b next') : a = b := by
  cases ha with
  | hint fits =>
    cases hb with
    | hint _ => rfl
    | search occupied _ => exact absurd fits occupied
  | search occupied place =>
    cases hb with
    | hint fits => exact absurd fits occupied
    | search _ place' => exact place.unique place'

/-- After a search that has found a place the next one starts behind it. -/
theorem Placement.cursor_eq {a cursor : Nat} (place : mm.Placement addr len a cursor) :
    mm.HintFits addr len ∨ a = err 1 ∨ cursor = a + len := by
  cases place with
  | hint fits => exact .inl fits
  | search occupied place =>
    cases place with
    | cursor _ => exact .inr (.inr rfl)
    | base _ _ => exact .inr (.inr rfl)
    | nowhere _ _ => exact .inr (.inl rfl)

theorem getUnmappedArea_spec (sorted : Sorted mm) {flags : Nat}
    (hlen : len ≤ taskSize - mmapMinAddr) (hflags : flags &&& mapFixed = 0) :
    ∃ a mmapCache freeAreaCache,
      mm.getUnmappedArea addr len flags = some (a, { mm with mmapCache, freeAreaCache }) ∧
      (∀ v ∈ mmapCache, v ∈ mm.areas) ∧ mm.Placement addr len a freeAreaCache := by
  have hlen64 : len < 2 ^ 64 := Nat.lt_of_le_of_lt hlen (by decide)
  have hmax : maxAddressSpaceSize = 2 ^ 64 - 1 := rfl
  rw [getUnmappedArea, if_neg (Nat.not_lt.mpr hlen), if_neg (not_not.mpr hflags)]
  by_cases hzero : addr = 0
  · obtain ⟨a, mmapCache, freeAreaCache, hsearch, hcache, place⟩ := searchArea_spec sorted hlen64
    exact ⟨a, mmapCache, freeAreaCache, by simpa [hzero] using hsearch, hcache,
      .search (fun h => h.1 hzero) place⟩
  obtain ⟨mmapCache, hfind, hcache⟩ := findVma_eq sorted.ordered (pageAlign addr)
  have sorted' := sorted.setCaches hcache mm.freeAreaCache
  simp only [ne_eq, hzero, not_false_eq_true, if_true, hfind, true_and]
  split
  next htest =>
    have hfit : pageAlign addr + len < 2 ^ 64 := by omega
    have hfree := (endsBefore_iff_free sorted hfit).mp htest.2
    exact ⟨_, mmapCache, mm.freeAreaCache, rfl, hcache, .hint ⟨hzero, hfit, hfree⟩⟩
  next htest =>
    obtain ⟨a, mmapCache', freeAreaCache, hsearch, hcache', place⟩ := searchArea_spec sorted' hlen64
    refine ⟨a, mmapCache', freeAreaCache, hsearch, hcache', .search ?_ ?_⟩
    · rintro ⟨-, hfit, hfree⟩
      exact htest ⟨by omega, (endsBefore_iff_free sorted hfit).mpr hfree⟩
    · -- the cache of `find_vma` plays no part in where the gaps are
      cases place with
      | cursor lowest => exact .cursor ⟨lowest.above, lowest.fits, lowest.free, lowest.lowest⟩
      | base full lowest => exact .base full ⟨lowest.above, lowest.fits, lowest.free, lowest.lowest⟩
      | nowhere full full' => exact .nowhere full full'

end Search

end KernelTravel.Mm.MmStruct

import KernelTravel.Mm.VmaRuns

/-!
# What the searches of the memory areas return

`find_vma` and `find_vma_prepare` walk the tree in the same way. The first one returns the
area that ends first after an address. The second one returns the same area and, unless
the area covers the address, stores the neighbour below it and the empty place in the tree
between the two. `get_unmapped_area` uses the first search and the list for a free range.
-/

namespace KernelTravel.Mm.MmStruct

/-- `find_vma_prepare` with its return value `vma`; nothing is stored where it returns early. -/
def prepareIn (mm : MmStruct) (addr : Nat) :
    SearchTree Nat → Option Nat → Option Nat → Option Nat → Option Nat × Option Place
  | .leaf, vma, prev, parent => (vma, some ⟨prev, parent, []⟩)
  | .node left v right, vma, prev, _ =>
    if addr < (mm.area v).vmEnd then
      if (mm.area v).vmStart ≤ addr then (some v, none)
      else
        let (vma, place) := mm.prepareIn addr left (some v) prev (some v)
        (vma, place.map fun place => { place with link := false :: place.link })
    else
      let (vma, place) := mm.prepareIn addr right vma (some v) (some v)
      (vma, place.map fun place => { place with link := true :: place.link })

/-- The return value and what is stored at `prev_vma`, `rb_link` and `rb_parent`. -/
def prepare (mm : MmStruct) (addr : Nat) : Option Nat × Option Place :=
  mm.prepareIn addr mm.mmRb none none none

/-- No area covers the address. -/
def Uncovered (mm : MmStruct) (addr : Nat) : Prop :=
  ∀ v ∈ mm.areas, ¬((mm.area v).vmStart ≤ addr ∧ addr < (mm.area v).vmEnd)

/-- The area with the smallest end above the address; `none` if no area ends above it. -/
def FirstAfter (mm : MmStruct) (addr : Nat) : Option Nat → Prop
  | none => ∀ v ∈ mm.areas, (mm.area v).vmEnd ≤ addr
  | some v => v ∈ mm.areas ∧ addr < (mm.area v).vmEnd ∧
      ∀ w ∈ mm.areas, addr < (mm.area w).vmEnd → (mm.area v).vmEnd ≤ (mm.area w).vmEnd

/-- The stored place lies between `vma` and its predecessor, and a node that is linked there
with an area that begins at the address keeps the order of the tree. -/
def PlaceRight (mm : MmStruct) (addr : Nat) (vma : Option Nat) (place : Place) : Prop :=
  ∃ before after, mm.areas = before ++ after ∧ place.prev = before.getLast? ∧ vma = after.head? ∧
    ∀ (area : Nat → VmArea) (new : Nat), (area new).vmStart = addr →
      (∀ v ∈ mm.areas, area v = mm.area v) →
      ∃ t, mm.mmRb.insertAt place.link new = some t ∧ t.inorder = before ++ new :: after ∧
        t.inorder.Pairwise fun v w => (area v).vmStart ≤ (area w).vmStart

section Find

variable {mm : MmStruct} {addr : Nat}

/-- The two functions make the same walk. -/
theorem prepareIn_eq (t : SearchTree Nat) (vma prev parent : Option Nat) :
    mm.prepareIn addr t vma prev parent =
      (mm.findVmaIn addr t vma, mm.findVmaPrepareIn addr t prev parent) := by
  induction t generalizing vma prev parent with
  | leaf => rfl
  | node left v right ihl ihr =>
    simp only [prepareIn, findVmaIn, findVmaPrepareIn, ihl, ihr]
    by_cases hend : addr < (mm.area v).vmEnd
    · by_cases hstart : (mm.area v).vmStart ≤ addr
      · simp [hend, hstart]
      · simp [hend, hstart]
    · simp [hend]

theorem firstAfter_find? (ordered : Ordered mm) :
    mm.FirstAfter addr (mm.areas.find? (mm.endsAfter addr)) := by
  cases hfind : mm.areas.find? (mm.endsAfter addr) with
  | none =>
    intro v hv
    simpa [endsAfter] using List.find?_eq_none.mp hfind v hv
  | some v =>
    obtain ⟨hv, before, after, hsplit, hbefore⟩ := List.find?_eq_some_iff_append.mp hfind
    refine ⟨by simp [hsplit], by simpa [endsAfter] using hv, ?_⟩
    intro w hw hend
    rw [hsplit] at hw
    rcases List.mem_append.mp hw with hw | hw
    · have := hbefore w hw
      simp [endsAfter, hend] at this
    rcases List.mem_cons.mp hw with rfl | hw
    · exact Nat.le_refl _
    · have behind := (List.pairwise_append.mp (hsplit ▸ ordered.apart)).2.1
      have hle := (List.pairwise_cons.mp behind).1 w hw
      have hrange := ordered.range w (by simp [hsplit, hw])
      exact Nat.le_trans hle hrange

/-- The in-order sequence with a new area between its two parts. -/
theorem pairwise_start_insert (ordered : Ordered mm) {before after : List Nat}
    {area : Nat → VmArea} {new : Nat} (split : mm.areas = before ++ after)
    (hnew : (area new).vmStart = addr) (hold : ∀ v ∈ mm.areas, area v = mm.area v)
    (hbefore : ∀ v ∈ before, (mm.area v).vmEnd ≤ addr)
    (hafter : ∀ v ∈ after, addr ≤ (mm.area v).vmStart) :
    (before ++ new :: after).Pairwise fun v w => (area v).vmStart ≤ (area w).vmStart := by
  have old : mm.areas.Pairwise fun v w => (area v).vmStart ≤ (area w).vmStart := by
    refine ordered.apart.imp_of_mem fun {v w} hv hw hle => ?_
    rw [hold v hv, hold w hw]
    exact Nat.le_trans (ordered.range v hv) hle
  have inBefore : ∀ v ∈ before, v ∈ mm.areas := fun v hv => split ▸ List.mem_append_left _ hv
  have inAfter : ∀ v ∈ after, v ∈ mm.areas := fun v hv => split ▸ List.mem_append_right _ hv
  obtain ⟨keptBefore, keptAfter, cross⟩ := List.pairwise_append.mp (split ▸ old)
  refine List.pairwise_append.mpr ⟨keptBefore, List.pairwise_cons.mpr ⟨?_, keptAfter⟩, ?_⟩
  · intro v hv
    rw [hnew, hold v (inAfter v hv)]
    exact hafter v hv
  · intro v hv w hw
    rcases List.mem_cons.mp hw with rfl | hw
    · rw [hnew, hold v (inBefore v hv)]
      exact Nat.le_trans (ordered.range v (inBefore v hv)) (hbefore v hv)
    · exact cross v hv w hw

/-- The place that is stored for an address that no area covers. -/
theorem prepare_right (ordered : Ordered mm) (uncovered : mm.Uncovered addr) :
    ∃ place, mm.prepare addr = (mm.areas.find? (mm.endsAfter addr), some place) ∧
      mm.PlaceRight addr (mm.areas.find? (mm.endsAfter addr)) place := by
  have threshold := ordered.threshold addr
  have above : ∀ v ∈ mm.areas, addr < (mm.area v).vmEnd → addr < (mm.area v).vmStart := by
    intro v hv hend
    have := uncovered v hv
    omega
  obtain ⟨place, hplace, hlink, hprev, -⟩ :=
    findVmaPrepareIn_eq mm.mmRb none none threshold above
  have hvma : mm.findVmaIn addr mm.mmRb none = mm.areas.find? (mm.endsAfter addr) := by
    rw [findVmaIn_eq mm.mmRb none ordered.apart threshold, Option.or_none, areas]
  have split := (SearchTree.lower_append_upper (mm.endsAfter addr) mm.areas).symm
  refine ⟨place, by rw [prepare, prepareIn_eq, hplace, hvma], _, _, split, ?_, ?_, ?_⟩
  · rw [hprev, Option.or_none, areas]
  · exact SearchTree.find?_eq_head?_upper _ _
  · intro area new hnew hold
    obtain ⟨t, hinsert, hinorder⟩ := mm.mmRb.insertAt_slot threshold new
    refine ⟨t, hlink ▸ hinsert, hinorder, hinorder ▸ ?_⟩
    refine pairwise_start_insert ordered split hnew hold ?_ ?_
    · intro v hv
      simpa [endsAfter] using SearchTree.not_of_mem_lower hv
    · intro v hv
      have hend : addr < (mm.area v).vmEnd := by
        simpa [endsAfter] using SearchTree.of_mem_upper threshold hv
      exact Nat.le_of_lt (above v (split ▸ List.mem_append_right _ hv) hend)

end Find

/-- Over a tree of disjoint areas in order, `find_vma` returns the area that ends first after
the address and keeps the tree and its cache in order, and `find_vma_prepare` returns the same
area with the place for a new one, if no area covers the address. -/
theorem findVma_and_prepare {mm : MmStruct} (ordered : Ordered mm) (addr : Nat) :
    mm.FirstAfter addr (mm.findVma addr).1 ∧
      (∃ mmapCache, (mm.findVma addr).2 = { mm with mmapCache } ∧ ∀ v ∈ mmapCache, v ∈ mm.areas) ∧
      (mm.Uncovered addr → ∃ place, mm.prepare addr = ((mm.findVma addr).1, some place) ∧
        mm.PlaceRight addr (mm.findVma addr).1 place) := by
  obtain ⟨mmapCache, hfind, hcache⟩ := findVma_eq ordered addr
  rw [hfind]
  exact ⟨firstAfter_find? ordered, ⟨mmapCache, rfl, hcache⟩, prepare_right ordered⟩

/-- Two areas with a hole between them, the second one in the cache. -/
def twoAreas : MmStruct where
  area v := if v = 0 then ⟨0x1000, 0x3000, some 1⟩ else ⟨0x5000, 0x6000, none⟩
  fresh := 2
  mmap := some 0
  mmRb := .node .leaf 0 (.node .leaf 1 .leaf)
  mmapCache := some 1
  freeAreaCache := 0x2000
  mapCount := 2

theorem twoAreas_sorted : Sorted twoAreas := by
  refine ⟨?_, ?_, ?_, ⟨rfl, rfl, rfl⟩, ?_⟩
  · simp [twoAreas, areas, SearchTree.inorder]
  · simp [twoAreas, areas, SearchTree.inorder]
  · simp [twoAreas, areas, SearchTree.inorder]
  · simp [twoAreas, areas, SearchTree.inorder]

theorem findVma_and_prepare_twoAreas : Ordered twoAreas ∧ twoAreas.Uncovered 0x3000 ∧
    twoAreas.FirstAfter 0x3000 (some 1) ∧ (twoAreas.prepare 0x3000).1 = some 1 := by
  have uncovered : twoAreas.Uncovered 0x3000 := by
    simp [Uncovered, twoAreas, areas, SearchTree.inorder]
  obtain ⟨hfirst, -, hplace⟩ := findVma_and_prepare twoAreas_sorted.ordered 0x3000
  obtain ⟨place, hprepare, -⟩ := hplace uncovered
  exact ⟨twoAreas_sorted.ordered, uncovered, hfirst, congrArg Prod.fst hprepare⟩

/-- Without `MAP_FIXED`, `get_unmapped_area` ends. What it returns is one of its two error
values, or the start of a range that does not wrap and meets no area; after a search the
next one starts behind that range. -/
theorem getUnmappedArea_right {mm : MmStruct} (sorted : Sorted mm) (addr len : Nat) {flags : Nat}
    (hflags : flags &&& mapFixed = 0) :
    ∃ a mmapCache freeAreaCache,
      mm.getUnmappedArea addr len flags = some (a, { mm with mmapCache, freeAreaCache }) ∧
      (a = err 1 ∨ a = err enomem ∨
        (a + len < 2 ^ 64 ∧ mm.Free a len) ∧
        (¬mm.HintFits addr len → freeAreaCache = a + len)) := by
  rcases Nat.lt_or_ge (taskSize - mmapMinAddr) len with hlong | hlen
  · exact ⟨_, mm.mmapCache, mm.freeAreaCache, if_pos hlong, .inr (.inl rfl)⟩
  obtain ⟨a, mmapCache, freeAreaCache, hget, -, place⟩ :=
    @getUnmappedArea_spec _ addr _ sorted _ hlen hflags
  have hcursor := place.cursor_eq
  refine ⟨a, mmapCache, freeAreaCache, hget, ?_⟩
  rcases place.free with hfree | ⟨herr, -⟩
  · by_cases herr : a = err 1
    · exact .inl herr
    · exact .inr (.inr ⟨hfree, fun hhint => (hcursor.resolve_left hhint).resolve_left herr⟩)
  · exact .inl herr

theorem getUnmappedArea_right_twoAreas : Sorted twoAreas ∧
    ∃ a mmapCache freeAreaCache, twoAreas.getUnmappedArea 0 0x2000 0 =
      some (a, { twoAreas with mmapCache, freeAreaCache }) :=
  ⟨twoAreas_sorted, (getUnmappedArea_right twoAreas_sorted 0 0x2000 (by decide)).imp
    fun _ => Exists.imp fun _ => Exists.imp fun _ => And.left⟩

end KernelTravel.Mm.MmStruct

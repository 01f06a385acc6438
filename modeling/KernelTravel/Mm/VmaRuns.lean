import KernelTravel.Lib.Run
import KernelTravel.Mm.VmaSearch

/-!
# Runs of the address space

A range that meets no area and ends below 2^64 can be linked in: `find_vma_prepare` then
reaches the place between its neighbours. `VmaSafe` is what a request has to satisfy for
that; every run of such requests keeps list, tree and counter in agreement.
-/

namespace KernelTravel.Mm

namespace MmStruct

/-! ## Linking a new area -/

section Insert

variable {mm : MmStruct} {addr len : Nat}

/-- With no area over the address, the descent ends where the threshold is, the last
area it went right at is the predecessor, and without one the parent is the first area. -/
theorem findVmaPrepareIn_eq (t : SearchTree Nat) (prev parent : Option Nat)
    (threshold : SearchTree.Threshold (mm.endsAfter addr) t.inorder)
    (uncovered : ∀ v ∈ t.inorder, addr < (mm.area v).vmEnd → addr < (mm.area v).vmStart) :
    ∃ place, mm.findVmaPrepareIn addr t prev parent = some place ∧
      place.link = t.slot (mm.endsAfter addr) ∧
      place.prev = (SearchTree.lower (mm.endsAfter addr) t.inorder).getLast?.or prev ∧
      (SearchTree.lower (mm.endsAfter addr) t.inorder = [] →
        place.parent = t.inorder.head?.or parent) := by
  induction t generalizing prev parent with
  | leaf => exact ⟨_, rfl, rfl, rfl, fun _ => rfl⟩
  | node left v right ihl ihr =>
    have hleft := (List.pairwise_append.mp threshold).1
    have hright := (List.pairwise_append.mp threshold).2.1.of_cons
    cases hv : mm.endsAfter addr v with
    | true =>
      have hend : addr < (mm.area v).vmEnd := by simpa [endsAfter] using hv
      have hstart := uncovered v (by simp [SearchTree.inorder]) hend
      obtain ⟨place, hplace, hlink, hprev, hparent⟩ := ihl prev (some v) hleft
        fun w hw => uncovered w (by simp [SearchTree.inorder, hw])
      obtain ⟨hlower, -⟩ := @SearchTree.parts_of_true _ _ v left.inorder right.inorder hv
      refine ⟨{ place with link := false :: place.link }, ?_, ?_, ?_, ?_⟩
      · simp [findVmaPrepareIn, hend, Nat.not_le.mpr hstart, hplace]
      · simp [SearchTree.slot, hv, hlink]
      · simpa only [SearchTree.inorder, hlower] using hprev
      · intro hnil
        rw [SearchTree.inorder, hlower] at hnil
        rw [hparent hnil, SearchTree.inorder]
        cases left.inorder <;> rfl
    | false =>
      have hend : ¬addr < (mm.area v).vmEnd := by simpa [endsAfter] using hv
      obtain ⟨place, hplace, hlink, hprev, -⟩ := ihr (some v) (some v) hright
        fun w hw => uncovered w (by simp [SearchTree.inorder, hw])
      obtain ⟨hlower, -⟩ := SearchTree.parts_of_false threshold hv
      refine ⟨{ place with link := true :: place.link }, ?_, ?_, ?_, ?_⟩
      · simp [findVmaPrepareIn, hend, hplace]
      · simp [SearchTree.slot, hv, hlink]
      · rw [SearchTree.inorder, hlower, hprev]
        cases SearchTree.lower (mm.endsAfter addr) right.inorder <;> simp [List.getLast?_cons]
      · intro hnil
        simp [SearchTree.inorder, hlower] at hnil

/-- A new area between two neighbours. -/
theorem Inv.insert (inv : Inv mm) {mm' : MmStruct} {before after : List Nat}
    (split : mm.areas = before ++ after) (hbefore : ∀ v ∈ before, (mm.area v).vmEnd ≤ addr)
    (hafter : ∀ v ∈ after, addr + len ≤ (mm.area v).vmStart)
    (hpos : 0 < len) (hfit : addr + len < 2 ^ 64) (hareas : mm'.areas = before ++ mm.fresh :: after)
    (hnew : (mm'.area mm.fresh).vmStart = addr ∧ (mm'.area mm.fresh).vmEnd = addr + len)
    (hold : ∀ v ≠ mm.fresh, (mm'.area v).vmStart = (mm.area v).vmStart ∧
      (mm'.area v).vmEnd = (mm.area v).vmEnd) (hfresh : mm'.fresh = mm.fresh + 1)
    (hchain : Chain.Follows (fun v => (mm'.area v).vmNext) mm'.mmap mm'.areas)
    (hcount : mm'.mapCount = mm.mapCount + 1) (hcache : mm'.mmapCache = mm.mmapCache) :
    Inv mm' := by
  have hne : ∀ v ∈ mm.areas, v ≠ mm.fresh := fun v hv => Nat.ne_of_lt (inv.fresh v hv)
  have hperm : ∀ v, v ∈ mm'.areas ↔ v = mm.fresh ∨ v ∈ mm.areas := by
    intro v
    rw [hareas, split, List.mem_append, List.mem_append, List.mem_cons]
    tauto
  have kept : mm.areas.Pairwise fun v w => (mm'.area v).vmEnd ≤ (mm'.area w).vmStart := by
    refine inv.apart.imp_of_mem fun {v w} hv hw h => ?_
    rwa [(hold v (hne v hv)).2, (hold w (hne w hw)).1]
  rw [split] at kept
  obtain ⟨keptBefore, keptAfter, cross⟩ := List.pairwise_append.mp kept
  have inBefore : ∀ v ∈ before, v ∈ mm.areas := fun v hv => split ▸ List.mem_append_left _ hv
  have inAfter : ∀ v ∈ after, v ∈ mm.areas := fun v hv => split ▸ List.mem_append_right _ hv
  refine ⟨?_, ?_, ?_, hchain, ?_, ?_⟩
  · rw [hareas]
    refine List.pairwise_append.mpr ⟨keptBefore, List.pairwise_cons.mpr ⟨?_, keptAfter⟩, ?_⟩
    · intro v hv
      rw [hnew.2, (hold v (hne v (inAfter v hv))).1]
      exact hafter v hv
    · intro v hv w hw
      rcases List.mem_cons.mp hw with rfl | hw
      · rw [hnew.1, (hold v (hne v (inBefore v hv))).2]
        exact hbefore v hv
      · exact cross v hv w hw
  · intro v hv
    rcases (hperm v).mp hv with rfl | hv
    · rw [hnew.1, hnew.2]
      exact ⟨Nat.lt_add_of_pos_right hpos, hfit⟩
    · rw [(hold v (hne v hv)).1, (hold v (hne v hv)).2]
      exact inv.bounds v hv
  · intro v hv
    rw [hfresh]
    rcases (hperm v).mp hv with rfl | hv
    · exact Nat.lt_succ_self _
    · exact Nat.lt_succ_of_lt (inv.fresh v hv)
  · rw [hcount, inv.count, hareas, split]
    simp only [List.length_append, List.length_cons]
    omega
  · intro v hv
    exact (hperm v).mpr (.inr (inv.cache v (hcache ▸ hv)))

/-- The place for an area is found whenever no area covers its address. -/
theorem addArea_isSome (rbInsertColor : SearchTree Nat → SearchTree Nat) (inv : Inv mm)
    (uncovered : ∀ v ∈ mm.areas, addr < (mm.area v).vmEnd → addr < (mm.area v).vmStart)
    (len : Nat) : ∃ mm', mm.addArea rbInsertColor addr len (mm.findVmaPrepare addr) = some mm' := by
  have threshold := inv.sorted.ordered.threshold addr
  obtain ⟨⟨prev, parent, link⟩, hplace, rfl, -⟩ :=
    findVmaPrepareIn_eq mm.mmRb none none threshold uncovered
  obtain ⟨t, hinsert, -⟩ := mm.mmRb.insertAt_slot threshold mm.fresh
  simp [addArea, findVmaPrepare, hplace, vmaLink, hinsert]

/-- A free range becomes an area. -/
theorem addArea_spec {rbInsertColor : SearchTree Nat → SearchTree Nat}
    (color : ∀ t, (rbInsertColor t).inorder = t.inorder) (inv : Inv mm) (hpos : 0 < len)
    (hfit : addr + len < 2 ^ 64) (free : mm.Free addr len) :
    ∃ mm', mm.addArea rbInsertColor addr len (mm.findVmaPrepare addr) = some mm' ∧ Inv mm' := by
  have threshold := inv.sorted.ordered.threshold addr
  have uncovered : ∀ v ∈ mm.areas, addr < (mm.area v).vmEnd → addr < (mm.area v).vmStart := by
    intro v hv hend
    rcases free v hv with h | h <;> omega
  obtain ⟨⟨prev, parent, link⟩, hplace, hlink, hprev, hparent⟩ :=
    findVmaPrepareIn_eq mm.mmRb none none threshold uncovered
  obtain ⟨t, hinsert, hinorder⟩ := mm.mmRb.insertAt_slot threshold mm.fresh
  have split := (SearchTree.lower_append_upper (mm.endsAfter addr) mm.areas).symm
  have hbefore : ∀ v ∈ SearchTree.lower (mm.endsAfter addr) mm.areas,
      (mm.area v).vmEnd ≤ addr := by
    intro v hv
    simpa [endsAfter] using SearchTree.not_of_mem_lower hv
  have hafter : ∀ v ∈ SearchTree.upper (mm.endsAfter addr) mm.areas,
      addr + len ≤ (mm.area v).vmStart := by
    intro v hv
    have hend : addr < (mm.area v).vmEnd := by
      simpa [endsAfter] using SearchTree.of_mem_upper threshold hv
    rcases free v (split ▸ List.mem_append_right _ hv) with h | h
    · exact h
    · omega
  have hfreshNot : mm.fresh ∉ mm.areas := fun h => Nat.lt_irrefl _ (inv.fresh _ h)
  have hmod : (addr + len) % 2 ^ 64 = addr + len := Nat.mod_eq_of_lt hfit
  subst hlink
  change prev = (SearchTree.lower (mm.endsAfter addr) mm.areas).getLast?.or none at hprev
  change t.inorder = SearchTree.lower (mm.endsAfter addr) mm.areas ++
    mm.fresh :: SearchTree.upper (mm.endsAfter addr) mm.areas at hinorder
  have hareas := (color t).trans hinorder
  rcases List.eq_nil_or_concat' (SearchTree.lower (mm.endsAfter addr) mm.areas) with hnil | hconcat
  · -- the new area is the first one, and the old first area is its parent
    obtain rfl : prev = none := by simpa only [hnil, List.getLast?_nil, Option.or_none] using hprev
    obtain rfl : parent = mm.mmap := by
      rw [inv.chain.head?]
      exact (hparent hnil).trans Option.or_none
    refine ⟨{ mm with
        area := Function.update mm.area mm.fresh ⟨addr, addr + len, mm.mmap⟩
        fresh := mm.fresh + 1, mmap := some mm.fresh, mmRb := rbInsertColor t
        mapCount := mm.mapCount + 1 }, ?_, inv.insert split hbefore hafter hpos hfit hareas ?_ ?_
          rfl ?_ rfl rfl⟩
    · rw [addArea, hmod]
      simp [findVmaPrepare, hplace, vmaLink, hinsert]
    · simp
    · intro v hv
      simp [hv]
    · have hupper : mm.areas = SearchTree.upper (mm.endsAfter addr) mm.areas := by
        simpa only [hnil, List.nil_append] using split
      rw [areas, hareas, hnil, List.nil_append, ← hupper]
      refine inv.chain.insert_first (by simp) hfreshNot fun v hv => ?_
      simp [hv]
  · obtain ⟨before, u, hsnoc⟩ := hconcat
    obtain rfl : prev = some u := by simpa [hsnoc] using hprev
    have hsplit : mm.areas = before ++ u :: SearchTree.upper (mm.endsAfter addr) mm.areas := by
      rw [hsnoc] at split
      simpa using split
    have hu : u ≠ mm.fresh := by
      rintro rfl
      exact hfreshNot (hsplit ▸ by simp)
    refine ⟨{ mm with
        area := Function.update
          (Function.update mm.area mm.fresh ⟨addr, addr + len, (mm.area u).vmNext⟩) u
          { mm.area u with vmNext := some mm.fresh }
        fresh := mm.fresh + 1, mmRb := rbInsertColor t
        mapCount := mm.mapCount + 1 }, ?_, inv.insert split hbefore hafter hpos hfit hareas ?_ ?_
          rfl ?_ rfl rfl⟩
    · rw [addArea, hmod]
      simp [findVmaPrepare, hplace, vmaLink, hinsert, hu]
    · simp [hu.symm]
    · intro v hv
      by_cases hvu : v = u
      · subst hvu
        simp
      · simp [hv, hvu]
    · rw [areas, hareas, hsnoc, List.append_assoc]
      refine (hsplit ▸ inv.chain).insert_after (by simp) (by simp [hu.symm])
        (hsplit ▸ inv.sorted.nodup) (hsplit ▸ hfreshNot) fun v hvu hv => ?_
      simp [hv, hvu]

/-- A range that is free stays free if the new area does not meet it. -/
theorem Free.addArea {rbInsertColor : SearchTree Nat → SearchTree Nat}
    (color : ∀ t, (rbInsertColor t).inorder = t.inorder) {mm' : MmStruct} {place : Option Place}
    (hfit : addr + len < 2 ^ 64) (h : mm.addArea rbInsertColor addr len place = some mm')
      {a n : Nat}
    (free : mm.Free a n) (apart : a + n ≤ addr ∨ addr + len ≤ a) : mm'.Free a n := by
  obtain ⟨⟨prev, parent, link⟩, -, h⟩ := Option.bind_eq_some_iff.mp h
  obtain ⟨t, hinsert, h⟩ := Option.bind_eq_some_iff.mp h
  cases h
  have hmod : (addr + len) % 2 ^ 64 = addr + len := Nat.mod_eq_of_lt hfit
  -- linking changes no bounds
  have hbounds : ∀ (f : Nat → VmArea) (v w : Nat) (next : Option Nat),
      (Function.update f w ⟨(f w).vmStart, (f w).vmEnd, next⟩ v).vmStart = (f v).vmStart ∧
        (Function.update f w ⟨(f w).vmStart, (f w).vmEnd, next⟩ v).vmEnd = (f v).vmEnd := by
    intro f v w next
    by_cases hvw : v = w
    · subst hvw
      simp
    · simp [hvw]
  intro v hv
  change v ∈ (rbInsertColor t).inorder at hv
  rw [color, (SearchTree.insertAt_perm hinsert).mem_iff, List.mem_cons] at hv
  have hold : a + n ≤
    (Function.update mm.area mm.fresh ⟨addr, (addr + len) % 2 ^ 64, none⟩ v).vmStart ∨
      (Function.update mm.area mm.fresh ⟨addr, (addr + len) % 2 ^ 64, none⟩ v).vmEnd ≤ a := by
    rw [hmod]
    by_cases hnew : v = mm.fresh
    · subst hnew
      simpa using apart
    · simpa [hnew] using free v (hv.resolve_left hnew)
  cases prev with
  | none =>
    dsimp only
    rw [(hbounds _ _ _ _).1, (hbounds _ _ _ _).2]
    exact hold
  | some prev =>
    dsimp only
    rw [(hbounds _ _ _ _).1, (hbounds _ _ _ _).2, (hbounds _ _ _ _).1, (hbounds _ _ _ _).2]
    exact hold

end Insert

/-! ## Requests -/

section Requests

/-- A placed request gets a range that is free. A range at a fixed address is taken as it is. -/
def PlaceOk (mm : MmStruct) (addr len flags : Nat) : Prop :=
  len ≤ taskSize - mmapMinAddr ∧
    (flags &&& mapFixed ≠ 0 → addr + len < 2 ^ 64 ∧ mm.Free addr len) ∧
    (flags &&& mapFixed = 0 → mm.Placeable addr len)

/-- `do_mmap` answers an error before it changes anything. -/
def MmapRefused (mm : MmStruct) (file : Option Nat) (len offset : Nat) : Prop :=
  (offset + pageAlign len) % 2 ^ 64 < offset ∨ offset % 4096 ≠ 0 ∨ pageAlign len = 0 ∨
    (offset >>> 12 + pageAlign len >>> 12) % 2 ^ 64 < offset >>> 12 ∨
    sysctlMaxMapCount < mm.mapCount ∨
    (file.isSome ∧ ¬fileMmapOk (offset >>> 12) (pageAlign len))

/-- A request of `do_mmap` that is refused, or whose range is free and does not wrap. -/
def MmapSafe (mm : MmStruct) (file : Option Nat) (addr len flags offset : Nat) : Prop :=
  mm.MmapRefused file len offset ∨
    (flags &&& mapForInitFile ≠ 0 →
      addr + pageAlign len < 2 ^ 64 ∧ mm.Free addr (pageAlign len)) ∧
    (flags &&& mapForInitFile = 0 →
      mm.PlaceOk ((addr + taskUnmappedBase) % 2 ^ 64) (pageAlign len) flags)

/-- The same for `do_brk`. -/
def BrkSafe (mm : MmStruct) (addr len : Nat) : Prop :=
  pageAlign len = 0 ∨ taskSize - mmapMinAddr < pageAlign len ∨ addr % 4096 ≠ 0 ∨
    sysctlMaxMapCount < mm.mapCount ∨
    (addr + pageAlign len < 2 ^ 64 ∧ mm.Free addr (pageAlign len))

variable {mm : MmStruct} {addr len flags : Nat}

theorem getUnmappedArea_total (inv : Inv mm) (addr len flags : Nat) :
    ∃ a mmapCache freeAreaCache,
      mm.getUnmappedArea addr len flags = some (a, { mm with mmapCache, freeAreaCache }) ∧
      (∀ v ∈ mmapCache, v ∈ mm.areas) ∧
      (mm.PlaceOk addr len flags → a + len < 2 ^ 64 ∧ mm.Free a len) := by
  rcases Nat.lt_or_ge (taskSize - mmapMinAddr) len with hlong | hlen
  · refine ⟨_, mm.mmapCache, mm.freeAreaCache, if_pos hlong, inv.cache, ?_⟩
    rintro ⟨hle, -⟩
    omega
  by_cases hfixed : flags &&& mapFixed = 0
  · obtain ⟨a, mmapCache, freeAreaCache, hget, hcache, place⟩ :=
      getUnmappedArea_spec inv.sorted hlen hfixed
    exact ⟨a, mmapCache, freeAreaCache, hget, hcache,
      fun h => place.free.resolve_right fun hnone => hnone.2 (h.2.2 hfixed)⟩
  · refine ⟨addr, mm.mmapCache, mm.freeAreaCache, ?_, inv.cache, fun h => h.2.1 hfixed⟩
    rw [getUnmappedArea, if_neg (Nat.not_lt.mpr hlen), if_pos hfixed]

variable {rbInsertColor : SearchTree Nat → SearchTree Nat}

theorem chooseAddr_spec (inv : Inv mm) (addr len flags : Nat) :
    ∃ a mmapCache freeAreaCache,
      mm.chooseAddr addr len flags = some (a, { mm with mmapCache, freeAreaCache }) ∧
      (∀ v ∈ mmapCache, v ∈ mm.areas) ∧
      ((flags &&& mapForInitFile ≠ 0 → addr + len < 2 ^ 64 ∧ mm.Free addr len) →
        (flags &&& mapForInitFile = 0 →
          mm.PlaceOk ((addr + taskUnmappedBase) % 2 ^ 64) len flags) →
        a + len < 2 ^ 64 ∧ mm.Free a len) := by
  by_cases hinit : flags &&& mapForInitFile = 0
  · obtain ⟨a, mmapCache, freeAreaCache, hget, hcache, hplace⟩ :=
      getUnmappedArea_total inv ((addr + taskUnmappedBase) % 2 ^ 64) len flags
    exact ⟨a, mmapCache, freeAreaCache, (if_pos hinit).trans hget, hcache,
      fun _ h => hplace (h hinit)⟩
  · exact ⟨addr, mm.mmapCache, mm.freeAreaCache, if_neg hinit, inv.cache, fun h _ => h hinit⟩

theorem doMmap_spec (color : ∀ t, (rbInsertColor t).inorder = t.inorder) (inv : Inv mm)
    {file : Option Nat} {offset : Nat} (safe : mm.MmapSafe file addr len flags offset) :
    ∃ r mm', mm.doMmap rbInsertColor file addr len flags offset = some (r, mm') ∧ Inv mm' := by
  rw [doMmap]
  split
  next => exact ⟨_, mm, rfl, inv⟩
  next hwrap =>
  split
  next hoffset =>
    simp only [doMmapPgoff]
    split
    next => exact ⟨_, mm, rfl, inv⟩
    next hzero =>
    split
    next => exact ⟨_, mm, rfl, inv⟩
    next hpgoff =>
    split
    next => exact ⟨_, mm, rfl, inv⟩
    next hcount =>
    obtain ⟨a, mmapCache, freeAreaCache, hchoose, hcache, hplace⟩ :=
      chooseAddr_spec inv addr (pageAlign len) flags
    have inv' := inv.setCaches hcache freeAreaCache
    simp only [hchoose, Option.bind_eq_bind, Option.bind_some]
    split
    next => exact ⟨_, _, rfl, inv'⟩
    next hfile =>
      rcases safe with refused | ⟨hinit, hplaced⟩
      · exact absurd refused (by simp only [MmapRefused]; tauto)
      · obtain ⟨hfit, hfree⟩ := hplace hinit hplaced
        obtain ⟨mm', hadd, inv''⟩ := addArea_spec color inv' (Nat.pos_of_ne_zero hzero) hfit hfree
        exact ⟨a ||| file.getD 0, mm', by rw [hadd]; rfl, inv''⟩
  next => exact ⟨_, mm, rfl, inv⟩

theorem doBrk_spec (color : ∀ t, (rbInsertColor t).inorder = t.inorder) (inv : Inv mm)
    (safe : mm.BrkSafe addr len) :
    ∃ r mm', mm.doBrk rbInsertColor addr len = some (r, mm') ∧ Inv mm' := by
  simp only [doBrk]
  split
  next => exact ⟨_, mm, rfl, inv⟩
  next hzero =>
  rcases Nat.lt_or_ge (taskSize - mmapMinAddr) (pageAlign len) with hlong | hlen
  · have herr : mm.getUnmappedArea addr (pageAlign len) mapFixed = some (err enomem, mm) :=
      if_pos hlong
    have hlow : err enomem % 4096 ≠ 0 := by decide
    simp only [herr, Option.bind_eq_bind, Option.bind_some, if_pos hlow]
    exact ⟨_, mm, rfl, inv⟩
  have hget : mm.getUnmappedArea addr (pageAlign len) mapFixed = some (addr, mm) := by
    rw [getUnmappedArea, if_neg (Nat.not_lt.mpr hlen), if_pos (by decide)]
  simp only [hget, Option.bind_eq_bind, Option.bind_some]
  split
  next => exact ⟨_, mm, rfl, inv⟩
  next haligned =>
  split
  next => exact ⟨_, mm, rfl, inv⟩
  next hcount =>
    have hrange : addr + pageAlign len < 2 ^ 64 ∧ mm.Free addr (pageAlign len) := by
      rw [BrkSafe] at safe
      have := Nat.not_lt.mpr hlen
      tauto
    obtain ⟨mm', hadd, inv'⟩ := addArea_spec color inv (Nat.pos_of_ne_zero hzero) hrange.1 hrange.2
    exact ⟨addr, mm', by rw [hadd]; rfl, inv'⟩

end Requests

/-- What the three views of an address space have to agree on. -/
structure Consistent (mm : MmStruct) : Prop where
  disjoint : mm.mmRb.inorder.Pairwise fun v w =>
    ∀ a, ¬((mm.area v).vmStart ≤ a ∧ a < (mm.area v).vmEnd ∧
      (mm.area w).vmStart ≤ a ∧ a < (mm.area w).vmEnd)
  list : Chain.Follows (fun v => (mm.area v).vmNext) mm.mmap mm.mmRb.inorder
  sorted : mm.mmRb.inorder.Pairwise fun v w => (mm.area v).vmStart < (mm.area w).vmStart
  count : mm.mapCount = mm.mmRb.inorder.length

theorem Inv.consistent {mm : MmStruct} (inv : Inv mm) : mm.Consistent := by
  refine ⟨?_, inv.chain, ?_, inv.count⟩
  · refine inv.apart.imp fun {v w} h a => ?_
    omega
  · refine inv.apart.imp_of_mem fun {v w} hv _ h => ?_
    have := (inv.bounds v hv).1
    omega

end MmStruct

/-! ## Runs -/

inductive VmaOp where
  | mmap (file : Option Nat) (addr len flags offset : Nat)
  | brk (addr len : Nat)
  | find (addr : Nat)

def vmaStep (rbInsertColor : SearchTree Nat → SearchTree Nat) (mm : MmStruct) :
    VmaOp → Option MmStruct
  | .mmap file addr len flags offset =>
    (mm.doMmap rbInsertColor file addr len flags offset).map Prod.snd
  | .brk addr len => (mm.doBrk rbInsertColor addr len).map Prod.snd
  | .find addr => some (mm.findVma addr).2

/-- The request is refused, or it gets a range that is free and does not wrap. -/
def VmaSafe (mm : MmStruct) : VmaOp → Prop
  | .mmap file addr len flags offset => mm.MmapSafe file addr len flags offset
  | .brk addr len => mm.BrkSafe addr len
  | .find _ => True

instance (mm : MmStruct) : ∀ op, Decidable (VmaSafe mm op)
  | .mmap _ _ _ _ _ => inferInstanceAs (Decidable
      ((_ ∨ _ ∨ _ ∨ _ ∨ _ ∨ (_ ∧ _)) ∨ (_ → _ ∧ _) ∧ (_ → _ ∧ (_ → _ ∧ _) ∧ (_ → _))))
  | .brk _ _ => inferInstanceAs (Decidable (_ ∨ _ ∨ _ ∨ _ ∨ (_ ∧ _)))
  | .find _ => .isTrue trivial

theorem vmaStep_inv {rbInsertColor : SearchTree Nat → SearchTree Nat}
    (color : ∀ t, (rbInsertColor t).inorder = t.inorder) (mm : MmStruct) (op : VmaOp)
    (inv : mm.Inv) (safe : VmaSafe mm op) :
    ∃ mm', vmaStep rbInsertColor mm op = some mm' ∧ mm'.Inv := by
  cases op with
  | mmap file addr len flags offset =>
    obtain ⟨r, mm', hmmap, inv'⟩ := MmStruct.doMmap_spec color inv safe
    exact ⟨mm', by simp only [vmaStep, hmmap, Option.map_some], inv'⟩
  | brk addr len =>
    obtain ⟨r, mm', hbrk, inv'⟩ := MmStruct.doBrk_spec color inv safe
    exact ⟨mm', by simp only [vmaStep, hbrk, Option.map_some], inv'⟩
  | find addr =>
    obtain ⟨mmapCache, hfind, hcache⟩ := MmStruct.findVma_eq inv.sorted.ordered addr
    exact ⟨_, by simp only [vmaStep, hfind], inv.setCaches hcache mm.freeAreaCache⟩

/-- In a run whose requests are all safe no step uses an uninitialised place, and the
areas, their list, their tree and their number agree at the end. -/
theorem vma_runs {rbInsertColor : SearchTree Nat → SearchTree Nat}
    (color : ∀ t, (rbInsertColor t).inorder = t.inorder) (freeAreaCache : Nat) (ops : List VmaOp)
    (safe : Run.Meets (vmaStep rbInsertColor) VmaSafe (MmStruct.initial freeAreaCache) ops) :
    ∃ mm, Run.exec (vmaStep rbInsertColor) (MmStruct.initial freeAreaCache) ops = some mm ∧
      mm.Consistent := by
  obtain ⟨mm, hrun, inv⟩ := Run.total (MmStruct.Inv.initial freeAreaCache) safe
    fun mm op inv hsafe => vmaStep_inv color mm op inv hsafe
  exact ⟨mm, hrun, inv.consistent⟩

/-- Placed, fixed and program-file areas, a heap and a refused request in one run. -/
def mixedRequests : List VmaOp :=
  [.mmap none 0 0x2000 0x20 0, .mmap none 0x10000 0x1000 mapFixed 0,
    .mmap (some 0) 0x1000 0x1800 mapForInitFile 0x1000, .find 0x1800, .brk 0x5000 0x1000,
    .mmap none 0 0 0 0, .mmap none 0 0x1000 0x20 0]

theorem vma_runs_mixedRequests :
    ∃ mm, Run.exec (vmaStep id) (MmStruct.initial taskUnmappedBase) mixedRequests = some mm ∧
      mm.Consistent :=
  vma_runs (fun _ => rfl) taskUnmappedBase mixedRequests (by decide +kernel)

/-- A second area placed in front of the first one and over it. -/
def overlappingRequests : List VmaOp :=
  [.mmap none 0x2000 0x1000 mapForInitFile 0, .mmap none 0x1000 0x2000 mapForInitFile 0]

theorem overlappingRequests_not_disjoint :
    ∃ mm, Run.exec (vmaStep id) (MmStruct.initial taskUnmappedBase) overlappingRequests = some mm ∧
      ¬mm.Consistent := by
  refine ⟨_, rfl, fun h => ?_⟩
  have apart := (List.pairwise_cons.mp h.disjoint).1 0 (by decide) 0x2000
  exact apart (by decide)

end KernelTravel.Mm

import KernelTravel.Mm.PageRoom
import KernelTravel.Userprog.Mmap

/-!
# Mappings without a file

The argument page at `USER_STACK` is mapped in every process. A loop that starts below it and maps
page after page stops there at the latest, so that whether a call maps anything at or above
`USER_STACK` shows at its first page. From an address below `USER_STACK` neither the number of the
entry nor that of the bit is cut off.
-/

namespace KernelTravel.Userprog

open Mm Outcome

/-- A negative error number. -/
def IsErr (r : Nat) : Prop := 2 ^ 64 - 4095 ≤ r

instance (r : Nat) : Decidable (IsErr r) := inferInstanceAs (Decidable (_ ≤ _))

namespace UserSpace

/-- The page table is sound and has the argument page. -/
def Guarded (u : UserSpace) : Prop := (∃ role, u.Sound role) ∧ u.entry argPage ≠ none

/-- What `malloc_usrpage` does for an address is right, as far as it comes. -/
structure PageRight (u : UserSpace) (vaddr : Nat) : Prop where
  entry : ∀ u', u.addPage vaddr = .ok u' → vaddr < userStack ∧
    ∃ f, ∀ n < userPages, u'.entry n = if n = vaddr / pageSize then some f else u.entry n
  bit : ∀ u', u.mallocUsrpage vaddr = .ok u' → vaddr / pageSize < btmpBytesLen * 8 ∧
    ∀ n, u'.btmp.Marked n ↔ n = vaddr / pageSize ∨ u.btmp.Marked n

/-- A range that a request could have: it lies below `USER_STACK`, meets no area and, if it is to be
mapped, no page of it is mapped. A request may fix the address. -/
structure Suitable (u : UserSpace) (c : MmapArgs) (a : Nat) : Prop where
  below : a + c.size ≤ userStack
  free : u.mm.Free a c.size
  unmapped : c.longFlags &&& mapForInitFile = 0 →
    ∀ i < c.size / pageSize, u.entry (a / pageSize + i) = none
  init : c.longFlags &&& mapForInitFile ≠ 0 → a = c.addr.toNat
  fixed : c.longFlags &&& mapForInitFile = 0 → c.longFlags &&& mapFixed ≠ 0 →
    a = (c.addr.toNat + taskUnmappedBase) % 2 ^ 64

/-- The tree of areas, the page table and the bitmap are the same. -/
structure SameTables (u u' : UserSpace) : Prop where
  tree : u'.mm.vmaTree = u.mm.vmaTree
  entry : ∀ n < userPages, u'.entry n = u.entry n
  bits : ∀ n, u'.btmp.Marked n ↔ u.btmp.Marked n

/-- `sys_mmap` is right for its arguments. -/
structure MmapRight (rbInsertColor : SearchTree Nat → SearchTree Nat) (u : UserSpace)
    (c : MmapArgs) : Prop where
  pages : ∀ ret cnt u₁, u.placeMmap rbInsertColor none c = .ok (ret, cnt, u₁) →
    ∀ i < cnt, ∀ u₂, u₁.mallocPages ret i = .ok u₂ → u₂.PageRight (pageAt ret i)
  noRange : (¬∃ a, u.Suitable c a) →
    ∃ r u', u.sysMmap rbInsertColor none c = .ok (r, u') ∧ IsErr r ∧ u.SameTables u'
  initialised : u.sysMmap rbInsertColor none c ≠ .error .fault

/-- The entry of an address is free, and when the area has taken its page there are enough for the
address and for the tables on the way to its entry. -/
def CanMap (u : UserSpace) (vaddr : Nat) : Prop :=
  u.entry (entryOf vaddr) = none ∧ u.phys.missing u.proc.pgdir vaddr + 1 < u.phys.pool.room

/-- A request whose place is searched goes below `USER_STACK`, or to an address that cannot be
mapped. -/
def StartsBelow (u : UserSpace) (c : MmapArgs) : Prop :=
  c.longFlags &&& mapForInitFile = 0 → c.longFlags &&& mapFixed = 0 → ∀ a cursor,
    u.mm.Placement ((c.addr.toNat + taskUnmappedBase) % 2 ^ 64) c.size a cursor →
      u.CanMap a → a < userStack

variable {u u' u₁ u₂ : UserSpace} {c : MmapArgs} {vaddr addr a len cnt ret i : Nat}

/-! ## One page and the loop -/

theorem mallocUsrpage_ends {role : Roles} (sound : u.Sound role) (vaddr : Nat) :
    Ends (u.mallocUsrpage vaddr)
      (fun u' => ∃ u₁ f, PageAdded u (entryOf vaddr) f u₁ ∧ BitSet u₁ (bitOf vaddr) u')
      (fun e => e = .noMemory ∨ e = .bug) := by
  refine ((addPage_ends sound vaddr).mono (fun _ h => h) fun e h => h.imp_right And.left).bind ?_
  rintro u₁ ⟨f, added⟩
  exact (setBit_ends u₁ vaddr).mono (fun u' set => ⟨u₁, f, added, set⟩) fun e h => .inr h.1

/-- A page is mapped exactly if its entry is free and there are enough pages. -/
theorem addPage_iff {role : Roles} (sound : u.Sound role) (vaddr : Nat) :
    (∃ u', u.addPage vaddr = .ok u') ↔ u.entry (entryOf vaddr) = none ∧
      u.phys.missing u.proc.pgdir vaddr < u.phys.pool.room := by
  have room : Ends (u.addPage vaddr)
      (fun _ => u.phys.missing u.proc.pgdir vaddr < u.phys.pool.room)
      (fun e => e = .noMemory → u.phys.pool.room ≤ u.phys.missing u.proc.pgdir vaddr) :=
    (Phys.malloc_room sound.placed sound.owns vaddr).bind fun _ h => h
  constructor
  · rintro ⟨u', hadd⟩
    obtain ⟨f, added⟩ := (addPage_ends sound vaddr).of_eq_ok hadd
    exact ⟨added.free, room.of_eq_ok hadd⟩
  · rintro ⟨hfree, hroom⟩
    obtain ⟨u', hadd, -⟩ := ((addPage_ends sound vaddr).and room).exists_ok <| by
      rintro e ⟨rfl | ⟨-, hmapped⟩, hfull⟩
      · exact absurd hroom (Nat.not_lt.mpr (hfull rfl))
      · exact hmapped hfree
    exact ⟨u', hadd⟩

theorem PageAdded.guarded {n f : Nat} (added : PageAdded u n f u') (guarded : u.Guarded) :
    u'.Guarded := by
  refine ⟨added.sound, ?_⟩
  rw [added.entry argPage (by decide)]
  split
  · exact Option.some_ne_none f
  · exact guarded.2

theorem BitSet.guarded {n : Nat} (set : BitSet u n u') (guarded : u.Guarded) : u'.Guarded := by
  obtain ⟨⟨role, sound⟩, harg⟩ := guarded
  exact ⟨⟨role, set.sound sound⟩, set.entry argPage ▸ harg⟩

theorem mallocUsrpage_guarded (guarded : u.Guarded) (h : u.mallocUsrpage vaddr = .ok u') :
    u'.Guarded ∧ u.entry (entryOf vaddr) = none := by
  obtain ⟨role, sound⟩ := guarded.1
  obtain ⟨u₁, f, added, set⟩ := (mallocUsrpage_ends sound vaddr).of_eq_ok h
  exact ⟨set.guarded (added.guarded guarded), added.free⟩

theorem userStack_eq : userStack = argPage * pageSize := by decide

/-- Below `USER_STACK` the numbers of entry and bit are the number of the page. -/
theorem numbers_of_lt (h : vaddr < userStack) :
    entryOf vaddr = vaddr / pageSize ∧ bitOf vaddr = vaddr / pageSize ∧
    vaddr / pageSize < argPage := by
  rw [userStack_eq] at h
  unfold entryOf bitOf argPage userPages pageSize at *
  omega

theorem PageRight.of_lt (guarded : u.Guarded) (h : vaddr < userStack) : u.PageRight vaddr := by
  obtain ⟨role, sound⟩ := guarded.1
  obtain ⟨hentry, hbit, hlt⟩ := numbers_of_lt h
  refine ⟨fun u' hadd => ⟨h, ?_⟩, fun u' hmalloc => ⟨btmpBytesLen_eq ▸ hlt, ?_⟩⟩
  · obtain ⟨f, added⟩ := (addPage_ends sound vaddr).of_eq_ok hadd
    exact ⟨f, hentry ▸ added.entry⟩
  · obtain ⟨u₁, f, added, set⟩ := (mallocUsrpage_ends sound vaddr).of_eq_ok hmalloc
    have hsame : u₁.btmp = u.btmp := by rw [btmp, btmp, added.proc]
    rw [← hsame, ← hbit]
    exact set.bits

/-- The loop comes no further than the argument page. -/
theorem mallocPages_guarded (guarded : u.Guarded) (ha : addr % 2 ^ 64 < userStack)
    (h : u.mallocPages addr i = .ok u') : u'.Guarded ∧ addr % 2 ^ 64 / pageSize + i ≤ argPage := by
  have hstart := (numbers_of_lt ha).2.2
  have ends : Ends (u.mallocPages addr i)
      (fun u' => u'.Guarded ∧ addr % 2 ^ 64 / pageSize + i ≤ argPage) (fun _ => True) := by
    refine Ends.loop (fun j (u : UserSpace) => u.Guarded ∧ addr % 2 ^ 64 / pageSize + j ≤ argPage)
      (fun j u hj hinv => ?_) i 0 (Nat.zero_add i) ⟨guarded, Nat.le_of_lt hstart⟩
    obtain ⟨guarded, hle⟩ := hinv
    cases hmalloc : u.mallocUsrpage (pageAt addr j) with
    | error e => exact trivial
    | ok u' =>
      obtain ⟨guarded', hfree⟩ := mallocUsrpage_guarded guarded hmalloc
      have hentry : entryOf (pageAt addr j) = addr % 2 ^ 64 / pageSize + j := by
        unfold entryOf pageAt argPage userPages pageSize at *
        omega
      have hne : addr % 2 ^ 64 / pageSize + j ≠ argPage := by
        intro heq
        rw [hentry, heq] at hfree
        exact guarded.2 hfree
      exact ⟨guarded', Nat.lt_of_le_of_ne hle hne⟩
  exact ends.of_eq_ok h

theorem pageAt_lt (h : addr % 2 ^ 64 / pageSize + i < argPage) : pageAt addr i < userStack := by
  rw [userStack_eq]
  unfold pageAt argPage userPages pageSize at *
  omega

theorem PageRight.of_stop (stop : ∀ u', u.addPage vaddr ≠ .ok u') : u.PageRight vaddr := by
  refine ⟨fun u' hadd => absurd hadd (stop u'), fun u' hmalloc => ?_⟩
  obtain ⟨u₁, hadd, -⟩ := bind_eq_ok.mp hmalloc
  exact absurd hadd (stop u₁)

/-- All pages of a loop are right if and only if its first page is. -/
theorem pages_right_iff (guarded : u.Guarded) :
    (∀ i < cnt, ∀ u₂, u.mallocPages addr i = .ok u₂ → u₂.PageRight (pageAt addr i)) ↔
      ∀ u', 0 < cnt → u.addPage (pageAt addr 0) = .ok u' → pageAt addr 0 < userStack := by
  have hfirst : pageAt addr 0 = addr % 2 ^ 64 := by rw [pageAt, Nat.zero_mul, Nat.add_zero]
  constructor
  · intro h u' hcnt hadd
    exact ((h 0 hcnt u rfl).entry u' hadd).1
  intro h i hi u₂ hloop
  by_cases ha : addr % 2 ^ 64 < userStack
  · obtain ⟨guarded₂, hle⟩ := mallocPages_guarded guarded ha hloop
    rcases Nat.lt_or_eq_of_le hle with hlt | heq
    · exact .of_lt guarded₂ (pageAt_lt hlt)
    · -- the loop has come to the argument page, which cannot be mapped again
      have hentry : entryOf (pageAt addr i) = argPage := by
        unfold entryOf pageAt argPage userPages pageSize at *
        omega
      refine .of_stop fun u' hadd => ?_
      obtain ⟨role, sound⟩ := guarded₂.1
      obtain ⟨f, added⟩ := (addPage_ends sound _).of_eq_ok hadd
      exact guarded₂.2 (hentry ▸ added.free)
  · have hstop : ∀ u', u.addPage (pageAt addr 0) ≠ .ok u' := fun u' hadd =>
      ha (hfirst ▸ h u' (Nat.zero_lt_of_lt hi) hadd)
    cases i with
    | zero =>
      cases hloop
      exact .of_stop hstop
    | succ i =>
      -- the loop has not come through its first round
      obtain ⟨u₁, hmalloc, -⟩ := bind_eq_ok.mp hloop
      obtain ⟨u₀, hadd, -⟩ := bind_eq_ok.mp hmalloc
      exact absurd hadd (hstop u₀)

/-! ## The request -/

variable {rbInsertColor : SearchTree Nat → SearchTree Nat}

/-- The request is refused before anything changes. -/
def Refused (u : UserSpace) (c : MmapArgs) : Prop :=
  u.mm.MmapRefused none c.len.toNat c.offset.toNat

theorem placeMmap_refused (rbInsertColor : SearchTree Nat → SearchTree Nat) (file : Option OpenFile)
    (refused : u.Refused c) : ∃ r, IsErr r ∧ u.placeMmap rbInsertColor file c = .ok (r, 0, u) := by
  have herr : IsErr (err 1) ∧ IsErr (err enomem) ∧ IsErr (err eoverflow) := by decide
  obtain ⟨herr1, hnomem, hover⟩ := herr
  rw [placeMmap]
  split
  next => exact ⟨_, herr1, rfl⟩
  next hwrap =>
  split
  next haligned =>
    rw [placeArea]
    split
    next => exact ⟨_, hnomem, rfl⟩
    next hzero =>
    split
    next => exact ⟨_, hover, rfl⟩
    next hpgoff =>
    split
    next => exact ⟨_, hnomem, rfl⟩
    next hcount =>
      rcases refused with h | h | h | h | h | h
      · exact absurd h hwrap
      · exact absurd haligned h
      · exact absurd h hzero
      · exact absurd h hpgoff
      · exact absurd h hcount
      · exact absurd h.1 Bool.false_ne_true
  next => exact ⟨_, herr1, rfl⟩

/-- The request that is not refused gets an area at the chosen address. -/
theorem placeMmap_of_not_refused (file : Option OpenFile)
    (taken : ¬u.mm.MmapRefused (file.map fun _ => 0) c.len.toNat c.offset.toNat) :
    u.placeMmap rbInsertColor file c = (do
      let (a, u) ← u.chooseAddr c.addr.toNat c.size c.longFlags
      let (ret, u) ← u.makeArea rbInsertColor file a c.size (c.offset.toNat >>> 12)
      .ok (ret, if c.longFlags &&& mapForInitFile = 0 then c.size >>> 12 else 0, u)) := by
  simp only [MmStruct.MmapRefused, Option.isSome_map, not_or, not_not] at taken
  obtain ⟨hwrap, haligned, hzero, hpgoff, hcount, hfile⟩ := taken
  rw [placeMmap, if_neg (show ¬(c.offset.toNat + c.size) % 2 ^ 64 < c.offset.toNat from hwrap),
    if_pos (show c.offset.toNat % pageSize = 0 from haligned), placeArea]
  simp only [if_neg hzero, if_neg hpgoff, if_neg hcount]
  refine congrArg _ (funext fun r => ?_)
  rw [if_neg hfile]
  rfl

theorem size_pos (taken : ¬u.Refused c) : 0 < c.size := by
  simp only [Refused, MmStruct.MmapRefused, not_or] at taken
  exact Nat.pos_of_ne_zero taken.2.2.1

theorem Guarded.setMm (guarded : u.Guarded) (mm : MmStruct) : { u with mm }.Guarded := by
  obtain ⟨⟨role, sound⟩, harg⟩ := guarded
  exact ⟨⟨role, sound.placed, sound.owns⟩, harg⟩

theorem getPage_ends (guarded : u.Guarded) :
    Ends u.getPage (fun u' => u'.Guarded ∧ u'.mm = u.mm ∧ ∀ n, u'.entry n = u.entry n)
      (· = .noMemory) := by
  obtain ⟨⟨role, sound⟩, harg⟩ := guarded
  refine (Phys.getPage_ends sound.placed).bind ?_
  rintro ⟨page, phys⟩ fresh
  have hentry : ∀ n, phys.translate u.proc.pgdir (n * pageSize) = u.entry n := fun n =>
    fresh.lookup_eq sound.owns _ _ _
  refine ⟨⟨⟨role, fresh.region.placed sound.placed, fresh.owns_same sound.owns⟩, ?_⟩, rfl, hentry⟩
  change phys.translate u.proc.pgdir (argPage * pageSize) ≠ none
  rw [hentry]
  exact harg

/-- A page of the pool has been taken, and the page table is as before. -/
structure PageTaken (u u' : UserSpace) : Prop where
  entry : ∀ n, u'.entry n = u.entry n
  room : u'.phys.pool.room + 1 = u.phys.pool.room
  missing : ∀ vaddr, u'.phys.missing u'.proc.pgdir vaddr = u.phys.missing u.proc.pgdir vaddr

theorem getPage_taken (guarded : u.Guarded) :
    Ends u.getPage u.PageTaken (fun _ => u.phys.pool.room = 0) := by
  obtain ⟨⟨role, sound⟩, -⟩ := guarded
  refine (Phys.getPage_room sound.placed).bind ?_
  rintro ⟨page, phys⟩ fresh
  exact ⟨fun n => fresh.lookup_eq sound.owns _ _ _, fresh.room,
    fun vaddr => fresh.missing sound.owns⟩

theorem PageTaken.addPage_iff (taken : u.PageTaken u₁) (guarded : u₁.Guarded) (vaddr : Nat) :
    (∃ u', u₁.addPage vaddr = .ok u') ↔ u.CanMap vaddr := by
  obtain ⟨role, sound⟩ := guarded.1
  rw [UserSpace.addPage_iff sound, taken.entry, taken.missing, CanMap, ← taken.room,
    Nat.add_lt_add_iff_right]

/-- With the area linked the tree has grown. -/
theorem makeArea_ends (color : ∀ t, (rbInsertColor t).inorder = t.inorder) (guarded : u.Guarded)
    (pgoff : Nat) : Ends (u.makeArea rbInsertColor none addr len pgoff)
      (fun r => r.1 = addr ∧ r.2.Guarded ∧ r.2.mm.areas.length = u.mm.areas.length + 1 ∧
        u.PageTaken r.2)
      (fun e => e = .noMemory ∧ u.phys.pool.room = 0 ∨ e = .fault ∧
        u.mm.addArea rbInsertColor addr len (u.mm.findVmaPrepare addr) = none) := by
  have ends := (getPage_ends guarded).and (getPage_taken guarded)
  refine (ends.mono (fun _ h => h) fun _ h => .inl h).bind ?_
  rintro u₁ ⟨⟨guarded₁, hmm, -⟩, taken⟩
  change Ends ((u₁.linkArea rbInsertColor addr len (u.mm.findVmaPrepare addr)).bind _) _ _
  rw [linkArea, hmm]
  cases hadd : u.mm.addArea rbInsertColor addr len (u.mm.findVmaPrepare addr) with
  | none => exact .inr ⟨rfl, rfl⟩
  | some mm =>
    exact ⟨rfl, guarded₁.setMm mm, MmStruct.length_addArea color hadd, taken.entry, taken.room,
      taken.missing⟩

/-- If there is a suitable range, it is the one chosen, or the place has been searched. -/
theorem chosen_cases (inv : u.mm.Inv) (suitable : u.Suitable c addr) {mm : MmStruct}
    (hchoose : u.mm.chooseAddr c.addr.toNat c.size c.longFlags = some (a, mm)) :
    a = addr ∨ c.longFlags &&& mapForInitFile = 0 ∧ c.longFlags &&& mapFixed = 0 ∧ ∃ cursor,
      u.mm.Placement ((c.addr.toNat + taskUnmappedBase) % 2 ^ 64) c.size a cursor := by
  have hlong : ¬taskSize - mmapMinAddr < c.size := by
    have hbelow := suitable.below
    have hfits : userStack ≤ taskSize - mmapMinAddr := by decide
    omega
  rw [MmStruct.chooseAddr] at hchoose
  split at hchoose
  next hinit =>
    by_cases hfixed : c.longFlags &&& mapFixed = 0
    · obtain ⟨b, mmapCache, cursor, hget, -, place⟩ :=
        MmStruct.getUnmappedArea_spec inv.sorted (Nat.not_lt.mp hlong) hfixed
      cases hget.symm.trans hchoose
      exact .inr ⟨hinit, hfixed, cursor, place⟩
    · rw [MmStruct.getUnmappedArea, if_neg hlong, if_pos hfixed] at hchoose
      rw [Option.some.injEq, Prod.mk.injEq] at hchoose
      exact .inl (hchoose.1.symm.trans (suitable.fixed hinit hfixed).symm)
  next hinit =>
    cases hchoose
    exact .inl (suitable.init hinit).symm

/-- No area covers the address that is then chosen. -/
theorem chosen_uncovered (inv : u.mm.Inv) (hpos : 0 < c.size) (suitable : u.Suitable c addr)
    {mm : MmStruct} (hchoose : u.mm.chooseAddr c.addr.toNat c.size c.longFlags = some (a, mm)) :
    ∀ v ∈ u.mm.areas, a < (u.mm.area v).vmEnd → a < (u.mm.area v).vmStart := by
  have of_free : ∀ b, u.mm.Free b c.size →
      ∀ v ∈ u.mm.areas, b < (u.mm.area v).vmEnd → b < (u.mm.area v).vmStart := by
    intro b free v hv hend
    rcases free v hv with h | h <;> omega
  rcases chosen_cases inv suitable hchoose with rfl | ⟨-, -, cursor, place⟩
  · exact of_free _ suitable.free
  rcases place.free with ⟨-, free⟩ | ⟨rfl, -⟩
  · exact of_free _ free
  · -- no area reaches the error number
    intro v hv hend
    have hbound := (inv.bounds v hv).2
    unfold err at hend
    omega

theorem placeMmap_ends (color : ∀ t, (rbInsertColor t).inorder = t.inorder) (guarded : u.Guarded)
    (inv : u.mm.Inv) (taken : ¬u.Refused c) : Ends (u.placeMmap rbInsertColor none c)
      (fun r => r.2.2.Guarded ∧ r.2.2.mm.areas.length = u.mm.areas.length + 1 ∧
        (∃ mm, u.mm.chooseAddr c.addr.toNat c.size c.longFlags = some (r.1, mm)) ∧
        u.PageTaken r.2.2 ∧ r.2.1 = if c.longFlags &&& mapForInitFile = 0 then c.size >>> 12 else 0)
      (fun e => e = .noMemory ∧ u.phys.pool.room = 0 ∨ e = .fault ∧ ¬∃ a, u.Suitable c a) := by
  obtain ⟨a, mmapCache, freeAreaCache, hchoose, hcache, -⟩ :=
    MmStruct.chooseAddr_spec inv c.addr.toNat c.size c.longFlags
  have inv' := inv.setCaches hcache freeAreaCache
  rw [placeMmap_of_not_refused none taken, chooseAddr, hchoose]
  change Ends (makeArea rbInsertColor { u with mm := { u.mm with mmapCache, freeAreaCache } } none a
    c.size _ >>= _) _ _
  refine Ends.bind ((makeArea_ends color (guarded.setMm _) _).mono (fun _ h => h) fun e h => ?_)
    fun r h => ?_
  · refine h.imp_right fun hfault => ?_
    obtain ⟨he, hnone⟩ := hfault
    refine ⟨he, ?_⟩
    rintro ⟨b, suitable⟩
    obtain ⟨mm, hadd⟩ := MmStruct.addArea_isSome rbInsertColor inv'
      (chosen_uncovered inv (size_pos taken) suitable hchoose) c.size
    cases hnone.symm.trans hadd
  · obtain ⟨haddr, guarded₁, hlength, taken⟩ := h
    exact ⟨guarded₁, hlength, ⟨_, congrArg (fun b => some (b, _)) haddr.symm⟩,
      ⟨taken.entry, taken.room, taken.missing⟩, rfl⟩

theorem mallocUsrpage_mm (h : u.mallocUsrpage vaddr = .ok u') : u'.mm = u.mm := by
  obtain ⟨u₁, hadd, hset⟩ := bind_eq_ok.mp h
  obtain ⟨phys, -, heq⟩ := bind_eq_ok.mp hadd
  cases heq
  rw [setBit] at hset
  split at hset
  · cases hset
    rfl
  · cases hset

theorem mallocPages_ends (guarded : u.Guarded) (addr cnt : Nat) :
    Ends (u.mallocPages addr cnt) (fun u' => u'.mm = u.mm) (fun e => e = .noMemory ∨ e = .bug) := by
  have ends : Ends (u.mallocPages addr cnt) (fun u' => u'.Guarded ∧ u'.mm = u.mm)
      (fun e => e = .noMemory ∨ e = .bug) := by
    refine Ends.loop (fun _ (u' : UserSpace) => u'.Guarded ∧ u'.mm = u.mm)
      (fun i u' _ hinv => ?_) cnt 0 (Nat.zero_add cnt) ⟨guarded, rfl⟩
    obtain ⟨guarded', hmm⟩ := hinv
    obtain ⟨role, sound⟩ := guarded'.1
    cases hmalloc : u'.mallocUsrpage (pageAt addr i) with
    | error e =>
      have ends := mallocUsrpage_ends sound (pageAt addr i)
      rw [hmalloc] at ends
      exact ends
    | ok u'' =>
      exact ⟨(mallocUsrpage_guarded guarded' hmalloc).1, (mallocUsrpage_mm hmalloc).trans hmm⟩
  exact ends.mono (fun _ h => h.2) fun _ h => h

theorem SameTables.length_eq (same : u.SameTables u') : u'.mm.areas.length = u.mm.areas.length := by
  simpa [MmStruct.vmaTree, MmStruct.areas] using congrArg (fun t => t.inorder.length) same.tree

theorem sysMmap_ends (color : ∀ t, (rbInsertColor t).inorder = t.inorder) (guarded : u.Guarded)
    (inv : u.mm.Inv) (taken : ¬u.Refused c) : Ends (u.sysMmap rbInsertColor none c)
      (fun r => r.2.mm.areas.length = u.mm.areas.length + 1)
      (fun e => e = .fault → ¬∃ a, u.Suitable c a) := by
  change Ends (u.placeMmap rbInsertColor none c >>= _) _ _
  refine Ends.bind ((placeMmap_ends color guarded inv taken).mono (fun _ h => h) ?_) ?_
  · rintro e (⟨rfl, -⟩ | ⟨-, hnone⟩) he
    · cases he
    · exact hnone
  · rintro ⟨ret, cnt, u₁⟩ ⟨guarded₁, hlength, -⟩
    refine Ends.bind ((mallocPages_ends guarded₁ ret cnt).mono (fun _ h => h) ?_) ?_
    · rintro e (rfl | rfl) he
      · cases he
      · cases he
    · intro u' hmm
      change u'.mm.areas.length = _
      rw [hmm]
      exact hlength

theorem pageAt_zero (h : a < 2 ^ 64) : pageAt a 0 = a := by
  rw [pageAt, Nat.zero_mul, Nat.add_zero, Nat.mod_eq_of_lt h]

theorem chooseAddr_lt {mm : MmStruct} (inv : u.mm.Inv) (suitable : u.Suitable c addr)
    (hchoose : u.mm.chooseAddr c.addr.toNat c.size c.longFlags = some (a, mm)) : a < 2 ^ 64 := by
  rcases chosen_cases inv suitable hchoose with rfl | ⟨-, -, cursor, place⟩
  · exact (Nat.le_of_add_right_le suitable.below).trans_lt (by decide)
  · rcases place.free with ⟨hfits, -⟩ | ⟨rfl, -⟩
    · omega
    · decide

/-- The first page of the loop lies below `USER_STACK` exactly if the request starts below it. -/
theorem firstPage_iff (color : ∀ t, (rbInsertColor t).inorder = t.inorder) (guarded : u.Guarded)
    (inv : u.mm.Inv) (taken : ¬u.Refused c) (suitable : u.Suitable c addr) :
    (∀ ret cnt u₁ u', u.placeMmap rbInsertColor none c = .ok (ret, cnt, u₁) → 0 < cnt →
      u₁.addPage (pageAt ret 0) = .ok u' → pageAt ret 0 < userStack) ↔ u.StartsBelow c := by
  have ends := placeMmap_ends color guarded inv taken
  have hpos := size_pos taken
  constructor
  · intro below hinit hfixed a cursor place can
    obtain ⟨⟨ret, cnt, u₁⟩, hplace, guarded₁, -, ⟨mm, hchoose⟩, page, rfl⟩ := ends.exists_ok <| by
      rintro e (⟨-, hfull⟩ | ⟨-, hnone⟩)
      · exact Nat.not_lt_zero _ (hfull ▸ can.2)
      · exact hnone ⟨addr, suitable⟩
    dsimp only at hchoose page
    have hret : ret = a := by
      have hlen : ¬taskSize - mmapMinAddr < c.size := by
        have hbelow := suitable.below
        have hfits : userStack ≤ taskSize - mmapMinAddr := by decide
        omega
      obtain ⟨b, mmapCache, next, hchoose', -, place'⟩ :=
        @MmStruct.chooseAddr_placement u.mm c.addr.toNat c.size c.longFlags inv.sorted (by tauto)
      cases hchoose'.symm.trans hchoose
      exact place'.unique place
    subst hret
    have hzero := pageAt_zero (chooseAddr_lt inv suitable hchoose)
    obtain ⟨u', hadd⟩ := (page.addPage_iff guarded₁ ret).mpr can
    have hcnt : 0 < if c.longFlags &&& mapForInitFile = 0 then c.size >>> 12 else 0 := by
      have hmod : c.size % 4096 = 0 := Space.pageAlign_mod _
      rw [if_pos hinit, Nat.shiftRight_eq_div_pow]
      omega
    rw [← hzero] at hadd ⊢
    exact below ret _ u₁ u' hplace hcnt hadd
  · intro below ret cnt u₁ u' hplace hcnt hadd
    obtain ⟨guarded₁, -, ⟨mm, hchoose⟩, page, hcount⟩ := ends.of_eq_ok hplace
    dsimp only at hchoose guarded₁ page hcount
    rw [pageAt_zero (chooseAddr_lt inv suitable hchoose)] at hadd ⊢
    rcases chosen_cases inv suitable hchoose with rfl | ⟨hinit, hfixed, cursor, place⟩
    · have := suitable.below
      omega
    · exact below hinit hfixed ret cursor place ((page.addPage_iff guarded₁ ret).mp ⟨u', hadd⟩)

/-- `sys_mmap` is right exactly when the request is refused, or when there is a range for it and it
starts below `USER_STACK`. -/
theorem sysMmap_right_iff (color : ∀ t, (rbInsertColor t).inorder = t.inorder) (guarded : u.Guarded)
    (inv : u.mm.Inv) : u.MmapRight rbInsertColor c ↔
      u.Refused c ∨ (∃ a, u.Suitable c a) ∧ u.StartsBelow c := by
  by_cases refused : u.Refused c
  · obtain ⟨r, herr, hplace⟩ := placeMmap_refused rbInsertColor none refused
    have hsys : u.sysMmap rbInsertColor none c = .ok (r, u) := by
      change u.doMmap rbInsertColor none c = _
      rw [doMmap, hplace]
      rfl
    refine iff_of_true ⟨fun ret cnt u₁ hplace' i hi => ?_, fun _ => ?_, ?_⟩ (.inl refused)
    · cases hplace.symm.trans hplace'
      exact absurd hi (Nat.not_lt_zero i)
    · exact ⟨r, u, hsys, herr, rfl, fun _ _ => rfl, fun _ => Iff.rfl⟩
    · rw [hsys]
      exact nofun
  have ends := sysMmap_ends color guarded inv refused
  rw [or_iff_right refused]
  constructor
  · intro right
    have hrange : ∃ a, u.Suitable c a := by
      by_contra hnone
      obtain ⟨r, u', hsys, -, same⟩ := right.noRange hnone
      have hgrown := ends.of_eq_ok hsys
      rw [same.length_eq] at hgrown
      omega
    obtain ⟨a, suitable⟩ := hrange
    refine ⟨⟨a, suitable⟩, (firstPage_iff color guarded inv refused suitable).mp ?_⟩
    intro ret cnt u₁ u' hplace hcnt hadd
    exact ((right.pages ret cnt u₁ hplace 0 hcnt u₁ rfl).entry u' hadd).1
  · rintro ⟨⟨a, suitable⟩, below⟩
    have hfirst := (firstPage_iff color guarded inv refused suitable).mpr below
    refine ⟨fun ret cnt u₁ hplace => ?_, fun hnone => absurd ⟨a, suitable⟩ hnone, fun hfault => ?_⟩
    · have guarded₁ := ((placeMmap_ends color guarded inv refused).of_eq_ok hplace).1
      exact (pages_right_iff guarded₁).mpr fun u' hcnt hadd => hfirst ret cnt u₁ u' hplace hcnt hadd
    · rw [hfault] at ends
      exact ends rfl ⟨a, suitable⟩

/-! ## A fixed address above the stack -/

/-- A process at its start. -/
def start : UserSpace := ⟨startPhys 0, startProcess, .initial taskUnmappedBase⟩

def startRole : Roles := fun q =>
  if q = poolPage 0 then some []
  else if q = poolPage 1 then some [511]
  else if q = poolPage 2 then some [511, 511]
  else if q = poolPage 3 then some [511, 511, 504]
  else if q = poolPage 4 then some [511, 511, 510]
  else none

theorem start_owns : (startPhys 0).Owns (poolPage 0) startRole := by
  have hframe : frame (poolPage 3 ||| pteAttr) = poolPage 3 ∧ frame (poolPage 4 ||| pteAttr) =
      poolPage 4 := by
    decide
  refine ⟨by simp [startRole], ?_, ?_⟩
  · intro p r k hp hr hne
    unfold startRole at hp
    split_ifs at hp with h₀ h₁ h₂ h₃ h₄
    · cases hp
      rw [h₀, (start_mem k).1] at hne ⊢
      split_ifs at hne ⊢ with hk
      · simp [Phys.target, startRole, hk]
      · exact absurd rfl hne
    · cases hp
      rw [h₁, (start_mem k).2.1] at hne ⊢
      split_ifs at hne ⊢ with hk
      · simp [Phys.target, startRole, hk]
      · exact absurd rfl hne
    · cases hp
      rw [h₂, (start_mem k).2.2.1] at hne ⊢
      split_ifs at hne ⊢ with hk hk'
      · simp [Phys.target, startRole, hk, hframe]
      · simp [Phys.target, startRole, hk', hframe]
      · exact absurd rfl hne
    · cases hp
      exact absurd hr (by decide)
    · cases hp
      exact absurd hr (by decide)
  · intro p r hp
    unfold startRole at hp
    split_ifs at hp with h₀ h₁ h₂ h₃ h₄
    all_goals
      subst p
      exact startPool_held (by decide)

theorem start_entry {n : Nat} (hn : n < userPages) : start.entry n =
    if n = argPage then some (poolPage 3) else if n = sigPage then some (poolPage 4) else none :=
  start_translate hn

theorem start_guarded : start.Guarded := by
  refine ⟨⟨startRole, startPool_placed, start_owns⟩, ?_⟩
  rw [start_entry (by decide), if_pos rfl]
  exact Option.some_ne_none _

/-- A page at a fixed address: 0x40000000 above the base, and 2 ^ 44. -/
def fixedLow : MmapArgs := ⟨0x40000000, 0x1000, 3, 0x32, 0⟩

def fixedHigh : MmapArgs := ⟨2 ^ 44 - 0x800000000, 0x1000, 3, 0x32, 0⟩

theorem fixed_not_refused : ¬start.Refused fixedLow ∧ ¬start.Refused fixedHigh := by
  unfold Refused MmStruct.MmapRefused
  decide

theorem sysMmap_right_iff_fixedLow : start.Guarded ∧ start.mm.Inv ∧
    start.MmapRight id fixedLow := by
  have inv : start.mm.Inv := .initial _
  refine ⟨start_guarded, inv,
    (sysMmap_right_iff (fun _ => rfl) start_guarded inv).mpr (.inr ⟨⟨0x840000000, ?_⟩, ?_⟩)⟩
  · refine ⟨by decide, nofun, fun _ i hi => ?_, by decide, fun _ _ => by decide⟩
    have hsize : fixedLow.size / pageSize = 1 := by decide
    obtain rfl : i = 0 := by omega
    rw [start_entry (by decide)]
    decide
  · intro _ hfixed
    exact absurd hfixed (by decide)

theorem getPage_roomy {n : Nat} (roomy : u.phys.pool.Roomy (n + 1)) :
    Ends u.getPage (fun u' => u'.phys.pool.Roomy n) (· ≠ .noMemory) :=
  (getPage_enough roomy).bind fun _ h => h.2

theorem addPage_roomy {n : Nat} (roomy : u.phys.pool.Roomy (n + 3)) (vaddr : Nat) :
    Ends (u.addPage vaddr) (fun u' => u'.phys.pool.Roomy n) (· ≠ .noMemory) :=
  (malloc_enough roomy _ _).bind fun _ h => h

/-- A request for one page whose address is taken as it is: the area is linked, and no entry has
changed. -/
theorem start_placed (taken : ¬start.Refused c)
    (hchoose : start.chooseAddr c.addr.toNat c.size c.longFlags = .ok (addr, start))
    (hpage : c.longFlags &&& mapForInitFile = 0 ∧ c.size >>> 12 = 1) :
    ∃ u₁, start.placeMmap id none c = .ok (addr, 1, u₁) ∧ u₁.Guarded ∧
      (∀ n, u₁.entry n = start.entry n) ∧ u₁.phys.pool.Roomy 3 := by
  have roomy : start.phys.pool.Roomy (3 + 1) := startPool_roomy.mono (by decide)
  obtain ⟨u₁, hget, ⟨guarded, hmm, hentry⟩, roomy₁⟩ :=
    ((getPage_ends start_guarded).and (getPage_roomy roomy)).exists_ok fun e h => h.2 h.1
  have inv : start.mm.Inv := .initial taskUnmappedBase
  obtain ⟨mm, hadd⟩ : ∃ mm, start.mm.addArea id addr c.size (start.mm.findVmaPrepare addr) =
      some mm :=
    MmStruct.addArea_isSome id inv nofun c.size
  refine ⟨{ u₁ with mm }, ?_, guarded.setMm mm, hentry, roomy₁⟩
  have hlink : u₁.linkArea id addr c.size (start.mm.findVmaPrepare addr) = .ok { u₁ with mm } := by
    rw [linkArea, hmm, hadd]
  have hmake : start.makeArea id none addr c.size (c.offset.toNat >>> 12) =
      .ok (addr, { u₁ with mm }) :=
    bind_eq_ok.mpr ⟨u₁, hget, bind_eq_ok.mpr ⟨_, rfl, bind_eq_ok.mpr ⟨_, hlink, rfl⟩⟩⟩
  rw [placeMmap_of_not_refused none taken, if_pos hpage.1, hpage.2]
  exact bind_eq_ok.mpr ⟨_, hchoose, bind_eq_ok.mpr ⟨_, hmake, rfl⟩⟩

/-- The page is then mapped, if its entry is free and its bit lies inside the bitmap. -/
theorem start_mapped (taken : ¬start.Refused c)
    (hchoose : start.chooseAddr c.addr.toNat c.size c.longFlags = .ok (addr, start))
    (hpage : c.longFlags &&& mapForInitFile = 0 ∧ c.size >>> 12 = 1) (haddr : pageAt addr 0 = addr)
    (hfree : start.entry (entryOf addr) = none) (hbit : bitOf addr ≤ argPage) :
    ∃ u₁ u₂ u₃, start.placeMmap id none c = .ok (addr, 1, u₁) ∧ u₁.addPage addr = .ok u₂ ∧
      start.sysMmap id none c = .ok (addr, u₃) ∧ u₃.entry (entryOf addr) ≠ none := by
  obtain ⟨u₁, hplace, guarded, hentry, roomy⟩ := start_placed taken hchoose hpage
  obtain ⟨role, sound⟩ := guarded.1
  rw [← hentry] at hfree
  obtain ⟨u₂, hadd, ⟨f, added⟩, -⟩ :=
    ((addPage_ends sound addr).and (addPage_roomy roomy addr)).exists_ok fun e h => by simp_all
  obtain ⟨u₃, hset, set⟩ :=
    (setBit_ends u₂ addr).exists_ok fun e h => absurd h.2 (Nat.not_lt.mpr hbit)
  refine ⟨u₁, u₂, u₃, hplace, hadd, ?_, ?_⟩
  · have hmalloc : u₁.mallocUsrpage (pageAt addr 0) = .ok u₃ := by
      rw [haddr]
      exact bind_eq_ok.mpr ⟨u₂, hadd, hset⟩
    refine bind_eq_ok.mpr ⟨start, rfl, bind_eq_ok.mpr ⟨_, hplace, bind_eq_ok.mpr ⟨u₃, ?_, rfl⟩⟩⟩
    exact bind_eq_ok.mpr ⟨u₃, hmalloc, rfl⟩
  · rw [set.entry, added.entry _ (entryOf_lt addr), if_pos rfl]
    exact Option.some_ne_none f

/-- The call answers 2 ^ 44 and has mapped page 0. -/
theorem fixedHigh_maps_page_zero :
    (∃ u', start.sysMmap id none fixedHigh = .ok (2 ^ 44, u') ∧ u'.entry 0 ≠ none) ∧
      ¬start.MmapRight id fixedHigh := by
  have hnumbers : pageAt (2 ^ 44) 0 = 2 ^ 44 ∧ entryOf (2 ^ 44) = 0 ∧ bitOf (2 ^ 44) = 0 := by
    decide
  obtain ⟨haddr, hzero, hbit⟩ := hnumbers
  have hfree : start.entry (entryOf (2 ^ 44)) = none := by
    rw [hzero, start_entry (by decide)]
    rfl
  have hchoose : start.chooseAddr fixedHigh.addr.toNat fixedHigh.size fixedHigh.longFlags =
    .ok (2 ^ 44, start) := rfl
  obtain ⟨u₁, u₂, u₃, hplace, hadd, hsys, hmapped⟩ :=
    start_mapped fixed_not_refused.2 hchoose (by decide) haddr hfree (hbit ▸ Nat.zero_le _)
  refine ⟨⟨u₃, hsys, hzero ▸ hmapped⟩, fun right => ?_⟩
  have hright := right.pages _ _ u₁ hplace 0 Nat.one_pos u₁ rfl
  rw [haddr] at hright
  exact absurd (hright.entry u₂ hadd).1 (by decide)

end UserSpace

end KernelTravel.Userprog

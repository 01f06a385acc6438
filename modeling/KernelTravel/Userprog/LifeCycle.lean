import KernelTravel.Mm.Vma
import KernelTravel.Userprog.Fork

/-!
# The pages of a child from its fork to its end

A child is forked, maps memory, exits and is waited for, while its parent may take pages of
its own. The pages that the kernel takes for the child are not all given back: the page
used for the copies and the pages of the areas are never freed, and of the pages of its
bitmap `release_usrmemory` counts two too few. What it does free it finds by walking the
page table with an address that falls behind after the first table of the lowest level, so
that it may free some pages twice and others not at all.

The proof counts. Every page that is freed through the page table is one that was taken for
it, and the other frees are fewer than the other pages taken.
-/

namespace KernelTravel.Userprog

open Mm Outcome

/-- The child while it runs. The bits of the pages that its parent has taken meanwhile
are in `taken`. -/
structure Life where
  phys : Phys
  child : Child
  bits : Nat → Byte
  mm : MmStruct
  taken : Finset Nat

namespace Life

/-- A call of `get_pages` by the parent. -/
def parentTakes (count : Nat) (l : Life) : Except Stop Life := do
  let (_, phys) ← l.phys.getPages count
  .ok { l with phys, taken := l.taken ∪ (phys.pool.allocated \ l.phys.pool.allocated) }

/-- `malloc_usrpage`, called by the child. -/
def mallocUsrpage (vaddr : Nat) (l : Life) : Except Stop Life := do
  let phys ← l.phys.mallocUsrpageWithoutopmap l.child.pgdir vaddr
  match (Bitmap.mk btmpBytesLen l.bits).bitmapSet (vaddr / pageSize) true with
  | some btmp => .ok { l with phys, bits := btmp.bits }
  | none => .error .bug

section Mmap

variable (rbInsertColor : SearchTree Nat → SearchTree Nat)

/-- `do_mmap_pgoff` without a file. The page taken first is the new area. -/
def doMmapPgoff (addr len flags pgoff : Nat) (l : Life) : Except Stop Life :=
  let len := pageAlign len
  if len = 0 ∨ (pgoff + len >>> 12) % 2 ^ 64 < pgoff ∨ sysctlMaxMapCount < l.mm.mapCount then .ok l
  else match l.mm.chooseAddr addr len flags with
    | none => .error .fault
    | some (addr, mm) => do
      let (_, phys) ← l.phys.getPage
      match mm.addArea rbInsertColor addr len (mm.findVmaPrepare addr) with
      | none => .error .fault
      | some mm =>
        let l := { l with phys, mm }
        if flags &&& mapForInitFile = 0 then
          loop (fun i => mallocUsrpage ((addr + i * pageSize) % 2 ^ 64)) (len >>> 12) 0 l
        else .ok l

/-- `sys_mmap` for a descriptor that is no file. -/
def sysMmap (addr len flags offset : Nat) (l : Life) : Except Stop Life :=
  if (offset + pageAlign len) % 2 ^ 64 < offset ∨ offset % 4096 ≠ 0 then .ok l
  else doMmapPgoff rbInsertColor addr len flags (offset >>> 12) l

/-- The areas are those of `do_mmap_pgoff` on the `mm_struct` alone. -/
theorem doMmapPgoff_mm (addr len flags pgoff : Nat) (l : Life) :
    Ends (l.doMmapPgoff rbInsertColor addr len flags pgoff) (fun l' => ∃ ret,
      l.mm.doMmapPgoff rbInsertColor none addr len flags pgoff = some (ret, l'.mm)) fun _ =>
      True := by
  have hmalloc : ∀ i (l₁ : Life), Ends (l₁.mallocUsrpage i) (fun l' => l'.mm = l₁.mm) fun _ =>
      True := by
    intro i l₁
    refine ends_of_ok fun l' h => ?_
    obtain ⟨phys, -, h⟩ := bind_eq_ok.mp h
    split at h <;> cases h
    rfl
  unfold doMmapPgoff MmStruct.doMmapPgoff
  simp only [Option.isSome_none, Bool.false_eq_true, false_and, if_false]
  split
  next hrefused =>
    change ∃ ret, _ = some (ret, l.mm)
    split_ifs
    all_goals first | exact ⟨_, rfl⟩ | tauto
  next htaken =>
    simp only [not_or] at htaken
    rw [if_neg htaken.1, if_neg htaken.2.1, if_neg htaken.2.2]
    cases l.mm.chooseAddr addr (pageAlign len) flags with
    | none => trivial
    | some out =>
      refine ends_of_ok fun l' h => ?_
      obtain ⟨page, -, h⟩ := bind_eq_ok.mp h
      split at h
      next => cases h
      next mm hadd =>
        have hmm : l'.mm = mm := by
          split at h
          · exact (Ends.loop (fun _ l' => l'.mm = mm)
              (fun i l₁ _ hl₁ => (hmalloc _ l₁).mono (fun _ h => h.trans hl₁) fun _ h => h) _ 0
              (Nat.zero_add _) rfl).of_eq_ok h
          · cases h
            rfl
        exact ⟨out.1, by simp [hadd, hmm]⟩

end Mmap

end Life

/-- What may happen between the fork and the exit. -/
inductive Event where
  | mmap (addr len flags offset : Nat)
  | parent (count : Nat)

def freePage (s : Phys) (vaddr : Nat) : Except Stop Phys :=
  match s.pool.freePage vaddr with
  | some pool => .ok { s with pool }
  | none => .error .bug

def freePages (s : Phys) (vstart count : Nat) : Except Stop Phys :=
  match s.pool.freePages vstart count with
  | some pool => .ok { s with pool }
  | none => .error .bug

def reversePmdPtr (s : Phys) (pd vaddr : Nat) : Option Slot :=
  let pgd := s.word (Phys.pgdPtr pd vaddr)
  if pgd = 0 then none else some ⟨pgd, pmdIdx vaddr⟩

def reversePtePtr (s : Phys) (pd vaddr : Nat) : Option Slot := do
  let pmd ← reversePmdPtr s pd vaddr
  if s.word pmd = 0 then none else some ⟨s.word pmd, pteIdx vaddr⟩

/-- The innermost loop of `release_usrmemory`, for the entry `i` from `pte` on. -/
def releasePte (pte : Slot) (i : Nat) (s : Phys) : Except Stop Phys :=
  let entry := s.mem pte.page (pte.idx + i)
  if entry = 0 then .ok s else freePage s (frame entry)

/-- The next loop. It carries the address `vaddr`, which moves on only at an entry that is
empty; the tables below are looked up by it. -/
def releasePmd (pdir : Nat) (pmd : Slot) (i : Nat) (st : Nat × Phys) : Except Stop (Nat × Phys) :=
  let (vaddr, s) := st
  let entry := s.mem pmd.page (pmd.idx + i)
  if entry = 0 then .ok (vaddr + 0x200000, s)
  else match reversePtePtr s pdir vaddr with
    | none => .error .fault
    | some pte => do
      let s ← loop (releasePte pte) 512 0 s
      let s ← freePage s (frame entry)
      .ok (vaddr, s)

def releasePgd (pdir : Nat) (i : Nat) (st : Nat × Phys) : Except Stop (Nat × Phys) :=
  let (vaddr, s) := st
  let entry := s.mem pdir i
  if entry = 0 then .ok (vaddr + 0x40000000, s)
  else match reversePmdPtr s pdir vaddr with
    | none => .error .fault
    | some pmd => do
      let (vaddr, s) ← loop (releasePmd pdir pmd) 512 0 (vaddr, s)
      let s ← freePage s (frame entry)
      .ok ((vaddr &&& 0xffc0000000) + 0x40000000, s)

def releaseUsrmemory (pdir btmp : Nat) (s : Phys) : Except Stop Phys := do
  let (_, s) ← loop (releasePgd pdir) 512 0 (0, s)
  freePages s btmp (btmpBytesLen / pageSize)

/-- What `sys_exit` gives back. -/
def releaseUsrprogResource (child : Child) (s : Phys) : Except Stop Phys := do
  let s ← releaseUsrmemory child.pgdir child.btmp s
  if child.pgdir ≠ 0 then freePage s child.pgdir else .ok s

namespace Life

section Run

variable (rbInsertColor : SearchTree Nat → SearchTree Nat)

def event (l : Life) : Event → Except Stop Life
  | .mmap addr len flags offset => sysMmap rbInsertColor addr len flags offset l
  | .parent count => parentTakes count l

def sysExit (l : Life) : Except Stop Life := do
  let phys ← releaseUsrprogResource l.child l.phys
  .ok { l with phys }

/-- The end of `sys_wait`: `thread_exit` frees the task structure. -/
def reap (l : Life) : Except Stop Life := do
  let phys ← freePage l.phys l.child.pcb
  .ok { l with phys }

/-- Fork, run, exit, and wait, with calls of the parent before and after the exit. -/
def lifeCycle (parent : Process) (mm : MmStruct) (events : List Event) (later : List Nat)
    (s : Phys) : Except Stop Life := do
  let (child, s) ← sysFork parent s
  let l ← events.foldlM (event rbInsertColor) ⟨s, child, parent.bits, mm, ∅⟩
  let l ← l.sysExit
  let l ← later.foldlM (fun l count => l.parentTakes count) l
  l.reap

end Run

end Life

/-! ## The account -/

/-- `base` pages were taken besides those of the table. -/
structure Account (base pgdir : Nat) (s : Phys) (role : Roles) : Prop where
  small : s.pool.btmp.btmpBytesLen < 2 ^ 28
  placed : s.pool.Placed
  owns : s.Owns pgdir role
  count : base + (s.owned role).card ≤ s.pool.allocated.card

section Account

variable {base pgdir : Nat} {s s' : Phys} {role role' : Roles}

theorem Account.grow (account : Account base pgdir s role) (grown : s.Grown role s' role')
    (owns : s'.Owns pgdir role') : Account base pgdir s' role' := by
  refine ⟨grown.region.2 ▸ account.small, grown.region.placed account.placed, owns, ?_⟩
  have := account.count
  have := grown.balance
  omega

theorem Account.malloc (account : Account base pgdir s role) (vaddr : Nat) :
    Ends (s.mallocUsrpageWithoutopmap pgdir vaddr)
      (fun s' => ∃ f role', s.Mapped role pgdir vaddr f s' role' ∧ Account base pgdir s' role')
      (fun _ => True) := by
  refine (Phys.mallocUsrpageWithoutopmap_ends account.placed account.owns vaddr).mono ?_
    fun _ _ => trivial
  rintro s' ⟨-, f, role', mapped⟩
  exact ⟨f, role', mapped, account.grow mapped.grown mapped.owns⟩

/-- A page that gets no role. -/
theorem Account.fresh (account : Account base pgdir s role) {a : Nat} (fresh : s.Fresh a s') :
    Account (base + 1) pgdir s' role := by
  refine ⟨fresh.region.2 ▸ account.small, fresh.region.placed account.placed,
    fresh.owns_same account.owns, ?_⟩
  have := account.count
  rw [fresh.owned_eq, fresh.card]
  omega

/-- Pages that someone else takes. -/
theorem Account.others (account : Account base pgdir s role) (kept : Kept s s')
    (hsub : s.pool.allocated ⊆ s'.pool.allocated) :
    Account (base + (s'.pool.allocated \ s.pool.allocated).card) pgdir s' role := by
  have howned : s'.owned role = s.owned role := by
    simp only [Phys.owned, kept.region.2, kept.region.page]
  refine ⟨kept.region.2 ▸ account.small, kept.region.placed account.placed,
    ⟨account.owns.root, ?_, fun p r hp => kept.held p (account.owns.held p r hp)⟩, ?_⟩
  · intro p r k hp hr hne
    rw [kept.mem p (account.owns.held p r hp)] at hne ⊢
    exact account.owns.entry p r k hp hr hne
  · have := account.count
    have := Finset.card_sdiff_add_card_eq_card hsub
    rw [howned]
    omega

end Account

/-! ## The fork -/

/-- The account while the child is built, with the page for the copies. -/
def Building (base pgdir page : Nat) (s : Phys) : Prop :=
  ∃ role, Account base pgdir s role ∧ s.pool.Held page ∧ role page = none

section Building

variable {base pgdir page : Nat} {s s' : Phys} {parent : Process}

theorem Building.malloc (building : Building base pgdir page s) (vaddr : Nat) :
    Ends (s.mallocUsrpageWithoutopmap pgdir vaddr) (Building base pgdir page) (fun _ => True) := by
  obtain ⟨role, account, held, hrole⟩ := building
  refine (account.malloc vaddr).mono ?_ fun _ _ => trivial
  rintro s' ⟨f, role', mapped, account'⟩
  exact ⟨role', account', mapped.grown.held page held, mapped.grown.role_none held hrole⟩

theorem Building.copyPage (building : Building base pgdir page s) (pd vaddr : Nat) :
    Ends (copyPage pd pgdir page vaddr s) (Building base pgdir page) (fun _ => True) := by
  have first : Ends (copyIn s pd vaddr page) (Building base pgdir page) (fun _ => True) := by
    obtain ⟨role, account, held, hrole⟩ := building
    rw [copyIn]
    split
    · exact ⟨role, ⟨account.small, account.placed, account.owns.setOther hrole _, account.count⟩,
        held, hrole⟩
    · trivial
  refine first.bind fun s₁ building₁ => (building₁.malloc vaddr).bind ?_
  rintro s₂ ⟨role, account, held, hrole⟩
  rw [copyOut]
  split
  next f hf =>
    have hf' := account.owns.user hf
    exact ⟨role, ⟨account.small, account.placed, account.owns.setPage hf' (by simp) _,
      account.count⟩, held, hrole⟩
  next => trivial

theorem Building.copyBody (building : Building base pgdir page s) :
    Ends (copyBodyStack3 parent pgdir page s) (Building base pgdir page) (fun _ => True) := by
  have copyBit : ∀ b i s, Building base pgdir page s →
      Ends (copyBit parent pgdir page b i s) (Building base pgdir page) (fun _ => True) := by
    intro b i s building
    rw [Userprog.copyBit]
    dsimp only
    split_ifs
    · exact building
    · exact building.copyPage _ _
    · trivial
  have copyByte : ∀ b s, Building base pgdir page s →
      Ends (copyByte parent pgdir page b s) (Building base pgdir page) (fun _ => True) := by
    intro b s building
    rw [Userprog.copyByte]
    split_ifs
    · exact building
    · exact Ends.loop (fun _ => Building base pgdir page) (fun i s _ h => copyBit b i s h) 8 0
        rfl building
  refine (building.malloc sigreturnAddr).bind fun s₁ building₁ => ?_
  exact Ends.loop (fun _ => Building base pgdir page) (fun b s _ h => copyByte b s h)
    btmpBytesLen 0 (Nat.zero_add _) building₁

/-- A fork takes the task structure, the page for the copies and the bitmap, and then the
pages of the table. -/
theorem sysFork_account (placed : s.pool.Placed) : Ends (sysFork parent s)
      (fun out => ∃ role, Account (s.pool.allocated.card + 2 + btmpPages) out.1.pgdir out.2 role)
      (fun _ => True) := by
  refine ((Phys.getPage_ends placed).mono (fun _ h => h) fun _ _ => trivial).bind ?_
  rintro ⟨pcb, s₁⟩ fresh₁
  have kept₁ := Kept.of_fresh fresh₁
  refine ((Phys.getPage_ends (kept₁.region.placed placed)).mono (fun _ h => h)
    fun _ _ => trivial).bind ?_
  rintro ⟨page, s₂⟩ fresh₂
  have kept₂ := kept₁.trans (.of_fresh fresh₂)
  refine ((getPages_kept (kept₂.region.placed placed) (by decide) (by decide)).mono (fun _ h => h)
    fun _ _ => trivial).bind ?_
  rintro ⟨btmp, s₃⟩ hbtmp
  dsimp only at *
  by_cases hzero : btmp = 0
  · rw [if_pos hzero]
    trivial
  rw [if_neg hzero]
  obtain ⟨kept₃, hcard₃⟩ := hbtmp hzero
  have placed₃ := (kept₂.trans kept₃).region.placed placed
  refine ((Phys.getPage_ends placed₃).mono (fun _ h => h) fun _ _ => trivial).bind ?_
  rintro ⟨pgdir, s₄⟩ fresh₄
  dsimp only at *
  have hpage := kept₃.held page fresh₂.taken
  have building : Building (s.pool.allocated.card + 2 + btmpPages) pgdir page s₄ := by
    have start := Copying.start ((Kept.of_fresh fresh₂).trans kept₃) fresh₄ hpage fresh₂.free
    have balance := (@Phys.Fresh.grown s₃ s₄ (fun _ => none) pgdir [] fresh₄ placed₃ rfl).balance
    have hempty : (s₃.owned fun _ => none).card = 0 := by simp [Phys.owned]
    refine ⟨_, ⟨?_, fresh₄.region.placed placed₃, start.owns, ?_⟩, start.page_held, start.page_role⟩
    · rw [fresh₄.region.2]
      exact fresh₄.small
    · have hcard₁ := fresh₁.card
      have hcard₂ := fresh₂.card
      omega
  refine building.copyBody.bind fun s₅ building₅ => ?_
  refine (building₅.copyPage _ _).bind ?_
  rintro s₆ ⟨role, account, -⟩
  exact ⟨role, account⟩

end Building

/-! ## The exit -/

/-- Only pages of the table were freed. -/
structure Releasing (s₀ : Phys) (role : Roles) (s : Phys) : Prop where
  mem : s.mem = s₀.mem
  freed : ∃ cleared ⊆ s₀.owned role, s₀.pool.Freed cleared s.pool

section Release

variable {base pgdir : Nat} {s₀ s : Phys} {role : Roles}
variable (account : Account base pgdir s₀ role)

include account

theorem Releasing.freePage (releasing : Releasing s₀ role s)
    {a : Nat} {r : List Nat} (ha : role a = some r) :
    Ends (freePage s a) (Releasing s₀ role) (fun _ => True) := by
  obtain ⟨hmem, cleared, hsub, freed⟩ := releasing
  obtain ⟨i, hi, -, hpage⟩ := account.owns.held a r ha
  rw [Userprog.freePage]
  cases hfree : s.pool.freePage a with
  | none => trivial
  | some pool =>
    have hi' : i < s.pool.btmp.btmpBytesLen * 8 := freed.1.2 ▸ hi
    rw [hpage, ← freed.1.page] at hfree
    have one := Pool.freePage_page (freed.1.placed account.placed) (freed.1.2 ▸ account.small)
      hi' hfree
    refine ⟨hmem, cleared ∪ {i}, Finset.union_subset hsub ?_, freed.trans one⟩
    rw [Finset.singleton_subset_iff, Phys.owned, Finset.mem_filter, Finset.mem_range, ← hpage, ha]
    exact ⟨hi, rfl⟩

/-- The entry of a table leads to a page with a role, also after the flags are removed. -/
theorem Account.entry {p k : Nat} {r : List Nat}
    (hp : role p = some r) (hr : r.length < 3) (hne : s₀.mem p k ≠ 0) :
    role (frame (s₀.mem p k)) = some (r ++ [k]) := by
  have hrole := account.owns.entry p r k hp hr hne
  rw [Phys.target] at hrole
  split_ifs at hrole with htable
  · obtain ⟨aligned, -, upper⟩ := account.placed.held_aligned (account.owns.held _ _ hrole)
    rw [(frame_attr aligned (by unfold dmwBase at upper; omega)).2.1]
    exact hrole
  · exact hrole

theorem reversePmdPtr_role (hmem : s.mem = s₀.mem)
    {vaddr : Nat} {pmd : Slot} (h : reversePmdPtr s pgdir vaddr = some pmd) :
    ∃ i, role pmd.page = some [i] := by
  rw [reversePmdPtr, Phys.word, Phys.pgdPtr, hmem] at h
  split at h
  · cases h
  next hne =>
    cases h
    exact ⟨_, account.owns.pmd hne⟩

theorem reversePtePtr_role (hmem : s.mem = s₀.mem)
    {vaddr : Nat} {pte : Slot} (h : reversePtePtr s pgdir vaddr = some pte) :
    ∃ i j, role pte.page = some [i, j] := by
  obtain ⟨pmd, hpmd, h⟩ := Option.bind_eq_some_iff.mp h
  obtain ⟨i, hi⟩ := reversePmdPtr_role account hmem hpmd
  rw [Phys.word, hmem] at h
  split at h
  · cases h
  next hne =>
    cases h
    exact ⟨i, _, account.owns.entry _ [i] _ hi (by simp) hne⟩

theorem Releasing.releasePte {pte : Slot} {i j : Nat}
    (hpte : role pte.page = some [i, j]) (releasing : Releasing s₀ role s) (k : Nat) :
    Ends (releasePte pte k s) (Releasing s₀ role) (fun _ => True) := by
  rw [Userprog.releasePte, releasing.mem]
  split_ifs with hentry
  · exact releasing
  · exact releasing.freePage account (account.entry hpte (by simp) hentry)

theorem Releasing.releasePmd {pmd : Slot} {i : Nat}
    (hpmd : role pmd.page = some [i]) {vaddr : Nat} (releasing : Releasing s₀ role s) (k : Nat) :
    Ends (releasePmd pgdir pmd k (vaddr, s)) (fun st => Releasing s₀ role st.2)
      (fun _ => True) := by
  simp only [Userprog.releasePmd, releasing.mem]
  split_ifs with hentry
  · exact releasing
  cases hpte : reversePtePtr s pgdir vaddr with
  | none => trivial
  | some pte =>
    obtain ⟨i', j', hrole⟩ := reversePtePtr_role account releasing.mem hpte
    refine (Ends.loop (fun _ => Releasing s₀ role)
      (fun k s _ h => Releasing.releasePte account hrole h k) 512 0 rfl releasing).bind ?_
    intro s₁ releasing₁
    exact (releasing₁.freePage account (account.entry hpmd (by simp) hentry)).bind fun _ h => h

theorem Releasing.releasePgd {vaddr : Nat} (releasing : Releasing s₀ role s) (k : Nat) :
    Ends (releasePgd pgdir k (vaddr, s)) (fun st => Releasing s₀ role st.2) (fun _ => True) := by
  simp only [Userprog.releasePgd, releasing.mem]
  split_ifs with hentry
  · exact releasing
  cases hpmd : reversePmdPtr s pgdir vaddr with
  | none => trivial
  | some pmd =>
    obtain ⟨i, hrole⟩ := reversePmdPtr_role account releasing.mem hpmd
    have inner : Ends (loop (Userprog.releasePmd pgdir pmd) 512 0 (vaddr, s))
        (fun st => Releasing s₀ role st.2) (fun _ => True) :=
      Ends.loop (fun _ (st : Nat × Phys) => Releasing s₀ role st.2)
        (fun k st _ h => @Releasing.releasePmd base pgdir s₀ st.2 role account pmd i hrole st.1 h k)
        512 0 rfl releasing
    refine inner.bind ?_
    rintro ⟨vaddr₁, s₁⟩ releasing₁
    exact (releasing₁.freePage account
      (account.entry account.owns.root (by simp) hentry)).bind fun _ h => h

/-- An exit frees pages of the table, and of the others at most those it counts for the
bitmap. -/
theorem release_account {child : Child} (hchild : child.pgdir = pgdir) :
    Ends (releaseUsrprogResource child s₀) (fun s => s₀.pool.SameRegion s.pool ∧
        base ≤ s.pool.allocated.card + btmpBytesLen / pageSize) (fun _ => True) := by
  subst hchild
  have start : Releasing s₀ role s₀ := ⟨rfl, ∅, Finset.empty_subset _, .refl _⟩
  have tables : Ends (loop (releasePgd child.pgdir) 512 0 (0, s₀))
      (fun st => Releasing s₀ role st.2) (fun _ => True) :=
    Ends.loop (fun _ (st : Nat × Phys) => Releasing s₀ role st.2)
      (fun k st _ h => @Releasing.releasePgd base child.pgdir s₀ st.2 role account st.1 h k)
      512 0 rfl start
  have memory : Ends (releaseUsrmemory child.pgdir child.btmp s₀)
      (fun s => ∃ own ⊆ s₀.owned role, ∃ other : Finset Nat,
        other.card ≤ btmpBytesLen / pageSize ∧ s₀.pool.Freed (own ∪ other) s.pool)
      (fun _ => True) := by
    refine tables.bind ?_
    rintro ⟨vaddr, s₁⟩ ⟨-, own, hown, freed⟩
    simp only [freePages]
    cases hfree : s₁.pool.freePages child.btmp (btmpBytesLen / pageSize) with
    | none => trivial
    | some pool =>
      obtain ⟨other, hcard, freed'⟩ := Pool.freePages_freed hfree
      exact ⟨own, hown, other, hcard, freed.trans freed'⟩
  -- what is left after both kinds of frees
  have rest : ∀ own ⊆ s₀.owned role, ∀ (other : Finset Nat) (pool : Pool),
      other.card ≤ btmpBytesLen / pageSize → s₀.pool.Freed (own ∪ other) pool →
      s₀.pool.SameRegion pool ∧ base ≤ pool.allocated.card + btmpBytesLen / pageSize := by
    intro own hown other pool hcard freed
    refine ⟨freed.1, ?_⟩
    have hcount := account.count
    have hleft := freed.card_le
    have hunion := Finset.card_union_le own other
    have hown' := Finset.card_le_card hown
    omega
  refine memory.bind ?_
  rintro s₁ ⟨own, hown, other, hcard, freed⟩
  split_ifs
  · obtain ⟨i, hi, -, hpage⟩ := account.owns.held _ _ account.owns.root
    rw [Userprog.freePage]
    cases hfree : s₁.pool.freePage child.pgdir with
    | none => trivial
    | some pool =>
      rw [hpage, ← freed.1.page] at hfree
      have one := Pool.freePage_page (freed.1.placed account.placed)
        (freed.1.2 ▸ account.small) (freed.1.2 ▸ hi) hfree
      have hmem : i ∈ s₀.owned role := by
        rw [Phys.owned, Finset.mem_filter, Finset.mem_range, ← hpage, account.owns.root]
        exact ⟨hi, rfl⟩
      refine rest (insert i own) (Finset.insert_subset hmem hown) other pool hcard ?_
      have both := freed.trans one
      rwa [Finset.union_right_comm, Finset.union_comm own, ← Finset.insert_eq] at both
  · exact rest own hown other s₁.pool hcard freed

end Release

/-! ## The whole life -/

section Life

variable {base : Nat} {rbInsertColor : SearchTree Nat → SearchTree Nat}

/-- The account of a running child, and of what its parent took. -/
def Life.Accounted (base : Nat) (l : Life) : Prop :=
  ∃ role, Account (base + l.taken.card) l.child.pgdir l.phys role

theorem Account.mono {base' pgdir : Nat} {s : Phys} {role : Roles}
    (account : Account base pgdir s role) (hle : base' ≤ base) : Account base' pgdir s role :=
  ⟨account.small, account.placed, account.owns, Nat.le_trans (by omega) account.count⟩

theorem getPages_any {s : Phys} (placed : s.pool.Placed) (count : Nat) : Ends (s.getPages count)
      (fun out => Kept s out.2 ∧ s.pool.allocated ⊆ out.2.pool.allocated) (fun _ => True) := by
  have kept := @getPages_kept s count placed
  rw [Phys.getPages] at kept ⊢
  cases hget : s.pool.getPages count with
  | none => trivial
  | some r =>
    obtain ⟨a, pool⟩ := r
    obtain ⟨region, hsub, hcount⟩ := Pool.getPages_sets hget
    have hheld : ∀ q, s.pool.Held q → pool.Held q := by
      rintro q ⟨i, hi, hmarked, rfl⟩
      have hi' := Pool.mem_allocated.mp (hsub (Pool.mem_allocated.mpr ⟨hi, hmarked⟩))
      exact ⟨i, hi'.1, hi'.2, (region.page i).symm⟩
    rw [hget] at kept
    simp only [ends_ok] at kept ⊢
    by_cases hzero : a = 0
    · simp only [hzero, if_true]
      exact ⟨⟨region, hheld, fun _ _ => rfl⟩, hsub⟩
    by_cases hnone : count = 0
    · refine ⟨⟨(by simp only [hzero, if_false]; exact region), ?_, ?_⟩, ?_⟩
      all_goals simp only [hzero, if_false]
      · exact hheld
      · intro q _
        refine if_neg fun h => ?_
        rw [hnone] at h
        omega
      · exact hsub
    · have hlt : count < 2 ^ 32 := hcount.resolve_left fun h => hzero h.1
      obtain ⟨kept', -⟩ := kept (Nat.pos_of_ne_zero hnone) hlt hzero
      refine ⟨kept', ?_⟩
      simp only [hzero, if_false]
      exact hsub

theorem Life.Accounted.parentTakes {l : Life} (accounted : l.Accounted base) (count : Nat) :
    Ends (l.parentTakes count) (Life.Accounted base) (fun _ => True) := by
  obtain ⟨role, account⟩ := accounted
  refine (getPages_any account.placed count).bind ?_
  rintro ⟨a, phys⟩ ⟨kept, hsub⟩
  dsimp only at kept hsub
  refine ⟨role, (account.others kept hsub).mono ?_⟩
  have hcard := Finset.card_union_le l.taken (phys.pool.allocated \ l.phys.pool.allocated)
  change base + (l.taken ∪ (phys.pool.allocated \ l.phys.pool.allocated)).card ≤ _
  omega

theorem Life.Accounted.mallocUsrpage {l : Life} (accounted : l.Accounted base) (vaddr : Nat) :
    Ends (l.mallocUsrpage vaddr) (Life.Accounted base) (fun _ => True) := by
  obtain ⟨role, account⟩ := accounted
  refine (account.malloc vaddr).bind ?_
  rintro phys ⟨f, role', -, account'⟩
  split
  · exact ⟨role', account'⟩
  · trivial

theorem Life.Accounted.doMmapPgoff {l : Life} (accounted : l.Accounted base)
    (addr len flags pgoff : Nat) :
    Ends (l.doMmapPgoff rbInsertColor addr len flags pgoff) (Life.Accounted base)
      (fun _ => True) := by
  rw [Life.doMmapPgoff]
  generalize pageAlign len = len
  by_cases hrefused : len = 0 ∨ (pgoff + len >>> 12) % 2 ^ 64 < pgoff ∨
      sysctlMaxMapCount < l.mm.mapCount
  · rw [if_pos hrefused]
    exact accounted
  rw [if_neg hrefused]
  cases l.mm.chooseAddr addr len flags with
  | none => trivial
  | some found =>
    obtain ⟨addr, mm⟩ := found
    obtain ⟨role, account⟩ := accounted
    refine ((Phys.getPage_ends account.placed).mono (fun _ h => h) fun _ _ => trivial).bind ?_
    rintro ⟨vma, phys⟩ fresh
    have account' : Account (base + l.taken.card) l.child.pgdir phys role :=
      (account.fresh fresh).mono (Nat.le_succ _)
    dsimp only
    cases mm.addArea rbInsertColor addr len (mm.findVmaPrepare addr) with
    | none => trivial
    | some mm' =>
      by_cases hpages : flags &&& mapForInitFile = 0
      · simp only [hpages, if_true]
        exact Ends.loop (fun _ => Life.Accounted base) (fun i l _ h => h.mallocUsrpage _) _ 0
          (Nat.zero_add _) ⟨role, account'⟩
      · simp only [hpages, if_false]
        exact ⟨role, account'⟩

theorem Life.Accounted.event {l : Life} (accounted : l.Accounted base) (e : Event) :
    Ends (l.event rbInsertColor e) (Life.Accounted base) (fun _ => True) := by
  cases e with
  | mmap addr len flags offset =>
    rw [Life.event, Life.sysMmap]
    split_ifs
    · exact accounted
    · exact accounted.doMmapPgoff _ _ _ _
  | parent count => exact accounted.parentTakes count

/-- What is left when the child is gone: more than the parent took. -/
def Life.Left (base : Nat) (l : Life) : Prop :=
  l.phys.pool.Placed ∧ base + l.taken.card ≤ l.phys.pool.allocated.card + btmpBytesLen / pageSize

theorem Life.Accounted.sysExit {l : Life} (accounted : l.Accounted base) :
    Ends l.sysExit (Life.Left base) (fun _ => True) := by
  obtain ⟨role, account⟩ := accounted
  refine (release_account account rfl).bind ?_
  rintro phys ⟨region, hleft⟩
  exact ⟨region.placed account.placed, hleft⟩

theorem Life.Left.parentTakes {l : Life} (left : l.Left base) (count : Nat) :
    Ends (l.parentTakes count) (Life.Left base) (fun _ => True) := by
  obtain ⟨placed, hleft⟩ := left
  refine (getPages_any placed count).bind ?_
  rintro ⟨a, phys⟩ ⟨kept, hsub⟩
  dsimp only at kept hsub
  refine ⟨kept.region.placed placed, ?_⟩
  have hcard := Finset.card_union_le l.taken (phys.pool.allocated \ l.phys.pool.allocated)
  have hnew := Finset.card_sdiff_add_card_eq_card hsub
  change base + (l.taken ∪ (phys.pool.allocated \ l.phys.pool.allocated)).card ≤
    phys.pool.allocated.card + btmpBytesLen / pageSize
  omega

theorem Life.Left.reap {l : Life} (left : l.Left base) :
    Ends l.reap (fun l' => base + l'.taken.card ≤
      l'.phys.pool.allocated.card + 1 + btmpBytesLen / pageSize) (fun _ => True) := by
  have one : Ends (freePage l.phys l.child.pcb)
      (fun phys => l.phys.pool.allocated.card ≤ phys.pool.allocated.card + 1) (fun _ => True) := by
    rw [freePage]
    cases hfree : l.phys.pool.freePage l.child.pcb with
    | none => trivial
    | some pool => exact (Pool.freePage_freed hfree).card_le
  refine one.bind fun phys hcard => ?_
  have hleft := left.2
  change base + l.taken.card ≤ phys.pool.allocated.card + 1 + btmpBytesLen / pageSize
  omega

theorem lifeCycle_account {parent : Process} {mm : MmStruct} {events : List Event}
    {later : List Nat} {s : Phys} (placed : s.pool.Placed) :
    Ends (Life.lifeCycle rbInsertColor parent mm events later s)
      (fun l => s.pool.allocated.card + l.taken.card + 3 ≤ l.phys.pool.allocated.card)
      (fun _ => True) := by
  have hpages : btmpPages = 4097 ∧ btmpBytesLen / pageSize = 4095 := by decide
  refine (sysFork_account placed).bind ?_
  rintro ⟨child, s₁⟩ ⟨role, account⟩
  have start : Life.Accounted (s.pool.allocated.card + 2 + btmpPages)
      ⟨s₁, child, parent.bits, mm, ∅⟩ := ⟨role, account⟩
  refine (Ends.foldlM (fun e _ l h => Life.Accounted.event h e) start).bind ?_
  intro l accounted
  refine accounted.sysExit.bind fun l left => ?_
  refine (Ends.foldlM (fun count _ l h => Life.Left.parentTakes h count) left).bind ?_
  intro l left
  refine left.reap.mono (fun l' hleft => ?_) fun _ h => h
  rw [hpages.1, hpages.2] at hleft
  omega

theorem card_left {parent : Process} {mm : MmStruct} {events : List Event} {later : List Nat}
    {s : Phys} {l : Life} (placed : s.pool.Placed)
    (h : Life.lifeCycle rbInsertColor parent mm events later s = .ok l) :
    s.pool.allocated.card + l.taken.card + 3 ≤ l.phys.pool.allocated.card :=
  (lifeCycle_account placed).of_eq_ok h

end Life

/-! ## A child that does nothing -/

/-- A fork of a process with no bit set. -/
def forkBare (parent : Process) (s : Phys) : Except Stop (Child × Phys) := do
  let (pcb, s) ← s.getPage
  let (page, s) ← s.getPage
  let (btmp, s) ← s.getPages btmpPages
  if btmp = 0 then .error .noMemory
  else
    let (pgdir, s) ← s.getPage
    let s ← s.mallocUsrpageWithoutopmap pgdir sigreturnAddr
    let s ← copyArgs parent pgdir page s
    .ok (⟨pcb, btmp, pgdir⟩, s)

theorem sysFork_bare {parent : Process} (h : ∀ b, parent.bits b = 0) (s : Phys) :
    sysFork parent s = forkBare parent s := by
  have hbody : ∀ child page s, copyBodyStack3 parent child page s =
      s.mallocUsrpageWithoutopmap child sigreturnAddr := by
    intro child page s
    simp only [copyBodyStack3, loop_copyByte_zero h]
    cases s.mallocUsrpageWithoutopmap child sigreturnAddr <;> rfl
  simp only [sysFork, copyProcess, forkBare, hbody]

/-- A pool with a bitmap of 8192 bytes. One page of the third byte is taken, so that the pages of a
bitmap come after it and single pages before it. -/
def lifePool : Pool where
  paddrStart := usableBase
  btmp := ⟨8192, fun k => if k = 0 then 0x1f else if k = 2 then 1 else 0⟩

def lifePhys : Phys := { startPhys 0 with pool := lifePool }

theorem lifePhys_placed : lifePhys.pool.Placed := ⟨by decide, by decide, by decide⟩

theorem lifeCycle_nil {rbInsertColor : SearchTree Nat → SearchTree Nat} (parent : Process)
    (mm : MmStruct) (s : Phys) : Life.lifeCycle rbInsertColor parent mm [] [] s =
      sysFork parent s >>= fun out =>
        Life.sysExit ⟨out.2, out.1, parent.bits, mm, ∅⟩ >>= Life.reap := by
  simp only [Life.lifeCycle, List.foldlM_nil, pure_bind]

theorem lifeCycle_start : ∃ l,
    Life.lifeCycle id startProcess (MmStruct.initial 0) [] [] lifePhys = .ok l := by
  have ends : (forkBare startProcess lifePhys >>= fun out =>
      Life.sysExit ⟨out.2, out.1, startProcess.bits, MmStruct.initial 0, ∅⟩ >>=
        Life.reap).isOk = true := by decide +kernel
  rw [lifeCycle_nil, sysFork_bare fun _ => rfl]
  revert ends
  generalize (forkBare startProcess lifePhys >>= _) = x
  intro ends
  cases x with
  | ok l => exact ⟨l, rfl⟩
  | error e => cases ends

/-- No life of a child leaves the allocated pages as they were, apart from those that the
parent took. -/
theorem lifeCycle_leaks {rbInsertColor : SearchTree Nat → SearchTree Nat} {parent : Process}
    {mm : MmStruct} {events : List Event} {later : List Nat} {s : Phys} {l : Life}
    (placed : s.pool.Placed) (h : Life.lifeCycle rbInsertColor parent mm events later s = .ok l) :
    l.phys.pool.allocated ≠ s.pool.allocated ∪ l.taken := by
  intro hsame
  have hcount := card_left placed h
  have hunion := Finset.card_union_le s.pool.allocated l.taken
  rw [hsame] at hcount
  omega

theorem lifeCycle_leaks_start : ∃ l,
    Life.lifeCycle id startProcess (MmStruct.initial 0) [] [] lifePhys = .ok l ∧
      l.phys.pool.allocated ≠ lifePhys.pool.allocated ∪ l.taken := by
  obtain ⟨l, h⟩ := lifeCycle_start
  exact ⟨l, h, lifeCycle_leaks lifePhys_placed h⟩

/-- A child that exits at once leaves three pages behind. -/
theorem lifeCycle_leaves_three : ∃ l,
    Life.lifeCycle id startProcess (MmStruct.initial 0) [] [] lifePhys = .ok l ∧
      lifePhys.pool.allocated.card + l.taken.card + 3 ≤ l.phys.pool.allocated.card := by
  obtain ⟨l, h⟩ := lifeCycle_start
  exact ⟨l, h, card_left lifePhys_placed h⟩

end KernelTravel.Userprog

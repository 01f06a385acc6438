import KernelTravel.Mm.TableOwner

/-!
# Copying an address space

`sys_fork` gives the child a page table of its own. What it copies into it is read off the
bitmap of user addresses, not off the page table of the parent: the page of every bit that
is set, the page of the arguments at `USER_STACK`, and besides these a cleared page for the
code that returns from a signal handler. A bit that stands for a page which is not mapped
makes the copy fault, and a mapped page that has no bit is not copied.
-/

namespace KernelTravel.Userprog

open Function

open Mm Outcome

def userTop : Nat := 2 ^ (9 + 9 + 9 + 12)

def userStack : Nat := userTop - 0x8000

/-- `SIGRETURN_ADDR`. -/
def sigreturnAddr : Nat := userTop - 0x2000

/-- The bitmap has a bit for every page from `USER_VADDR_START`, which is 0, to
`USER_STACK`. -/
def btmpBytesLen : Nat := userStack / pageSize / 8

/-- The pages that the bitmap is given. -/
def btmpPages : Nat := (btmpBytesLen + pageSize - 1) / pageSize + 1

/-- The page table of a process and the bytes of its bitmap. -/
structure Process where
  pgdir : Nat
  bits : Nat → Byte

/-- The bit of page `n` is set. -/
def Process.tracks (parent : Process) (n : Nat) : Prop :=
  n < btmpBytesLen * 8 ∧ (parent.bits (n / 8)).getLsbD (n % 8) = true

instance (parent : Process) (n : Nat) : Decidable (parent.tracks n) :=
  inferInstanceAs (Decidable (_ ∧ _))

/-- Copy a page of the address space `pd` to a page of the kernel. -/
def copyIn (s : Phys) (pd vaddr page : Nat) : Except Stop Phys :=
  match s.translate pd vaddr with
  | some f => .ok (s.setPage page (s.mem f))
  | none => .error .fault

/-- Copy a page of the kernel to a page of the address space `pd`. -/
def copyOut (s : Phys) (pd vaddr page : Nat) : Except Stop Phys :=
  match s.translate pd vaddr with
  | some f => .ok (s.setPage f (s.mem page))
  | none => .error .fault

/-- Copy one page of the parent to a new page of the child. -/
def copyPage (parent child page vaddr : Nat) (s : Phys) : Except Stop Phys := do
  let s ← copyIn s parent vaddr page
  let s ← s.mallocUsrpageWithoutopmap child vaddr
  copyOut s child vaddr page

/-- One round of the inner loop, for a bit of the byte `b`. -/
def copyBit (parent : Process) (child page b bitIdx : Nat) (s : Phys) : Except Stop Phys :=
  if parent.bits b &&& (1#8 <<< bitIdx) = 0 then .ok s
  else
    let vaddr := (b * 8 + bitIdx) * pageSize
    if vaddr < userStack then copyPage parent.pgdir child page vaddr s else .error .bug

def copyByte (parent : Process) (child page b : Nat) (s : Phys) : Except Stop Phys :=
  if parent.bits b = 0 then .ok s else loop (copyBit parent child page b) 8 0 s

/-- The child's bitmap is the copy of the parent's that `copy_pcb` made. -/
def copyBodyStack3 (parent : Process) (child page : Nat) (s : Phys) : Except Stop Phys := do
  let s ← s.mallocUsrpageWithoutopmap child sigreturnAddr
  loop (copyByte parent child page) btmpBytesLen 0 s

def copyArgs (parent : Process) (child page : Nat) (s : Phys) : Except Stop Phys :=
  copyPage parent.pgdir child page userStack s

/-- The pages that a child is made of: its task structure, bitmap and page table. -/
structure Child where
  pcb : Nat
  btmp : Nat
  pgdir : Nat

/-- `copy_process`. The page for the copies is not given back. Without the pages for the
bitmap `sys_fork` reports a failure. -/
def copyProcess (parent : Process) (pcb : Nat) (s : Phys) : Except Stop (Child × Phys) := do
  let (page, s) ← s.getPage
  let (btmp, s) ← s.getPages btmpPages
  if btmp = 0 then .error .noMemory
  else
    let (pgdir, s) ← s.getPage
    let s ← copyBodyStack3 parent pgdir page s
    let s ← copyArgs parent pgdir page s
    .ok (⟨pcb, btmp, pgdir⟩, s)

def sysFork (parent : Process) (s : Phys) : Except Stop (Child × Phys) := do
  let (pcb, s) ← s.getPage
  copyProcess parent pcb s

/-! ## What a fork has done so far -/

/-- The tables and pages of an address space have been taken from the pool. -/
structure Backed (s : Phys) (pd : Nat) : Prop where
  pgd : s.pool.Held pd
  pmd : ∀ i, s.mem pd i ≠ 0 → s.pool.Held (s.mem pd i)
  pte : ∀ i j, s.mem pd i ≠ 0 → s.mem (s.mem pd i) j ≠ 0 → s.pool.Held (s.mem (s.mem pd i) j)
  user : ∀ i j k f, s.lookup pd i j k = some f → s.pool.Held f

/-- Nothing that was taken before the fork has changed. -/
structure Kept (s₀ s : Phys) : Prop where
  region : s₀.pool.SameRegion s.pool
  held : ∀ q, s₀.pool.Held q → s.pool.Held q
  mem : ∀ q, s₀.pool.Held q → s.mem q = s₀.mem q

theorem Kept.translate {s₀ s : Phys} {pd : Nat} (kept : Kept s₀ s) (backed : Backed s₀ pd)
    (vaddr : Nat) : s.translate pd vaddr = s₀.translate pd vaddr := by
  apply Phys.lookup_congr
  · rw [kept.mem pd backed.pgd]
  · intro h
    rw [kept.mem _ (backed.pmd _ h)]
  · intro h h'
    rw [kept.mem _ (backed.pte _ _ h h')]

/-- `want n` is what page `n` of the child holds, if it is mapped. -/
structure Copying (s₀ : Phys) (child page : Nat) (want : Nat → Option (Nat → Nat)) (s : Phys)
    (role : Roles) : Prop where
  kept : Kept s₀ s
  owns : s.Owns child role
  apart : ∀ q, role q ≠ none → ¬s₀.pool.Held q
  page_held : s.pool.Held page
  page_new : ¬s₀.pool.Held page
  page_role : role page = none
  unmapped : ∀ n < userPages, want n = none → s.translate child (n * pageSize) = none
  mapped : ∀ n < userPages, ∀ words, want n = some words →
    ∃ f, s.translate child (n * pageSize) = some f ∧ s.mem f = words

section Copy

variable {s₀ s s' : Phys} {parent : Process} {child page m : Nat} {want : Nat → Option (Nat → Nat)}
  {role role' : Roles}

section Page

variable (copying : Copying s₀ child page want s role)
include copying

/-- A page without a role may be written. -/
theorem Copying.setTemp (words : Nat → Nat) :
    Copying s₀ child page want (s.setPage page words) role := by
  have other : ∀ q, q ≠ page → (s.setPage page words).mem q = s.mem q := fun q hq =>
    update_of_ne hq _ _
  have role_ne : ∀ q r, role q = some r → q ≠ page := by
    rintro q r hq rfl
    rw [copying.page_role] at hq
    cases hq
  have lookup : ∀ v, (s.setPage page words).translate child v = s.translate child v := fun v =>
    copying.owns.lookup_eq (fun p r hp _ => other p (role_ne p r hp)) _ _ _
  refine ⟨⟨copying.kept.region, copying.kept.held, ?_⟩,
    copying.owns.setOther copying.page_role words,
    copying.apart, copying.page_held, copying.page_new, copying.page_role, ?_, ?_⟩
  · intro q held
    rw [other q, copying.kept.mem q held]
    rintro rfl
    exact copying.page_new held
  · intro n hn hnone
    rw [lookup, copying.unmapped n hn hnone]
  · intro n hn w hw
    obtain ⟨f, hf, hmem⟩ := copying.mapped n hn w hw
    refine ⟨f, by rw [lookup, hf], ?_⟩
    rw [other f (role_ne f _ (copying.owns.user hf)), hmem]

/-- A new page is mapped at page `n`. -/
theorem Copying.map {n f : Nat} (hn : n < userPages)
    (mapped : s.Mapped role child (n * pageSize) f s' role') :
    Copying s₀ child page (update want n (some fun _ => 0)) s' role' ∧
      s'.mem page = s.mem page := by
  have hpage : s'.mem page = s.mem page :=
    mapped.others page copying.page_held fun r hr => absurd hr (by simp [copying.page_role])
  have translate : ∀ m < userPages, s'.translate child (m * pageSize) =
      if m = n then some f else s.translate child (m * pageSize) := by
    intro m hm
    rw [Phys.translate, mapped.lookup]
    by_cases hmn : m = n
    · rw [if_pos hmn, hmn, if_pos ⟨rfl, rfl, rfl⟩]
    · rw [if_neg hmn, if_neg fun h => hmn (indices_inj hm hn h.1 h.2.1 h.2.2)]
      rfl
  refine ⟨⟨⟨copying.kept.region.trans mapped.grown.region,
    fun q h => mapped.grown.held q (copying.kept.held q h), ?_⟩, mapped.owns, ?_,
    mapped.grown.held page copying.page_held, copying.page_new,
    mapped.grown.role_none copying.page_held copying.page_role, ?_, ?_⟩, hpage⟩
  · intro q held
    have hnone : role q = none := by
      by_contra hne
      exact copying.apart q hne held
    rw [mapped.grown.frame q (copying.kept.held q held) hnone, copying.kept.mem q held]
  · intro q hne held
    by_cases hq : role q = none
    · exact mapped.grown.fresh q hq hne (copying.kept.held q held)
    · exact copying.apart q hq held
  · intro m hm hnone
    by_cases hmn : m = n
    · simp [hmn] at hnone
    · rw [update_of_ne hmn] at hnone
      rw [translate m hm, if_neg hmn, copying.unmapped m hm hnone]
  · intro m hm words hwords
    by_cases hmn : m = n
    · subst hmn
      simp only [update_self, Option.some.injEq] at hwords
      exact ⟨f, by rw [translate m hm, if_pos rfl], by rw [mapped.zero, hwords]⟩
    · rw [update_of_ne hmn] at hwords
      obtain ⟨g, hg, hmem⟩ := copying.mapped m hm words hwords
      refine ⟨g, by rw [translate m hm, if_neg hmn, hg], ?_⟩
      have hrole := copying.owns.user hg
      rw [mapped.others g (copying.owns.held _ _ hrole) fun r hr => ?_, hmem]
      cases hrole.symm.trans hr
      simp

/-- The page that is mapped at page `n` is written. -/
theorem Copying.write {n f : Nat}
    (hn : n < userPages) (hf : s.translate child (n * pageSize) = some f) (words : Nat → Nat) :
    Copying s₀ child page (update want n (some words)) (s.setPage f words) role := by
  have hrole := copying.owns.user hf
  have other : ∀ q, q ≠ f → (s.setPage f words).mem q = s.mem q := fun q hq =>
    update_of_ne hq _ _
  have lookup : ∀ v, (s.setPage f words).translate child v = s.translate child v := by
    intro v
    refine copying.owns.lookup_eq (fun p r hp hr => other p ?_) _ _ _
    rintro rfl
    cases hrole.symm.trans hp
    simp at hr
  refine ⟨⟨copying.kept.region, copying.kept.held, ?_⟩,
    copying.owns.setPage hrole (by simp) words, copying.apart, copying.page_held, copying.page_new,
    copying.page_role, ?_, ?_⟩
  · intro q held
    rw [other q, copying.kept.mem q held]
    rintro rfl
    exact copying.apart q (by simp [hrole]) held
  · intro m hm hnone
    by_cases hmn : m = n
    · simp [hmn] at hnone
    · rw [update_of_ne hmn] at hnone
      rw [lookup, copying.unmapped m hm hnone]
  · intro m hm w hw
    by_cases hmn : m = n
    · subst hmn
      simp only [update_self, Option.some.injEq] at hw
      exact ⟨f, by rw [lookup, hf], by rw [← hw]; exact update_self ..⟩
    · rw [update_of_ne hmn] at hw
      obtain ⟨g, hg, hmem⟩ := copying.mapped m hm w hw
      refine ⟨g, by rw [lookup, hg], ?_⟩
      rw [other g, hmem]
      -- two pages of the child at different addresses have different roles
      rintro rfl
      have hsame := hrole.symm.trans (copying.owns.user hg)
      simp only [Option.some.injEq, List.cons.injEq, and_true] at hsame
      exact hmn (indices_inj hm hn hsame.1.symm hsame.2.1.symm hsame.2.2.symm)

theorem Copying.malloc (placed : s₀.pool.Placed)
    {n : Nat} (hn : n < userPages) (hwant : want n = none) :
    Ends (s.mallocUsrpageWithoutopmap child (n * pageSize))
      (fun s' => ∃ role', Copying s₀ child page (update want n (some fun _ => 0)) s' role' ∧
        s'.mem page = s.mem page) (· = .noMemory) := by
  have hnone := copying.unmapped n hn hwant
  refine (Phys.mallocUsrpageWithoutopmap_ends (copying.kept.region.placed placed) copying.owns
    (n * pageSize)).mono ?_ ?_
  · rintro s' ⟨-, f, role', mapped⟩
    exact ⟨role', copying.map hn mapped⟩
  · rintro e (h | ⟨-, h⟩)
    · exact h
    · exact absurd hnone h

theorem Copying.copyPage (placed : s₀.pool.Placed)
    {pd : Nat} (backed : Backed s₀ pd) {n : Nat} (hn : n < userPages) (hwant : want n = none) :
    Ends (copyPage pd child page (n * pageSize) s)
      (fun s' => ∃ f role', s₀.translate pd (n * pageSize) = some f ∧
        Copying s₀ child page (update want n (some (s₀.mem f))) s' role')
      (fun e => e = .noMemory ∨ s₀.translate pd (n * pageSize) = none) := by
  rw [Userprog.copyPage, copyIn, copying.kept.translate backed]
  cases hf : s₀.translate pd (n * pageSize) with
  | none => exact .inr rfl
  | some f =>
    have alloc : Ends ((s.setPage page (s.mem f)).mallocUsrpageWithoutopmap child (n * pageSize))
        (fun s' => ∃ role', Copying s₀ child page (update want n (some fun _ => 0)) s' role' ∧
          s'.mem page = s₀.mem f)
        (fun e => e = .noMemory ∨ some f = none) := by
      refine ((copying.setTemp (s.mem f)).malloc placed hn hwant).mono ?_ fun _ h => Or.inl h
      rintro s' ⟨role', copying', hpage⟩
      refine ⟨role', copying', hpage.trans ?_⟩
      rw [← copying.kept.mem f (backed.user _ _ _ f hf)]
      exact update_self ..
    change Ends ((s.setPage page (s.mem f)).mallocUsrpageWithoutopmap child (n * pageSize) >>=
      fun s => copyOut s child (n * pageSize) page) _ _
    refine Ends.bind alloc ?_
    rintro s' ⟨role', copying', hpage⟩
    obtain ⟨g, hg, -⟩ := copying'.mapped n hn _ (update_self ..)
    have written := copying'.write hn hg (s'.mem page)
    rw [update_idem, hpage] at written
    rw [copyOut, hg, hpage]
    exact ⟨f, role', rfl, written⟩

end Page

/-! ## The loop over the bitmap -/

def argPage : Nat := userPages - 8

def sigPage : Nat := userPages - 2

/-- What the child holds when the bits below `m` have been gone through. -/
def wanted (s₀ : Phys) (parent : Process) (m n : Nat) : Option (Nat → Nat) :=
  if n = sigPage then some fun _ => 0
  else if n < m ∧ parent.tracks n then (s₀.translate parent.pgdir (n * pageSize)).map s₀.mem
  else none

/-- A bit is set whose page the parent has not mapped. -/
def Dangling (s₀ : Phys) (parent : Process) : Prop :=
  ∃ n, parent.tracks n ∧ s₀.translate parent.pgdir (n * pageSize) = none

def Body (s₀ : Phys) (parent : Process) (child page m : Nat) (s : Phys) : Prop :=
  (∃ role, Copying s₀ child page (wanted s₀ parent m) s role) ∧
    ∀ n < m, parent.tracks n → s₀.translate parent.pgdir (n * pageSize) ≠ none

theorem btmpBytesLen_eq : btmpBytesLen * 8 = argPage := by decide

theorem tracks_iff {b i : Nat} (hb : b < btmpBytesLen) (hi : i < 8) :
    parent.tracks (b * 8 + i) ↔ parent.bits b &&& (1#8 <<< i) ≠ 0 := by
  have hmask := Bits.mask_eq_zero parent.bits (b * 8 + i)
  have hget : Bits.get parent.bits (b * 8 + i) = (parent.bits b).getLsbD i := by
    rw [Bits.get, show (b * 8 + i) / 8 = b by omega, show (b * 8 + i) % 8 = i by omega]
  rw [hget, show (b * 8 + i) / 8 = b by omega, show (b * 8 + i) % 8 = i by omega] at hmask
  rw [Process.tracks, show (b * 8 + i) / 8 = b by omega, show (b * 8 + i) % 8 = i by omega,
    and_iff_right (by omega), ← Bool.not_eq_false]
  exact (not_congr hmask).symm

/-- Bits that are clear are passed over. -/
theorem Body.skip {m' : Nat} (body : Body s₀ parent child page m s) (hm : m ≤ m')
    (clear : ∀ n, m ≤ n → n < m' → ¬parent.tracks n) : Body s₀ parent child page m' s := by
  have hwanted : wanted s₀ parent m' = wanted s₀ parent m := by
    funext n
    have hsame : (n < m' ∧ parent.tracks n) ↔ n < m ∧ parent.tracks n := by
      constructor
      · rintro ⟨hn, htracks⟩
        by_contra hlow
        exact clear n (by_contra fun h => hlow ⟨by omega, htracks⟩) hn htracks
      · exact fun h => ⟨by omega, h.2⟩
    simp only [wanted, hsame]
  refine ⟨hwanted ▸ body.1, ?_⟩
  intro n hn htracks
  by_cases hlow : n < m
  · exact body.2 n hlow htracks
  · exact absurd htracks (clear n (by omega) hn)

theorem Body.copyBit (body : Body s₀ parent child page m s) (placed : s₀.pool.Placed)
    (backed : Backed s₀ parent.pgdir) {b i : Nat} (hb : b < btmpBytesLen) (hi : i < 8)
    (hm : m = b * 8 + i) :
    Ends (copyBit parent child page b i s) (Body s₀ parent child page (m + 1))
      (fun e => e = .noMemory ∨ Dangling s₀ parent) := by
  have htracks := @tracks_iff parent b i hb hi
  rw [← hm] at htracks
  rw [Userprog.copyBit]
  by_cases hbit : parent.bits b &&& (1#8 <<< i) = 0
  · rw [if_pos hbit]
    refine body.skip (Nat.le_succ m) fun n hle hlt => ?_
    obtain rfl : n = m := by omega
    exact fun h => htracks.mp h hbit
  · obtain ⟨⟨role, copying⟩, htotal⟩ := body
    have hset := htracks.mpr hbit
    have hlt : m < argPage := btmpBytesLen_eq ▸ hset.1
    have hpages : m < userPages := Nat.lt_of_lt_of_le hlt (Nat.sub_le _ _)
    have hsig : m ≠ sigPage := by
      unfold argPage sigPage userPages at *
      omega
    have haddr : m * pageSize < userStack := by
      unfold argPage userPages at hlt
      unfold userStack userTop pageSize
      omega
    rw [if_neg hbit, ← hm, if_pos haddr]
    have hfree : wanted s₀ parent m m = none := by simp [wanted, hsig]
    refine (copying.copyPage placed backed hpages hfree).mono ?_ ?_
    · rintro s' ⟨f, role', hf, copying'⟩
      have hwanted : update (wanted s₀ parent m) m (some (s₀.mem f)) =
          wanted s₀ parent (m + 1) := by
        funext n
        by_cases hn : n = m
        · simp [hn, wanted, hsig, hset, hf]
        · have hsame : (n < m + 1 ∧ parent.tracks n) ↔ n < m ∧ parent.tracks n :=
            and_congr_left fun _ => by omega
          simp only [update_of_ne hn, wanted, hsame]
      refine ⟨⟨role', hwanted ▸ copying'⟩, ?_⟩
      intro n hn htracks'
      by_cases hnm : n = m
      · rw [hnm, hf]
        exact Option.some_ne_none f
      · exact htotal n (by omega) htracks'
    · rintro e (h | h)
      · exact .inl h
      · exact .inr ⟨m, hset, h⟩

theorem Body.copyByte {b : Nat} (body : Body s₀ parent child page (b * 8) s)
    (placed : s₀.pool.Placed) (backed : Backed s₀ parent.pgdir) (hb : b < btmpBytesLen) :
    Ends (copyByte parent child page b s) (Body s₀ parent child page ((b + 1) * 8))
      (fun e => e = .noMemory ∨ Dangling s₀ parent) := by
  rw [Userprog.copyByte]
  by_cases hzero : parent.bits b = 0
  · rw [if_pos hzero]
    refine body.skip (by omega) fun n hle hlt htracks => ?_
    obtain ⟨i, rfl⟩ : ∃ i, n = b * 8 + i := ⟨n - b * 8, by omega⟩
    exact (tracks_iff hb (by omega)).mp htracks (by simp [hzero])
  · rw [if_neg hzero]
    have hend : (b + 1) * 8 = b * 8 + 8 := by omega
    rw [hend]
    refine Ends.loop (fun i s => Body s₀ parent child page (b * 8 + i) s) ?_ 8 0 rfl body
    intro i s' hi body'
    exact body'.copyBit placed backed hb hi rfl

theorem Copying.body {role : Roles} (copying : Copying s₀ child page (fun _ => none) s role)
    (placed : s₀.pool.Placed) (backed : Backed s₀ parent.pgdir) :
    Ends (copyBodyStack3 parent child page s) (Body s₀ parent child page (btmpBytesLen * 8))
      (fun e => e = .noMemory ∨ Dangling s₀ parent) := by
  have hsig : sigreturnAddr = sigPage * pageSize := by decide
  rw [copyBodyStack3, hsig]
  refine ((copying.malloc placed (by decide) rfl).mono (fun _ h => h) fun _ h => Or.inl h).bind ?_
  rintro s₁ ⟨role₁, copying₁, -⟩
  have start : Body s₀ parent child page (0 * 8) s₁ := by
    refine ⟨⟨role₁, ?_⟩, fun n hn => absurd hn (by omega)⟩
    have hwanted : wanted s₀ parent (0 * 8) =
        update (fun _ => none) sigPage (some fun _ => 0) := by
      funext n
      by_cases hn : n = sigPage <;> simp [wanted, hn]
    rw [hwanted]
    exact copying₁
  exact Ends.loop (fun b s => Body s₀ parent child page (b * 8) s)
    (fun b s hb body => body.copyByte placed backed hb) btmpBytesLen 0 (Nat.zero_add _) start

/-- What the child holds in the end. -/
def forked (s₀ : Phys) (parent : Process) (n : Nat) : Option (Nat → Nat) :=
  if n = sigPage then some fun _ => 0
  else if parent.tracks n ∨ n = argPage then (s₀.translate parent.pgdir (n * pageSize)).map s₀.mem
  else none

theorem Body.copyArgs (body : Body s₀ parent child page (btmpBytesLen * 8) s)
    (placed : s₀.pool.Placed) (backed : Backed s₀ parent.pgdir) :
    Ends (copyArgs parent child page s)
      (fun s' => (∃ role, Copying s₀ child page (forked s₀ parent) s' role) ∧
        (∀ n, parent.tracks n → s₀.translate parent.pgdir (n * pageSize) ≠ none) ∧
        s₀.translate parent.pgdir (argPage * pageSize) ≠ none)
      (fun e => e = .noMemory ∨ s₀.translate parent.pgdir (argPage * pageSize) = none) := by
  obtain ⟨⟨role, copying⟩, htotal⟩ := body
  have hstack : userStack = argPage * pageSize := by decide
  have hsig : argPage ≠ sigPage := by decide
  have hfree : wanted s₀ parent (btmpBytesLen * 8) argPage = none := by
    simp [wanted, hsig, btmpBytesLen_eq]
  rw [Userprog.copyArgs, hstack]
  refine (copying.copyPage placed backed (by decide) hfree).mono ?_ fun _ h => h
  rintro s' ⟨f, role', hf, copying'⟩
  have hforked : update (wanted s₀ parent (btmpBytesLen * 8)) argPage (some (s₀.mem f)) =
      forked s₀ parent := by
    funext n
    by_cases hn : n = argPage
    · simp [hn, forked, hsig, hf]
    · have htracks : (n < btmpBytesLen * 8 ∧ parent.tracks n) ↔ parent.tracks n :=
        and_iff_right_of_imp And.left
      simp [forked, wanted, htracks, hn]
  refine ⟨⟨role', hforked ▸ copying'⟩, fun n htracks => htotal n htracks.1 htracks, ?_⟩
  rw [hf]
  exact Option.some_ne_none f

end Copy

/-! ## The pages taken before the copy -/

section Begin

variable {s₀ s s' : Phys}

theorem Kept.trans {s'' : Phys} (first : Kept s s') (second : Kept s' s'') : Kept s s'' := by
  refine ⟨first.region.trans second.region, fun q h => second.held q (first.held q h), ?_⟩
  intro q held
  rw [second.mem q (first.held q held), first.mem q held]

theorem Kept.of_fresh {a : Nat} (fresh : s.Fresh a s') : Kept s s' :=
  ⟨fresh.region, fresh.held, fun _ held => fresh.mem_of_held held⟩

theorem getPages_kept {count : Nat} (placed : s.pool.Placed) (hpos : 0 < count)
    (hcount : count < 2 ^ 32) : Ends (s.getPages count) (fun out => out.1 ≠ 0 → Kept s out.2 ∧
        out.2.pool.allocated.card = s.pool.allocated.card + count) (· = .noMemory) := by
  rw [Phys.getPages]
  cases hget : s.pool.getPages count with
  | none => rfl
  | some r =>
    obtain ⟨a, pool⟩ := r
    intro hne
    rw [if_neg hne]
    rcases Pool.getPages_taken hpos hcount hget with ⟨hzero, -⟩ | ⟨i, rfl, taken⟩
    · exact absurd hzero hne
    · refine ⟨⟨taken.region, fun _ => taken.held_mono, ?_⟩, taken.card_allocated⟩
      rintro q ⟨j, hj, hmarked, rfl⟩
      refine if_neg fun hrange => ?_
      have hbound := taken.bound
      -- a page that was taken lies outside the clear run
      rw [placed.page_eq hj, placed.page_eq (by omega)] at hrange
      have hclear := taken.clear (j - i) (by unfold pageSize at hrange; omega)
      rw [Nat.add_sub_cancel' (by unfold pageSize at hrange; omega)] at hclear
      exact hclear hmarked

/-- A new page as an empty page table. -/
theorem Copying.start {page pgdir : Nat} (kept : Kept s₀ s) (fresh : s.Fresh pgdir s')
    (hpage : s.pool.Held page) (hnew : ¬s₀.pool.Held page) :
    Copying s₀ pgdir page (fun _ => none) s' (update (fun _ => none) pgdir (some [])) := by
  have hroles : ∀ q r, update (fun _ => none) pgdir (some ([] : List Nat)) q = some r →
      q = pgdir := by
    intro q r hq
    by_contra hne
    simp [update_of_ne hne] at hq
  refine ⟨kept.trans (.of_fresh fresh), ⟨update_self .., ?_, ?_⟩, ?_, fresh.held _ hpage,
    hnew, ?_, ?_, ?_⟩
  · intro p r k hp _ hne
    exact absurd (hroles p r hp ▸ fresh.mem_self k) hne
  · intro p r hp
    exact hroles p r hp ▸ fresh.taken
  · intro q hq held
    obtain ⟨r, hr⟩ := Option.ne_none_iff_exists'.mp hq
    exact fresh.free (hroles q r hr ▸ kept.held q held)
  · rw [update_of_ne]
    rintro rfl
    exact fresh.free hpage
  · intro n _ _
    simp [Phys.translate, Phys.lookup, fresh.mem_self]
  · intro n _ words hwords
    cases hwords

end Begin

theorem sysFork_ends {s : Phys} {parent : Process} (placed : s.pool.Placed)
    (backed : Backed s parent.pgdir) : Ends (sysFork parent s)
      (fun out => (∃ page role, Copying s out.1.pgdir page (forked s parent) out.2 role) ∧
        (∀ n, parent.tracks n → s.translate parent.pgdir (n * pageSize) ≠ none) ∧
        s.translate parent.pgdir (argPage * pageSize) ≠ none)
      (fun e => e = .noMemory ∨ Dangling s parent ∨
        s.translate parent.pgdir (argPage * pageSize) = none) := by
  refine ((Phys.getPage_ends placed).mono (fun _ h => h) fun _ h => Or.inl h).bind ?_
  rintro ⟨pcb, s₁⟩ fresh₁
  have kept₁ := Kept.of_fresh fresh₁
  refine ((Phys.getPage_ends (kept₁.region.placed placed)).mono (fun _ h => h)
    fun _ h => Or.inl h).bind ?_
  rintro ⟨page, s₂⟩ fresh₂
  have kept₂ := kept₁.trans (.of_fresh fresh₂)
  refine ((getPages_kept (kept₂.region.placed placed) (by decide) (by decide)).mono (fun _ h => h)
    fun _ h => Or.inl h).bind ?_
  rintro ⟨btmp, s₃⟩ hbtmp
  dsimp only at *
  by_cases hzero : btmp = 0
  · rw [if_pos hzero]
    exact .inl rfl
  rw [if_neg hzero]
  obtain ⟨kept₃', -⟩ := hbtmp hzero
  have kept₃ := kept₂.trans kept₃'
  refine ((Phys.getPage_ends (kept₃.region.placed placed)).mono (fun _ h => h)
    fun _ h => Or.inl h).bind ?_
  rintro ⟨pgdir, s₄⟩ fresh₄
  have start := Copying.start kept₃ fresh₄ (kept₃'.held page fresh₂.taken)
    fun h => fresh₂.free (kept₁.held page h)
  refine ((start.body placed backed).mono (fun _ h => h) ?_).bind ?_
  · rintro e (h | h)
    · exact .inl h
    · exact .inr (.inl h)
  intro s₅ body
  refine ((body.copyArgs placed backed).mono (fun _ h => h) ?_).bind ?_
  · rintro e (h | h)
    · exact .inl h
    · exact .inr (.inr h)
  rintro s₆ ⟨⟨role, copying⟩, hrest⟩
  exact ⟨⟨page, role, copying⟩, hrest⟩

/-! ## Enough memory -/

section Enough

variable {s : Phys} {n : Nat}

theorem getPage_enough (roomy : s.pool.Roomy (n + 1)) :
    Ends s.getPage (fun out => s.pool.SameRegion out.2.pool ∧ out.2.pool.Roomy n)
      (· ≠ .noMemory) := by
  obtain ⟨a, pool, hget, region, roomy'⟩ := roomy.getPage
  rw [Phys.getPage, hget]
  exact ⟨region, roomy'⟩

theorem getPages_enough (placed : s.pool.Placed) {count : Nat} (hpos : 0 < count)
    (roomy : s.pool.Roomy (count + n)) :
    Ends (s.getPages count) (fun out => out.1 ≠ 0 ∧ out.2.pool.Roomy n) (· ≠ .noMemory) := by
  obtain ⟨i, pool, hget, taken, roomy'⟩ := roomy.getPages hpos
  have hne : s.pool.page i ≠ 0 := by
    have hheld := taken.held hpos
    rw [Nat.add_zero] at hheld
    exact (taken.region.placed placed).held_ne_zero hheld
  rw [Phys.getPages, hget]
  refine ⟨hne, ?_⟩
  rw [if_neg hne]
  exact roomy'

theorem descend_enough (roomy : s.pool.Roomy (n + 1)) (slot : Slot) (idx : Nat) :
    Ends (s.descend slot idx) (fun out => out.2.pool.Roomy n) (· ≠ .noMemory) := by
  rw [Phys.descend]
  by_cases hentry : s.word slot ≠ 0
  · rw [if_pos hentry]
    exact roomy.mono (Nat.le_succ n)
  · rw [if_neg hentry]
    exact (getPage_enough roomy).bind fun _ h => h.2

theorem malloc_enough (roomy : s.pool.Roomy (n + 3)) (pd vaddr : Nat) :
    Ends (s.mallocUsrpageWithoutopmap pd vaddr) (fun s' => s'.pool.Roomy n) (· ≠ .noMemory) := by
  refine (getPage_enough roomy).bind fun out h => ?_
  refine Ends.bind (Ends.bind (descend_enough h.2 _ _)
    fun out roomy₂ => descend_enough roomy₂ _ _) fun out roomy₃ => ?_
  dsimp only
  split
  · exact Stop.noConfusion
  · exact roomy₃

theorem copyPage_enough (roomy : s.pool.Roomy (n + 3)) (parent child page vaddr : Nat) :
    Ends (copyPage parent child page vaddr s) (fun s' => s'.pool.Roomy n) (· ≠ .noMemory) := by
  have first : Ends (copyIn s parent vaddr page) (fun s' => s'.pool.Roomy (n + 3))
      (· ≠ .noMemory) := by
    rw [copyIn]
    split
    · exact roomy
    · exact Stop.noConfusion
  refine first.bind fun s₁ roomy₁ => (malloc_enough roomy₁ _ _).bind fun s₂ roomy₂ => ?_
  rw [copyOut]
  split
  · exact roomy₂
  · exact Stop.noConfusion

/-- With no bit set the loop does nothing. -/
theorem loop_copyByte_zero {parent : Process} (h : ∀ b, parent.bits b = 0) (child page : Nat)
    (left i : Nat) : loop (copyByte parent child page) left i s = .ok s := by
  induction left generalizing i with
  | zero => rfl
  | succ left ih =>
    rw [loop, copyByte, if_pos (h i)]
    exact ih (i + 1)

/-- A process with no bit set needs pages for its task structure, the copies, the bitmap,
its page table and the two pages at the top of its address space. -/
theorem sysFork_enough {parent : Process} (h : ∀ b, parent.bits b = 0) (placed : s.pool.Placed)
    (roomy : s.pool.Roomy (btmpPages + 7 + 1 + 1)) : sysFork parent s ≠ .error .noMemory := by
  have ends : Ends (sysFork parent s) (fun _ => True) (· ≠ .noMemory) := by
    refine (getPage_enough roomy).bind fun out₁ h₁ => ?_
    refine (getPage_enough h₁.2).bind fun out₂ h₂ => ?_
    refine (getPages_enough ((h₁.1.trans h₂.1).placed placed) (by decide) h₂.2).bind
      fun out₃ h₃ => ?_
    dsimp only
    rw [if_neg h₃.1]
    refine (getPage_enough h₃.2).bind fun out₄ h₄ => ?_
    have body : Ends (copyBodyStack3 parent out₄.1 out₂.1 out₄.2) (fun s' => s'.pool.Roomy 3)
        (· ≠ .noMemory) := by
      refine (malloc_enough h₄.2 _ _).bind fun s₅ roomy₅ => ?_
      rw [loop_copyByte_zero h]
      exact roomy₅
    exact body.bind fun s₅ roomy₅ => (copyPage_enough roomy₅ _ _ _ _).bind fun _ _ => trivial
  intro hstop
  rw [hstop] at ends
  exact ends rfl

end Enough

/-! ## The copy and the original -/

/-- Every page of the parent has a copy in the child, no other page is mapped there, and
the parent is as it was. -/
structure Copied (s : Phys) (parent : Nat) (s' : Phys) (child : Nat) : Prop where
  copied : ∀ n < userPages, ∀ f, s.translate parent (n * pageSize) = some f →
    ∃ f', s'.translate child (n * pageSize) = some f' ∧ f' ≠ f ∧ ∀ w < 512, s'.mem f' w = s.mem f w
  unmapped : ∀ n < userPages, s.translate parent (n * pageSize) = none →
    s'.translate child (n * pageSize) = none
  table : ∀ n < userPages, s'.translate parent (n * pageSize) = s.translate parent (n * pageSize)
  memory : ∀ n < userPages, ∀ f, s.translate parent (n * pageSize) = some f → s'.mem f = s.mem f

def ForkCopies (parent : Process) (s : Phys) : Prop :=
  ∃ child s', sysFork parent s = .ok (child, s') ∧ Copied s parent.pgdir s' child.pgdir

/-- The pages with a bit, the arguments and the page for signals are those that are mapped,
and the last has not been written. -/
structure Agrees (parent : Process) (s : Phys) : Prop where
  mapped : ∀ n < userPages, s.translate parent.pgdir (n * pageSize) ≠ none ↔
    parent.tracks n ∨ n = argPage ∨ n = sigPage
  blank : ∀ f, s.translate parent.pgdir (sigPage * pageSize) = some f → ∀ w < 512, s.mem f w = 0

section Agree

variable {s s' : Phys} {parent : Process} {child page : Nat} {role : Roles}

/-- A page of the child is none of the pages that the parent had. -/
theorem Copying.frame_ne {want : Nat → Option (Nat → Nat)}
    (copying : Copying s child page want s' role)
    (backed : Backed s parent.pgdir) {v v' f f' : Nat} (hf : s.translate parent.pgdir v = some f)
    (hf' : s'.translate child v' = some f') : f' ≠ f := by
  rintro rfl
  exact copying.apart f' (by simp [copying.owns.user hf']) (backed.user _ _ _ f' hf)

theorem Copying.copied (copying : Copying s child page (forked s parent) s' role)
    (backed : Backed s parent.pgdir) (agrees : Agrees parent s) :
    Copied s parent.pgdir s' child := by
  refine ⟨?_, ?_, fun n _ => copying.kept.translate backed _,
    fun n _ f hf => copying.kept.mem f (backed.user _ _ _ f hf)⟩
  · intro n hn f hf
    by_cases hsig : n = sigPage
    · obtain ⟨f', hf', hmem⟩ := copying.mapped n hn _ (if_pos hsig)
      refine ⟨f', hf', copying.frame_ne backed hf hf', fun w hw => ?_⟩
      rw [hmem, agrees.blank f (hsig ▸ hf) w hw]
    · have hcase : parent.tracks n ∨ n = argPage := by
        rcases (agrees.mapped n hn).mp (by simp [hf]) with h | h | h
        · exact .inl h
        · exact .inr h
        · exact absurd h hsig
      obtain ⟨f', hf', hmem⟩ := copying.mapped n hn (s.mem f) (by simp [forked, hsig, hcase, hf])
      exact ⟨f', hf', copying.frame_ne backed hf hf', fun w _ => by rw [hmem]⟩
  · intro n hn hnone
    refine copying.unmapped n hn ?_
    have hout := mt (agrees.mapped n hn).mpr (not_not.mpr hnone)
    push Not at hout
    simp [forked, hout]

theorem Copying.agrees (copying : Copying s child page (forked s parent) s' role)
    (htracks : ∀ n, parent.tracks n → s.translate parent.pgdir (n * pageSize) ≠ none)
    (hargs : s.translate parent.pgdir (argPage * pageSize) ≠ none)
    (copied : Copied s parent.pgdir s' child) : Agrees parent s := by
  have hsigPages : sigPage < userPages := by decide
  obtain ⟨g, hg, hzero⟩ := copying.mapped sigPage hsigPages _ (if_pos rfl)
  refine ⟨?_, ?_⟩
  · intro n hn
    constructor
    · intro hmapped
      obtain ⟨f, hf⟩ := Option.ne_none_iff_exists'.mp hmapped
      obtain ⟨f', hf', -⟩ := copied.copied n hn f hf
      by_contra hout
      push Not at hout
      rw [copying.unmapped n hn (by simp [forked, hout])] at hf'
      cases hf'
    · rintro (h | rfl | rfl)
      · exact htracks n h
      · exact hargs
      · intro hnone
        rw [copied.unmapped sigPage hn hnone] at hg
        cases hg
  · intro f hf w hw
    obtain ⟨f', hf', -, hwords⟩ := copied.copied sigPage hsigPages f hf
    cases hg.symm.trans hf'
    rw [← hwords w hw, hzero]

end Agree

/-! ## A process at its start -/

/-- The page of bit `i` of the pool in use. -/
def poolPage (i : Nat) : Nat := usableBase + pageSize * i

/-- A pool whose first five pages are taken. -/
def startPool : Pool where
  paddrStart := usableBase
  btmp := ⟨600, fun k => if k = 0 then 0x1f else 0⟩

/-- The arguments and the page for signals are mapped; the first word of the latter is
`code`, which is 0 until a signal has been delivered. -/
def startPhys (code : Nat) : Phys where
  pool := startPool
  mem q i :=
    if q = poolPage 0 ∧ i = 511 then poolPage 1
    else if q = poolPage 1 ∧ i = 511 then poolPage 2
    else if q = poolPage 2 ∧ i = 504 then poolPage 3 ||| pteAttr
    else if q = poolPage 2 ∧ i = 510 then poolPage 4 ||| pteAttr
    else if q = poolPage 4 ∧ i = 0 then code
    else 0

def startProcess : Process := ⟨poolPage 0, fun _ => 0⟩

section Start

variable {code : Nat}

@[simp] theorem poolPage_inj {i j : Nat} : poolPage i = poolPage j ↔ i = j := by
  unfold poolPage pageSize
  omega

theorem startPool_placed : startPool.Placed := ⟨by decide, by decide, by decide⟩

theorem startPool_held {i : Nat} (hi : i < 5) : startPool.Held (poolPage i) := by
  refine ⟨i, by change i < 600 * 8; omega, ?_, ?_⟩
  · have hmarked : ∀ i < 5, startPool.btmp.Marked i := by decide
    exact hmarked i hi
  · rw [startPool_placed.page_eq (by change i < 600 * 8; omega)]
    rfl

theorem startPool_roomy : startPool.Roomy (btmpPages + 7 + 1 + 1) := by
  refine ⟨by decide, 8, by decide, fun k hk => ?_⟩
  simp [Bitmap.Marked, startPool]

/-- The words of the three tables and of the page for signals. -/
theorem start_mem (i : Nat) :
    (startPhys code).mem (poolPage 0) i = (if i = 511 then poolPage 1 else 0) ∧
    (startPhys code).mem (poolPage 1) i = (if i = 511 then poolPage 2 else 0) ∧
    (startPhys code).mem (poolPage 2) i =
      (if i = 504 then poolPage 3 ||| pteAttr else if i = 510 then poolPage 4 ||| pteAttr else 0) ∧
    (startPhys code).mem (poolPage 4) i = if i = 0 then code else 0 := by
  simp [startPhys]

theorem start_lookup (i j k : Nat) : (startPhys code).lookup (poolPage 0) i j k =
    if i = 511 ∧ j = 511 then
      if k = 504 then some (poolPage 3) else if k = 510 then some (poolPage 4) else none
    else none := by
  have hne : poolPage 1 ≠ 0 ∧ poolPage 2 ≠ 0 := by decide
  have hframe : frame (poolPage 3 ||| pteAttr) = poolPage 3 ∧
      frame (poolPage 4 ||| pteAttr) = poolPage 4 ∧ poolPage 3 ||| pteAttr ≠ 0 ∧
      poolPage 4 ||| pteAttr ≠ 0 := by decide
  simp only [Phys.lookup, (start_mem i).1]
  by_cases hi : i = 511
  · simp only [hi, if_true, (start_mem j).2.1]
    by_cases hj : j = 511
    · simp only [hj, if_true, (start_mem k).2.2.1]
      by_cases hk : k = 504
      · simp [hk, hne, hframe]
      · by_cases hk' : k = 510
        · simp [hk', hne, hframe]
        · simp [hk, hk']
    · simp [hj]
  · simp [hi]

theorem start_backed : Backed (startPhys code) startProcess.pgdir := by
  refine ⟨startPool_held (by decide), ?_, ?_, ?_⟩
  · intro i h
    change (startPhys code).mem (poolPage 0) i ≠ 0 at h
    change startPool.Held ((startPhys code).mem (poolPage 0) i)
    rw [(start_mem i).1] at h ⊢
    split_ifs at h ⊢ with hi
    · exact startPool_held (by decide)
    · exact absurd rfl h
  · intro i j h h'
    change (startPhys code).mem (poolPage 0) i ≠ 0 at h
    change (startPhys code).mem ((startPhys code).mem (poolPage 0) i) j ≠ 0 at h'
    change startPool.Held ((startPhys code).mem ((startPhys code).mem (poolPage 0) i) j)
    rw [(start_mem i).1] at h h' ⊢
    split_ifs at h h' ⊢ with hi
    · rw [(start_mem j).2.1] at h' ⊢
      split_ifs at h' ⊢ with hj
      · exact startPool_held (by decide)
      · exact absurd rfl h'
    · exact absurd rfl h
  · intro i j k f h
    change (startPhys code).lookup (poolPage 0) i j k = some f at h
    rw [start_lookup] at h
    split_ifs at h
    · cases h
      exact startPool_held (by decide)
    · cases h
      exact startPool_held (by decide)

theorem start_fork (code : Nat) : sysFork startProcess (startPhys code) ≠ .error .noMemory :=
  sysFork_enough (fun _ => rfl) startPool_placed startPool_roomy

theorem start_translate {n : Nat} (hn : n < userPages) :
    (startPhys code).translate startProcess.pgdir (n * pageSize) =
      if n = argPage then some (poolPage 3) else if n = sigPage then some (poolPage 4)
        else none := by
  change (startPhys code).lookup (poolPage 0) _ _ _ = _
  rw [start_lookup, pgdIdx_eq, pmdIdx_eq, pteIdx_eq]
  unfold pageSize argPage sigPage userPages at *
  split_ifs <;> first | rfl | omega

end Start

/-- While there are pages, `sys_fork` copies the address space if and only if bitmap and
page table agree. -/
theorem sysFork_copies_iff {parent : Process} {s : Phys} (placed : s.pool.Placed)
    (backed : Backed s parent.pgdir) (memory : sysFork parent s ≠ .error .noMemory) :
    ForkCopies parent s ↔ Agrees parent s := by
  have ends := sysFork_ends placed backed
  cases hfork : sysFork parent s with
  | ok out =>
    obtain ⟨⟨page, role, copying⟩, htracks, hargs⟩ := ends.of_eq_ok hfork
    constructor
    · rintro ⟨child, s', hfork', copied⟩
      cases hfork.symm.trans hfork'
      exact copying.agrees htracks hargs copied
    · intro agrees
      exact ⟨out.1, out.2, hfork, copying.copied backed agrees⟩
  | error e =>
    rw [hfork] at ends memory
    constructor
    · rintro ⟨child, s', hfork', -⟩
      cases hfork.symm.trans hfork'
    · intro agrees
      exfalso
      rcases ends with h | ⟨n, htracks, hnone⟩ | hnone
      · exact memory (congrArg _ h)
      · have hn : n < userPages := by
          have hlt := htracks.1
          rw [btmpBytesLen_eq] at hlt
          exact Nat.lt_of_lt_of_le hlt (Nat.sub_le _ _)
        exact (agrees.mapped n hn).mpr (.inl htracks) hnone
      · exact (agrees.mapped argPage (by decide)).mpr (.inr (.inl rfl)) hnone

/-- A process that has had no signal yet is copied. -/
theorem sysFork_copies_start : ForkCopies startProcess (startPhys 0) := by
  refine (sysFork_copies_iff startPool_placed start_backed (start_fork 0)).mpr ⟨?_, ?_⟩
  · intro n hn
    have hbits : ¬startProcess.tracks n := by simp [Process.tracks, startProcess]
    rw [start_translate hn]
    split_ifs <;> simp_all
  · intro f hf w _
    rw [start_translate (by decide)] at hf
    cases hf
    rw [(start_mem w).2.2.2, ite_self]

/-- The first word of `sigreturn_code`: `li.d $a7,139` and `syscall 0`. -/
def sigreturnCode : Nat := 0x002b000003822c0b

/-- Once a signal has been delivered, the child's page for signals is not that of the
parent. -/
theorem sysFork_drops_signal_page : ∃ child s',
    sysFork startProcess (startPhys sigreturnCode) = .ok (child, s') ∧
      ¬Copied (startPhys sigreturnCode) startProcess.pgdir s' child.pgdir := by
  generalize hs : startPhys sigreturnCode = s
  have placed : s.pool.Placed := hs ▸ startPool_placed
  have backed : Backed s startProcess.pgdir := hs ▸ start_backed
  have memory : sysFork startProcess s ≠ .error .noMemory := hs ▸ start_fork sigreturnCode
  have hargs : s.translate startProcess.pgdir (argPage * pageSize) = some (poolPage 3) :=
    hs ▸ start_translate (by decide)
  have hsig : s.translate startProcess.pgdir (sigPage * pageSize) = some (poolPage 4) :=
    hs ▸ start_translate (by decide)
  have hword : s.mem (poolPage 4) 0 = sigreturnCode := hs ▸ (start_mem 0).2.2.2
  have ends := sysFork_ends placed backed
  cases hfork : sysFork startProcess s with
  | ok out =>
    refine ⟨out.1, out.2, rfl, fun copied => ?_⟩
    obtain ⟨⟨page, role, copying⟩, htracks, hmapped⟩ := ends.of_eq_ok hfork
    have hblank := (copying.agrees htracks hmapped copied).blank (poolPage 4) hsig 0 (by decide)
    rw [hword] at hblank
    cases hblank
  | error e =>
    rw [hfork] at ends
    rcases ends with h | ⟨n, htracks, -⟩ | hnone
    · exact absurd (hfork.trans (congrArg _ h)) memory
    · simp [Process.tracks, startProcess] at htracks
    · rw [hargs] at hnone
      cases hnone

end KernelTravel.Userprog

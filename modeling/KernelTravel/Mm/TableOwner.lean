import KernelTravel.Mm.PageTable

/-!
# The pages of one page table

While a table is built, every page that it uses has a role: the list of the indices that
lead to it from the top. As a page has one role, no table is reached on two ways, and a
write to one entry is seen only by the addresses whose way it is on. Roles are kept for
the proofs; the kernel does not store them.
-/

namespace KernelTravel.Mm

open Function

open Outcome

abbrev Roles := Nat → Option (List Nat)

namespace Phys

/-- The bits of the pages that have a role. -/
def owned (s : Phys) (role : Roles) : Finset Nat :=
  (Finset.range (s.pool.btmp.btmpBytesLen * 8)).filter fun i => (role (s.pool.page i)).isSome

/-- What the entry of a table with role `r` points to. -/
def target (r : List Nat) (entry : Nat) : Nat := if r.length < 2 then entry else frame entry

/-- The table at `pd` and everything it leads to. -/
structure Owns (s : Phys) (pd : Nat) (role : Roles) : Prop where
  root : role pd = some []
  entry : ∀ p r k, role p = some r → r.length < 3 → s.mem p k ≠ 0 →
    role (target r (s.mem p k)) = some (r ++ [k])
  held : ∀ p r, role p = some r → s.pool.Held p

/-- Pages were taken and given roles, and of the pages taken earlier only those with a
role were written. -/
structure Grown (s : Phys) (role : Roles) (s' : Phys) (role' : Roles) : Prop where
  region : s.pool.SameRegion s'.pool
  held : ∀ q, s.pool.Held q → s'.pool.Held q
  roles : ∀ q r, role q = some r → role' q = some r
  fresh : ∀ q, role q = none → role' q ≠ none → ¬s.pool.Held q
  frame : ∀ q, s.pool.Held q → role q = none → s'.mem q = s.mem q
  balance : s.pool.allocated.card + (s'.owned role').card ≤
    s'.pool.allocated.card + (s.owned role).card

variable {s s' s'' : Phys} {role role' role'' : Roles} {pd : Nat}

namespace Grown

theorem refl (s : Phys) (role : Roles) : Grown s role s role :=
  ⟨⟨rfl, rfl⟩, fun _ h => h, fun _ _ h => h, fun _ h h' => absurd h h', fun _ _ _ => rfl, le_rfl⟩

/-- A page that was taken has no role afterwards if it had none before. -/
theorem role_none (grown : Grown s role s' role') {q : Nat} (held : s.pool.Held q)
    (hq : role q = none) : role' q = none := by
  by_contra hne
  exact grown.fresh q hq hne held

theorem trans (first : Grown s role s' role') (second : Grown s' role' s'' role'') :
    Grown s role s'' role'' := by
  refine ⟨first.region.trans second.region, fun q h => second.held q (first.held q h),
    fun q r h => second.roles q r (first.roles q r h), ?_, ?_, ?_⟩
  · intro q hnone hsome held
    exact second.fresh q (first.role_none held hnone) hsome (first.held q held)
  · intro q held hnone
    rw [second.frame q (first.held q held) (first.role_none held hnone), first.frame q held hnone]
  · have := first.balance
    have := second.balance
    omega

/-- A write to a page with a role. -/
theorem setPage {p : Nat} {r : List Nat} (hp : role p = some r) (words : Nat → Nat) :
    Grown s role (s.setPage p words) role := by
  refine ⟨⟨rfl, rfl⟩, fun _ h => h, fun _ _ h => h, fun _ h h' => absurd h h', ?_, le_rfl⟩
  intro q _ hnone
  have hne : q ≠ p := by
    rintro rfl
    rw [hnone] at hp
    cases hp
  exact update_of_ne hne _ _

end Grown

/-! ## A new page -/

/-- The page `a` was free; it is taken and cleared. -/
structure Fresh (s : Phys) (a : Nat) (s' : Phys) : Prop where
  small : s.pool.btmp.btmpBytesLen < 2 ^ 28
  region : s.pool.SameRegion s'.pool
  free : ¬s.pool.Held a
  taken : s'.pool.Held a
  held : ∀ q, s.pool.Held q → s'.pool.Held q
  mem : s'.mem = update s.mem a fun _ => 0
  card : s'.pool.allocated.card = s.pool.allocated.card + 1

theorem getPage_ends (placed : s.pool.Placed) :
    Ends s.getPage (fun r => s.Fresh r.1 r.2) (· = .noMemory) := by
  rw [getPage]
  cases hget : s.pool.getPage with
  | none => rfl
  | some r =>
    obtain ⟨a, pool⟩ := r
    obtain ⟨hlen, i, rfl, taken⟩ := Pool.getPage_taken hget
    have hfree := taken.not_held placed Nat.one_pos
    have htaken := taken.held Nat.one_pos
    rw [Nat.add_zero] at hfree htaken
    exact ⟨hlen, taken.region, hfree, htaken, fun _ => taken.held_mono, rfl,
      taken.card_allocated⟩

namespace Fresh

variable {a : Nat} {r : List Nat}

variable (fresh : s.Fresh a s')
include fresh

theorem role_none (owns : s.Owns pd role) : role a = none := by
  cases hrole : role a with
  | none => rfl
  | some r => exact absurd (owns.held a r hrole) fresh.free

theorem mem_of_held {q : Nat} (held : s.pool.Held q) : s'.mem q = s.mem q := by
  rw [fresh.mem, update_of_ne]
  rintro rfl
  exact fresh.free held

theorem mem_self (k : Nat) : s'.mem a k = 0 := by
  rw [fresh.mem, update_self]

theorem owned_eq (role : Roles) : s'.owned role = s.owned role := by
  simp only [owned, fresh.region.2, fresh.region.page]

/-- The page is given a role. -/
theorem grown (placed : s.pool.Placed) (hnone : role a = none) :
    Grown s role s' (update role a (some r)) := by
  refine ⟨fresh.region, fresh.held, ?_, ?_, fun q held _ => fresh.mem_of_held held, ?_⟩
  · intro q r' hq
    rw [update_of_ne]
    · exact hq
    · rintro rfl
      rw [hnone] at hq
      cases hq
  · intro q hq hne
    by_cases hqa : q = a
    · exact hqa ▸ fresh.free
    · rw [update_of_ne hqa] at hne
      exact absurd hq hne
  · obtain ⟨i, hi, -, ha⟩ := fresh.taken
    rw [fresh.region.page] at ha
    rw [fresh.region.2] at hi
    have hsub : s'.owned (update role a (some r)) ⊆ insert i (s.owned role) := by
      intro j hj
      rw [owned, Finset.mem_filter, Finset.mem_range, fresh.region.2, fresh.region.page] at hj
      by_cases hja : s.pool.page j = a
      · exact Finset.mem_insert.mpr (.inl (placed.page_inj hj.1 hi (hja.trans ha)))
      · rw [update_of_ne hja] at hj
        exact Finset.mem_insert_of_mem (Finset.mem_filter.mpr ⟨Finset.mem_range.mpr hj.1, hj.2⟩)
    have hcard := (Finset.card_le_card hsub).trans (Finset.card_insert_le _ _)
    rw [fresh.card]
    omega

theorem owns (owns : s.Owns pd role) : s'.Owns pd (update role a (some r)) := by
  have hnone := fresh.role_none owns
  have old : ∀ q r', role q = some r' → update role a (some r) q = some r' := by
    intro q r' hq
    rw [update_of_ne]
    · exact hq
    · rintro rfl
      rw [hnone] at hq
      cases hq
  refine ⟨old pd [] owns.root, ?_, ?_⟩
  · intro p r' k hp hr hne
    by_cases hpa : p = a
    · exact absurd (hpa ▸ fresh.mem_self k) hne
    · rw [update_of_ne hpa] at hp
      rw [fresh.mem_of_held (owns.held p r' hp)] at hne ⊢
      exact old _ _ (owns.entry p r' k hp hr hne)
  · intro p r' hp
    by_cases hpa : p = a
    · exact hpa ▸ fresh.taken
    · rw [update_of_ne hpa] at hp
      exact fresh.held p (owns.held p r' hp)

theorem owns_same (owns : s.Owns pd role) : s'.Owns pd role := by
  refine ⟨owns.root, ?_, fun p r hp => fresh.held p (owns.held p r hp)⟩
  intro p r k hp hr hne
  rw [fresh.mem_of_held (owns.held p r hp)] at hne ⊢
  exact owns.entry p r k hp hr hne

end Fresh

/-! ## A write to an entry -/

theorem Owns.setWord (owns : s.Owns pd role) {p k value : Nat} {r : List Nat} (hp : role p = some r)
    (hvalue : role (target r value) = some (r ++ [k])) : (s.setWord ⟨p, k⟩ value).Owns pd role := by
  refine ⟨owns.root, ?_, owns.held⟩
  intro q r' l hq hr hne
  by_cases hqp : q = p
  · subst hqp
    cases hp.symm.trans hq
    simp only [Phys.setWord, setPage, update_self] at hne ⊢
    by_cases hlk : l = k
    · rw [hlk, update_self]
      exact hvalue
    · rw [update_of_ne hlk] at hne ⊢
      exact owns.entry q r l hq hr hne
  · have hsame : (s.setWord ⟨p, k⟩ value).mem q = s.mem q := update_of_ne hqp _ _
    rw [hsame] at hne ⊢
    exact owns.entry q r' l hq hr hne

/-- A page that is mapped, not a table, may be written. -/
theorem Owns.setPage (owns : s.Owns pd role) {p : Nat} {r : List Nat} (hp : role p = some r)
    (hr : 3 ≤ r.length) (words : Nat → Nat) : (s.setPage p words).Owns pd role := by
  refine ⟨owns.root, ?_, owns.held⟩
  intro q r' l hq hr' hne
  have hqp : q ≠ p := by
    rintro rfl
    cases hp.symm.trans hq
    omega
  have hsame : (s.setPage p words).mem q = s.mem q := update_of_ne hqp _ _
  rw [hsame] at hne ⊢
  exact owns.entry q r' l hq hr' hne

/-- So may a page without a role. -/
theorem Owns.setOther (owns : s.Owns pd role) {p : Nat} (hp : role p = none)
    (words : Nat → Nat) : (s.setPage p words).Owns pd role := by
  refine ⟨owns.root, ?_, owns.held⟩
  intro q r l hq hr hne
  have hqp : q ≠ p := by
    rintro rfl
    rw [hp] at hq
    cases hq
  have hsame : (s.setPage p words).mem q = s.mem q := update_of_ne hqp _ _
  rw [hsame] at hne ⊢
  exact owns.entry q r l hq hr hne

/-! ## Lookups -/

theorem lookup_congr {i j k : Nat} (h₁ : s'.mem pd i = s.mem pd i)
    (h₂ : s.mem pd i ≠ 0 → s'.mem (s.mem pd i) j = s.mem (s.mem pd i) j)
    (h₃ : s.mem pd i ≠ 0 → s.mem (s.mem pd i) j ≠ 0 →
      s'.mem (s.mem (s.mem pd i) j) k = s.mem (s.mem (s.mem pd i) j) k) :
    s'.lookup pd i j k = s.lookup pd i j k := by
  simp only [lookup, h₁]
  by_cases hpmd : s.mem pd i = 0
  · simp [hpmd]
  by_cases hpt : s.mem (s.mem pd i) j = 0
  · simp [h₂ hpmd, hpt]
  · simp [h₂ hpmd, h₃ hpmd hpt, hpmd, hpt]

/-- The tables on the way have the roles that the indices say. -/
theorem Owns.pmd (owns : s.Owns pd role) {i : Nat} (h : s.mem pd i ≠ 0) :
    role (s.mem pd i) = some [i] := owns.entry pd [] i owns.root (by simp) h

theorem Owns.pte (owns : s.Owns pd role) {i j : Nat} (h : s.mem pd i ≠ 0)
    (h' : s.mem (s.mem pd i) j ≠ 0) : role (s.mem (s.mem pd i) j) = some [i, j] :=
  owns.entry _ [i] j (owns.pmd h) (by simp) h'

theorem Owns.user (owns : s.Owns pd role) {i j k f : Nat} (h : s.lookup pd i j k = some f) :
    role f = some [i, j, k] := by
  rw [lookup] at h
  split at h
  · cases h
  next hne =>
    push Not at hne
    cases h
    exact owns.entry _ [i, j] k (owns.pte hne.1 hne.2.1) (by simp) hne.2.2

/-- Memory that agrees on the pages of a table gives the same lookups. -/
theorem Owns.lookup_eq (owns : s.Owns pd role)
    (same : ∀ p r, role p = some r → r.length < 3 → s'.mem p = s.mem p) (i j k : Nat) :
    s'.lookup pd i j k = s.lookup pd i j k := by
  apply lookup_congr
  · rw [same pd [] owns.root (by simp)]
  · intro h
    rw [same _ [i] (owns.pmd h) (by simp)]
  · intro h h'
    rw [same _ [i, j] (owns.pte h h') (by simp)]

theorem Fresh.lookup_eq {a : Nat} (fresh : s.Fresh a s') (owns : s.Owns pd role) (i j k : Nat) :
    s'.lookup pd i j k = s.lookup pd i j k :=
  owns.lookup_eq (fun p r hp _ => fresh.mem_of_held (owns.held p r hp)) i j k

@[simp] theorem setWord_self (s : Phys) (p k value : Nat) :
    (s.setWord ⟨p, k⟩ value).mem p k = value := by
  simp [setWord, setPage]

theorem setWord_of_ne (s : Phys) {p k q l value : Nat} (h : ¬(q = p ∧ l = k)) :
    (s.setWord ⟨p, k⟩ value).mem q l = s.mem q l := by
  by_cases hqp : q = p
  · have hlk : l ≠ k := fun hlk => h ⟨hqp, hlk⟩
    simp [setWord, setPage, hqp, hlk]
  · simp [setWord, setPage, hqp]

/-- Hanging an empty table below an empty entry changes no lookup. -/
theorem Owns.lookup_hang (owns : s.Owns pd role) {p k f : Nat} {r : List Nat}
    (hp : role p = some r) (hr : r.length < 2) (hempty : s.mem p k = 0)
    (hf : ∀ l, s.mem f l = 0) (hfp : f ≠ p) (i j l : Nat) :
    (s.setWord ⟨p, k⟩ f).lookup pd i j l = s.lookup pd i j l := by
  have hfmem : ∀ l, (s.setWord ⟨p, k⟩ f).mem f l = 0 := by
    intro l
    rw [setWord_of_ne s (fun h => hfp h.1), hf]
  by_cases htop : pd = p ∧ i = k
  · obtain ⟨rfl, rfl⟩ := htop
    simp [lookup, hempty, hfmem]
  by_cases hmid : s.mem pd i ≠ 0 ∧ s.mem pd i = p ∧ j = k
  · obtain ⟨hne, hpmd, rfl⟩ := hmid
    have hfirst : (s.setWord ⟨p, j⟩ f).mem pd i = p := by rw [setWord_of_ne s htop, hpmd]
    simp [lookup, hfirst, hpmd, hempty, hfmem]
  · refine lookup_congr (setWord_of_ne s htop) ?_ ?_
    · exact fun hne => setWord_of_ne s fun h => hmid ⟨hne, h.1, h.2⟩
    · intro hne hne'
      refine setWord_of_ne s fun h => ?_
      have hlevel := owns.pte hne hne'
      rw [h.1, hp] at hlevel
      cases hlevel
      simp at hr

/-- The pages above the lowest level have shorter roles, and a write below does not reach them. -/
theorem Owns.setWord_pgd (owns : s.Owns pd role) {i j : Nat} (hpmd : s.mem pd i ≠ 0)
    (hpte : s.mem (s.mem pd i) j ≠ 0) (k value l : Nat) :
    (s.setWord ⟨s.mem (s.mem pd i) j, k⟩ value).mem pd l = s.mem pd l := by
  have hrole := owns.pte hpmd hpte
  refine setWord_of_ne s fun h => ?_
  rw [← h.1, owns.root] at hrole
  cases hrole

theorem Owns.setWord_pmd (owns : s.Owns pd role) {i i' j : Nat} (hpmd : s.mem pd i ≠ 0)
    (hpte : s.mem (s.mem pd i) j ≠ 0) (hne : s.mem pd i' ≠ 0) (k value l : Nat) :
    (s.setWord ⟨s.mem (s.mem pd i) j, k⟩ value).mem (s.mem pd i') l = s.mem (s.mem pd i') l := by
  have hrole := owns.pte hpmd hpte
  refine setWord_of_ne s fun h => ?_
  rw [← h.1, owns.pmd hne] at hrole
  cases hrole

/-- Writing an entry of the lowest level changes the lookup that ends there. -/
theorem Owns.lookup_setWord (owns : s.Owns pd role) {i j k value : Nat} (hpmd : s.mem pd i ≠ 0)
    (hpte : s.mem (s.mem pd i) j ≠ 0) (i' j' k' : Nat) :
    (s.setWord ⟨s.mem (s.mem pd i) j, k⟩ value).lookup pd i' j' k' =
      if i' = i ∧ j' = j ∧ k' = k then if value = 0 then none else some (Mm.frame value)
      else s.lookup pd i' j' k' := by
  have hrole := owns.pte hpmd hpte
  by_cases heq : i' = i ∧ j' = j ∧ k' = k
  · obtain ⟨rfl, rfl, rfl⟩ := heq
    simp [lookup, owns.setWord_pgd hpmd hpte, owns.setWord_pmd hpmd hpte hpmd, hpmd, hpte]
  · rw [if_neg heq]
    refine lookup_congr (owns.setWord_pgd hpmd hpte _ _ _)
      (fun hne => owns.setWord_pmd hpmd hpte hne _ _ _) ?_
    intro hne hne'
    refine setWord_of_ne s fun h => heq ?_
    have hother := owns.pte hne hne'
    rw [h.1, hrole] at hother
    cases hother
    exact ⟨rfl, rfl, h.2⟩

/-! ## The functions of the kernel -/

/-- The entry `k` of the page `p` leads to a table, and nothing else has changed. -/
structure Linked (s : Phys) (role : Roles) (pd p k : Nat) (s' : Phys) (role' : Roles) : Prop where
  grown : Grown s role s' role'
  owns : s'.Owns pd role'
  present : s'.mem p k ≠ 0
  lookup : ∀ i j l, s'.lookup pd i j l = s.lookup pd i j l
  others : ∀ q l, s.pool.Held q → ¬(q = p ∧ l = k) → s'.mem q l = s.mem q l

theorem descend_ends (placed : s.pool.Placed) (owns : s.Owns pd role) {p k idx : Nat}
    {r : List Nat} (hp : role p = some r) (hr : r.length < 2) : Ends (s.descend ⟨p, k⟩ idx)
      (fun out => out.1 = ⟨out.2.mem p k, idx⟩ ∧ ∃ role', Linked s role pd p k out.2 role')
      (· = .noMemory) := by
  have htarget : ∀ e, target r e = e := fun e => if_pos hr
  rw [descend]
  by_cases hentry : s.word ⟨p, k⟩ = 0
  · rw [if_neg (not_not.mpr hentry)]
    refine (getPage_ends placed).bind ?_
    rintro ⟨f, s₁⟩ fresh
    dsimp only at fresh ⊢
    have hheld := owns.held p r hp
    have hfp : f ≠ p := by
      rintro rfl
      exact fresh.free hheld
    have hp₁ : update role f (some (r ++ [k])) p = some r := by
      rw [update_of_ne hfp.symm]
      exact hp
    have owns₁ : s₁.Owns pd (update role f (some (r ++ [k]))) := fresh.owns owns
    have hempty : s₁.mem p k = 0 := by
      rw [fresh.mem_of_held hheld]
      exact hentry
    have hf : f ≠ 0 := (fresh.region.placed placed).held_ne_zero fresh.taken
    refine ⟨by simp, update role f (some (r ++ [k])), ?_, ?_, ?_, ?_, ?_⟩
    · exact (fresh.grown placed (fresh.role_none owns)).trans (Grown.setPage hp₁ _)
    · refine owns₁.setWord hp₁ ?_
      rw [htarget, update_self]
    · simpa using hf
    · intro i j l
      rw [owns₁.lookup_hang hp₁ hr hempty fresh.mem_self hfp, fresh.lookup_eq owns]
    · intro q l held hne
      rw [setWord_of_ne s₁ hne, fresh.mem_of_held held]
  · have hrole := owns.entry p r k hp (by omega) hentry
    rw [htarget] at hrole
    obtain ⟨-, lower, upper⟩ := placed.held_aligned (owns.held _ _ hrole)
    rw [if_pos hentry, word, or_dmwBase lower upper]
    exact ⟨rfl, role, Grown.refl s role, owns, hentry, fun _ _ _ => rfl, fun _ _ _ _ => rfl⟩

theorem ptePtr_ends (placed : s.pool.Placed) (owns : s.Owns pd role) (vaddr : Nat) :
    Ends (s.ptePtr pd vaddr) (fun out => ∃ role', Grown s role out.2 role' ∧ out.2.Owns pd role' ∧
        out.2.mem pd (pgdIdx vaddr) ≠ 0 ∧
        out.2.mem (out.2.mem pd (pgdIdx vaddr)) (pmdIdx vaddr) ≠ 0 ∧
        out.1 = ⟨out.2.mem (out.2.mem pd (pgdIdx vaddr)) (pmdIdx vaddr), pteIdx vaddr⟩ ∧
        (∀ i j l, out.2.lookup pd i j l = s.lookup pd i j l) ∧
        ∀ q, s.pool.Held q → (∀ r, role q = some r → 2 ≤ r.length) → out.2.mem q = s.mem q)
      (· = .noMemory) := by
  refine (descend_ends placed owns owns.root (by simp)).bind ?_
  rintro ⟨pmd, s₁⟩ ⟨hslot, role₁, linked⟩
  obtain rfl : pmd = ⟨s₁.mem pd (pgdIdx vaddr), pmdIdx vaddr⟩ := hslot
  have placed₁ := linked.grown.region.placed placed
  have hpmd := linked.owns.pmd linked.present
  refine (descend_ends placed₁ linked.owns hpmd (by simp)).mono ?_ fun _ h => h
  rintro ⟨pte, s₂⟩ ⟨hslot, role₂, linked₂⟩
  have hroot := linked.owns.held pd [] linked.owns.root
  -- the second table hangs below the first, so that the top level is as it was
  have htop : s₂.mem pd (pgdIdx vaddr) = s₁.mem pd (pgdIdx vaddr) := by
    refine linked₂.others _ _ hroot fun h => ?_
    rw [← h.1, linked.owns.root] at hpmd
    cases hpmd
  dsimp only at hslot ⊢
  refine ⟨role₂, linked.grown.trans linked₂.grown, linked₂.owns, ?_, ?_, ?_, ?_, ?_⟩
  · rw [htop]
    exact linked.present
  · rw [htop]
    exact linked₂.present
  · rw [htop]
    exact hslot
  · intro i j l
    rw [linked₂.lookup, linked.lookup]
  · intro q held hlow
    have hne : q ≠ pd := by
      rintro rfl
      simpa using hlow [] owns.root
    have hne₁ : q ≠ s₁.mem pd (pgdIdx vaddr) := by
      rintro rfl
      cases hq : role (s₁.mem pd (pgdIdx vaddr)) with
      | none => exact absurd (linked.grown.role_none held hq) (by simp [hpmd])
      | some r =>
        have hlen := hlow r hq
        cases (linked.grown.roles _ _ hq).symm.trans hpmd
        simp at hlen
    funext l
    rw [linked₂.others q l (linked.grown.held q held) fun h => hne₁ h.1,
      linked.others q l held fun h => hne h.1]

/-- An entry that has been written cannot be added again. -/
theorem pageTableAdd_again (placed : s.pool.Placed) (owns : s.Owns pd role) {vaddr paddr attr : Nat}
    (hattr : attr ≠ 0) (h : s.pageTableAdd pd vaddr paddr attr = .ok s') (paddr' attr' : Nat) :
    s'.pageTableAdd pd vaddr paddr' attr' = .error .bug := by
  obtain ⟨⟨pte, s₂⟩, hpte, h⟩ := bind_eq_ok.mp h
  obtain ⟨role₂, grown, owns₂, hpmd, hpt, hslot, -⟩ := (ptePtr_ends placed owns vaddr).of_eq_ok hpte
  dsimp only at hpmd hpt hslot h
  subst hslot
  split at h
  · cases h
  cases h
  have placed₂ := grown.region.placed placed
  have window : ∀ p r, role₂ p = some r → p ||| dmwBase = p := by
    intro p r hp
    obtain ⟨-, lower, upper⟩ := placed₂.held_aligned (owns₂.held p r hp)
    exact or_dmwBase lower upper
  have hvalue : paddr ||| attr ≠ 0 := by
    rw [Ne, Nat.or_eq_zero_iff]
    exact fun h => hattr h.2
  rw [pageTableAdd, ptePtr, pmdPtr, pgdPtr, descend]
  simp only [word, owns₂.setWord_pgd hpmd hpt, if_pos hpmd, window _ _ (owns₂.pmd hpmd)]
  simp only [bind, Except.bind, descend, word, owns₂.setWord_pmd hpmd hpt hpmd, if_pos hpt,
    window _ _ (owns₂.pte hpmd hpt), setWord_self, if_pos hvalue]

/-- Three indices are those of an address. -/
def At (vaddr i j k : Nat) : Prop := i = pgdIdx vaddr ∧ j = pmdIdx vaddr ∧ k = pteIdx vaddr

instance (vaddr i j k : Nat) : Decidable (At vaddr i j k) := inferInstanceAs (Decidable (_ ∧ _))

/-- The page `f` is new and mapped at `vaddr`; the other addresses are mapped as before. -/
structure Mapped (s : Phys) (role : Roles) (pd vaddr f : Nat) (s' : Phys) (role' : Roles) :
    Prop where
  grown : Grown s role s' role'
  owns : s'.Owns pd role'
  free : ¬s.pool.Held f
  zero : s'.mem f = fun _ => 0
  lookup : ∀ i j k, s'.lookup pd i j k = if At vaddr i j k then some f else s.lookup pd i j k
  others : ∀ q, s.pool.Held q → (∀ r, role q = some r → 3 ≤ r.length) → s'.mem q = s.mem q

theorem mallocUsrpageWithoutopmap_ends (placed : s.pool.Placed) (owns : s.Owns pd role)
    (vaddr : Nat) : Ends (s.mallocUsrpageWithoutopmap pd vaddr)
      (fun s' => s.translate pd vaddr = none ∧ ∃ f role', Mapped s role pd vaddr f s' role')
      (fun e => e = .noMemory ∨ e = .bug ∧ s.translate pd vaddr ≠ none) := by
  refine ((getPage_ends placed).mono (fun _ h => h) fun _ h => .inl h).bind ?_
  rintro ⟨f, s₁⟩ fresh
  dsimp only at fresh ⊢
  have hnone := fresh.role_none owns
  have owns₁ : s₁.Owns pd (update role f (some [pgdIdx vaddr, pmdIdx vaddr, pteIdx vaddr])) :=
    fresh.owns owns
  have placed₁ := fresh.region.placed placed
  refine ((ptePtr_ends placed₁ owns₁ vaddr).mono (fun _ h => h) fun _ h => .inl h).bind ?_
  rintro ⟨pte, s₂⟩ ⟨role₂, grown₂, owns₂, hpmd, hpt, hslot, hlookup, hothers⟩
  dsimp only at *
  subst hslot
  have hf₂ : role₂ f = some [pgdIdx vaddr, pmdIdx vaddr, pteIdx vaddr] :=
    grown₂.roles _ _ (update_self ..)
  obtain ⟨aligned, lower, upper⟩ := placed₁.held_aligned fresh.taken
  obtain ⟨hframe, -, hne⟩ := frame_attr aligned (by unfold dmwBase at upper; omega)
  have hpte : s.translate pd vaddr = none ↔
      s₂.mem (s₂.mem (s₂.mem pd (pgdIdx vaddr)) (pmdIdx vaddr)) (pteIdx vaddr) = 0 := by
    rw [translate, ← fresh.lookup_eq owns, ← hlookup, Phys.lookup]
    simp [hpmd, hpt]
  by_cases hempty : s₂.word
      ⟨s₂.mem (s₂.mem pd (pgdIdx vaddr)) (pmdIdx vaddr), pteIdx vaddr⟩ = 0
  · rw [if_neg (not_not.mpr hempty)]
    refine ⟨hpte.mpr hempty, f, role₂, ?_, ?_, fresh.free, ?_, ?_, ?_⟩
    · exact ((fresh.grown placed hnone).trans grown₂).trans (Grown.setPage (owns₂.pte hpmd hpt) _)
    · refine owns₂.setWord (owns₂.pte hpmd hpt) ?_
      rw [target, if_neg (by simp), hframe]
      exact hf₂
    · have hzero : s₂.mem f = fun _ => 0 := by
        rw [hothers f fresh.taken fun r hr => by
          cases (update_self ..).symm.trans hr
          simp]
        funext k
        exact fresh.mem_self k
      funext l
      rw [setWord_of_ne s₂ fun h => ?_, hzero]
      have hlevel := owns₂.pte hpmd hpt
      rw [← h.1, hf₂] at hlevel
      cases hlevel
    · intro i j k
      rw [owns₂.lookup_setWord hpmd hpt, if_neg hne, hframe, hlookup, fresh.lookup_eq owns]
      rfl
    · intro q held hhigh
      have hne : q ≠ f := fun h => fresh.free (h ▸ held)
      funext l
      rw [setWord_of_ne s₂ fun h => ?_, hothers q (fresh.held q held) fun r hr => ?_,
        fresh.mem_of_held held]
      · rw [update_of_ne hne] at hr
        have := hhigh r hr
        omega
      · have hlevel := owns₂.pte hpmd hpt
        rw [← h.1] at hlevel
        cases hq : role q with
        | none =>
          have hgrown := (fresh.grown placed hnone).trans grown₂
          exact absurd (hgrown.role_none held hq) (by simp [hlevel])
        | some r =>
          have hlen := hhigh r hq
          cases (((fresh.grown placed hnone).trans grown₂).roles _ _ hq).symm.trans hlevel
          simp at hlen
  · rw [if_pos hempty]
    exact .inr ⟨rfl, mt hpte.mp hempty⟩

end Phys

end KernelTravel.Mm

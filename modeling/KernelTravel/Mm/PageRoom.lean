import KernelTravel.Mm.TableOwner

/-!
# How many pages a mapping takes

`malloc_usrpage` takes a page for the address and one for each table that is missing on the way to
its entry. It runs out of memory exactly if the pool has fewer.
-/

namespace KernelTravel.Mm

open Function

open Outcome

/-- The pages that `get_page` can still hand out. The search asserts a bound for the bitmap. -/
def Pool.room (p : Pool) : Nat :=
  if p.btmp.btmpBytesLen < 2 ^ 28 then p.btmp.btmpBytesLen * 8 - p.allocated.card else 0

namespace Phys

/-- The tables that are missing on the way to an entry. -/
def missing (s : Phys) (pd vaddr : Nat) : Nat :=
  if s.mem pd (pgdIdx vaddr) = 0 then 2
  else if s.mem (s.mem pd (pgdIdx vaddr)) (pmdIdx vaddr) = 0 then 1
  else 0

variable {s s' : Phys} {pd vaddr a : Nat} {role : Roles}

theorem card_allocated_le (p : Pool) : p.allocated.card ≤ p.btmp.btmpBytesLen * 8 :=
  (Finset.card_filter_le _ _).trans (Finset.card_range _).le

theorem Fresh.room (fresh : s.Fresh a s') : s'.pool.room + 1 = s.pool.room := by
  have hcard := fresh.card
  have hle := card_allocated_le s'.pool
  have hlen := fresh.region.2
  rw [Pool.room, Pool.room, if_pos fresh.small, if_pos (hlen ▸ fresh.small), hlen]
  omega

theorem Fresh.missing (fresh : s.Fresh a s') (owns : s.Owns pd role) :
    s'.missing pd vaddr = s.missing pd vaddr := by
  have hroot : s'.mem pd = s.mem pd := fresh.mem_of_held (owns.held pd [] owns.root)
  rw [Phys.missing, Phys.missing, hroot]
  split
  · rfl
  · next hpmd => rw [fresh.mem_of_held (owns.held _ _ (owns.pmd hpmd))]

/-- `get_page` fails if and only if there is no page left. -/
theorem getPage_room (placed : s.pool.Placed) :
    Ends s.getPage (fun out => s.Fresh out.1 out.2) (fun _ => s.pool.room = 0) := by
  have ends := getPage_ends placed
  cases hget : s.getPage with
  | ok out =>
    rw [hget] at ends
    exact ends
  | error e =>
    change s.pool.room = 0
    by_contra hroom
    rw [Pool.room] at hroom
    split at hroom
    next hlen =>
      -- some bit is clear, and a clear bit is a run of one
      have hclear : ∃ i < s.pool.btmp.btmpBytesLen * 8, ¬s.pool.btmp.Marked i := by
        by_contra hall
        push Not at hall
        have hcard : s.pool.allocated.card = s.pool.btmp.btmpBytesLen * 8 := by
          rw [Pool.allocated, Finset.filter_true_of_mem fun i hi => hall i (Finset.mem_range.mp hi),
            Finset.card_range]
        omega
      obtain ⟨i, hi, hclear⟩ := hclear
      have roomy : s.pool.Roomy (0 + 1) := by
        refine ⟨hlen, i, hi, fun k hk => ?_⟩
        rw [Nat.lt_one_iff.mp hk]
        exact hclear
      obtain ⟨a, pool, hpool, -⟩ := roomy.getPage
      rw [getPage, hpool] at hget
      cases hget
    next => exact hroom rfl

/-- A table is taken exactly if it is missing, and a new table is empty. -/
theorem descend_room (placed : s.pool.Placed) {slot : Slot} (held : s.pool.Held slot.page)
    (idx : Nat) : Ends (s.descend slot idx)
      (fun out => if s.word slot = 0
        then out.2.pool.room + 1 = s.pool.room ∧ out.2.pool.Placed ∧
          out.2.pool.Held out.1.page ∧ out.2.word out.1 = 0
        else out = (⟨s.word slot ||| dmwBase, idx⟩, s))
      (fun _ => s.word slot = 0 ∧ s.pool.room = 0) := by
  rw [descend]
  by_cases hentry : s.word slot = 0
  · rw [if_neg (not_not.mpr hentry)]
    refine Ends.bind ((getPage_room placed).mono (fun _ h => h) fun _ h => ⟨hentry, h⟩) ?_
    rintro ⟨f, s₁⟩ fresh
    rw [ends_ok, if_pos hentry]
    have hne : f ≠ slot.page := by
      rintro rfl
      exact fresh.free held
    refine ⟨fresh.room, fresh.region.placed placed, fresh.taken, ?_⟩
    change update s₁.mem slot.page _ f idx = 0
    rw [update_of_ne hne]
    exact fresh.mem_self idx
  · rw [if_pos hentry, ends_ok, if_neg hentry]

/-- The way to an entry can be completed exactly if there is a page for each table missing. -/
theorem ptePtr_room (placed : s.pool.Placed) (owns : s.Owns pd role) (vaddr : Nat) :
    Ends (s.ptePtr pd vaddr) (fun _ => s.missing pd vaddr ≤ s.pool.room)
      (fun _ => s.pool.room < s.missing pd vaddr) := by
  have hroot := owns.held pd [] owns.root
  refine Ends.bind ((descend_room placed hroot _).mono (fun _ h => h) fun _ h => ?_) ?_
  · rw [missing, if_pos (show s.mem pd (pgdIdx vaddr) = 0 from h.1), h.2]
    exact Nat.two_pos
  rintro ⟨pmd, s₁⟩ h
  by_cases hpmd : s.mem pd (pgdIdx vaddr) = 0
  · obtain ⟨hroom, placed₁, held, hempty⟩ := (if_pos hpmd).mp h
    dsimp only at hroom placed₁ held hempty
    rw [missing, if_pos hpmd, ← hroom]
    refine (descend_room placed₁ held _).mono (fun out h => ?_) fun _ h => ?_
    · rw [if_pos hempty] at h
      omega
    · omega
  · obtain ⟨rfl, rfl⟩ := Prod.mk.inj ((if_neg hpmd).mp h)
    obtain ⟨-, lower, upper⟩ := placed.held_aligned (owns.held _ _ (owns.pmd hpmd))
    rw [missing, if_neg hpmd]
    dsimp only
    rw [show word s₁ (pgdPtr pd vaddr) = s₁.mem pd (pgdIdx vaddr) from rfl, or_dmwBase lower upper]
    have held : s₁.pool.Held (Slot.mk (s₁.mem pd (pgdIdx vaddr)) (pmdIdx vaddr)).page :=
      owns.held _ _ (owns.pmd hpmd)
    refine (descend_room placed held (pteIdx vaddr)).mono (fun out h => ?_) fun _ h => ?_
    · split
      next hpt =>
        have htaken := (if_pos (show s₁.word ⟨_, pmdIdx vaddr⟩ = 0 from hpt)).mp h
        omega
      next => exact Nat.zero_le _
    · rw [if_pos (show s₁.mem _ (pmdIdx vaddr) = 0 from h.1), h.2]
      exact Nat.one_pos

/-- `malloc_usrpage` runs out of memory exactly if the pool has too few pages for it. -/
theorem malloc_room (placed : s.pool.Placed) (owns : s.Owns pd role) (vaddr : Nat) :
    Ends (s.mallocUsrpageWithoutopmap pd vaddr) (fun _ => s.missing pd vaddr < s.pool.room)
      (fun e => e = .noMemory → s.pool.room ≤ s.missing pd vaddr) := by
  refine Ends.bind ((getPage_room placed).mono (fun _ h => h) fun _ h _ => by omega) ?_
  rintro ⟨f, s₁⟩ fresh
  dsimp only at fresh ⊢
  have hmissing := @Fresh.missing _ _ _ vaddr _ _ fresh owns
  have hroom := fresh.room
  have ends := ptePtr_room (fresh.region.placed placed) (fresh.owns_same owns) vaddr
  refine Ends.bind (ends.mono (fun _ h => h) fun _ h _ => by omega) ?_
  rintro ⟨pte, s₂⟩ h
  dsimp only at h ⊢
  split
  · exact nofun
  · rw [ends_ok]
    omega

end Phys

end KernelTravel.Mm

import KernelTravel.Mm.Buddy
import KernelTravel.Mm.Pool

/-!
# Seeding the buddy allocator

`__free_memory_core` in `mm/memblock.c` cuts a range of memory into blocks for the buddy
allocator. `mem_ffs` is `__builtin_ffs`, which counts the bits from 1, and it is given the low 32
bits of the page number. `pfn_to_page` is the macro of `asm/page.h`, whatever the order of the
headers is, and `page_to_pfn` the one of `xkernel/memory.h`.
-/

namespace KernelTravel.Mm

open Dyadic

def pfnUp (x : Nat) : Nat := (x + pageSize - 1) % 2 ^ 64 / pageSize
def pfnDown (x : Nat) : Nat := x / pageSize
def archPfnOffset : Nat := 0x9000000090000

def pfnToPage (pfn : Nat) : Nat := pfn * pageSize % 2 ^ 64

/-- `size` is that of a `struct page`. -/
def pageToPfn (memMap size page : Nat) : Nat :=
  ((((page : Int) - memMap).tdiv size + archPfnOffset) % 2 ^ 64).toNat

def memFfs (x : BitVec 32) : Nat := ((List.range 32).find? x.getLsbD).elim 0 (· + 1)

/-- The inner loop of `__free_memory_core`. -/
def fitOrder (startPfn endPfn : Nat) : Nat → Nat
  | 0 => 0
  | order + 1 =>
    if endPfn < startPfn + 2 ^ (order + 1) then fitOrder startPfn endPfn order else order + 1

def seedOrder (startPfn endPfn : Nat) : Nat :=
  fitOrder startPfn endPfn
    (if startPfn = 0 then maxPageOrder else min maxPageOrder (memFfs (BitVec.ofNat 32 startPfn)))

/-- The outer loop: the blocks for which `__free_pages_core` is called, and the last `start_pfn`. -/
def seedLoop (endPfn : Nat) : Nat → Nat → Option (List Block × Nat)
  | 0, _ => none
  | rounds + 1, startPfn =>
    if startPfn < endPfn then
      let order := seedOrder startPfn endPfn
      (seedLoop endPfn rounds (startPfn + 2 ^ order)).map fun (blocks, last) =>
        ((startPfn, order) :: blocks, last)
    else some ([], startPfn)

def seedEnd (maxLowPfn stop : Nat) : Nat := min (pfnDown stop) maxLowPfn

/-- A block at `pfn` is passed on as the pointer `pfnToPage pfn`. -/
def freeMemoryCore (maxLowPfn start stop : Nat) : Option (List Block × Nat) :=
  let startPfn := pfnUp start
  let endPfn := seedEnd maxLowPfn stop
  if endPfn ≤ startPfn then some ([], 0)
  else (seedLoop endPfn (endPfn - startPfn + 1) startPfn).map fun (blocks, startPfn) =>
    (blocks, (endPfn + 2 ^ 64 - startPfn) % 2 ^ 64)

/-- Aligned blocks, disjoint, of the pages of the range; descriptors that stand for them; and the
number of pages as the result. -/
def SeedRight (memMap size maxLowPfn start stop : Nat) : Prop :=
  ∃ blocks pages, freeMemoryCore maxLowPfn start stop = some (blocks, pages) ∧
    Tiling (maxPageOrder + 1) blocks (fun p => pfnUp start ≤ p ∧ p < seedEnd maxLowPfn stop) ∧
    (∀ b ∈ blocks, pageToPfn memMap size (pfnToPage b.1) = b.1) ∧
    pages = (blocks.map fun b => 2 ^ b.2).sum

section

variable {startPfn endPfn : Nat}

theorem fitOrder_le (h : startPfn < endPfn) (order : Nat) :
    startPfn + 2 ^ fitOrder startPfn endPfn order ≤ endPfn := by
  induction order with
  | zero => exact h
  | succ order ih =>
    rw [fitOrder]
    split
    next => exact ih
    next hfits => exact Nat.not_lt.mp hfits

/-- The loop ends behind the last page. The blocks are disjoint and hold the pages of the range. -/
theorem seedLoop_spec (rounds : Nat) (hle : startPfn ≤ endPfn)
    (hrounds : endPfn < startPfn + rounds) :
    ∃ blocks, seedLoop endPfn rounds startPfn = some (blocks, endPfn) ∧ blocks.Pairwise Apart ∧
      ∀ p, (∃ b ∈ blocks, In p b) ↔ startPfn ≤ p ∧ p < endPfn := by
  induction rounds generalizing startPfn with
  | zero => omega
  | succ rounds ih =>
    rcases Nat.eq_or_lt_of_le hle with rfl | hlt
    · refine ⟨[], by simp [seedLoop], .nil, fun p => ?_⟩
      simp only [List.not_mem_nil, false_and, exists_false, false_iff]
      omega
    · have hfits : startPfn + 2 ^ seedOrder startPfn endPfn ≤ endPfn := fitOrder_le hlt _
      have hpos := Nat.two_pow_pos (seedOrder startPfn endPfn)
      obtain ⟨blocks, hloop, apart, cover⟩ := ih hfits (by omega)
      refine ⟨(startPfn, seedOrder startPfn endPfn) :: blocks, by simp [seedLoop, hlt, hloop],
        List.pairwise_cons.mpr ⟨?_, apart⟩, fun p => ?_⟩
      · rintro b hb x ⟨hfirst, hx⟩
        exact Nat.not_le.mpr hfirst.2 ((cover x).mp ⟨b, hb, hx⟩).1
      · rw [List.exists_mem_cons_iff, cover, In]
        dsimp only
        omega

end

/-- The pages of the range are given away in disjoint blocks, and the result is 0; so it is right
for a range without a page only. -/
theorem freeMemoryCore_right_iff (memMap size maxLowPfn start stop : Nat) :
    (∃ blocks, freeMemoryCore maxLowPfn start stop = some (blocks, 0) ∧ blocks.Pairwise Apart ∧
      ∀ p, (∃ b ∈ blocks, In p b) ↔ pfnUp start ≤ p ∧ p < seedEnd maxLowPfn stop) ∧
    (SeedRight memMap size maxLowPfn start stop ↔ seedEnd maxLowPfn stop ≤ pfnUp start) := by
  by_cases hempty : seedEnd maxLowPfn stop ≤ pfnUp start
  · have hrun : freeMemoryCore maxLowPfn start stop = some ([], 0) := if_pos hempty
    have cover : ∀ p, (∃ b ∈ ([] : List Block), In p b) ↔
    pfnUp start ≤ p ∧ p < seedEnd maxLowPfn stop := by
      intro p
      simp only [List.not_mem_nil, false_and, exists_false, false_iff]
      omega
    refine ⟨⟨[], hrun, .nil, cover⟩, iff_of_true ⟨[], 0, hrun, ?_, by simp, rfl⟩ hempty⟩
    exact ⟨.nil, by simp, by simp, cover⟩
  · obtain ⟨blocks, hloop, apart, cover⟩ := seedLoop_spec
      (seedEnd maxLowPfn stop - pfnUp start + 1) (Nat.le_of_not_le hempty) (by omega)
    have hrun : freeMemoryCore maxLowPfn start stop = some (blocks, 0) := by
      rw [freeMemoryCore, if_neg hempty, hloop, Option.map_some]
      simp
    refine ⟨⟨blocks, hrun, apart, cover⟩, iff_of_false ?_ hempty⟩
    rintro ⟨blocks', pages, hrun', -, -, hpages⟩
    cases hrun.symm.trans hrun'
    obtain ⟨b, hb, -⟩ := (cover (pfnUp start)).mpr ⟨Nat.le_refl _, Nat.not_le.mp hempty⟩
    obtain ⟨before, behind, rfl⟩ := List.append_of_mem hb
    have hpos := Nat.two_pow_pos b.2
    rw [List.map_append, List.map_cons, List.sum_append, List.sum_cons] at hpages
    omega

/-- Pages 1 and 2 are one block, which is not aligned, and the result is 0. -/
theorem two_pages_misaligned : freeMemoryCore 4 0x1000 0x3000 = some ([(1, 1)], 0) ∧
    ¬Aligned (1, 1) ∧ ¬∃ memMap size, SeedRight memMap size 4 0x1000 0x3000 := by
  refine ⟨by decide, by decide, ?_⟩
  rintro ⟨memMap, size, blocks, pages, hrun, tiling, -⟩
  cases (show freeMemoryCore 4 0x1000 0x3000 = some ([(1, 1)], 0) by decide).symm.trans hrun
  exact absurd (tiling.aligned (1, 1) List.mem_cons_self) (by decide)

end KernelTravel.Mm

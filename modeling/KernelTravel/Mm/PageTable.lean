import KernelTravel.Lib.Outcome
import KernelTravel.Mm.PoolPages

/-!
# Page tables

A page table has three levels of tables with 512 entries each. An entry of the upper two
holds the address of a table in the kernel's window, one of the lowest the address of the
page that is mapped, with the flags in its low bits; an entry is 0 where nothing is mapped.
The functions of `mm/memory.c` that walk a table take the pages for missing tables from
the pool as they go.

A program stops where the pool has no page left, where the kernel calls `BUG` or an
`ASSERT` fails, and where it uses an address that is not mapped.
-/

namespace KernelTravel.Mm

open Outcome

inductive Stop where
  | noMemory
  | bug
  | fault
  deriving DecidableEq

def pgdIdx (vaddr : Nat) : Nat := (vaddr &&& 0x7fc0000000) >>> 30

def pmdIdx (vaddr : Nat) : Nat := (vaddr &&& 0x003fe00000) >>> 21

def pteIdx (vaddr : Nat) : Nat := (vaddr &&& 0x00001ff000) >>> 12

/-- `PTE_V | PTE_PLV | PTE_D`. -/
def pteAttr : Nat := 0xf

/-- The page in an entry of the lowest level. -/
def frame (pte : Nat) : Nat := pte &&& 0xfffffffffffff000

/-- A pointer to an entry: the page of the table, and the index in it. -/
structure Slot where
  page : Nat
  idx : Nat

/-- The pool, and the 64-bit words of each page by its address in the kernel's window. -/
structure Phys where
  pool : Pool
  mem : Nat → Nat → Nat

namespace Phys

def setPage (s : Phys) (page : Nat) (words : Nat → Nat) : Phys :=
  { s with mem := Function.update s.mem page words }

def word (s : Phys) (slot : Slot) : Nat := s.mem slot.page slot.idx

def setWord (s : Phys) (slot : Slot) (value : Nat) : Phys :=
  s.setPage slot.page (Function.update (s.mem slot.page) slot.idx value)

def getPage (s : Phys) : Except Stop (Nat × Phys) :=
  match s.pool.getPage with
  | some (page, pool) => .ok (page, { s with pool }.setPage page fun _ => 0)
  | none => .error .noMemory

/-- `get_pages` reports a failure by the address 0. -/
def getPages (s : Phys) (count : Nat) : Except Stop (Nat × Phys) :=
  match s.pool.getPages count with
  | some (page, pool) =>
    let mem q := if page ≤ q ∧ q < page + pageSize * count then fun _ => 0 else s.mem q
    .ok (page, if page = 0 then { s with pool } else ⟨pool, mem⟩)
  | none => .error .noMemory

/-- The common part of `pmd_ptr` and `pte_ptr`: follow an entry to the table below it,
which is made if it is missing, and point to the entry `idx` there. -/
def descend (s : Phys) (slot : Slot) (idx : Nat) : Except Stop (Slot × Phys) :=
  if s.word slot ≠ 0 then .ok (⟨s.word slot ||| dmwBase, idx⟩, s)
  else do
    let (page, s) ← s.getPage
    .ok (⟨page, idx⟩, s.setWord slot page)

def pgdPtr (pd vaddr : Nat) : Slot := ⟨pd, pgdIdx vaddr⟩

def pmdPtr (s : Phys) (pd vaddr : Nat) : Except Stop (Slot × Phys) :=
  s.descend (pgdPtr pd vaddr) (pmdIdx vaddr)

def ptePtr (s : Phys) (pd vaddr : Nat) : Except Stop (Slot × Phys) := do
  let (pmd, s) ← s.pmdPtr pd vaddr
  s.descend pmd (pteIdx vaddr)

def pageTableAdd (s : Phys) (pd vaddr paddr attr : Nat) : Except Stop Phys := do
  let (pte, s) ← s.ptePtr pd vaddr
  if s.word pte ≠ 0 then .error .bug
  else .ok (s.setWord pte (paddr ||| attr))

def mallocUsrpageWithoutopmap (s : Phys) (pd vaddr : Nat) : Except Stop Phys := do
  let (paddr, s) ← s.getPage
  s.pageTableAdd pd vaddr paddr pteAttr

/-- The page that three indices lead to. -/
def lookup (s : Phys) (pd i j k : Nat) : Option Nat :=
  let pmd := s.mem pd i
  let pt := s.mem pmd j
  let pte := s.mem pt k
  if pmd = 0 ∨ pt = 0 ∨ pte = 0 then none else some (frame pte)

/-- The page that the hardware finds for a virtual address. -/
def translate (s : Phys) (pd vaddr : Nat) : Option Nat :=
  s.lookup pd (pgdIdx vaddr) (pmdIdx vaddr) (pteIdx vaddr)

end Phys

/-! ## Addresses -/

theorem and_shift_eq (vaddr bits : Nat) :
    (vaddr &&& (2 ^ 9 - 1) <<< bits) >>> bits = vaddr / 2 ^ bits % 512 := by
  rw [Nat.shiftRight_and_distrib, Nat.shiftLeft_shiftRight, Nat.and_two_pow_sub_one_eq_mod,
    Nat.shiftRight_eq_div_pow]

theorem pgdIdx_eq (vaddr : Nat) : pgdIdx vaddr = vaddr / 2 ^ 30 % 512 := and_shift_eq vaddr 30

theorem pmdIdx_eq (vaddr : Nat) : pmdIdx vaddr = vaddr / 2 ^ 21 % 512 := and_shift_eq vaddr 21

theorem pteIdx_eq (vaddr : Nat) : pteIdx vaddr = vaddr / 2 ^ 12 % 512 := and_shift_eq vaddr 12

/-- The number of pages that a table can map. -/
def userPages : Nat := 2 ^ 27

/-- Two pages below 2^39 have the same indices only if they are the same. -/
theorem indices_inj {n m : Nat} (hn : n < userPages) (hm : m < userPages)
    (h₁ : pgdIdx (n * pageSize) = pgdIdx (m * pageSize))
    (h₂ : pmdIdx (n * pageSize) = pmdIdx (m * pageSize))
    (h₃ : pteIdx (n * pageSize) = pteIdx (m * pageSize)) : n = m := by
  simp only [pgdIdx_eq, pmdIdx_eq, pteIdx_eq, pageSize] at h₁ h₂ h₃
  unfold userPages at hn hm
  omega

theorem frame_eq {x : Nat} (hx : x < 2 ^ 64) : frame x = x / 4096 * 4096 := by
  have hmask : 0xfffffffffffff000 = (2 ^ 52 - 1) <<< 12 := by decide
  have hshift : x / 4096 * 4096 = (x >>> 12) <<< 12 := by
    rw [Nat.shiftLeft_eq, Nat.shiftRight_eq_div_pow]
  rw [frame, hmask, hshift]
  apply Nat.eq_of_testBit_eq
  intro k
  rw [Nat.testBit_and, Nat.testBit_shiftLeft, Nat.testBit_shiftLeft, Nat.testBit_two_pow_sub_one,
    Nat.testBit_shiftRight]
  by_cases hk : 12 ≤ k
  · by_cases hk' : k < 64
    · simp [hk, show k - 12 < 52 by omega]
    · have hhigh : x.testBit k = false := by
        apply Nat.testBit_lt_two_pow
        exact Nat.lt_of_lt_of_le hx (Nat.pow_le_pow_right (by decide) (by omega))
      simp [hk, hhigh]
  · simp [hk]

theorem frame_attr {a : Nat} (ha : a % pageSize = 0) (hlt : a < 2 ^ 64) :
    frame (a ||| pteAttr) = a ∧ frame a = a ∧ a ||| pteAttr ≠ 0 := by
  unfold pageSize at ha
  have hor : a ||| pteAttr = a + 15 := by
    obtain ⟨b, rfl⟩ : ∃ b, a = 2 ^ 12 * b := ⟨a / 4096, by omega⟩
    exact (Nat.two_pow_add_eq_or_of_lt (by decide : 15 < 2 ^ 12) b).symm
  rw [hor, frame_eq (by omega), frame_eq hlt]
  omega

end KernelTravel.Mm

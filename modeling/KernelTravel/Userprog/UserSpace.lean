import KernelTravel.Mm.VmaRuns
import KernelTravel.Userprog.Fork

/-!
# The pages of a running process

`malloc_usrpage` takes a page of memory, writes an entry of the page table and sets a bit of the
bitmap. The entry is chosen by 39 bits of the address and the bit by 32 bits of the number of the
page. `bitmap_set` asserts a bound for the bit, but only after the entry has been written, and the
bound lets the page at `USER_STACK` through, for which the bitmap has no bit.
-/

namespace KernelTravel.Userprog

open Mm Outcome

structure UserSpace where
  phys : Phys
  proc : Process
  mm : MmStruct

/-- The number of the entry that the page table has for an address. -/
def entryOf (vaddr : Nat) : Nat := vaddr / pageSize % userPages

/-- The number of the bit that `bitmap_set` looks for. -/
def bitOf (vaddr : Nat) : Nat := vaddr / pageSize % 2 ^ 32

namespace UserSpace

/-- The page of memory in entry `n` of the page table. -/
def entry (u : UserSpace) (n : Nat) : Option Nat := u.phys.translate u.proc.pgdir (n * pageSize)

def btmp (u : UserSpace) : Bitmap := ⟨btmpBytesLen, u.proc.bits⟩

/-- `get_page` and `page_table_add` in `malloc_usrpage`. -/
def addPage (u : UserSpace) (vaddr : Nat) : Except Stop UserSpace := do
  let phys ← u.phys.mallocUsrpageWithoutopmap u.proc.pgdir vaddr
  .ok { u with phys }

def setBit (u : UserSpace) (vaddr : Nat) : Except Stop UserSpace :=
  match u.btmp.bitmapSet (vaddr / pageSize) true with
  | some btmp => .ok { u with proc := { u.proc with bits := btmp.bits } }
  | none => .error .bug

def mallocUsrpage (u : UserSpace) (vaddr : Nat) : Except Stop UserSpace := do
  let u ← u.addPage vaddr
  u.setBit vaddr

/-! ## What the two parts do -/

/-- The page table is one: no page of memory is used twice in it. -/
structure Sound (u : UserSpace) (role : Roles) : Prop where
  placed : u.phys.pool.Placed
  owns : u.phys.Owns u.proc.pgdir role

/-- Entry `n` was empty and has the new page `f`. -/
structure PageAdded (u : UserSpace) (n f : Nat) (u' : UserSpace) : Prop where
  free : u.entry n = none
  fresh : ¬u.phys.pool.Held f
  entry : ∀ m < userPages, u'.entry m = if m = n then some f else u.entry m
  held : ∀ q, u.phys.pool.Held q → u'.phys.pool.Held q
  proc : u'.proc = u.proc
  mm : u'.mm = u.mm
  sound : ∃ role, u'.Sound role

/-- The bit `n` is set and nothing else has changed. -/
structure BitSet (u : UserSpace) (n : Nat) (u' : UserSpace) : Prop where
  bound : n ≤ argPage
  bits : ∀ m, u'.btmp.Marked m ↔ m = n ∨ u.btmp.Marked m
  phys : u'.phys = u.phys
  pgdir : u'.proc.pgdir = u.proc.pgdir
  mm : u'.mm = u.mm

variable {u u' u'' : UserSpace} {role : Roles} {vaddr n f : Nat}

theorem entryOf_lt (vaddr : Nat) : entryOf vaddr < userPages := Nat.mod_lt _ (by decide)

theorem at_iff (hn : n < userPages) :
    Phys.At vaddr (pgdIdx (n * pageSize)) (pmdIdx (n * pageSize)) (pteIdx (n * pageSize)) ↔
      n = entryOf vaddr := by
  simp only [Phys.At, pgdIdx_eq, pmdIdx_eq, pteIdx_eq]
  unfold entryOf pageSize userPages at *
  omega

theorem entry_entryOf (u : UserSpace) (vaddr : Nat) :
    u.entry (entryOf vaddr) = u.phys.translate u.proc.pgdir vaddr := by
  obtain ⟨h₁, h₂, h₃⟩ := (at_iff (entryOf_lt vaddr)).mpr (rfl : entryOf vaddr = entryOf vaddr)
  rw [entry, Phys.translate, Phys.translate, h₁, h₂, h₃]

theorem addPage_ends (sound : u.Sound role) (vaddr : Nat) :
    Ends (u.addPage vaddr) (fun u' => ∃ f, PageAdded u (entryOf vaddr) f u')
      (fun e => e = .noMemory ∨ e = .bug ∧ u.entry (entryOf vaddr) ≠ none) := by
  have ends := Phys.mallocUsrpageWithoutopmap_ends sound.placed sound.owns vaddr
  rw [← entry_entryOf] at ends
  refine ends.bind ?_
  rintro phys ⟨hfree, f, role', mapped⟩
  refine ⟨f, hfree, mapped.free, fun m hm => ?_, mapped.grown.held, rfl, rfl, role',
    mapped.grown.region.placed sound.placed, mapped.owns⟩
  rw [entry, Phys.translate, mapped.lookup]
  exact if_congr (at_iff hm) rfl rfl

theorem bitmapSet_isSome_iff (u : UserSpace) (vaddr : Nat) :
    (u.btmp.bitmapSet (vaddr / pageSize) true).isSome ↔ bitOf vaddr ≤ argPage := by
  have hlen : u.btmp.btmpBytesLen * 8 = argPage := btmpBytesLen_eq
  rw [Bitmap.bitmapSet, hlen, bitOf]
  split
  next hle => exact iff_of_true rfl hle
  next hlong => exact iff_of_false Bool.false_ne_true hlong

theorem setBit_ends (u : UserSpace) (vaddr : Nat) :
    Ends (u.setBit vaddr) (BitSet u (bitOf vaddr)) (fun e => e = .bug ∧ argPage < bitOf vaddr) := by
  have hbound := bitmapSet_isSome_iff u vaddr
  rw [setBit]
  cases hset : u.btmp.bitmapSet (vaddr / pageSize) true with
  | none =>
    rw [hset] at hbound
    exact ⟨rfl, Nat.not_le.mp (mt hbound.mpr Bool.false_ne_true)⟩
  | some btmp =>
    rw [hset] at hbound
    refine ⟨hbound.mp rfl, fun m => ?_, rfl, rfl, rfl⟩
    have hmarked := (Bitmap.bitmapSet_marked hset).2 m
    change btmp.Marked m ↔ _
    rw [hmarked, ← bitOf]
    by_cases hm : m = bitOf vaddr
    · simp [hm]
    · simp [hm]

theorem BitSet.entry (set : BitSet u n u') (m : Nat) : u'.entry m = u.entry m := by
  rw [UserSpace.entry, UserSpace.entry, set.phys, set.pgdir]

theorem BitSet.sound (set : BitSet u n u') (sound : u.Sound role) : u'.Sound role := by
  constructor
  · rw [set.phys]
    exact sound.placed
  · rw [set.phys, set.pgdir]
    exact sound.owns

end UserSpace

end KernelTravel.Userprog

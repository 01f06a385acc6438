import KernelTravel.Lib.Run
import KernelTravel.Mm.Bitmap

/-!
# The physical page pool

`mm/memory.c` hands out 4096-byte pages of one memory region and records them in a
bitmap. `phy_pool_init` gives the bitmap a byte, not a bit, for every page of the
region, so a full region is followed by bits that stand for no page of it.
`free_pages` subtracts the start of the pool inside its mask, which is the intended
offset only if the offset and the start of the region have no bit in common.

Addresses are 64-bit numbers. The pages are cleared when they are handed out; their
contents are not modelled. An operation answers `none` where an `ASSERT` fails.
-/

namespace KernelTravel.Mm

def pageSize : Nat := 4096

/-- `CSR_DMW1_BASE`, the window through which the kernel sees physical memory. -/
def dmwBase : Nat := 0x9000000000000000

structure Pool where
  paddrStart : Nat
  btmp : Bitmap

/-- `phy_pool_init` for the region of `size` bytes at `base`. It clears the bitmap of
the reserved pool, of 0x7ffa bytes at 0x2000; its own at 0x3000 it takes as it is. -/
def phyPoolInit (mem : Nat → Byte) (base size : Nat) : Pool :=
  let mem := Mem.blit mem 0x2000 ((0x8000000 - 0x6000) >>> 12) fun _ => 0
  { paddrStart := base, btmp := { btmpBytesLen := size >>> 12, bits := fun k => mem (0x3000 + k) } }

namespace Pool

/-- An `int` converted to 64 bits. -/
def bitOff (off : Int) : Nat := (off % 2 ^ 64).toNat

/-- The address of the page that a bit stands for. -/
def page (p : Pool) (off : Nat) : Nat :=
  (((off <<< 12) % 2 ^ 64 + p.paddrStart) % 2 ^ 64) ||| dmwBase

/-- The address 0 reports a failure. -/
def getPage (p : Pool) : Option (Nat × Pool) := do
  let off ← p.btmp.bitScan 1
  if off = -1 then return (0, p)
  else
    let btmp ← p.btmp.bitmapSet (bitOff off) true
    return (p.page (bitOff off), { p with btmp })

def getPages (p : Pool) (count : Nat) : Option (Nat × Pool) := do
  let off ← p.btmp.bitScan count
  if off = -1 then return (0, p)
  else
    let btmp ← p.btmp.bitmapSetRange true (bitOff off) count
    return (p.page (bitOff off), { p with btmp })

def freePage (p : Pool) (vaddr : Nat) : Option Pool := do
  let off := (((vaddr ||| dmwBase) + (2 ^ 64 - p.paddrStart)) % 2 ^ 64) >>> 12
  if off < p.btmp.btmpBytesLen then
    let btmp ← p.btmp.bitmapSet off false
    return { p with btmp }
  else none

/-- The subtraction binds tighter than the mask. -/
def freePages (p : Pool) (vstart count : Nat) : Option Pool := do
  let off := (vstart &&& (((2 ^ 64 - 1 - dmwBase) + (2 ^ 64 - p.paddrStart)) % 2 ^ 64)) >>> 12
  let btmp ← p.btmp.bitmapSetRange false off count
  return { p with btmp }

theorem getPage_eq (p : Pool) : p.getPage = p.getPages 1 := by
  simp only [getPage, getPages, Bitmap.bitmapSetRange]
  congr 1
  funext off
  split
  · rfl
  · cases p.btmp.bitmapSet (bitOff off) true <;> rfl

end Pool

/-! ## Clients of the pool -/

/-- The pool and the pages that are handed out. -/
structure PoolWorld where
  pool : Pool
  held : List Nat

inductive PoolOp where
  | getPage
  | getPages (count : Nat)
  | freePage (vaddr : Nat)
  | freePages (vstart count : Nat)

/-- The addresses of `count` consecutive pages. -/
def pagesFrom (start count : Nat) : List Nat := (List.range count).map fun k => start + pageSize * k

/-- The pages that an operation gives back; `none` for an allocation. -/
def PoolOp.freed : PoolOp → Option (List Nat)
  | .getPage => none
  | .getPages _ => none
  | .freePage vaddr => some (pagesFrom vaddr 1)
  | .freePages vstart count => some (pagesFrom vstart count)

/-- Book a successful allocation. -/
def PoolWorld.take (w : PoolWorld) (count : Nat) (r : Nat × Pool) : PoolWorld :=
  { pool := r.2, held := if r.1 = 0 then w.held else pagesFrom r.1 count ++ w.held }

def PoolWorld.give (w : PoolWorld) (pages : List Nat) (p : Pool) : PoolWorld :=
  { pool := p, held := w.held.filter (· ∉ pages) }

def poolStep (w : PoolWorld) : PoolOp → Option PoolWorld
  | .getPage => w.pool.getPage.map (w.take 1)
  | .getPages count => (w.pool.getPages count).map (w.take count)
  | .freePage vaddr => (w.pool.freePage vaddr).map (w.give (pagesFrom vaddr 1))
  | .freePages vstart count => (w.pool.freePages vstart count).map (w.give (pagesFrom vstart count))

/-- Frees match earlier allocations: only pages that are handed out are freed. -/
def Matching (w : PoolWorld) (op : PoolOp) : Prop := ∀ pages ∈ op.freed, ∀ a ∈ pages, a ∈ w.held

/-- The region has room for `count` consecutive pages, and for one if `count` is 0. -/
def Room (w : PoolWorld) (size count : Nat) : Prop :=
  ∃ start ≤ size >>> 12, start + max count 1 ≤ size >>> 12 ∧
    w.pool.btmp.ClearRun start (max count 1)

/-- The operations that the pool over the region `[base, base + size)` gets right. -/
def Fits (base size : Nat) (w : PoolWorld) : PoolOp → Prop
  | .getPage => Room w size 1
  | .getPages count => Room w size count
  | .freePage _ => True
  | .freePages vstart count => count = 0 ∨ (base - dmwBase) &&& (vstart - base) = 0

/-- The region lies in the kernel's window, behind the bitmap of the pool, and has fewer than 2^28
pages. -/
structure WellPlaced (base size : Nat) : Prop where
  lower : dmwBase ≤ base
  upper : base + size ≤ dmwBase + 2 ^ 60
  pages : size >>> 12 < 2 ^ 28
  bitmap : dmwBase + 0x3000 + (size >>> 12) ≤ base

instance (w : PoolWorld) (op : PoolOp) : Decidable (Matching w op) :=
  inferInstanceAs (Decidable (∀ pages ∈ op.freed, _))

instance (w : PoolWorld) (size count : Nat) : Decidable (Room w size count) :=
  inferInstanceAs (Decidable (∃ start ≤ _, _ ∧ _))

instance (base size : Nat) (w : PoolWorld) : ∀ op, Decidable (Fits base size w op)
  | .getPage => inferInstanceAs (Decidable (Room w size 1))
  | .getPages count => inferInstanceAs (Decidable (Room w size count))
  | .freePage _ => .isTrue trivial
  | .freePages _ _ => inferInstanceAs (Decidable (_ ∨ _))

/-! ## Addresses -/

theorem add_eq_or_of_and_eq_zero {x y : Nat} (h : x &&& y = 0) : x + y = x ||| y := by
  have hx : x < 2 ^ (x + y) := Nat.lt_of_le_of_lt (Nat.le_add_right x y) Nat.lt_two_pow_self
  have hy : y < 2 ^ (x + y) := Nat.lt_of_le_of_lt (Nat.le_add_left y x) Nat.lt_two_pow_self
  have disjoint : BitVec.ofNat (x + y) x &&& BitVec.ofNat (x + y) y = 0#(x + y) := by
    apply BitVec.eq_of_toNat_eq
    simp [Nat.mod_eq_of_lt hx, Nat.mod_eq_of_lt hy, h]
  have sum := congrArg BitVec.toNat (BitVec.add_eq_or_of_and_eq_zero _ _ disjoint)
  simpa [Nat.mod_eq_of_lt hx, Nat.mod_eq_of_lt hy, Nat.mod_eq_of_lt Nat.lt_two_pow_self] using sum

theorem or_dmwBase {x : Nat} (lower : dmwBase ≤ x) (upper : x < dmwBase + 2 ^ 60) :
    x ||| dmwBase = x := by
  obtain ⟨y, rfl⟩ := Nat.exists_eq_add_of_le lower
  have hy : y < 2 ^ 60 := by omega
  have split : dmwBase + y = dmwBase ||| y := Nat.two_pow_add_eq_or_of_lt hy 9
  rw [split, Nat.or_right_comm, Nat.or_self]

section Region

variable {base size : Nat} {p : Pool} {i : Nat}

theorem pageSize_mul_le (hi : i < size >>> 12) : pageSize * i + pageSize ≤ size := by
  rw [Nat.shiftRight_eq_div_pow] at hi
  unfold pageSize
  omega

theorem page_eq (placed : WellPlaced base size) (hstart : p.paddrStart = base)
    (hi : i < size >>> 12) : p.page i = base + pageSize * i := by
  have hend := pageSize_mul_le hi
  obtain ⟨lower, upper, -⟩ := placed
  have hshift : i <<< 12 = pageSize * i := by rw [Nat.shiftLeft_eq, Nat.mul_comm]; rfl
  unfold pageSize at hend
  have small : (i <<< 12 % 2 ^ 64 + p.paddrStart) % 2 ^ 64 = base + pageSize * i := by
    rw [hshift, hstart]
    unfold pageSize dmwBase at *
    omega
  rw [Pool.page, small]
  exact or_dmwBase (by omega) (by unfold pageSize at *; omega)

/-- The bit `free_page` computes for a page of the region. -/
theorem freePage_off (placed : WellPlaced base size) (hi : i < size >>> 12) :
    ((((base + pageSize * i) ||| dmwBase) + (2 ^ 64 - base)) % 2 ^ 64) >>> 12 = i := by
  have hend := pageSize_mul_le hi
  obtain ⟨lower, upper, -⟩ := placed
  rw [or_dmwBase (by omega) (by unfold pageSize at *; omega), Nat.shiftRight_eq_div_pow]
  unfold pageSize dmwBase at *
  omega

/-- The bit `free_pages` computes, when the offset and the start of the region have
no bit in common: the mask then removes the start and leaves the offset. -/
theorem freePages_off (placed : WellPlaced base size) (hi : i < size >>> 12)
    (apart : (base - dmwBase) &&& (pageSize * i) = 0) :
    ((base + pageSize * i) &&& (((2 ^ 64 - 1 - dmwBase) + (2 ^ 64 - base)) % 2 ^ 64)) >>> 12 %
      2 ^ 32 = i := by
  have hend := pageSize_mul_le hi
  obtain ⟨lower, upper, pages⟩ := placed
  obtain ⟨q, rfl⟩ := Nat.exists_eq_add_of_le lower
  rw [Nat.add_sub_cancel_left] at apart
  have hsum : q + pageSize * i < 2 ^ 60 := by unfold pageSize at *; omega
  have hmask : ((2 ^ 64 - 1 - dmwBase) + (2 ^ 64 - (dmwBase + q))) % 2 ^ 64 =
      2 ^ 64 - ((2 ^ 60 * 2 + q) + 1) := by
    unfold dmwBase
    omega
  have hvalue : dmwBase + q + pageSize * i = 2 ^ 60 * 9 + (q ||| pageSize * i) := by
    rw [← add_eq_or_of_and_eq_zero apart]
    unfold dmwBase
    omega
  rw [add_eq_or_of_and_eq_zero apart] at hsum
  rw [hmask, hvalue]
  apply Nat.eq_of_testBit_eq
  intro k
  rw [Nat.testBit_mod_two_pow]
  by_cases hk : k < 32
  · have hcommon : (q &&& pageSize * i).testBit (12 + k) = false := by rw [apart, Nat.zero_testBit]
    have hbit : (pageSize * i).testBit (12 + k) = i.testBit k := by
      have high : ¬12 + k < 12 := by omega
      have := Nat.testBit_two_pow_mul_add i (b := 0) (i := 12) (by decide) (12 + k)
      simpa [pageSize, high] using this
    rw [Nat.testBit_and, hbit] at hcommon
    rw [Nat.testBit_shiftRight, Nat.testBit_and, Nat.testBit_two_pow_mul_add 9 hsum,
      Nat.testBit_two_pow_sub_succ (by omega), Nat.testBit_two_pow_mul_add 2 (by omega),
      if_pos (by omega), if_pos (by omega), Nat.testBit_or, hbit]
    have h64 : 12 + k < 64 := by omega
    cases hq : q.testBit (12 + k) <;> cases hb : i.testBit k <;> simp_all
  · have hlarge : i.testBit k = false := by
      apply Nat.testBit_lt_two_pow
      calc i < 2 ^ 28 := by omega
        _ ≤ 2 ^ k := Nat.pow_le_pow_right (by decide) (by omega)
    simp [hk, hlarge]

end Region

/-! ## The invariant -/

/-- Every page handed out is a page of the region, marked in the bitmap, and no page
is handed out twice. -/
structure PoolInv (base size : Nat) (w : PoolWorld) : Prop where
  start : w.pool.paddrStart = base
  len : w.pool.btmp.btmpBytesLen = size >>> 12
  nodup : w.held.Nodup
  marked : ∀ a ∈ w.held, ∃ i < size >>> 12, a = base + pageSize * i ∧ w.pool.btmp.Marked i

section Step

variable {base size : Nat} {w w' : PoolWorld}

theorem mem_pagesFrom {a start count : Nat} :
    a ∈ pagesFrom start count ↔ ∃ k < count, a = start + pageSize * k := by
  simp [pagesFrom, eq_comm]

theorem mem_pagesFrom_region {i count k : Nat} :
    base + pageSize * k ∈ pagesFrom (base + pageSize * i) count ↔ i ≤ k ∧ k < i + count := by
  rw [mem_pagesFrom]
  unfold pageSize
  constructor
  · rintro ⟨l, hl, heq⟩
    omega
  · rintro ⟨hle, hlt⟩
    exact ⟨k - i, by omega, by omega⟩

theorem pagesFrom_nodup (start count : Nat) : (pagesFrom start count).Nodup := by
  refine List.Nodup.map ?_ List.nodup_range
  intro k l h
  simp only [pageSize] at h
  omega

/-- Handing out `count` clear pages from bit `i` on. -/
theorem PoolInv.take (inv : PoolInv base size w) (placed : WellPlaced base size) {i count : Nat}
    (hbound : i + count ≤ size >>> 12) (clear : w.pool.btmp.ClearRun i count) {btmp : Bitmap}
    (hlen : btmp.btmpBytesLen = w.pool.btmp.btmpBytesLen)
    (hmarked : ∀ j, btmp.Marked j ↔
      if i ≤ j ∧ j < i + count then true = true else w.pool.btmp.Marked j) :
    PoolInv base size (w.take count (base + pageSize * i, { w.pool with btmp })) := by
  have hne : base + pageSize * i ≠ 0 := by
    have := placed.lower
    unfold dmwBase at this
    omega
  have hheld : (w.take count (base + pageSize * i, { w.pool with btmp })).held =
      pagesFrom (base + pageSize * i) count ++ w.held := if_neg hne
  refine ⟨inv.start, hlen.trans inv.len, ?_, ?_⟩
  · rw [hheld, List.nodup_append]
    refine ⟨pagesFrom_nodup _ _, inv.nodup, ?_⟩
    -- a page already handed out is marked, the new ones were clear
    rintro a hnew b hold rfl
    obtain ⟨j, -, rfl, hj⟩ := inv.marked a hold
    obtain ⟨hle, hlt⟩ := mem_pagesFrom_region.mp hnew
    have := clear (j - i) (by omega)
    rw [Nat.add_sub_cancel' hle] at this
    exact this hj
  · intro a ha
    rw [hheld, List.mem_append] at ha
    rcases ha with hnew | hold
    · obtain ⟨k, hk, rfl⟩ := mem_pagesFrom.mp hnew
      exact ⟨i + k, by omega, by rw [Nat.mul_add, Nat.add_assoc], (hmarked _).mpr (by simp [hk])⟩
    · obtain ⟨j, hj, rfl, hmark⟩ := inv.marked a hold
      refine ⟨j, hj, rfl, (hmarked j).mpr ?_⟩
      split_ifs
      · rfl
      · exact hmark

/-- Taking back `count` pages from bit `i` on. -/
theorem PoolInv.give (inv : PoolInv base size w) {i count : Nat} {btmp : Bitmap}
    (hlen : btmp.btmpBytesLen = w.pool.btmp.btmpBytesLen)
    (hmarked : ∀ j, btmp.Marked j ↔
      if i ≤ j ∧ j < i + count then false = true else w.pool.btmp.Marked j) :
    PoolInv base size (w.give (pagesFrom (base + pageSize * i) count) { w.pool with btmp }) := by
  refine ⟨inv.start, hlen.trans inv.len, inv.nodup.filter _, ?_⟩
  intro a ha
  obtain ⟨hold, hkept⟩ := List.mem_filter.mp ha
  obtain ⟨j, hj, rfl, hmark⟩ := inv.marked a hold
  refine ⟨j, hj, rfl, (hmarked j).mpr ?_⟩
  rw [if_neg (mt mem_pagesFrom_region.mpr (of_decide_eq_true hkept))]
  exact hmark

theorem PoolInv.getPages (inv : PoolInv base size w) (placed : WellPlaced base size) {count : Nat}
    (room : Room w size count) :
    ∃ w', poolStep w (.getPages count) = some w' ∧ PoolInv base size w' := by
  obtain ⟨start, -, hbound, clear⟩ := room
  have hlen28 : w.pool.btmp.btmpBytesLen < 2 ^ 28 := inv.len ▸ placed.pages
  have hlen := inv.len
  by_cases hzero : count = 0
  · -- nothing is handed out, whatever the search answers
    subst hzero
    obtain ⟨off, hscan⟩ := Bitmap.bitScan_isSome hlen28 (i := start) (by omega)
      (by simpa using clear 0 (by simp)) 0
    have same : ∀ r, PoolInv base size (w.take 0 (r, w.pool)) := by
      intro r
      have hheld : (w.take 0 (r, w.pool)).held = w.held := by simp [PoolWorld.take, pagesFrom]
      exact ⟨inv.start, inv.len, hheld ▸ inv.nodup, fun a ha => inv.marked a (hheld ▸ ha)⟩
    by_cases hoff : off = -1
    · exact ⟨_, by simp [poolStep, Pool.getPages, hscan, hoff], same 0⟩
    · refine ⟨_, ?_, same (w.pool.page (Pool.bitOff off))⟩
      simp [poolStep, Pool.getPages, hscan, hoff, Bitmap.bitmapSetRange]
  · rw [Nat.max_eq_left (by omega)] at hbound clear
    obtain ⟨i, hscan, hle, hrun⟩ := Bitmap.bitScan_spec (by omega) hlen28 (by omega) clear
    obtain ⟨btmp, hset, hlen', hmarked⟩ := Bitmap.bitmapSetRange_spec (b := w.pool.btmp) (i := i)
      (by omega : i + count ≤ _) (by have := placed.pages; omega) true
    have hoff : Pool.bitOff (i : Int) = i := by
      have := placed.pages
      unfold Pool.bitOff
      omega
    have hne : (i : Int) ≠ -1 := by omega
    refine ⟨_, ?_, inv.take placed (i := i) (by omega) hrun hlen' hmarked⟩
    simp [poolStep, Pool.getPages, hscan, hne, hoff, hset,
      page_eq placed inv.start (by omega : i < _)]

/-- A free of pages that are handed out succeeds and clears exactly their bits. -/
theorem PoolInv.free (inv : PoolInv base size w) (placed : WellPlaced base size) {op : PoolOp}
    {pages : List Nat} (hfreed : op.freed = some pages) (matching : Matching w op)
    (fits : Fits base size w op) : ∃ w', poolStep w op = some w' ∧ PoolInv base size w' ∧
      ∀ k, ¬w'.pool.btmp.Marked k ↔ ¬w.pool.btmp.Marked k ∨ base + pageSize * k ∈ pages := by
  have hlen := inv.len
  have h28 := placed.pages
  -- what is left once the code's bit number is known to be `i`
  have clear : ∀ {i count : Nat}, i + count ≤ size >>> 12 →
      ∃ btmp, w.pool.btmp.bitmapSetRange false i count = some btmp ∧
        PoolInv base size (w.give (pagesFrom (base + pageSize * i) count) { w.pool with btmp }) ∧
        ∀ k, ¬btmp.Marked k ↔
          ¬w.pool.btmp.Marked k ∨ base + pageSize * k ∈ pagesFrom (base + pageSize * i) count := by
    intro i count hbound
    obtain ⟨btmp, hset, hlen', hmarked⟩ := Bitmap.bitmapSetRange_spec (b := w.pool.btmp) (i := i)
      (by omega : i + count ≤ _) (by omega) false
    refine ⟨btmp, hset, inv.give hlen' hmarked, ?_⟩
    intro k
    rw [hmarked, mem_pagesFrom_region]
    by_cases hk : i ≤ k ∧ k < i + count <;> simp [hk]
  cases op with
  | getPage => simp [PoolOp.freed] at hfreed
  | getPages count => simp [PoolOp.freed] at hfreed
  | freePage vaddr =>
    obtain rfl := Option.some.inj hfreed
    have hheld := matching _ rfl vaddr (by simp [pagesFrom])
    obtain ⟨i, hi, rfl, -⟩ := inv.marked vaddr hheld
    obtain ⟨btmp, hset, inv', exact'⟩ := clear (by omega : i + 1 ≤ size >>> 12)
    have hone : w.pool.btmp.bitmapSet i false = some btmp := by
      simpa [Bitmap.bitmapSetRange] using hset
    refine ⟨_, ?_, inv', exact'⟩
    simp only [poolStep, Pool.freePage, inv.start, freePage_off placed hi, hlen, if_pos hi, hone]
    rfl
  | freePages vstart count =>
    obtain rfl := Option.some.inj hfreed
    cases count with
    | zero =>
      refine ⟨_, rfl, ⟨inv.start, inv.len, inv.nodup.filter _, ?_⟩, ?_⟩
      · exact fun a ha => inv.marked a (List.mem_of_mem_filter ha)
      · simp [PoolWorld.give, pagesFrom]
    | succ count =>
      have hfirst := matching _ rfl vstart
        (mem_pagesFrom.mpr ⟨0, Nat.succ_pos _, rfl⟩)
      obtain ⟨i, hi, rfl, -⟩ := inv.marked vstart hfirst
      have hlast := matching _ rfl (base + pageSize * (i + count))
        (mem_pagesFrom_region.mpr (by omega))
      obtain ⟨j, hj, heq, -⟩ := inv.marked _ hlast
      have hbound : i + (count + 1) ≤ size >>> 12 := by
        unfold pageSize at heq
        omega
      obtain ⟨btmp, hset, inv', exact'⟩ := clear hbound
      have apart : (base - dmwBase) &&& (pageSize * i) = 0 := by
        rcases fits with hzero | happart
        · omega
        · rwa [Nat.add_sub_cancel_left] at happart
      have hoff := freePages_off placed hi apart
      refine ⟨_, ?_, inv', exact'⟩
      have hmod : ∀ x, x % 2 ^ 32 = i → w.pool.btmp.bitmapSetRange false x (count + 1) =
          some btmp := by
        intro x hx
        rw [Bitmap.bitmapSetRange_mod _ _ (j := i) (by omega), hset]
      simp only [poolStep, Pool.freePages, inv.start, hmod _ hoff]
      rfl

theorem PoolInv.step (inv : PoolInv base size w) (placed : WellPlaced base size) {op : PoolOp}
    (matching : Matching w op) (fits : Fits base size w op) :
    ∃ w', poolStep w op = some w' ∧ PoolInv base size w' := by
  cases op with
  | getPage =>
    have room : Room w size 1 := fits
    obtain ⟨w', hstep, inv'⟩ := inv.getPages placed room
    exact ⟨w', by rw [← hstep, poolStep, poolStep, Pool.getPage_eq], inv'⟩
  | getPages count => exact inv.getPages placed fits
  | freePage vaddr =>
    obtain ⟨w', hstep, inv', -⟩ := inv.free placed rfl matching fits
    exact ⟨w', hstep, inv'⟩
  | freePages vstart count =>
    obtain ⟨w', hstep, inv', -⟩ := inv.free placed rfl matching fits
    exact ⟨w', hstep, inv'⟩

end Step

/-! ## Runs -/

def PoolWorld.initial (mem : Nat → Byte) (base size : Nat) : PoolWorld :=
  ⟨phyPoolInit mem base size, []⟩

theorem PoolInv.initial (mem : Nat → Byte) (base size : Nat) :
    PoolInv base size (PoolWorld.initial mem base size) :=
  ⟨rfl, rfl, List.nodup_nil, fun _ ha => absurd ha List.not_mem_nil⟩

/-- Over a well placed region, with frees that match, every run whose allocations find
room in the region and whose `free_pages` offsets avoid the bits of its start ends
without a panic. The pages handed out are distinct pages of the region, and a further
such free makes exactly its own pages allocatable. -/
theorem pool_runs {mem : Nat → Byte} {base size : Nat} {ops : List PoolOp}
    (placed : WellPlaced base size)
    (meets : Run.Meets poolStep (fun w op => Matching w op ∧ Fits base size w op)
      (PoolWorld.initial mem base size) ops) :
    ∃ w, Run.exec poolStep (PoolWorld.initial mem base size) ops = some w ∧ w.held.Nodup ∧
      (∀ a ∈ w.held, base ≤ a ∧ a + pageSize ≤ base + size) ∧
      ∀ op pages, op.freed = some pages → Matching w op → Fits base size w op →
        ∃ w', poolStep w op = some w' ∧ ∀ k, ¬w'.pool.btmp.Marked k ↔
            ¬w.pool.btmp.Marked k ∨ base + pageSize * k ∈ pages := by
  obtain ⟨w, run, inv⟩ := Run.total (PoolInv.initial mem base size) meets
    fun _ _ inv cond => inv.step placed cond.1 cond.2
  refine ⟨w, run, inv.nodup, ?_, ?_⟩
  · intro a ha
    obtain ⟨i, hi, rfl, -⟩ := inv.marked a ha
    have hend := pageSize_mul_le hi
    omega
  · intro op pages hfreed matching fits
    obtain ⟨w', hstep, -, cleared⟩ := inv.free placed hfreed matching fits
    exact ⟨w', hstep, cleared⟩

/-- The start of the region that the kernel registers. -/
def usableBase : Nat := 0x90000000a0000000

/-- Allocate, free and allocate again in a region of four pages. -/
def allocFreeAlloc : List PoolOp :=
  [.getPage, .getPages 2, .freePages (usableBase + 0x1000) 2, .freePage usableBase, .getPages 3]

theorem pool_runs_allocFreeAlloc :
    ∃ w, Run.exec poolStep (PoolWorld.initial (fun _ => 0) usableBase 0x4000) allocFreeAlloc =
        some w ∧ w.held.Nodup := by
  have placed : WellPlaced usableBase 0x4000 :=
    ⟨by decide, by decide, by decide, by decide⟩
  obtain ⟨w, run, nodup, -⟩ :=
    @pool_runs (fun _ => 0) _ _ allocFreeAlloc placed (by decide +kernel)
  exact ⟨w, run, nodup⟩

/-- A region of one page: the second allocation gets the page after it. -/
theorem getPage_outside_region :
    Run.Meets poolStep Matching (PoolWorld.initial (fun _ => 0) usableBase pageSize)
        [.getPage, .getPage] ∧
      ∃ w, Run.exec poolStep (PoolWorld.initial (fun _ => 0) usableBase pageSize)
          [.getPage, .getPage] = some w ∧
        ∃ a ∈ w.held, ¬(usableBase ≤ a ∧ a + pageSize ≤ usableBase + pageSize) := by
  refine ⟨by decide +kernel, ?_⟩
  have second : (Run.exec poolStep (PoolWorld.initial (fun _ => 0) usableBase pageSize)
      [.getPage, .getPage]).map PoolWorld.held =
        some [usableBase + pageSize, usableBase] := by
    decide +kernel
  obtain ⟨w, run, hheld⟩ := Option.map_eq_some_iff.mp second
  exact ⟨w, run, usableBase + pageSize, by simp [hheld], by decide⟩

end KernelTravel.Mm

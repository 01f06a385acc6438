import KernelTravel.Mm.PoolPages

/-!
# The kernel's page pool

`get_kernel_pge`, `get_kernel_pages` and `free_kernel_pge` of `mm/memory.c` hand out the low
memory from 0x6000 on. The bitmap of this pool and that of the users' pool lie in the memory
itself, at 0x2000 and at 0x3000, and `phy_pool_init` gives each of them a byte for every page
where a bit would do. So the first bitmap goes on to 0x9ffa, over the second one and over the
first four pages that the pool hands out. A page that is given back has its bit set, not
cleared.

The memory is seen through the kernel's window. What the owner of a page writes to it is not
modelled. An operation answers `none` where an `ASSERT` fails.
-/

namespace KernelTravel.Mm

/-- The memory, and the length of the bitmap of `phy_pool`. That of `reserve_phy_pool` is
fixed. -/
structure KernelPool where
  mem : Nat → Byte
  usrBytesLen : Nat

namespace KernelPool

/-- `reserve_phy_pool.btmp.btmp_bytes_len`. -/
def bytesLen : Nat := (0x8000000 - 0x6000) >>> 12

/-- `reserve_phy_pool.btmp.bits`. -/
def bits : Nat := 0x2000 ||| dmwBase

/-- `reserve_phy_pool.paddr_start`. -/
def paddrStart : Nat := 0x6000 ||| dmwBase

/-- `phy_pool.btmp.bits`. -/
def usrBits : Nat := 0x3000 ||| dmwBase

/-- `phy_pool_init`, for a memory region of `size` bytes. -/
def phyPoolInit (mem : Nat → Byte) (size : BitVec 64) : KernelPool where
  mem := Mem.blit mem bits bytesLen fun _ => 0
  usrBytesLen := size.toNat >>> 12

def btmp (s : KernelPool) : Bitmap := ⟨bytesLen, fun k => s.mem (bits + k)⟩

/-- The memory with the bytes of a changed bitmap. -/
def putBtmp (s : KernelPool) (b : Bitmap) : KernelPool :=
  { s with mem := fun a => if a < bits then s.mem a else b.bits (a - bits) }

/-- `memset` with 0. It takes 32 bits of the size. -/
def clear (s : KernelPool) (a size : Nat) : KernelPool :=
  { s with mem := Mem.blit s.mem a (size % 2 ^ 32) fun _ => 0 }

def getKernelPge (s : KernelPool) : Option (Nat × KernelPool) := do
  let off ← s.btmp.bitScan 1
  if off = -1 then return (0, s)
  else
    let btmp ← s.btmp.bitmapSet (Pool.bitOff off) true
    let page := (((Pool.bitOff off + 0x6) <<< 12) % 2 ^ 64) ||| dmwBase
    return (page, (s.putBtmp btmp).clear page pageSize)

def getKernelPages (s : KernelPool) (count : Nat) : Option (Nat × KernelPool) := do
  let off ← s.btmp.bitScan count
  if off = -1 then return (0, s)
  else
    let btmp ← s.btmp.bitmapSetRange true (Pool.bitOff off) count
    let page := (((Pool.bitOff off <<< 12) % 2 ^ 64 + paddrStart) % 2 ^ 64) ||| dmwBase
    return (page, (s.putBtmp btmp).clear page (pageSize * count))

/-- The bit of a page. -/
def pageBit (page : Nat) : Nat :=
  (((page &&& (2 ^ 64 - 1 - dmwBase)) >>> 12) + (2 ^ 64 - 0x6)) % 2 ^ 64

def freeKernelPge (s : KernelPool) (page : Nat) : Option KernelPool := do
  let btmp ← s.btmp.bitmapSet (pageBit page) true
  return (s.putBtmp btmp).clear page pageSize

end KernelPool

/-! ## Clients of the pool -/

inductive KernelPoolOp where
  | getKernelPge
  | getKernelPages (count : BitVec 64)
  | freeKernelPge (page : BitVec 64)

/-- The pool and the pages that are handed out. -/
structure KernelPages where
  pool : KernelPool
  held : List Nat

namespace KernelPages

/-- Book a successful allocation. -/
def take (w : KernelPages) (count : Nat) (r : Nat × KernelPool) : KernelPages :=
  { pool := r.2, held := if r.1 = 0 then w.held else pagesFrom r.1 count ++ w.held }

def step (w : KernelPages) : KernelPoolOp → Option KernelPages
  | .getKernelPge => w.pool.getKernelPge.map (w.take 1)
  | .getKernelPages count => (w.pool.getKernelPages count.toNat).map (w.take count.toNat)
  | .freeKernelPge page =>
    (w.pool.freeKernelPge page.toNat).map fun pool => ⟨pool, w.held.erase page.toNat⟩

/-- Only pages that are handed out are given back. -/
def Matching (w : KernelPages) : KernelPoolOp → Prop
  | .getKernelPge => True
  | .getKernelPages _ => True
  | .freeKernelPge page => page.toNat ∈ w.held

/-- No address is among the `n` from `a` on and among the `m` from `b` on. -/
def Apart (a n b m : Nat) : Prop := ∀ x, ¬((a ≤ x ∧ x < a + n) ∧ b ≤ x ∧ x < b + m)

/-- What is to hold of the pool and of the pages that are handed out. -/
structure Sound (w : KernelPages) : Prop where
  nodup : w.held.Nodup
  inside : ∀ page ∈ w.held, dmwBase + 0x6000 ≤ page ∧ page + pageSize ≤ dmwBase + 0x8000000
  bitmaps : Apart KernelPool.bits KernelPool.bytesLen KernelPool.usrBits w.pool.usrBytesLen
  bits : ∀ page ∈ w.held, Apart page pageSize KernelPool.bits KernelPool.bytesLen
  usrBits : ∀ page ∈ w.held, Apart page pageSize KernelPool.usrBits w.pool.usrBytesLen

/-- A page that is given back can be found again: its bit is clear. -/
def GivesBack (w : KernelPages) (op : KernelPoolOp) : Prop :=
  ∀ page w', op = .freeKernelPge page → w.step op = some w' →
    ¬w'.pool.btmp.Marked (KernelPool.pageBit page.toNat)

/-- Every state of the run is sound, and every page that is given back can be found again. -/
def Right (w : KernelPages) (ops : List KernelPoolOp) : Prop :=
  (∀ n t, Run.exec step w (ops.take n) = some t → t.Sound) ∧ Run.Meets step GivesBack w ops

/-- A request for no page, or for more than the bitmap has bits. -/
def HandsOutNothing : KernelPoolOp → Prop
  | .getKernelPge => False
  | .getKernelPages count => count.toNat = 0 ∨ KernelPool.bytesLen * 8 < count.toNat
  | .freeKernelPge _ => False

end KernelPages

/-! ## The searches in a clear bitmap -/

namespace Bitmap

variable {b : Bitmap}

/-- Among clear bits there is no run of length 0: the counter is compared after it is raised. -/
theorem scanRun_zero {left idx count : Nat} (hclear : ∀ i, idx ≤ i → i < idx + left → ¬b.Marked i) :
    b.scanRun 0 left idx count = -1 := by
  induction left generalizing idx count with
  | zero => rfl
  | succ left ih =>
    rw [scanRun]
    simp only [(bitScanTest_eq_zero b idx).mpr (hclear idx (Nat.le_refl _) (by omega)), if_true]
    rw [if_neg (Nat.succ_ne_zero count)]
    exact ih fun i hi hlt => hclear i (by omega) (by omega)

theorem bitScan_mod (b : Bitmap) (cnt : Nat) : b.bitScan cnt = b.bitScan (cnt % 2 ^ 32) := by
  rw [bitScan, bitScan, Nat.mod_mod]

/-- A loop that goes on behind the end of the bitmap fails. -/
theorem bitmapSetRange_none {value : Bool} {i count : Nat} (hi : i ≤ b.btmpBytesLen * 8 + 1)
    (hend : b.btmpBytesLen * 8 + 1 < i + count) (h32 : b.btmpBytesLen * 8 + 1 < 2 ^ 32) :
    b.bitmapSetRange value i count = none := by
  induction count generalizing b i with
  | zero => omega
  | succ count ih =>
    rw [bitmapSetRange]
    rcases Nat.lt_or_ge (b.btmpBytesLen * 8) i with hout | hin
    · rw [bitmapSet, Nat.mod_eq_of_lt (by omega), if_neg (by omega)]
      rfl
    · obtain ⟨b', hset, hlen, -⟩ := bitmapSet_spec (b := b) (i := i) hin (by omega) value
      rw [hset]
      exact ih (by omega) (by omega) (by omega)

/-- In a clear bitmap the first bits are found, unless there are too few or none is wanted. -/
theorem bitScan_clear (hpos : 0 < b.btmpBytesLen) (hlen : b.btmpBytesLen < 2 ^ 28)
    (hclear : ∀ i < b.btmpBytesLen * 8, ¬b.Marked i) {cnt : Nat} (hcnt : cnt < 2 ^ 32) :
    b.bitScan cnt = some (if cnt = 0 ∨ b.btmpBytesLen * 8 < cnt then -1 else 0) := by
  rcases Nat.eq_zero_or_pos cnt with rfl | hcount
  · have hskip : b.skipFull b.btmpBytesLen 0 = 0 :=
      Nat.le_zero.mp (skipFull_le (hclear 0 (by omega)))
    rw [bitScan, hskip, if_pos ⟨hlen, hpos⟩, if_pos (.inl rfl)]
    refine congrArg some (scanRun_zero fun i _ hlt => hclear i ?_)
    omega
  · split
    next hnone =>
      obtain ⟨off, hscan⟩ := bitScan_isSome hlen (i := 0) (by omega) (hclear 0 (by omega)) cnt
      rw [hscan]
      rcases (bitScan_sound hcount hcnt hscan).2 with hoff | ⟨i, -, hbound, -⟩
      · rw [hoff]
      · omega
    next hsome =>
      have hrun : b.ClearRun 0 cnt := fun k hk => hclear (0 + k) (by omega)
      obtain ⟨found, hscan, hle, -⟩ := bitScan_spec hcount hlen (by omega) hrun
      rw [hscan, Nat.le_zero.mp hle]
      rfl

end Bitmap

/-! ## The first page -/

namespace KernelPool

variable {s : KernelPool}

theorem or_dmwBase_add {x : Nat} (h : x < 2 ^ 60) : x ||| dmwBase = dmwBase + x := by
  rw [Nat.or_comm]
  exact (Nat.two_pow_add_eq_or_of_lt h 9).symm

/-- The two formulas for the address of a page agree. -/
theorem page_formulas {off : Nat} (h : off < 2 ^ 40) : (((off + 0x6) <<< 12) % 2 ^ 64) ||| dmwBase =
      (((off <<< 12) % 2 ^ 64 + paddrStart) % 2 ^ 64) ||| dmwBase := by
  have hstart : paddrStart = dmwBase + 0x6000 := or_dmwBase_add (by decide)
  have hleft : ((off + 0x6) <<< 12) % 2 ^ 64 = off * 4096 + 0x6000 := by
    rw [Nat.shiftLeft_eq]
    omega
  have hright : ((off <<< 12) % 2 ^ 64 + paddrStart) % 2 ^ 64 =
      dmwBase + (off * 4096 + 0x6000) := by
    rw [Nat.shiftLeft_eq, hstart]
    unfold dmwBase
    omega
  rw [hleft, hright, or_dmwBase (Nat.le_add_right _ _) (by omega), or_dmwBase_add (by omega)]

theorem getKernelPge_eq (s : KernelPool) : s.getKernelPge = s.getKernelPages 1 := by
  rw [getKernelPge, getKernelPages]
  refine Option.bind_congr fun off hscan => ?_
  by_cases hne : off = -1
  · rw [if_pos hne, if_pos hne]
  · obtain ⟨hlen, hminus | ⟨i, hi, hbound, -⟩⟩ := Bitmap.bitScan_sound Nat.one_pos (by decide) hscan
    · exact absurd hminus hne
    · have hoff : Pool.bitOff off = i := by
        rw [Pool.bitOff, hi]
        omega
      have hone : s.btmp.bitmapSetRange true i 1 = s.btmp.bitmapSet i true := by
        rw [Bitmap.bitmapSetRange]
        cases s.btmp.bitmapSet i true <;> rfl
      rw [if_neg hne, if_neg hne, hoff, page_formulas (by omega), hone, Nat.mul_one]

/-- The bitmap is clear. -/
def Clear (s : KernelPool) : Prop := ∀ i < bytesLen * 8, ¬s.btmp.Marked i

theorem clear_phyPoolInit (mem : Nat → Byte) (size : BitVec 64) : (phyPoolInit mem size).Clear := by
  intro i hi
  have hbyte : (phyPoolInit mem size).btmp.bits (i / 8) = 0#8 := by
    change Mem.blit mem bits bytesLen (fun _ => 0) (bits + i / 8) = 0#8
    rw [Mem.blit_apply, if_pos (by omega)]
    rfl
  rw [Bitmap.Marked, hbyte, BitVec.getLsbD_zero]
  exact Bool.false_ne_true

/-- What a request gets from a clear bitmap: the pages from the first one on, or nothing. One that
does not fit 32 bits may run over the end of the bitmap. -/
theorem Clear.getKernelPages (clear : s.Clear) (count : Nat) :
    (count = 0 ∨ bytesLen * 8 < count) ∧
    (s.getKernelPages count = some (0, s) ∨ s.getKernelPages count = none) ∨
      ¬(count = 0 ∨ bytesLen * 8 < count) ∧
        ∃ s', s.getKernelPages count = some (paddrStart, s') := by
  have hlen : s.btmp.btmpBytesLen = 0x7ffa := rfl
  have hbytes : bytesLen = 0x7ffa := rfl
  have hscan : s.btmp.bitScan count =
      some (if count % 2 ^ 32 = 0 ∨ bytesLen * 8 < count % 2 ^ 32 then -1 else 0) := by
    rw [Bitmap.bitScan_mod]
    exact Bitmap.bitScan_clear (b := s.btmp) (by omega) (by omega) clear (Nat.mod_lt _ (by decide))
  rw [KernelPool.getKernelPages, hscan]
  by_cases hnone : count % 2 ^ 32 = 0 ∨ bytesLen * 8 < count % 2 ^ 32
  · rw [if_pos hnone]
    exact .inl ⟨by omega, .inl rfl⟩
  · rw [if_neg hnone]
    rcases Nat.lt_or_ge (bytesLen * 8) count with hlarge | hsmall
    · refine .inl ⟨.inr hlarge, .inr ?_⟩
      have hrange : s.btmp.bitmapSetRange true 0 count = none :=
        Bitmap.bitmapSetRange_none (Nat.zero_le _) (by omega) (by omega)
      change (s.btmp.bitmapSetRange true 0 count).bind _ = none
      rw [hrange]
      rfl
    · have hbound : 0 + count ≤ s.btmp.btmpBytesLen * 8 := by omega
      obtain ⟨b, hset, -⟩ := Bitmap.bitmapSetRange_spec hbound (by omega) true
      refine .inr ⟨by omega, (s.putBtmp b).clear paddrStart (pageSize * count), ?_⟩
      change (s.btmp.bitmapSetRange true 0 count).bind _ = _
      rw [hset]
      rfl

/-! ## Pages that are given back -/

theorem and_not_dmwBase {y : Nat} (h : y < 2 ^ 60) :
    (dmwBase + y) &&& (2 ^ 64 - 1 - dmwBase) = y := by
  rw [show dmwBase + y = 2 ^ 60 * 9 + y from rfl, show 2 ^ 64 - 1 - dmwBase =
    2 ^ 60 * 6 + (2 ^ 60 - 1) by decide]
  apply Nat.eq_of_testBit_eq
  intro k
  rw [Nat.testBit_and, Nat.testBit_two_pow_mul_add 9 h, Nat.testBit_two_pow_mul_add 6 (by decide)]
  by_cases hk : k < 60
  · rw [if_pos hk, if_pos hk, Nat.testBit_two_pow_sub_one, decide_eq_true hk, Bool.and_true]
  · have hhigh : y.testBit k = false :=
      Nat.testBit_lt_two_pow (Nat.lt_of_lt_of_le h (Nat.pow_le_pow_right (by decide) (by omega)))
    -- 9 and 6 have no bit in common
    rw [if_neg hk, if_neg hk, hhigh, ← Nat.testBit_and, show 9 &&& 6 = 0 from rfl, Nat.zero_testBit]

theorem pageBit_page {i : Nat} (hi : i < bytesLen * 8) :
    pageBit (dmwBase + (0x6000 + pageSize * i)) = i := by
  have hlen : bytesLen = 0x7ffa := rfl
  unfold pageSize
  rw [pageBit, and_not_dmwBase (by omega), Nat.shiftRight_eq_div_pow]
  omega

/-- The bit of a page that is given back is set. The page is cleared after that, but it lies
behind the byte of its bit. -/
theorem freeKernelPge_marked {i : Nat} (hi : i < bytesLen * 8) {s' : KernelPool}
    (h : s.freeKernelPge (dmwBase + (0x6000 + pageSize * i)) = some s') : s'.btmp.Marked i := by
  have hlen : bytesLen = 0x7ffa := rfl
  have hbits : bits = dmwBase + 0x2000 := or_dmwBase_add (by decide)
  obtain ⟨b, hset, -, hmarked⟩ :=
    Bitmap.bitmapSet_spec (b := s.btmp) (i := i) (Nat.le_of_lt hi) (by omega) true
  rw [freeKernelPge, pageBit_page hi, hset] at h
  obtain rfl := Option.some.inj h
  have hbyte : (((s.putBtmp b).clear (dmwBase + (0x6000 + pageSize * i)) pageSize).btmp).bits
    (i / 8) =
      b.bits (i / 8) := by
    rw [btmp, clear, putBtmp]
    dsimp only
    rw [Mem.blit_apply, if_neg (by unfold pageSize; omega), if_neg (by omega),
      Nat.add_sub_cancel_left]
  rw [Bitmap.Marked, hbyte]
  exact (hmarked i).mpr (by rw [if_pos rfl])

end KernelPool

namespace KernelPages

variable {w w' : KernelPages} {op : KernelPoolOp}

/-- No page of the pool is found again. -/
theorem not_givesBack {i : Nat} (hi : i < KernelPool.bytesLen * 8) {page : BitVec 64}
    (hpage : page.toNat = dmwBase + (0x6000 + pageSize * i))
    (hstep : w.step (.freeKernelPge page) = some w') : ¬w.GivesBack (.freeKernelPge page) := by
  intro hgives
  refine hgives page w' rfl hstep ?_
  rw [step] at hstep
  obtain ⟨pool, hfree, rfl⟩ := Option.map_eq_some_iff.mp hstep
  rw [hpage] at hfree ⊢
  rw [KernelPool.pageBit_page hi]
  exact KernelPool.freeKernelPge_marked hi hfree

/-- Nothing is handed out. -/
structure Fresh (w : KernelPages) : Prop where
  clear : w.pool.Clear
  held : w.held = []

theorem fresh_init (mem : Nat → Byte) (size : BitVec 64) : Fresh ⟨.phyPoolInit mem size, []⟩ :=
  ⟨KernelPool.clear_phyPoolInit mem size, rfl⟩

/-- Without a page that is handed out, all that matters is whether the bitmaps overlap. -/
theorem Fresh.sound_iff (fresh : w.Fresh) : w.Sound ↔ w.pool.usrBytesLen = 0 := by
  have hbits : KernelPool.bits = dmwBase + 0x2000 := KernelPool.or_dmwBase_add (by decide)
  have husr : KernelPool.usrBits = dmwBase + 0x3000 := KernelPool.or_dmwBase_add (by decide)
  have hlen : KernelPool.bytesLen = 0x7ffa := rfl
  constructor
  · intro sound
    by_contra hpos
    exact sound.bitmaps (dmwBase + 0x3000) (by omega)
  · intro hzero
    refine ⟨?_, ?_, fun x hx => by omega, ?_, ?_⟩ <;> rw [fresh.held]
    · exact List.nodup_nil
    all_goals exact fun page hpage => absurd hpage List.not_mem_nil

/-- The first page lies over the bitmap. -/
theorem not_sound_of_mem (h : KernelPool.paddrStart ∈ w.held) : ¬w.Sound := by
  have hbits : KernelPool.bits = dmwBase + 0x2000 := KernelPool.or_dmwBase_add (by decide)
  have hstart : KernelPool.paddrStart = dmwBase + 0x6000 := KernelPool.or_dmwBase_add (by decide)
  have hlen : KernelPool.bytesLen = 0x7ffa := rfl
  intro sound
  refine sound.bits _ h (dmwBase + 0x6000) ?_
  unfold pageSize
  omega

/-- A request that hands out nothing leaves all as it is, and any other one hands out the first
page. -/
theorem Fresh.getKernelPages (fresh : w.Fresh) (count : Nat) :
    (count = 0 ∨ KernelPool.bytesLen * 8 < count) ∧
        (∀ w', (w.pool.getKernelPages count).map (w.take count) = some w' → w' = w) ∨
      ¬(count = 0 ∨ KernelPool.bytesLen * 8 < count) ∧
        ∃ w', (w.pool.getKernelPages count).map (w.take count) = some w' ∧
        KernelPool.paddrStart ∈ w'.held := by
  rcases fresh.clear.getKernelPages count with ⟨hnothing, hget⟩ | ⟨hsome, s', hget⟩
  · refine .inl ⟨hnothing, fun w' hstep => ?_⟩
    rcases hget with hget | hget <;> rw [hget] at hstep
    · exact (Option.some.inj hstep).symm
    · cases hstep
  · refine .inr ⟨hsome, w.take count (KernelPool.paddrStart, s'), by rw [hget]; rfl, ?_⟩
    have hne : KernelPool.paddrStart ≠ 0 := by decide
    rw [take, if_neg hne]
    exact List.mem_append_left _ (mem_pagesFrom.mpr ⟨0, by omega, (Nat.add_zero _).symm⟩)

theorem Fresh.step_cases (fresh : w.Fresh) (matching : w.Matching op) :
    HandsOutNothing op ∧ (∀ w', w.step op = some w' → w' = w) ∨
      ¬HandsOutNothing op ∧ ∃ w', w.step op = some w' ∧ KernelPool.paddrStart ∈ w'.held := by
  cases op with
  | getKernelPge =>
    rw [step, KernelPool.getKernelPge_eq]
    rcases fresh.getKernelPages 1 with ⟨hnothing, -⟩ | ⟨-, hfirst⟩
    · exact absurd hnothing (by decide)
    · exact .inr ⟨id, hfirst⟩
  | getKernelPages count => exact fresh.getKernelPages count.toNat
  | freeKernelPge page =>
    rw [Matching, fresh.held] at matching
    exact absurd matching List.not_mem_nil

theorem HandsOutNothing.givesBack (h : HandsOutNothing op) : w.GivesBack op := by
  rintro page w' rfl -
  exact h.elim

/-- A run from a state without pages is right if it stays without pages. -/
theorem right_of_fresh_iff {ops : List KernelPoolOp} (fresh : w.Fresh)
    (matching : Run.Meets step Matching w ops) :
    w.Right ops ↔ w.pool.usrBytesLen = 0 ∧ Run.Meets step (fun _ => HandsOutNothing) w ops := by
  induction ops with
  | nil =>
    rw [← fresh.sound_iff]
    refine ⟨fun h => ⟨h.1 0 w rfl, trivial⟩, fun h => ⟨fun n t run => ?_, trivial⟩⟩
    rw [List.take_nil] at run
    obtain rfl := Option.some.inj run
    exact h.1
  | cons op ops ih =>
    rw [Right, Run.forall_take_cons, fresh.sound_iff, Run.Meets, Run.Meets]
    rcases fresh.step_cases matching.1 with ⟨hnothing, hsame⟩ | ⟨hsome, w', hstep, hfirst⟩
    · -- the state is the same for the rest of the run
      constructor
      · rintro ⟨⟨husr, hsound⟩, -, hgives⟩
        refine ⟨husr, hnothing, fun w' hstep => ?_⟩
        obtain rfl := hsame w' hstep
        exact ((ih (matching.2 w' hstep)).mp ⟨hsound w' hstep, hgives w' hstep⟩).2
      · rintro ⟨husr, -, hmeets⟩
        have hrest : ∀ w', w.step op = some w' → w'.Right ops := by
          intro w' hstep
          obtain rfl := hsame w' hstep
          exact (ih (matching.2 w' hstep)).mpr ⟨husr, hmeets w' hstep⟩
        exact ⟨⟨husr, fun w' hstep => (hrest w' hstep).1⟩, hnothing.givesBack,
          fun w' hstep => (hrest w' hstep).2⟩
    · constructor
      · rintro ⟨⟨-, hsound⟩, -⟩
        exact absurd (hsound w' hstep 0 w' rfl) (not_sound_of_mem hfirst)
      · rintro ⟨-, hnothing, -⟩
        exact absurd hnothing hsome

/-- When the kernel's pool is right: without a bitmap of the other pool, and as long as no page
is handed out. -/
theorem right_iff_handsOutNothing (mem : Nat → Byte) (size : BitVec 64) (ops : List KernelPoolOp)
    (matching : Run.Meets step Matching ⟨.phyPoolInit mem size, []⟩ ops) :
    Right ⟨.phyPoolInit mem size, []⟩ ops ↔
      size.toNat < pageSize ∧
      Run.Meets step (fun _ => HandsOutNothing) ⟨.phyPoolInit mem size, []⟩ ops := by
  have hsize : size.toNat >>> 12 = 0 ↔ size.toNat < pageSize := by
    rw [Nat.shiftRight_eq_div_pow]
    unfold pageSize
    omega
  rw [← hsize]
  exact right_of_fresh_iff (fresh_init mem size) matching

/-- Half a page and a request for nothing, and the region that is added at boot. -/
theorem right_iff_handsOutNothing_boot :
    Right ⟨.phyPoolInit (fun _ => 0) 0x800, []⟩ [.getKernelPages 0] ∧
      ¬Right ⟨.phyPoolInit (fun _ => 0) 0x30000000, []⟩ [] := by
  constructor
  · exact (right_iff_handsOutNothing _ 0x800 [.getKernelPages 0] ⟨trivial, fun _ _ => trivial⟩).mpr
      ⟨by decide, .inl rfl, fun _ _ => trivial⟩
  · intro right
    exact absurd ((right_iff_handsOutNothing _ 0x30000000 [] trivial).mp right).1 (by decide)

/-- At boot the bitmaps overlap, and the first page, at 0x6000, lies over the bitmap of the
pool. Given back, it is not found again. -/
theorem boot_overlaps : ¬Right ⟨.phyPoolInit (fun _ => 0) 0x30000000, []⟩ [.getKernelPge] ∧
      ¬Apart KernelPool.bits KernelPool.bytesLen KernelPool.usrBits (0x30000000 >>> 12) ∧
      ¬Apart KernelPool.paddrStart pageSize KernelPool.bits KernelPool.bytesLen ∧
      ∀ w w' : KernelPages, w.step (.freeKernelPge 0x9000000000006000) = some w' →
        ¬w.GivesBack (.freeKernelPge 0x9000000000006000) := by
  have hfresh := fresh_init (fun _ => 0) 0x30000000
  refine ⟨fun h => ?_, fun h => h (dmwBase + 0x3000) (by decide),
    fun h => h (dmwBase + 0x6000) (by decide), ?_⟩
  · exact absurd (hfresh.sound_iff.mp (h.1 0 _ rfl)) (by decide)
  · exact fun w w' hstep => not_givesBack (i := 0) (by decide) rfl hstep

end KernelPages

end KernelTravel.Mm

import KernelTravel.Mm.Pool
import Mathlib.Order.Interval.Finset.Nat

/-!
# The pages that the pool has handed out

What `get_page`, `get_pages` and the two frees do to the set of allocated pages, in every
state of the bitmap. The bits of the pool are twice read as pages: by their number, and by
the address of the page they stand for. Where the pool lies in the kernel's window the two
determine each other.
-/

namespace KernelTravel.Mm

namespace Bitmap

variable {b : Bitmap}

/-- The byte at which the first loop stops is not full. -/
theorem skipFull_stops (left byte : Nat) (h : b.skipFull left byte < byte + left) :
    b.bits (b.skipFull left byte) ≠ 0xff#8 := by
  induction left generalizing byte with
  | zero => simp [skipFull] at h
  | succ left ih =>
    rw [skipFull] at h ⊢
    split
    next full =>
      rw [if_pos full] at h
      exact ih (byte + 1) (by omega)
    next hstop => exact hstop

/-- A search for one bit that gets past the assertion finds one. -/
theorem bitScan_one {off : Int} (h : b.bitScan 1 = some off) : off ≠ -1 := by
  simp only [bitScan] at h
  split at h
  next hbyte =>
    obtain ⟨k, hk, hclear⟩ := exists_clear_of_ne_full
      (skipFull_stops b.btmpBytesLen 0 (by simpa using hbyte.2))
    have run : b.ClearRun (b.skipFull b.btmpBytesLen 0 * 8 + k) 1 := by
      intro l hl
      rw [Nat.lt_one_iff.mp hl, Nat.add_zero]
      exact hclear
    obtain ⟨found, hfound, -⟩ := scanRun_spec Nat.one_pos run
      (b.btmpBytesLen * 8 - b.skipFull b.btmpBytesLen 0 * 8) (b.skipFull b.btmpBytesLen 0 * 8) 0
      (by omega) (by omega) Nat.one_pos (by omega) (fun k hk => absurd hk (by omega)) (by omega)
    have heq := Option.some.inj h
    rw [show 1 % 2 ^ 32 = 1 from rfl, hfound] at heq
    omega
  next => cases h

end Bitmap

namespace Pool

/-- The address is that of a page whose bit is set. -/
def Held (p : Pool) (a : Nat) : Prop :=
  ∃ i < p.btmp.btmpBytesLen * 8, p.btmp.Marked i ∧ a = p.page i

/-- The bits of the allocated pages. -/
def allocated (p : Pool) : Finset Nat :=
  (Finset.range (p.btmp.btmpBytesLen * 8)).filter p.btmp.Marked

/-- The pages that the bits stand for lie in the kernel's window. -/
structure Placed (p : Pool) : Prop where
  aligned : p.paddrStart % pageSize = 0
  lower : dmwBase ≤ p.paddrStart
  upper : p.paddrStart + pageSize * (p.btmp.btmpBytesLen * 8) ≤ dmwBase + 2 ^ 60

variable {p p' : Pool}

theorem mem_allocated {i : Nat} :
    i ∈ p.allocated ↔ i < p.btmp.btmpBytesLen * 8 ∧ p.btmp.Marked i := by
  simp [allocated]

theorem Placed.page_eq (placed : p.Placed) {i : Nat} (hi : i < p.btmp.btmpBytesLen * 8) :
    p.page i = p.paddrStart + pageSize * i := by
  obtain ⟨-, lower, upper⟩ := placed
  have hshift : i <<< 12 = pageSize * i := by rw [Nat.shiftLeft_eq, Nat.mul_comm]; rfl
  have small : (i <<< 12 % 2 ^ 64 + p.paddrStart) % 2 ^ 64 = p.paddrStart + pageSize * i := by
    rw [hshift]
    unfold pageSize dmwBase at *
    omega
  rw [page, small]
  exact or_dmwBase (by omega) (by unfold pageSize at *; omega)

theorem Placed.page_inj (placed : p.Placed) {i j : Nat} (hi : i < p.btmp.btmpBytesLen * 8)
    (hj : j < p.btmp.btmpBytesLen * 8) (h : p.page i = p.page j) : i = j := by
  rw [placed.page_eq hi, placed.page_eq hj] at h
  unfold pageSize at h
  omega

theorem Placed.held_aligned (placed : p.Placed) {a : Nat} (held : p.Held a) :
    a % pageSize = 0 ∧ dmwBase ≤ a ∧ a < dmwBase + 2 ^ 60 := by
  obtain ⟨i, hi, -, rfl⟩ := held
  rw [placed.page_eq hi]
  obtain ⟨aligned, lower, upper⟩ := placed
  unfold pageSize at *
  omega

theorem Placed.held_ne_zero (placed : p.Placed) {a : Nat} (held : p.Held a) : a ≠ 0 := by
  have := (placed.held_aligned held).2.1
  unfold dmwBase at this
  omega

/-- Two pools over the same pages. -/
def SameRegion (p p' : Pool) : Prop :=
  p'.paddrStart = p.paddrStart ∧ p'.btmp.btmpBytesLen = p.btmp.btmpBytesLen

theorem SameRegion.trans {p'' : Pool} (h : SameRegion p p') (h' : SameRegion p' p'') :
    SameRegion p p'' := ⟨h'.1.trans h.1, h'.2.trans h.2⟩

theorem SameRegion.page (h : SameRegion p p') (i : Nat) : p'.page i = p.page i := by
  rw [Pool.page, Pool.page, h.1]

theorem SameRegion.placed (h : SameRegion p p') (placed : p.Placed) : p'.Placed := by
  obtain ⟨aligned, lower, upper⟩ := placed
  exact ⟨h.1 ▸ aligned, h.1 ▸ lower, by rw [h.1, h.2]; exact upper⟩

/-- `count` pages from bit `i` on were clear and are now set. -/
structure Taken (p : Pool) (i count : Nat) (p' : Pool) : Prop where
  region : SameRegion p p'
  bound : i + count ≤ p.btmp.btmpBytesLen * 8
  clear : p.btmp.ClearRun i count
  marked : ∀ j, p'.btmp.Marked j ↔ i ≤ j ∧ j < i + count ∨ p.btmp.Marked j

/-- The search found the bit `i`. -/
theorem getPages_found {i count a : Nat} (hlen : p.btmp.btmpBytesLen < 2 ^ 28)
    (hbound : i + count ≤ p.btmp.btmpBytesLen * 8) (clear : p.btmp.ClearRun i count)
    (hscan : p.btmp.bitScan count = some (i : Int)) (h : p.getPages count = some (a, p')) :
    a = p.page i ∧ p.Taken i count p' := by
  have hne : (i : Int) ≠ -1 := by omega
  have hbit : bitOff (i : Int) = i := by
    unfold bitOff
    omega
  obtain ⟨btmp, hset, hlen', hmarked⟩ := Bitmap.bitmapSetRange_spec (b := p.btmp) (i := i)
    hbound (by omega) true
  have hget : p.getPages count = some (p.page i, { p with btmp }) := by
    simp [getPages, hscan, hne, hbit, hset]
  cases hget.symm.trans h
  refine ⟨rfl, ⟨rfl, hlen'⟩, hbound, clear, ?_⟩
  intro j
  rw [hmarked]
  by_cases hj : i ≤ j ∧ j < i + count <;> simp [hj]

theorem getPages_taken {count a : Nat} (hpos : 0 < count) (hcount : count < 2 ^ 32)
    (h : p.getPages count = some (a, p')) :
    a = 0 ∧ p' = p ∨ ∃ i, a = p.page i ∧ p.Taken i count p' := by
  obtain ⟨off, hscan, hrest⟩ := Option.bind_eq_some_iff.mp h
  obtain ⟨hlen, rfl | ⟨i, rfl, hbound, clear⟩⟩ := Bitmap.bitScan_sound hpos hcount hscan
  · cases hrest
    exact .inl ⟨rfl, rfl⟩
  · exact .inr ⟨i, getPages_found hlen hbound clear hscan h⟩

/-- `get_page` either panics or answers a page that was free. -/
theorem getPage_taken {a : Nat} (h : p.getPage = some (a, p')) :
    p.btmp.btmpBytesLen < 2 ^ 28 ∧ ∃ i, a = p.page i ∧ p.Taken i 1 p' := by
  obtain ⟨off, hscan, -⟩ := Option.bind_eq_some_iff.mp h
  obtain ⟨hlen, rfl | ⟨i, rfl, hbound, clear⟩⟩ :=
    Bitmap.bitScan_sound Nat.one_pos (by decide) hscan
  · exact absurd rfl (Bitmap.bitScan_one hscan)
  · rw [getPage_eq] at h
    exact ⟨hlen, i, getPages_found hlen hbound clear hscan h⟩

/-- There are `n` free pages in a row. -/
def Roomy (p : Pool) (n : Nat) : Prop :=
  p.btmp.btmpBytesLen < 2 ^ 28 ∧
    ∃ start, start + n ≤ p.btmp.btmpBytesLen * 8 ∧ p.btmp.ClearRun start n

/-- First fit takes nothing behind the front of a clear run. -/
theorem Roomy.getPages {count n : Nat} (roomy : p.Roomy (count + n)) (hpos : 0 < count) :
    ∃ i p', p.getPages count = some (p.page i, p') ∧ p.Taken i count p' ∧ p'.Roomy n := by
  obtain ⟨hlen, start, hbound, run⟩ := roomy
  obtain ⟨i, hscan, hle, hrun⟩ := Bitmap.bitScan_spec hpos hlen (by omega : start + count ≤ _)
    fun k hk => run k (by omega)
  obtain ⟨btmp, hset, -⟩ := @Bitmap.bitmapSetRange_spec p.btmp i count (by omega) (by omega) true
  have hne : (i : Int) ≠ -1 := by omega
  have hbit : bitOff (i : Int) = i := by
    unfold bitOff
    omega
  have hget : p.getPages count = some (p.page i, { p with btmp }) := by
    simp [Pool.getPages, hscan, hne, hbit, hset]
  have taken := (getPages_found hlen (by omega) hrun hscan hget).2
  refine ⟨i, _, hget, taken, taken.region.2 ▸ hlen, start + count, ?_, ?_⟩
  · rw [taken.region.2]
    omega
  · intro k hk
    rw [taken.marked]
    rintro (h | h)
    · omega
    · exact run (count + k) (by omega) (by rwa [← Nat.add_assoc])

theorem Roomy.getPage {n : Nat} (roomy : p.Roomy (n + 1)) :
    ∃ a p', p.getPage = some (a, p') ∧ p.SameRegion p' ∧ p'.Roomy n := by
  rw [Nat.add_comm] at roomy
  obtain ⟨i, p', hget, taken, roomy'⟩ := roomy.getPages Nat.one_pos
  exact ⟨_, p', by rw [getPage_eq, hget], taken.region, roomy'⟩

theorem Roomy.mono {m n : Nat} (roomy : p.Roomy n) (hm : m ≤ n) : p.Roomy m := by
  obtain ⟨hlen, start, hbound, run⟩ := roomy
  exact ⟨hlen, start, by omega, fun k hk => run k (by omega)⟩

namespace Taken

variable {i count : Nat}

theorem held_mono (taken : p.Taken i count p') {a : Nat} (held : p.Held a) : p'.Held a := by
  obtain ⟨j, hj, hmarked, rfl⟩ := held
  exact ⟨j, taken.region.2 ▸ hj, (taken.marked j).mpr (.inr hmarked), (taken.region.page j).symm⟩

theorem held (taken : p.Taken i count p') {k : Nat} (hk : k < count) :
    p'.Held (p.page (i + k)) := by
  have hbound := taken.bound
  refine ⟨i + k, by rw [taken.region.2]; omega, (taken.marked _).mpr (.inl (by omega)), ?_⟩
  exact (taken.region.page _).symm

/-- A new page was not handed out before. -/
theorem not_held (taken : p.Taken i count p') (placed : p.Placed) {k : Nat} (hk : k < count) :
    ¬p.Held (p.page (i + k)) := by
  rintro ⟨j, hj, hmarked, heq⟩
  have hbound := taken.bound
  rw [← placed.page_inj (by omega) hj heq] at hmarked
  exact taken.clear k hk hmarked

theorem allocated_eq (taken : p.Taken i count p') :
    p'.allocated = p.allocated ∪ Finset.Ico i (i + count) := by
  have hbound := taken.bound
  ext j
  rw [mem_allocated, taken.region.2, taken.marked, Finset.mem_union, mem_allocated, Finset.mem_Ico]
  constructor
  · rintro ⟨hj, hnew | hold⟩
    · exact .inr hnew
    · exact .inl ⟨hj, hold⟩
  · rintro (⟨hj, hold⟩ | hnew)
    · exact ⟨hj, .inr hold⟩
    · exact ⟨by omega, .inl hnew⟩

theorem card_allocated (taken : p.Taken i count p') :
    p'.allocated.card = p.allocated.card + count := by
  rw [taken.allocated_eq, Finset.card_union_of_disjoint, Nat.card_Ico, Nat.add_sub_cancel_left]
  rw [Finset.disjoint_left]
  intro j hold hnew
  rw [Finset.mem_Ico] at hnew
  have hclear := taken.clear (j - i) (by omega)
  rw [Nat.add_sub_cancel' hnew.1] at hclear
  exact hclear (mem_allocated.mp hold).2

end Taken

end Pool

/-! ## Frees -/

namespace Bitmap

theorem bitmapSet_marked {b b' : Bitmap} {idx : Nat} {value : Bool}
    (h : b.bitmapSet idx value = some b') : b'.btmpBytesLen = b.btmpBytesLen ∧
      ∀ j, b'.Marked j ↔ if j = idx % 2 ^ 32 then value = true else b.Marked j := by
  have hidx : idx % 2 ^ 32 < 2 ^ 32 := Nat.mod_lt _ (by decide)
  have hbound : idx % 2 ^ 32 ≤ b.btmpBytesLen * 8 := by
    by_contra hlong
    rw [bitmapSet, if_neg hlong] at h
    cases h
  obtain ⟨b'', hset, hlen, hmarked⟩ := bitmapSet_spec hbound hidx value
  have heq : b.bitmapSet (idx % 2 ^ 32) value = b.bitmapSet idx value := by
    simp only [bitmapSet, Nat.mod_mod]
  cases (heq.symm.trans hset).symm.trans h
  exact ⟨hlen, hmarked⟩

/-- Clearing `count` bits clears no more than that. -/
theorem bitmapSetRange_clears {b b' : Bitmap} {idx count : Nat}
    (h : b.bitmapSetRange false idx count = some b') : b'.btmpBytesLen = b.btmpBytesLen ∧
      ∃ cleared : Finset Nat, cleared.card ≤ count ∧
        ∀ j, b'.Marked j ↔ b.Marked j ∧ j ∉ cleared := by
  induction count generalizing b idx with
  | zero =>
    cases h
    exact ⟨rfl, ∅, Nat.le_refl _, by simp⟩
  | succ count ih =>
    obtain ⟨b₁, hset, hrest⟩ := Option.bind_eq_some_iff.mp h
    obtain ⟨hlen₁, hmarked₁⟩ := bitmapSet_marked hset
    obtain ⟨hlen, cleared, hcard, hmarked⟩ := ih hrest
    refine ⟨hlen.trans hlen₁, insert (idx % 2 ^ 32) cleared, ?_, ?_⟩
    · exact (Finset.card_insert_le _ _).trans (Nat.succ_le_succ hcard)
    · intro j
      rw [hmarked, hmarked₁, Finset.mem_insert, not_or]
      by_cases hj : j = idx % 2 ^ 32
      · simp [hj]
      · rw [if_neg hj, and_iff_right hj]

/-- Setting bits clears none. -/
theorem bitmapSetRange_sets {b b' : Bitmap} {idx count : Nat}
    (h : b.bitmapSetRange true idx count = some b') : b'.btmpBytesLen = b.btmpBytesLen ∧
      (∀ j, b.Marked j → b'.Marked j) ∧ ∀ k < count, (idx + k) % 2 ^ 32 ≤ b.btmpBytesLen * 8 := by
  induction count generalizing b idx with
  | zero =>
    cases h
    exact ⟨rfl, fun _ h => h, fun k hk => absurd hk (Nat.not_lt_zero k)⟩
  | succ count ih =>
    obtain ⟨b₁, hset, hrest⟩ := Option.bind_eq_some_iff.mp h
    obtain ⟨hlen₁, hmarked₁⟩ := bitmapSet_marked hset
    obtain ⟨hlen, hmarked, hbound⟩ := ih hrest
    refine ⟨hlen.trans hlen₁, fun j hj => hmarked j ((hmarked₁ j).mpr ?_), fun k hk => ?_⟩
    · split_ifs
      · rfl
      · exact hj
    · cases k with
      | zero =>
        by_contra hlong
        rw [Nat.add_zero] at hlong
        rw [bitmapSet, if_neg hlong] at hset
        cases hset
      | succ k =>
        rw [← hlen₁, show idx + (k + 1) = idx + 1 + k by omega]
        exact hbound k (by omega)

end Bitmap

namespace Pool

variable {p p' : Pool}

/-- A request for pages never clears a bit, and the count fits 32 bits. -/
theorem getPages_sets {count a : Nat} (h : p.getPages count = some (a, p')) :
    SameRegion p p' ∧ p.allocated ⊆ p'.allocated ∧ (a = 0 ∧ p' = p ∨ count < 2 ^ 32) := by
  obtain ⟨off, hscan, h⟩ := Option.bind_eq_some_iff.mp h
  have hlen : p.btmp.btmpBytesLen < 2 ^ 28 := by
    by_contra hlong
    rw [Bitmap.bitScan, if_neg fun h => hlong h.1] at hscan
    cases hscan
  split at h
  · cases h
    exact ⟨⟨rfl, rfl⟩, Finset.Subset.refl _, .inl ⟨rfl, rfl⟩⟩
  · obtain ⟨btmp, hset, hret⟩ := Option.bind_eq_some_iff.mp h
    obtain ⟨hlen', hmarked, hbound⟩ := Bitmap.bitmapSetRange_sets hset
    cases hret
    refine ⟨⟨rfl, hlen'⟩, ?_, .inr ?_⟩
    · intro i hi
      rw [mem_allocated] at hi ⊢
      exact ⟨hlen' ▸ hi.1, hmarked i hi.2⟩
    · -- otherwise the loop would come to an index that is too large
      by_contra hlong
      have hlast := hbound (2 ^ 32 - 1 - bitOff off % 2 ^ 32) (by omega)
      omega

/-- The allocated pages after a free are those before it without the cleared bits. -/
def Freed (p : Pool) (cleared : Finset Nat) (p' : Pool) : Prop :=
  SameRegion p p' ∧ p'.allocated = p.allocated \ cleared

theorem Freed.of_marked {cleared : Finset Nat} (region : SameRegion p p')
    (h : ∀ j, p'.btmp.Marked j ↔ p.btmp.Marked j ∧ j ∉ cleared) : p.Freed cleared p' := by
  refine ⟨region, ?_⟩
  ext j
  rw [mem_allocated, region.2, h, Finset.mem_sdiff, mem_allocated, and_assoc]

theorem Freed.refl (p : Pool) : p.Freed ∅ p := ⟨⟨rfl, rfl⟩, by simp⟩

theorem Freed.trans {p'' : Pool} {first second : Finset Nat} (h : p.Freed first p')
    (h' : p'.Freed second p'') : p.Freed (first ∪ second) p'' := by
  refine ⟨h.1.trans h'.1, ?_⟩
  rw [h'.2, h.2, sdiff_sdiff_left]
  rfl

/-- At least the pages that were not cleared are left. -/
theorem Freed.card_le {cleared : Finset Nat} (h : p.Freed cleared p') :
    p.allocated.card ≤ p'.allocated.card + cleared.card := by
  rw [h.2]
  exact Finset.card_le_card_sdiff_add_card

theorem freePages_freed {vstart count : Nat} (h : p.freePages vstart count = some p') :
    ∃ cleared, cleared.card ≤ count ∧ p.Freed cleared p' := by
  obtain ⟨btmp, hset, hret⟩ := Option.bind_eq_some_iff.mp h
  obtain ⟨hlen, cleared, hcard, hmarked⟩ := Bitmap.bitmapSetRange_clears hset
  cases hret
  exact ⟨cleared, hcard, .of_marked ⟨rfl, hlen⟩ hmarked⟩

theorem freePage_freed {a : Nat} (h : p.freePage a = some p') :
    p.Freed {((((a ||| dmwBase) + (2 ^ 64 - p.paddrStart)) % 2 ^ 64) >>> 12) % 2 ^ 32} p' := by
  rw [freePage] at h
  split at h
  · obtain ⟨btmp, hset, hret⟩ := Option.bind_eq_some_iff.mp h
    obtain ⟨hlen, hmarked⟩ := Bitmap.bitmapSet_marked hset
    cases hret
    refine .of_marked ⟨rfl, hlen⟩ ?_
    intro j
    rw [hmarked, Finset.mem_singleton]
    split_ifs with hj
    · simp [hj]
    · rw [and_iff_left hj]
  · cases h

/-- The bit that `free_page` clears for a page of the pool is that of the page. -/
theorem freePage_page {i : Nat} (placed : p.Placed) (hlen : p.btmp.btmpBytesLen < 2 ^ 28)
    (hi : i < p.btmp.btmpBytesLen * 8) (h : p.freePage (p.page i) = some p') : p.Freed {i} p' := by
  have hoff : (((p.page i ||| dmwBase) + (2 ^ 64 - p.paddrStart)) % 2 ^ 64) >>> 12 = i := by
    rw [placed.page_eq hi]
    obtain ⟨-, lower, upper⟩ := placed
    rw [or_dmwBase (by omega) (by unfold pageSize at *; omega), Nat.shiftRight_eq_div_pow]
    unfold pageSize dmwBase at *
    omega
  have freed := freePage_freed h
  rwa [hoff, Nat.mod_eq_of_lt (by omega)] at freed

end Pool

end KernelTravel.Mm

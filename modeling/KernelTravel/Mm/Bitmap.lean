import KernelTravel.Lib.Bits
import Mathlib.Data.Nat.Bitwise

/-!
# The kernel's bitmaps

`lib/kernel/bitmap.c` keeps one bit for each unit in an array of bytes. `bit_scan`
skips the full bytes and then counts clear bits until it has seen enough of them
in a row. Its loop variables are 32-bit numbers; the functions below follow them
for bitmaps of fewer than 2^28 bytes, on which no variable wraps and the result
fits an `int`, and answer `none` on a longer one and where an `ASSERT` fails.
-/

namespace KernelTravel.Mm

structure Bitmap where
  btmpBytesLen : Nat
  bits : Nat → Byte

namespace Bitmap

/-- `bit_scan_test`, as the masked byte the kernel compares with zero. -/
def bitScanTest (b : Bitmap) (i : Nat) : Byte := b.bits (i / 8) &&& (1#8 <<< (i % 8))

/-- The bit is set. -/
def Marked (b : Bitmap) (i : Nat) : Prop := (b.bits (i / 8)).getLsbD (i % 8) = true

instance (b : Bitmap) (i : Nat) : Decidable (b.Marked i) := inferInstanceAs (Decidable (_ = _))

/-- The first loop of `bit_scan`, with the number of bytes left to look at. -/
def skipFull (b : Bitmap) : Nat → Nat → Nat
  | 0, byte => byte
  | left + 1, byte => if b.bits byte = 0xff#8 then skipFull b left (byte + 1) else byte

/-- The second loop of `bit_scan`, with the number of bits left to look at. -/
def scanRun (b : Bitmap) (cnt : Nat) : Nat → Nat → Nat → Int
  | 0, _, _ => -1
  | left + 1, idx, count =>
    let count := if b.bitScanTest idx = 0#8 then count + 1 else 0
    if count = cnt then (idx : Int) - count + 1 else scanRun b cnt left (idx + 1) count

def bitScan (b : Bitmap) (cnt : Nat) : Option Int :=
  let byte := b.skipFull b.btmpBytesLen 0
  if b.btmpBytesLen < 2 ^ 28 ∧ byte < b.btmpBytesLen then
    some (b.scanRun (cnt % 2 ^ 32) (b.btmpBytesLen * 8 - byte * 8) (byte * 8) 0)
  else none

/-- The two assignments of `bitmap_set`. -/
def putBit (byte : Byte) (odd : Nat) (value : Bool) : Byte :=
  if value then byte ||| (1#8 <<< odd) else byte &&& ~~~(1#8 <<< odd)

/-- The bound asserted here lets one bit past the end through. -/
def bitmapSet (b : Bitmap) (idx : Nat) (value : Bool) : Option Bitmap :=
  let idx := idx % 2 ^ 32
  if idx ≤ b.btmpBytesLen * 8 then
    let byte := putBit (b.bits (idx / 8)) (idx % 8) value
    some { b with bits := Function.update b.bits (idx / 8) byte }
  else none

/-- The loops of `get_pages` and `free_pages` over consecutive bits. -/
def bitmapSetRange (b : Bitmap) (value : Bool) : Nat → Nat → Option Bitmap
  | _, 0 => some b
  | idx, count + 1 => do
    let b ← b.bitmapSet idx value
    bitmapSetRange b value (idx + 1) count

/-! ## Single bits -/

theorem bitScanTest_eq_zero (b : Bitmap) (i : Nat) : b.bitScanTest i = 0#8 ↔ ¬b.Marked i := by
  rw [bitScanTest, Bits.mask_eq_zero, Marked, Bool.not_eq_true]
  rfl

theorem getLsbD_putBit (byte : Byte) (k : Nat) {l : Nat} (hl : l < 8) (value : Bool) :
    (putBit byte k value).getLsbD l = if l = k then value else byte.getLsbD l := by
  cases value with
  | false => exact Bits.getLsbD_and_not_mask byte k hl
  | true => exact Bits.getLsbD_or_mask byte k hl

/-- Setting a bit changes that bit and no other. -/
theorem bitmapSet_spec {b : Bitmap} {i : Nat} (hi : i ≤ b.btmpBytesLen * 8) (h32 : i < 2 ^ 32)
    (value : Bool) :
    ∃ b', b.bitmapSet i value = some b' ∧ b'.btmpBytesLen = b.btmpBytesLen ∧
      ∀ j, b'.Marked j ↔ if j = i then value = true else b.Marked j := by
  have hset : b.bitmapSet i value = some { b with
      bits := Function.update b.bits (i / 8) (putBit (b.bits (i / 8)) (i % 8) value) } := by
    rw [bitmapSet, Nat.mod_eq_of_lt h32, if_pos hi]
  refine ⟨_, hset, rfl, ?_⟩
  intro j
  have hbit := Bits.get_update_bit (fun _ hl => getLsbD_putBit (b.bits (i / 8)) (i % 8) hl value) j
  simp only [Bits.get] at hbit
  rw [Marked, hbit]
  split_ifs <;> rfl

theorem bitmapSetRange_spec {b : Bitmap} {i count : Nat} (hi : i + count ≤ b.btmpBytesLen * 8)
    (h32 : i + count ≤ 2 ^ 32) (value : Bool) :
    ∃ b', b.bitmapSetRange value i count = some b' ∧ b'.btmpBytesLen = b.btmpBytesLen ∧
      ∀ j, b'.Marked j ↔ if i ≤ j ∧ j < i + count then value = true else b.Marked j := by
  induction count generalizing b i with
  | zero =>
    refine ⟨b, rfl, rfl, ?_⟩
    intro j
    rw [if_neg (by omega)]
  | succ count ih =>
    obtain ⟨b₁, hset, hlen, hmarked⟩ := bitmapSet_spec (b := b) (i := i) (by omega) (by omega) value
    obtain ⟨b₂, hrest, hlen₂, hmarked₂⟩ := ih (b := b₁) (i := i + 1) (by omega) (by omega)
    refine ⟨b₂, by rw [bitmapSetRange, hset]; exact hrest, hlen₂.trans hlen, ?_⟩
    intro j
    rw [hmarked₂, hmarked]
    split_ifs <;> first | rfl | omega

/-- `bitmap_set` takes the low 32 bits of its index. -/
theorem bitmapSetRange_mod (b : Bitmap) (value : Bool) {i j : Nat} (h : i % 2 ^ 32 = j % 2 ^ 32)
    (count : Nat) : b.bitmapSetRange value i count = b.bitmapSetRange value j count := by
  induction count generalizing b i j with
  | zero => rfl
  | succ count ih =>
    have hset : b.bitmapSet i value = b.bitmapSet j value := by simp only [bitmapSet, h]
    rw [bitmapSetRange, bitmapSetRange, hset]
    exact congrArg _ (funext fun b' => ih b' (by omega))

/-! ## The search -/

variable {b : Bitmap}

/-- Every bit of a skipped byte is set, and the search stops at a byte that is not full. -/
theorem skipFull_spec (left byte : Nat) :
    byte ≤ b.skipFull left byte ∧ b.skipFull left byte ≤ byte + left ∧
      (∀ k, byte ≤ k → k < b.skipFull left byte → b.bits k = 0xff#8) := by
  induction left generalizing byte with
  | zero =>
    exact ⟨Nat.le_refl _, Nat.le_refl _, fun k hk hlt => absurd hlt (by simp [skipFull]; omega)⟩
  | succ left ih =>
    rw [skipFull]
    split
    next full =>
      obtain ⟨lower, upper, skipped⟩ := ih (byte + 1)
      refine ⟨by omega, by omega, ?_⟩
      intro k hk hlt
      by_cases hkb : k = byte
      · rw [hkb, full]
      · exact skipped k (by omega) hlt
    next => exact ⟨Nat.le_refl _, by omega, fun k hk hlt => absurd hlt (by omega)⟩

theorem marked_of_full {i : Nat} (h : b.bits (i / 8) = 0xff#8) : b.Marked i := by
  have ones : ∀ k : Fin 8, (0xff#8).getLsbD k = true := by decide
  rw [Marked, h]
  exact ones ⟨i % 8, Nat.mod_lt _ (by decide)⟩

/-- The `cnt` bits from `start` are clear. -/
def ClearRun (b : Bitmap) (start cnt : Nat) : Prop := ∀ k < cnt, ¬b.Marked (start + k)

instance (b : Bitmap) (start cnt : Nat) : Decidable (b.ClearRun start cnt) :=
  inferInstanceAs (Decidable (∀ k < cnt, _))

theorem ClearRun.snoc {idx count : Nat} (clear : b.ClearRun (idx - count) count) (hle : count ≤ idx)
    (hidx : ¬b.Marked idx) : b.ClearRun (idx - count) (count + 1) := by
  intro k hk
  rcases Nat.lt_succ_iff_lt_or_eq.mp hk with hlt | rfl
  · exact clear k hlt
  · rwa [Nat.sub_add_cancel hle]

/-- If a clear run starts at `start`, the loop finds one no later. The counter is
the length of the clear run that ends before `idx`; the part of the wanted run
already passed is never longer. -/
theorem scanRun_spec {cnt start : Nat} (hpos : 0 < cnt) (run : b.ClearRun start cnt) :
    ∀ (left idx count : Nat), start + cnt ≤ idx + left → idx < start + cnt → count < cnt →
      count ≤ idx → b.ClearRun (idx - count) count → idx - count ≤ start →
      ∃ found : Nat, b.scanRun cnt left idx count = (found : Int) ∧ found ≤ start ∧
        b.ClearRun found cnt := by
  intro left
  induction left with
  | zero =>
    intro idx count hleft hidx
    omega
  | succ left ih =>
    intro idx count hleft hidx hcount hle clear hstart
    simp only [scanRun]
    by_cases hmarked : b.Marked idx
    · -- a set bit lies before the wanted run, which is still ahead
      have hbefore : idx < start := by
        by_contra hge
        have := run (idx - start) (by omega)
        rw [Nat.add_sub_cancel' (by omega)] at this
        exact this hmarked
      rw [if_neg (mt (bitScanTest_eq_zero b idx).mp (not_not.mpr hmarked)), if_neg (by omega)]
      exact ih (idx + 1) 0 (by omega) (by omega) hpos (by omega)
        (fun k hk => absurd hk (by omega)) (by omega)
    · have extended := clear.snoc hle hmarked
      rw [if_pos ((bitScanTest_eq_zero b idx).mpr hmarked)]
      by_cases hdone : count + 1 = cnt
      · refine ⟨idx - count, by rw [if_pos hdone]; omega, hstart, hdone ▸ extended⟩
      · rw [if_neg hdone]
        have hsub : idx + 1 - (count + 1) = idx - count := by omega
        exact ih (idx + 1) (count + 1) (by omega) (by omega) (by omega) (by omega)
          (hsub ▸ extended) (by omega)

theorem skipFull_le {i : Nat} (hclear : ¬b.Marked i) : b.skipFull b.btmpBytesLen 0 ≤ i / 8 := by
  obtain ⟨-, -, skipped⟩ := skipFull_spec (b := b) b.btmpBytesLen 0
  by_contra hlt
  exact hclear (marked_of_full (skipped (i / 8) (Nat.zero_le _) (by omega)))

/-- The search does not panic while a bit is clear. -/
theorem bitScan_isSome {i : Nat} (hlen : b.btmpBytesLen < 2 ^ 28) (hi : i < b.btmpBytesLen * 8)
    (hclear : ¬b.Marked i) (cnt : Nat) : ∃ off, b.bitScan cnt = some off := by
  have hbyte := skipFull_le hclear
  exact ⟨_, if_pos ⟨hlen, by omega⟩⟩

/-- First fit: the run found starts no later than any clear run. -/
theorem bitScan_spec {cnt start : Nat} (hpos : 0 < cnt) (hlen : b.btmpBytesLen < 2 ^ 28)
    (hbound : start + cnt ≤ b.btmpBytesLen * 8) (run : b.ClearRun start cnt) :
    ∃ found : Nat, b.bitScan cnt = some (found : Int) ∧ found ≤ start ∧ b.ClearRun found cnt := by
  have hclear : ¬b.Marked start := by simpa using run 0 hpos
  have hbyte := skipFull_le hclear
  have hcnt : cnt % 2 ^ 32 = cnt := Nat.mod_eq_of_lt (by omega)
  obtain ⟨found, hscan, hle, hrun⟩ := scanRun_spec hpos run
    (b.btmpBytesLen * 8 - b.skipFull b.btmpBytesLen 0 * 8) (b.skipFull b.btmpBytesLen 0 * 8) 0
    (by omega) (by omega) hpos (by omega) (fun k hk => absurd hk (by omega)) (by omega)
  refine ⟨found, ?_, hle, hrun⟩
  simp only [bitScan, hcnt, hscan]
  rw [if_pos ⟨hlen, by omega⟩]

/-- What the loop returns is a clear run among the bits it has looked at. -/
theorem scanRun_sound {cnt : Nat} (hpos : 0 < cnt) (left : Nat) {idx count : Nat}
    (hle : count ≤ idx) (clear : b.ClearRun (idx - count) count) :
    b.scanRun cnt left idx count = -1 ∨ ∃ found : Nat, b.scanRun cnt left idx count = found ∧
      found + cnt ≤ idx + left ∧ b.ClearRun found cnt := by
  induction left generalizing idx count with
  | zero => exact .inl rfl
  | succ left ih =>
    have hnext : idx + (left + 1) = idx + 1 + left := by omega
    simp only [scanRun, bitScanTest_eq_zero, hnext]
    by_cases hmarked : b.Marked idx
    · rw [if_neg (not_not.mpr hmarked), if_neg (Nat.ne_of_lt hpos)]
      exact ih (Nat.zero_le _) fun k hk => absurd hk (Nat.not_lt_zero k)
    · have extended := clear.snoc hle hmarked
      rw [if_pos hmarked]
      by_cases hdone : count + 1 = cnt
      · rw [if_pos hdone]
        exact .inr ⟨idx - count, by omega, by omega, hdone ▸ extended⟩
      · rw [if_neg hdone]
        have hsub : idx + 1 - (count + 1) = idx - count := by omega
        exact ih (Nat.succ_le_succ hle) (hsub ▸ extended)

theorem bitScan_sound {cnt : Nat} {off : Int} (hpos : 0 < cnt) (hcnt : cnt < 2 ^ 32)
    (h : b.bitScan cnt = some off) : b.btmpBytesLen < 2 ^ 28 ∧
      (off = -1 ∨ ∃ i : Nat, off = i ∧ i + cnt ≤ b.btmpBytesLen * 8 ∧ b.ClearRun i cnt) := by
  simp only [bitScan, Nat.mod_eq_of_lt hcnt] at h
  split at h
  next hbyte =>
    refine ⟨hbyte.1, ?_⟩
    cases h
    rcases @scanRun_sound b _ hpos (b.btmpBytesLen * 8 - b.skipFull b.btmpBytesLen 0 * 8)
        (b.skipFull b.btmpBytesLen 0 * 8) 0 (Nat.zero_le _) (by simp [ClearRun]) with
      hnone | ⟨found, hfound, hbound, run⟩
    · exact .inl hnone
    · exact .inr ⟨found, hfound, by omega, run⟩
  next => cases h

theorem exists_clear_of_ne_full {byte : Nat} (h : b.bits byte ≠ 0xff#8) :
    ∃ k < 8, ¬b.Marked (byte * 8 + k) := by
  by_contra hall
  push Not at hall
  apply h
  apply BitVec.eq_of_getLsbD_eq
  intro k hk
  have hmarked := hall k hk
  rw [Marked, show (byte * 8 + k) / 8 = byte by omega,
    show (byte * 8 + k) % 8 = k by omega] at hmarked
  have ones : ∀ k : Fin 8, (0xff#8).getLsbD k = true := by decide
  rw [hmarked]
  exact (ones ⟨k, hk⟩).symm

/-- The first `cnt` clear bits in a row. -/
def FirstRun (b : Bitmap) (cnt start : Nat) : Prop :=
  start + cnt ≤ b.btmpBytesLen * 8 ∧ b.ClearRun start cnt ∧ ∀ i < start, ¬b.ClearRun i cnt

/-- `bit_scan` finds the first run and answers -1 where there is none, and setting the bits of the
run with `bitmap_set` changes no other bit. -/
theorem bitScan_first_fit {cnt : BitVec 32} (hlen : b.btmpBytesLen * 8 < 2 ^ 31)
    (hbyte : ∃ k < b.btmpBytesLen, b.bits k ≠ 0xff#8) (hcnt : 1 ≤ cnt.toNat) :
    (∀ i, b.FirstRun cnt.toNat i → b.bitScan cnt.toNat = some (i : Int) ∧
      ∃ b', b.bitmapSetRange true i cnt.toNat = some b' ∧
        ∀ j, b'.Marked j ↔ (i ≤ j ∧ j < i + cnt.toNat) ∨ b.Marked j) ∧
    ((∀ i, i + cnt.toNat ≤ b.btmpBytesLen * 8 → ¬b.ClearRun i cnt.toNat) →
      b.bitScan cnt.toNat = some (-1)) := by
  constructor
  · rintro i ⟨hbound, run, hfirst⟩
    obtain ⟨found, hscan, hle, hrun⟩ := bitScan_spec hcnt (by omega) hbound run
    obtain rfl : found = i := by
      by_contra hne
      exact hfirst found (by omega) hrun
    obtain ⟨b', hset, -, hmarked⟩ := bitmapSetRange_spec hbound (by omega) true
    refine ⟨hscan, b', hset, fun j => ?_⟩
    rw [hmarked]
    split
    next hin => exact iff_of_true rfl (.inl hin)
    next hout => exact (or_iff_right hout).symm
  · intro hnone
    obtain ⟨k, hk, hpartial⟩ := hbyte
    obtain ⟨l, hl, hclear⟩ := exists_clear_of_ne_full hpartial
    obtain ⟨off, hscan⟩ := @bitScan_isSome b (k * 8 + l) (by omega) (by omega) hclear cnt.toNat
    rcases (bitScan_sound hcnt cnt.isLt hscan).2 with rfl | ⟨i, -, hbound, hrun⟩
    · exact hscan
    · exact absurd hrun (hnone i hbound)

theorem bitScan_first_fit_three : Bitmap.bitScan ⟨3, fun k => if k = 0 then 0xff#8 else 0x05#8⟩ 3 =
    some ((11 : Nat) : Int) := by
  have first : FirstRun ⟨3, fun k => if k = 0 then 0xff#8 else 0x05#8⟩ 3 11 :=
    ⟨by decide, by decide, by decide⟩
  exact ((@bitScan_first_fit _ 3#32 (by decide) ⟨1, by decide, by decide⟩ (by decide)).1 11 first).1

end Bitmap

end KernelTravel.Mm

import KernelTravel.Lib.Bits

/-!
# The bitmaps of ext4

`ext4_bitmap.c` works on a byte pointer and does not know how long its buffer is. A
`Bmap` carries that length; a function answers `none` where it would touch a byte behind
it. On a buffer of less than 2^29 bytes no loop variable wraps, only the difference of
the two bounds in `ext4_bmap_bit_find_clr` does.
-/

namespace KernelTravel.Ext4

structure Bmap where
  size : Nat
  byte : Nat → Byte

namespace Bmap

/-- Bit `i` of the buffer. -/
def bit (b : Bmap) (i : Nat) : Bool := Bits.get b.byte i

def isBitClr (b : Bmap) (bit : Nat) : Option Bool :=
  if bit / 8 < b.size then some (decide (b.byte (bit / 8) &&& (1#8 <<< (bit % 8)) = 0#8)) else none

def bitSet (b : Bmap) (bit : Nat) : Option Bmap :=
  if bit / 8 < b.size then
    let byte := b.byte (bit / 8) ||| (1#8 <<< (bit % 8))
    some { b with byte := Function.update b.byte (bit / 8) byte }
  else none

def bitClr (b : Bmap) (bit : Nat) : Option Bmap :=
  if bit / 8 < b.size then
    let byte := b.byte (bit / 8) &&& ~~~(1#8 <<< (bit % 8))
    some { b with byte := Function.update b.byte (bit / 8) byte }
  else none

/-! ## `ext4_bmap_bits_free` -/

/-- The loops that clear single bits. -/
def bitsClr (b : Bmap) : Nat → Nat → Option Bmap
  | 0, _ => some b
  | n + 1, bit => do
    let b ← b.bitClr bit
    bitsClr b n (bit + 1)

/-- The loop over whole bytes. -/
def bytesClr (b : Bmap) : Nat → Nat → Option Bmap
  | 0, _ => some b
  | n + 1, byte =>
    if byte < b.size then bytesClr { b with byte := Function.update b.byte byte 0#8 } n (byte + 1)
    else none

/-- The first loop, until the position is a multiple of eight, and what follows it. -/
def bitsFreeFrom (b : Bmap) : Nat → Nat → Nat → Option Bmap
  | 0, _, _ => none
  | fuel + 1, i, bcnt =>
    if i % 8 = 0 then do
      let b ← b.bytesClr (bcnt / 8) (i / 8)
      b.bitsClr (bcnt % 8) (i + 8 * (bcnt / 8))
    else if bcnt = 0 then some b
    else do
      let b ← b.bitClr i
      bitsFreeFrom b fuel (i + 1) (bcnt - 1)

def bitsFree (b : Bmap) (sbit bcnt : Nat) : Option Bmap := b.bitsFreeFrom 8 sbit bcnt

/-! ## `ext4_bmap_bit_find_clr` -/

/-- The loops that look at single bits. The inner `none` says that all are set. -/
def scanClr (b : Bmap) : Nat → Nat → Option (Option Nat)
  | 0, _ => some none
  | n + 1, bit => do
    let clr ← b.isBitClr bit
    if clr then return some bit else b.scanClr n (bit + 1)

/-- The loop over whole bytes and the bits after them. -/
def findClrBytes (b : Bmap) (rest : Nat) : Nat → Nat → Option (Option Nat)
  | 0, byte => b.scanClr rest (8 * byte)
  | n + 1, byte =>
    if byte < b.size then do
      let found ← if b.byte byte ≠ 0xff#8 then b.scanClr 8 (8 * byte) else some none
      match found with
      | some bit => return some bit
      | none => b.findClrBytes rest n (byte + 1)
    else none

/-- The first loop. A clear bit before the first multiple of eight is answered with the
start of the search, not with its own number. -/
def findClrFrom (b : Bmap) (sbit : Nat) : Nat → Nat → Nat → Option (Option Nat)
  | 0, _, _ => none
  | fuel + 1, i, bcnt =>
    if i % 8 = 0 then b.findClrBytes (bcnt % 8) (bcnt / 8) (i / 8)
    else if bcnt = 0 then some none
    else do
      let clr ← b.isBitClr i
      if clr then return some sbit else b.findClrFrom sbit fuel (i + 1) (bcnt - 1)

/-- `none` inside stands for `ENOSPC`. -/
def bitFindClr (b : Bmap) (sbit ebit : Nat) : Option (Option Nat) :=
  b.findClrFrom sbit 8 sbit ((ebit + 2 ^ 32 - sbit) % 2 ^ 32)

/-! ## Single bits -/

section Single

variable {b : Bmap} {i : Nat}

theorem isBitClr_eq (h : i < 8 * b.size) : b.isBitClr i = some (!b.bit i) := by
  rw [isBitClr, if_pos (by omega)]
  simp only [Bits.mask_eq_zero, bit]
  cases Bits.get b.byte i <;> rfl

theorem bitSet_spec (h : i < 8 * b.size) : ∃ b', b.bitSet i = some b' ∧ b'.size = b.size ∧
      ∀ j, b'.bit j = if j = i then true else b.bit j :=
  ⟨_, if_pos (by omega), rfl, fun j => Bits.get_set b.byte i j⟩

theorem bitClr_spec (h : i < 8 * b.size) : ∃ b', b.bitClr i = some b' ∧ b'.size = b.size ∧
      ∀ j, b'.bit j = if j = i then false else b.bit j :=
  ⟨_, if_pos (by omega), rfl, fun j => Bits.get_clr b.byte i j⟩

end Single

/-! ## Clearing a range -/

/-- `b'` is `b` with the bits `[lo, lo + n)` cleared. -/
def Cleared (b b' : Bmap) (lo n : Nat) : Prop :=
  b'.size = b.size ∧ ∀ j, b'.bit j = if lo ≤ j ∧ j < lo + n then false else b.bit j

theorem Cleared.append {b b₁ b₂ : Bmap} {lo m n : Nat} (h₁ : Cleared b b₁ lo m)
    (h₂ : Cleared b₁ b₂ (lo + m) n) : Cleared b b₂ lo (m + n) := by
  refine ⟨h₂.1.trans h₁.1, fun j => ?_⟩
  rw [h₂.2, h₁.2]
  split_ifs <;> first | rfl | omega

theorem cleared_zero (b : Bmap) (lo : Nat) : Cleared b b lo 0 := by
  refine ⟨rfl, fun j => ?_⟩
  rw [if_neg (by omega)]

theorem bitClr_cleared {b : Bmap} {i : Nat} (h : i < 8 * b.size) :
    ∃ b', b.bitClr i = some b' ∧ Cleared b b' i 1 := by
  obtain ⟨b', hclr, hsize, hbit⟩ := bitClr_spec h
  refine ⟨b', hclr, hsize, fun j => ?_⟩
  have same : (i ≤ j ∧ j < i + 1) ↔ j = i := by omega
  simp only [hbit, same]

theorem bitsClr_spec (b : Bmap) (n i : Nat) (h : i + n ≤ 8 * b.size) :
    ∃ b', b.bitsClr n i = some b' ∧ Cleared b b' i n := by
  induction n generalizing b i with
  | zero => exact ⟨b, rfl, cleared_zero b i⟩
  | succ n ih =>
    obtain ⟨b₁, hclr, hcleared⟩ := @bitClr_cleared b i (by omega)
    obtain ⟨b₂, hrest, hcleared'⟩ := ih b₁ (i + 1) (by rw [hcleared.1]; omega)
    refine ⟨b₂, by simp [bitsClr, hclr, hrest], ?_⟩
    rw [Nat.add_comm n 1]
    exact hcleared.append hcleared'

theorem bytesClr_spec (b : Bmap) (n byte : Nat) (h : byte + n ≤ b.size) :
    ∃ b', b.bytesClr n byte = some b' ∧ Cleared b b' (8 * byte) (8 * n) := by
  induction n generalizing b byte with
  | zero => exact ⟨b, rfl, cleared_zero b _⟩
  | succ n ih =>
    have first : Cleared b { b with byte := Function.update b.byte byte 0#8 } (8 * byte) 8 :=
      ⟨rfl, fun j => Bits.get_zero b.byte byte j⟩
    obtain ⟨b', hrest, hcleared⟩ := ih { b with byte := Function.update b.byte byte 0#8 }
      (byte + 1) (by simp only; omega)
    refine ⟨b', by rw [bytesClr, if_pos (by omega), hrest], ?_⟩
    rw [show 8 * (n + 1) = 8 + 8 * n by omega]
    exact first.append (by simpa only [Nat.mul_add, Nat.mul_one] using hcleared)

/-- The first loop needs at most seven steps. -/
theorem bitsFreeFrom_spec (b : Bmap) (fuel i bcnt : Nat) (hfuel : (8 - i % 8) % 8 < fuel)
    (h : i + bcnt ≤ 8 * b.size) :
    ∃ b', b.bitsFreeFrom fuel i bcnt = some b' ∧ Cleared b b' i bcnt := by
  induction fuel generalizing b i bcnt with
  | zero => omega
  | succ fuel ih =>
    by_cases haligned : i % 8 = 0
    · obtain ⟨b₁, hbytes, hcleared⟩ := bytesClr_spec b (bcnt / 8) (i / 8) (by omega)
      obtain ⟨b₂, hbits, hcleared'⟩ := bitsClr_spec b₁ (bcnt % 8) (i + 8 * (bcnt / 8))
        (by rw [hcleared.1]; omega)
      refine ⟨b₂, by simp [bitsFreeFrom, haligned, hbytes, hbits], ?_⟩
      rw [show 8 * (i / 8) = i by omega] at hcleared
      rw [show bcnt = 8 * (bcnt / 8) + bcnt % 8 by omega]
      exact hcleared.append hcleared'
    · rcases Nat.eq_zero_or_pos bcnt with rfl | hpos
      · exact ⟨b, by simp [bitsFreeFrom, haligned], cleared_zero b i⟩
      · obtain ⟨b₁, hclr, hcleared⟩ := @bitClr_cleared b i (by omega)
        obtain ⟨b₂, hrest, hcleared'⟩ := ih b₁ (i + 1) (bcnt - 1) (by omega)
          (by rw [hcleared.1]; omega)
        refine ⟨b₂, by simp [bitsFreeFrom, haligned, Nat.ne_of_gt hpos, hclr, hrest], ?_⟩
        rw [show bcnt = 1 + (bcnt - 1) by omega]
        exact hcleared.append hcleared'

theorem bitsFree_spec (b : Bmap) (sbit bcnt : Nat) (h : sbit + bcnt ≤ 8 * b.size) :
    ∃ b', b.bitsFree sbit bcnt = some b' ∧ Cleared b b' sbit bcnt :=
  bitsFreeFrom_spec b 8 sbit bcnt (Nat.mod_lt _ (by decide)) h

/-- `ext4_bmap_bits_free` clears its range and no other bit, and touches no byte behind the
range. -/
theorem bitsFree_clears_range {b : Bmap} {sbit bcnt : Nat}
    (h : sbit + bcnt ≤ 8 * b.size ∧ sbit + bcnt < 2 ^ 32) :
    ∃ b' cut, b.bitsFree sbit bcnt = some b' ∧
      { b with size := (sbit + bcnt + 7) / 8 }.bitsFree sbit bcnt = some cut ∧
      ∀ j, (b'.bit j = if sbit ≤ j ∧ j < sbit + bcnt then false else b.bit j) ∧
        cut.bit j = b'.bit j := by
  obtain ⟨b', hfree, -, hbit⟩ := bitsFree_spec b sbit bcnt h.1
  obtain ⟨cut, hcut, -, hbit'⟩ := bitsFree_spec { b with size := (sbit + bcnt + 7) / 8 } sbit bcnt
    (by dsimp only; omega)
  exact ⟨b', cut, hfree, hcut, fun j => ⟨hbit j, (hbit' j).trans (hbit j).symm⟩⟩

theorem bitsFree_clears_range_full : ∃ b', Bmap.bitsFree ⟨4, fun _ => 0xff#8⟩ 3 20 = some b' ∧
    b'.bit 2 = true ∧ b'.bit 3 = false ∧ b'.bit 22 = false ∧ b'.bit 23 = true := by
  obtain ⟨b', _, hfree, -, hbit⟩ := @bitsFree_clears_range ⟨4, fun _ => 0xff#8⟩ 3 20 (by decide)
  refine ⟨b', hfree, ?_⟩
  simp only [(hbit _).1]
  decide

/-! ## Finding a clear bit -/

/-- `j` is the first clear bit from `i` on. -/
def FirstClr (b : Bmap) (i j : Nat) : Prop :=
  i ≤ j ∧ b.bit j = false ∧ ∀ k, i ≤ k → k < j → b.bit k = true

section Find

variable {b : Bmap} {i j : Nat}

theorem exists_firstClr (hle : i ≤ j) (hclr : b.bit j = false) : ∃ k, FirstClr b i k ∧ k ≤ j := by
  have hex : ∃ k, i ≤ k ∧ b.bit k = false := ⟨j, hle, hclr⟩
  refine ⟨Nat.find hex, ⟨(Nat.find_spec hex).1, (Nat.find_spec hex).2, ?_⟩,
    Nat.find_min' hex ⟨hle, hclr⟩⟩
  intro k hik hk
  simpa [hik] using Nat.find_min hex hk

theorem FirstClr.mono {i' : Nat} (h : FirstClr b i j) (hle : i ≤ i') (hj : i' ≤ j) :
    FirstClr b i' j :=
  ⟨hj, h.2.1, fun k hk => h.2.2 k (by omega)⟩

theorem FirstClr.unique {k : Nat} (hj : FirstClr b i j) (hk : FirstClr b i k) : j = k := by
  rcases Nat.lt_trichotomy j k with hlt | heq | hlt
  · exact absurd (hk.2.2 j hj.1 hlt) (by simp [hj.2.1])
  · exact heq
  · exact absurd (hj.2.2 k hk.1 hlt) (by simp [hk.2.1])

end Find

/-- What a search has to answer: the first clear bit, or that there is none. -/
def ClrAnswer (b : Bmap) (sbit ebit : Nat) : Option Nat → Prop
  | some j => FirstClr b sbit j ∧ j < ebit
  | none => ∀ k, sbit ≤ k → k < ebit → b.bit k = true

/-- The search gives the right answer and reads no byte behind the one of bit `ebit - 1`. -/
def FindClrRight (b : Bmap) (sbit ebit : Nat) : Prop :=
  ∃ found, b.bitFindClr sbit ebit = some found ∧ ClrAnswer b sbit ebit found ∧
    { b with size := (ebit + 7) / 8 }.bitFindClr sbit ebit = some found

/-- The bits before this one are read for the answer. -/
def clrEnd (ebit : Nat) (found : Option Nat) : Nat := found.elim ebit (· + 1)

section Answer

variable {b : Bmap} {i j sbit ebit : Nat} {found : Option Nat}

theorem exists_clrAnswer (b : Bmap) (sbit ebit : Nat) : ∃ found, ClrAnswer b sbit ebit found := by
  by_cases hclr : ∃ k, sbit ≤ k ∧ k < ebit ∧ b.bit k = false
  · obtain ⟨k, hk, hlt, hbit⟩ := hclr
    obtain ⟨j, hj, hjk⟩ := exists_firstClr hk hbit
    exact ⟨some j, hj, by omega⟩
  · refine ⟨none, fun k hk hlt => ?_⟩
    by_contra hbit
    exact hclr ⟨k, hk, hlt, Bool.eq_false_iff.mpr hbit⟩

theorem ClrAnswer.eq_some (h : ClrAnswer b sbit ebit found) (hj : FirstClr b sbit j)
    (hlt : j < ebit) : found = some j := by
  cases found with
  | none => exact absurd (h j hj.1 hlt) (by simp [hj.2.1])
  | some k => rw [h.1.unique hj]

/-- The answer is found before `m`, or it is that of a search from `m` on. -/
theorem ClrAnswer.split (h : ClrAnswer b i ebit found) {m : Nat} (him : i ≤ m) (hm : m ≤ ebit) :
    (∃ j, found = some j ∧ FirstClr b i j ∧ j < m) ∨
      ClrAnswer b i m none ∧ ClrAnswer b m ebit found ∧ m ≤ clrEnd ebit found := by
  cases found with
  | none => exact .inr ⟨fun k hk hlt => h k hk (by omega), fun k hk => h k (by omega), hm⟩
  | some j =>
    rcases Nat.lt_or_ge j m with hlt | hge
    · exact .inl ⟨j, rfl, h.1, hlt⟩
    · exact .inr ⟨fun k hk hlt => h.1.2.2 k hk (by omega), ⟨h.1.mono him hge, h.2⟩,
        Nat.le_succ_of_le hge⟩

theorem scanClr_eq (n : Nat) (h : ClrAnswer b i ebit found) (hn : i + n = ebit)
    (hsize : clrEnd ebit found ≤ 8 * b.size) : b.scanClr n i = some found := by
  induction n generalizing i with
  | zero =>
    cases found with
    | none => rfl
    | some j => exact absurd h.1.1 (by have := h.2; omega)
  | succ n ih =>
    rcases h.split (Nat.le_succ i) (by omega) with ⟨j, rfl, first, hlt⟩ | ⟨hset, hrest, hle⟩
    · obtain rfl : j = i := Nat.le_antisymm (Nat.lt_succ_iff.mp hlt) first.1
      simp [scanClr, isBitClr_eq hsize, first.2.1]
    · have hread := @isBitClr_eq b i (by omega)
      have hbit : b.bit i = true := hset i (Nat.le_refl i) (Nat.lt_succ_self i)
      simp [scanClr, hread, hbit, ih hrest (by omega)]

theorem findClrBytes_eq (rest n byte : Nat) (h : ClrAnswer b (8 * byte) ebit found)
    (hn : 8 * byte + 8 * n + rest = ebit) (hsize : clrEnd ebit found ≤ 8 * b.size) :
    b.findClrBytes rest n byte = some found := by
  induction n generalizing byte with
  | zero => exact scanClr_eq rest h hn hsize
  | succ n ih =>
    rcases h.split (m := 8 * byte + 8) (by omega) (by omega) with
      ⟨j, rfl, first, hlt⟩ | ⟨hset, hrest, hle⟩
    · have hle := first.1
      have hj : j < 8 * b.size := hsize
      have hpartial : b.byte byte ≠ 0xff#8 := by
        intro hfull
        have hbyte : j / 8 = byte := by omega
        exact Bool.false_ne_true (first.2.1.symm.trans (Bits.get_full (hbyte ▸ hfull)))
      have hscan : b.scanClr 8 (8 * byte) = some (some j) := scanClr_eq 8 ⟨first, hlt⟩ rfl hsize
      simp [findClrBytes, show byte < b.size by omega, hpartial, hscan]
    · have hscan : b.scanClr 8 (8 * byte) = some none := scanClr_eq 8 hset rfl (hle.trans hsize)
      simp [findClrBytes, show byte < b.size by omega, hscan, ih (byte + 1) hrest (by omega)]

/-- A clear bit before the next multiple of eight is answered with `sbit`. -/
theorem findClrFrom_eq (fuel bcnt : Nat) (hfuel : (8 - i % 8) % 8 < fuel)
    (h : ClrAnswer b i ebit found) (hn : i + bcnt = ebit) (hsize : clrEnd ebit found ≤ 8 * b.size) :
    b.findClrFrom sbit fuel i bcnt =
      some (found.map fun j => if j < (i + 7) / 8 * 8 then sbit else j) := by
  induction fuel generalizing i bcnt with
  | zero => omega
  | succ fuel ih =>
    by_cases haligned : i % 8 = 0
    · have hstart : 8 * (i / 8) = i := by omega
      have hbytes :=
        findClrBytes_eq (bcnt % 8) (bcnt / 8) (i / 8) (hstart.symm ▸ h) (by omega) hsize
      rw [findClrFrom, if_pos haligned, hbytes]
      cases found with
      | none => rfl
      | some j => rw [Option.map_some, if_neg (by have := h.1.1; omega)]
    · rcases Nat.eq_zero_or_pos bcnt with rfl | hpos
      · cases found with
        | none => simp [findClrFrom, haligned]
        | some j => exact absurd h.1.1 (by have := h.2; omega)
      · rcases h.split (Nat.le_succ i) (by omega) with ⟨j, rfl, first, hlt⟩ | ⟨hset, hrest, hle⟩
        · obtain rfl : j = i := Nat.le_antisymm (Nat.lt_succ_iff.mp hlt) first.1
          simp [findClrFrom, haligned, hpos.ne', isBitClr_eq hsize, first.2.1,
            show j < (j + 7) / 8 * 8 by omega]
        · have hread := @isBitClr_eq b i (by omega)
          have hbit : b.bit i = true := hset i (Nat.le_refl i) (Nat.lt_succ_self i)
          have hnext := @ih (i + 1) (bcnt - 1) (by omega) hrest (by omega)
          rw [show (i + 1 + 7) / 8 * 8 = (i + 7) / 8 * 8 by omega] at hnext
          simp [findClrFrom, haligned, hpos.ne', hread, hbit, hnext]

theorem bitFindClr_eq (h : ClrAnswer b sbit ebit found) (hle : sbit ≤ ebit) (hebit : ebit < 2 ^ 32)
    (hsize : clrEnd ebit found ≤ 8 * b.size) : b.bitFindClr sbit ebit =
      some (found.map fun j => if j < (sbit + 7) / 8 * 8 then sbit else j) := by
  rw [bitFindClr]
  exact findClrFrom_eq 8 _ (Nat.mod_lt _ (by decide)) h (by omega) hsize

/-- The search is right when no bit before the first multiple of eight is clear. -/
theorem bitFindClr_found (h : FirstClr b sbit j) (hpast : (sbit + 7) / 8 * 8 ≤ j) (hj : j < ebit)
    (hebit : ebit < 2 ^ 32) (hsize : j < 8 * b.size) : b.bitFindClr sbit ebit = some (some j) := by
  have answer : ClrAnswer b sbit ebit (some j) := ⟨h, hj⟩
  rw [bitFindClr_eq answer (h.1.trans hj.le) hebit hsize, Option.map_some,
    if_neg (Nat.not_lt.mpr hpast)]

/-- The search is right unless the first clear bit lies behind `sbit` and before the next multiple
of eight. -/
theorem findClrRight_iff (h : sbit ≤ ebit ∧ ebit < 2 ^ 32 ∧ ebit ≤ 8 * b.size) :
    FindClrRight b sbit ebit ↔
      ∀ j, FirstClr b sbit j → j < ebit → j = sbit ∨ (sbit + 7) / 8 * 8 ≤ j := by
  obtain ⟨hle, hebit, hsize⟩ := h
  obtain ⟨found, answer⟩ := exists_clrAnswer b sbit ebit
  have hend : clrEnd ebit found ≤ ebit := by
    cases found with
    | none => exact Nat.le_refl ebit
    | some j => exact answer.2
  constructor
  · rintro ⟨found', hrun, answer', -⟩ j hj hlt
    rw [bitFindClr_eq answer hle hebit (hend.trans hsize), answer.eq_some hj hlt,
      answer'.eq_some hj hlt] at hrun
    simp only [Option.map_some, Option.some.injEq] at hrun
    split at hrun
    next => exact .inl hrun.symm
    next hpast => exact .inr (Nat.not_lt.mp hpast)
  · intro right
    have hsame : (found.map fun j => if j < (sbit + 7) / 8 * 8 then sbit else j) = found := by
      cases found with
      | none => rfl
      | some j =>
        rw [Option.map_some, Option.some.injEq]
        split
        next hhead => exact ((right j answer.1 answer.2).resolve_right (Nat.not_le.mpr hhead)).symm
        next => rfl
    have cut : ClrAnswer { b with size := (ebit + 7) / 8 } sbit ebit found := by
      cases found <;> exact answer
    refine ⟨found, ?_, answer, ?_⟩
    · rw [bitFindClr_eq answer hle hebit (hend.trans hsize), hsame]
    · rw [bitFindClr_eq cut hle hebit (hend.trans (by dsimp only; omega)), hsame]

theorem findClrRight_iff_aligned : FindClrRight ⟨2, fun _ => 0x0f#8⟩ 0 16 :=
  (findClrRight_iff (by decide)).mpr fun j _ _ => .inr (Nat.zero_le j)

/-- Bit 3 is the first clear one from bit 1 on, and the search answers 1, which is set. -/
theorem find_clr_answers_start : Bmap.bitFindClr ⟨1, fun _ => 0x07#8⟩ 1 8 = some (some 1) ∧
      Bmap.bit ⟨1, fun _ => 0x07#8⟩ 1 = true ∧ ¬FindClrRight ⟨1, fun _ => 0x07#8⟩ 1 8 := by
  have hrun : Bmap.bitFindClr ⟨1, fun _ => 0x07#8⟩ 1 8 = some (some 1) := by decide
  have hset : Bmap.bit ⟨1, fun _ => 0x07#8⟩ 1 = true := by decide
  refine ⟨hrun, hset, ?_⟩
  rintro ⟨found, hfound, answer, -⟩
  cases hrun.symm.trans hfound
  exact Bool.false_ne_true (answer.1.2.1.symm.trans hset)

end Answer

end Bmap

end KernelTravel.Ext4

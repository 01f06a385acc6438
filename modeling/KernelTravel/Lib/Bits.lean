import KernelTravel.Lib.Bytes

/-!
# Bits of a byte array

Bit `i` of an array is bit `i % 8` of its byte `i / 8`. The laws describe the masks with
which C code tests, sets and clears a bit.
-/

namespace Bits

open Function

def get (m : Nat → Byte) (i : Nat) : Bool := (m (i / 8)).getLsbD (i % 8)

theorem getLsbD_one_shiftLeft (k : Nat) {l : Nat} (hl : l < 8) :
    (1#8 <<< k).getLsbD l = decide (l = k) := by
  rw [BitVec.getLsbD_shiftLeft, BitVec.getLsbD_one]
  by_cases hlk : l < k
  · simp [hlk, Nat.ne_of_lt hlk]
  · have : l - k = 0 ↔ l = k := by omega
    simp [hl, hlk, this]

theorem mask_eq_zero (m : Nat → Byte) (i : Nat) :
    m (i / 8) &&& (1#8 <<< (i % 8)) = 0#8 ↔ get m i = false := by
  have hi : i % 8 < 8 := Nat.mod_lt _ (by decide)
  constructor
  · intro hzero
    have hbit := congrArg (BitVec.getLsbD · (i % 8)) hzero
    simpa only [BitVec.getLsbD_and, getLsbD_one_shiftLeft _ hi, BitVec.getLsbD_zero, decide_true,
      Bool.and_true, get] using hbit
  · intro hclear
    refine BitVec.eq_of_getLsbD_eq fun l hl => ?_
    rw [BitVec.getLsbD_and, getLsbD_one_shiftLeft _ hl, BitVec.getLsbD_zero]
    by_cases hli : l = i % 8
    · simpa [hli, get] using hclear
    · simp [hli]

/-- A byte that changes only in one bit changes only that bit of the array. -/
theorem get_update_bit {m : Nat → Byte} {i : Nat} {byte : Byte} {value : Bool}
    (h : ∀ l < 8, byte.getLsbD l = if l = i % 8 then value else (m (i / 8)).getLsbD l) (j : Nat) :
    get (update m (i / 8) byte) j = if j = i then value else get m j := by
  by_cases hbyte : j / 8 = i / 8
  · have same : j % 8 = i % 8 ↔ j = i := by omega
    simp only [get, hbyte, update_self, h _ (Nat.mod_lt j (by decide : 0 < 8)), same]
  · have hji : j ≠ i := fun h => hbyte (by rw [h])
    simp [get, update_of_ne hbyte, hji]

theorem getLsbD_or_mask (byte : Byte) (k : Nat) {l : Nat} (hl : l < 8) :
    (byte ||| (1#8 <<< k)).getLsbD l = if l = k then true else byte.getLsbD l := by
  rw [BitVec.getLsbD_or, getLsbD_one_shiftLeft k hl]
  by_cases hlk : l = k <;> simp [hlk]

theorem getLsbD_and_not_mask (byte : Byte) (k : Nat) {l : Nat} (hl : l < 8) :
    (byte &&& ~~~(1#8 <<< k)).getLsbD l = if l = k then false else byte.getLsbD l := by
  simp only [BitVec.getLsbD_and, BitVec.getLsbD_not, hl, decide_true, Bool.true_and,
    getLsbD_one_shiftLeft k hl]
  by_cases hlk : l = k <;> simp [hlk]

theorem get_set (m : Nat → Byte) (i j : Nat) :
    get (update m (i / 8) (m (i / 8) ||| (1#8 <<< (i % 8)))) j = if j = i then true else get m j :=
  get_update_bit (fun _ hl => getLsbD_or_mask _ _ hl) j

theorem get_clr (m : Nat → Byte) (i j : Nat) :
    get (update m (i / 8) (m (i / 8) &&& ~~~(1#8 <<< (i % 8)))) j =
      if j = i then false else get m j :=
  get_update_bit (fun _ hl => getLsbD_and_not_mask _ _ hl) j

/-- Clearing a whole byte. -/
theorem get_zero (m : Nat → Byte) (byte j : Nat) :
    get (update m byte 0#8) j =
      if 8 * byte ≤ j ∧ j < 8 * byte + 8 then false else get m j := by
  have hbyte : 8 * byte ≤ j ∧ j < 8 * byte + 8 ↔ j / 8 = byte := by omega
  rw [get, get, update_apply]
  simp only [hbyte]
  split <;> simp

theorem get_full {m : Nat → Byte} {i : Nat} (h : m (i / 8) = 0xff#8) : get m i = true := by
  have hi : i % 8 < 8 := Nat.mod_lt _ (by decide)
  rw [get, h]
  generalize i % 8 = l at hi
  revert l
  decide

end Bits

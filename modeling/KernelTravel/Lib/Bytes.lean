import Mathlib.Data.BitVec

/-!
# Byte memories

Memory is a total function from addresses to bytes. `blit` is a block copy whose
source does not overlap the destination, and `window` reads a block back. The
laws say that a copy is read back where it was written and changes no window
that does not meet it.
-/

abbrev Byte := BitVec 8

namespace Mem

/-- Overwrite the `n` bytes at `a` with the first `n` bytes of `src`. -/
def blit (m : Nat → Byte) (a n : Nat) (src : Nat → Byte) : Nat → Byte :=
  fun x => if a ≤ x ∧ x < a + n then src (x - a) else m x

/-- The `n` bytes at `a`. -/
def window (m : Nat → Byte) (a n : Nat) : Fin n → Byte := fun k => m (a + k)

/-- A finite block, read with a default outside it. -/
def ofBlock {n : Nat} (b : Fin n → Byte) : Nat → Byte :=
  fun k => if h : k < n then b ⟨k, h⟩ else 0

theorem blit_apply (m : Nat → Byte) (a n : Nat) (src : Nat → Byte) (x : Nat) :
    blit m a n src x = if a ≤ x ∧ x < a + n then src (x - a) else m x := rfl

/-- A copy followed by the copy of the rest is one copy. -/
theorem blit_append (m : Nat → Byte) {a n k : Nat} {src rest : Nat → Byte}
    (h : ∀ j < k, rest j = src (n + j)) :
    blit (blit m a n src) (a + n) k rest = blit m a (n + k) src := by
  funext x
  rcases Nat.lt_or_ge x (a + n) with hlow | hhigh
  · rw [blit_apply, if_neg (by omega), blit_apply, blit_apply]
    rcases Nat.lt_or_ge x a with hout | hin
    · rw [if_neg (by omega), if_neg (by omega)]
    · rw [if_pos (by omega), if_pos (by omega)]
  · rw [blit_apply, blit_apply m a (n + k)]
    rcases Nat.lt_or_ge x (a + (n + k)) with hin | hout
    · rw [if_pos (by omega), if_pos (by omega), h _ (by omega)]
      congr 1
      omega
    · rw [if_neg (by omega), if_neg (by omega), blit_apply, if_neg (by omega)]

theorem blit_zero (m : Nat → Byte) (a : Nat) (src : Nat → Byte) : blit m a 0 src = m := by
  funext x
  exact if_neg (by omega)

theorem blit_congr (m : Nat → Byte) {a n : Nat} {src src' : Nat → Byte}
    (h : ∀ j < n, src j = src' j) : blit m a n src = blit m a n src' := by
  funext x
  rw [blit_apply, blit_apply]
  split
  · next hin => exact h _ (by omega)
  · rfl

@[simp] theorem ofBlock_val {n : Nat} (b : Fin n → Byte) (k : Fin n) : ofBlock b k = b k := by
  simp [ofBlock]

@[simp] theorem window_blit_self (m : Nat → Byte) (a n : Nat) (b : Fin n → Byte) :
    window (blit m a n (ofBlock b)) a n = b := by
  funext k
  have inside : a ≤ a + k.val ∧ a + k.val < a + n := ⟨Nat.le_add_right _ _, by omega⟩
  simp [window, blit_apply, inside]

/-- A copy leaves every window alone that lies completely below or above it. -/
theorem window_blit_of_disjoint (m : Nat → Byte) {a c n k : Nat} (src : Nat → Byte)
    (disjoint : c + k ≤ a ∨ a + n ≤ c) : window (blit m a n src) c k = window m c k := by
  funext i
  have outside : ¬(a ≤ c + i.val ∧ c + i.val < a + n) := by
    have hi := i.isLt
    omega
  simp [window, blit_apply, outside]

/-- The little-endian number in the `k` bytes from `a` on. -/
def leNum (m : Nat → Byte) (a : Nat) : Nat → Nat
  | 0 => 0
  | k + 1 => (m a).toNat + 256 * leNum m (a + 1) k

/-- The number depends on its bytes only, wherever they are. -/
theorem leNum_shift {m m' : Nat → Byte} : ∀ {k a b : Nat}, (∀ j < k, m (a + j) = m' (b + j)) →
    leNum m a k = leNum m' b k := by
  intro k
  induction k with
  | zero => intro a b _; rfl
  | succ k ih =>
    intro a b h
    have hhead := h 0 (Nat.succ_pos k)
    have htail := @ih (a + 1) (b + 1) fun j hj => by
      have := h (j + 1) (Nat.succ_lt_succ hj)
      rwa [Nat.add_assoc, Nat.add_assoc, Nat.add_comm 1]
    rw [Nat.add_zero, Nat.add_zero] at hhead
    rw [leNum, leNum, hhead, htail]

theorem leNum_congr {m m' : Nat → Byte} {k a : Nat} (h : ∀ j < k, m (a + j) = m' (a + j)) :
    leNum m a k = leNum m' a k :=
  leNum_shift h

theorem leNum_lt (m : Nat → Byte) (a k : Nat) : leNum m a k < 256 ^ k := by
  induction k generalizing a with
  | zero => exact Nat.one_pos
  | succ k ih =>
    have hbyte := (m a).isLt
    have htail := ih (a + 1)
    rw [leNum, Nat.pow_succ]
    omega

/-- The bytes of a number, the lowest first. -/
def leBytes (v : Nat) : Nat → Byte := fun k => BitVec.ofNat 8 (v / 256 ^ k)

theorem leNum_leBytes {m : Nat → Byte} {a k v : Nat} (h : ∀ j < k, m (a + j) = leBytes v j) :
    leNum m a k = v % 256 ^ k := by
  induction k generalizing a v with
  | zero => rw [leNum, Nat.pow_zero, Nat.mod_one]
  | succ k ih =>
    have hhead : (m a).toNat = v % 256 := by
      have h0 := h 0 (Nat.succ_pos k)
      rw [Nat.add_zero] at h0
      rw [h0, leBytes, Nat.pow_zero, Nat.div_one, BitVec.toNat_ofNat]
    have htail : leNum m (a + 1) k = v / 256 % 256 ^ k := by
      refine ih fun j hj => ?_
      have hj' := h (j + 1) (Nat.succ_lt_succ hj)
      rw [show a + (j + 1) = a + 1 + j by omega] at hj'
      rw [hj', leBytes, leBytes, Nat.pow_succ, Nat.mul_comm (256 ^ j), Nat.div_div_eq_div_mul]
    rw [leNum, hhead, htail, Nat.pow_succ, Nat.mul_comm (256 ^ k), Nat.mod_mul]

theorem leNum_blit_self (m : Nat → Byte) (a k v : Nat) :
    leNum (blit m a k (leBytes v)) a k = v % 256 ^ k := by
  refine leNum_leBytes fun j hj => ?_
  rw [blit_apply, if_pos (by omega), Nat.add_sub_cancel_left]

theorem leNum_blit_of_disjoint (m : Nat → Byte) {a c n k : Nat} (src : Nat → Byte)
    (disjoint : c + k ≤ a ∨ a + n ≤ c) : leNum (blit m a n src) c k = leNum m c k := by
  refine leNum_congr fun j hj => ?_
  rw [blit_apply, if_neg (by omega)]

/-- The same block at several places. -/
def blitEach (m : Nat → Byte) (pos : Nat → Nat) (count n : Nat) (src : Nat → Byte) : Nat → Byte :=
  (List.range count).foldl (fun m i => blit m (pos i) n src) m

theorem blitEach_succ (m : Nat → Byte) (pos : Nat → Nat) (count n : Nat) (src : Nat → Byte) :
    blitEach m pos (count + 1) n src = blit (blitEach m pos count n src) (pos count) n src := by
  simp only [blitEach, List.range_succ, List.foldl_append, List.foldl_cons, List.foldl_nil]

theorem blitEach_outside (m : Nat → Byte) {pos : Nat → Nat} {count n x : Nat} (src : Nat → Byte)
    (h : ∀ i < count, x < pos i ∨ pos i + n ≤ x) : blitEach m pos count n src x = m x := by
  induction count with
  | zero => rfl
  | succ count ih =>
    have hlast := h count (Nat.lt_succ_self count)
    rw [blitEach_succ, blit_apply, if_neg (by omega)]
    exact ih fun i hi => h i (Nat.lt_succ_of_lt hi)

/-- No place overlaps one before it, so the last copy does not matter. -/
theorem blitEach_inside (m : Nat → Byte) {pos : Nat → Nat} {count n i k : Nat} (src : Nat → Byte)
    (apart : ∀ i < count, ∀ j < i, pos j + n ≤ pos i) (hi : i < count) (hk : k < n) :
    blitEach m pos count n src (pos i + k) = src k := by
  induction count with
  | zero => exact absurd hi (Nat.not_lt_zero i)
  | succ count ih =>
    rw [blitEach_succ, blit_apply]
    rcases eq_or_ne i count with rfl | hne
    · rw [if_pos (by omega), Nat.add_sub_cancel_left]
    · have hlow := apart count (Nat.lt_succ_self count) i (by omega)
      rw [if_neg (by omega)]
      exact ih (fun i hi => apart i (Nat.lt_succ_of_lt hi)) (by omega)

end Mem

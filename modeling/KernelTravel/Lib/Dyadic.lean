import Mathlib.Data.List.Pairwise
import Mathlib.Data.Nat.Bitwise

/-!
# Dyadic blocks and tilings

A block `(p, k)` consists of the `2 ^ k` numbers from `p` on. The buddy of an aligned
block differs from it in bit `k`, and the two together are an aligned block of the next
order. A tiling of a set is a list of aligned, pairwise disjoint blocks that cover it;
tilings are closed under reordering, joining two buddies and splitting a block.
-/

namespace Dyadic

abbrev Block := Nat × Nat

/-- The numbers of a block. -/
def In (x : Nat) (b : Block) : Prop := b.1 ≤ x ∧ x < b.1 + 2 ^ b.2

def Aligned (b : Block) : Prop := 2 ^ b.2 ∣ b.1

def Apart (b c : Block) : Prop := ∀ x, ¬(In x b ∧ In x c)

theorem Apart.symm {b c : Block} (h : Apart b c) : Apart c b := fun x hx => h x hx.symm

theorem in_first (p k : Nat) : In p (p, k) :=
  ⟨Nat.le_refl _, Nat.lt_add_of_pos_right (Nat.two_pow_pos _)⟩

theorem apart_iff {b c : Block} : Apart b c ↔ b.1 + 2 ^ b.2 ≤ c.1 ∨ c.1 + 2 ^ c.2 ≤ b.1 := by
  have hb := Nat.two_pow_pos b.2
  have hc := Nat.two_pow_pos c.2
  constructor
  · intro h
    by_contra hmeet
    exact h (max b.1 c.1) ⟨⟨by omega, by omega⟩, ⟨by omega, by omega⟩⟩
  · rintro h x ⟨⟨_, _⟩, ⟨_, _⟩⟩
    omega

instance (b c : Block) : Decidable (Apart b c) := decidable_of_iff _ apart_iff.symm

instance (b : Block) : Decidable (Aligned b) := inferInstanceAs (Decidable (_ ∣ _))

/-! ## Buddies -/

theorem even_xor_one (m : Nat) : 2 * m ^^^ 1 = 2 * m + 1 := by
  apply Nat.eq_of_testBit_eq
  intro i
  cases i with
  | zero => simp [Nat.testBit_zero]
  | succ i => simp [Nat.testBit_succ]

/-- The left half of a pair: its buddy is the right half, and it starts the pair. -/
theorem buddy_even (k m : Nat) : 2 ^ k * (2 * m) ^^^ 2 ^ k = 2 ^ k * (2 * m + 1) := by
  have shift : ∀ n, 2 ^ k * n = n <<< k := fun n => by rw [Nat.shiftLeft_eq, Nat.mul_comm]
  have one : 2 ^ k = 1 <<< k := by rw [Nat.shiftLeft_eq, Nat.one_mul]
  rw [shift, shift, one, ← Nat.shiftLeft_xor_distrib, even_xor_one]

theorem buddy_odd (k m : Nat) : 2 ^ k * (2 * m + 1) ^^^ 2 ^ k = 2 ^ k * (2 * m) := by
  rw [← buddy_even, Nat.xor_assoc, Nat.xor_self, Nat.xor_zero]

theorem and_buddy (k m : Nat) : 2 ^ k * (2 * m) &&& 2 ^ k * (2 * m + 1) = 2 ^ k * (2 * m) := by
  have shift : ∀ n, 2 ^ k * n = n <<< k := fun n => by rw [Nat.shiftLeft_eq, Nat.mul_comm]
  have pair : 2 * m &&& (2 * m + 1) = 2 * m := by
    apply Nat.eq_of_testBit_eq
    intro i
    cases i with
    | zero => simp [Nat.testBit_zero]
    | succ i =>
      have half : (2 * m + 1) / 2 = m := by omega
      rw [Nat.testBit_and, Nat.testBit_succ, Nat.testBit_succ, half]
      simp
  rw [shift, shift, ← Nat.shiftLeft_and_distrib, pair]

variable {p k : Nat}

/-- An aligned block and its buddy are the halves of the block that starts at the
bits they have in common. -/
theorem buddy_cases (h : Aligned (p, k)) : ∃ q, Aligned (q, k + 1) ∧ p &&& (p ^^^ 2 ^ k) = q ∧
      ((p = q ∧ p ^^^ 2 ^ k = q + 2 ^ k) ∨ (p = q + 2 ^ k ∧ p ^^^ 2 ^ k = q)) := by
  obtain ⟨m, hm⟩ : 2 ^ k ∣ p := h
  subst hm
  have aligned : ∀ j, Aligned (2 ^ k * (2 * j), k + 1) :=
    fun j => ⟨j, by rw [Nat.pow_succ, Nat.mul_assoc]⟩
  rcases Nat.even_or_odd' m with ⟨j, rfl | rfl⟩
  · refine ⟨_, aligned j, ?_, .inl ⟨rfl, ?_⟩⟩
    · rw [buddy_even, and_buddy]
    · rw [buddy_even, Nat.mul_add, Nat.mul_one]
  · refine ⟨_, aligned j, ?_, .inr ⟨?_, ?_⟩⟩
    · rw [buddy_odd, Nat.and_comm, and_buddy]
    · rw [Nat.mul_add, Nat.mul_one]
    · rw [buddy_odd]

theorem in_succ (x p k : Nat) : In x (p, k + 1) ↔ In x (p, k) ∨ In x (p + 2 ^ k, k) := by
  simp only [In, Nat.pow_succ]
  omega

theorem apart_halves (p k : Nat) : Apart (p, k) (p + 2 ^ k, k) := by
  rintro x ⟨⟨_, below⟩, ⟨above, _⟩⟩
  simp only at below above
  omega

theorem Aligned.halves (h : Aligned (p, k + 1)) : Aligned (p, k) ∧ Aligned (p + 2 ^ k, k) := by
  obtain ⟨m, hm⟩ := h
  simp only at hm
  have left : 2 ^ k ∣ p := ⟨2 * m, by rw [hm, Nat.pow_succ, Nat.mul_assoc]⟩
  exact ⟨left, Nat.dvd_add left (Nat.dvd_refl _)⟩

/-- A block is its lower part of order `low` and the upper halves cut off on the way there. -/
theorem in_cut {low : Nat} (h : low ≤ k) (x : Nat) :
    In x (p, k) ↔ In x (p, low) ∨ ∃ i, low ≤ i ∧ i < k ∧ In x (p + 2 ^ i, i) := by
  induction k, h using Nat.le_induction with
  | base =>
    refine ⟨.inl, ?_⟩
    rintro (hx | ⟨i, hi, hlt, -⟩)
    · exact hx
    · exact absurd hlt (Nat.not_lt.mpr hi)
  | succ k h ih =>
    rw [in_succ, ih]
    constructor
    · rintro ((hx | ⟨i, hi, hlt, hx⟩) | hx)
      · exact .inl hx
      · exact .inr ⟨i, hi, Nat.lt_succ_of_lt hlt, hx⟩
      · exact .inr ⟨k, h, Nat.lt_succ_self k, hx⟩
    · rintro (hx | ⟨i, hi, hlt, hx⟩)
      · exact .inl (.inl hx)
      · rcases Nat.lt_succ_iff_lt_or_eq.mp hlt with hlt | rfl
        · exact .inl (.inr ⟨i, hi, hlt, hx⟩)
        · exact .inr hx

theorem pairwise_halves {bs : List Block} (h : ((p, k + 1) :: bs).Pairwise Apart) :
    ((p, k) :: (p + 2 ^ k, k) :: bs).Pairwise Apart := by
  obtain ⟨whole, hrest⟩ := List.pairwise_cons.mp h
  refine List.pairwise_cons.mpr ⟨?_, List.pairwise_cons.mpr ⟨?_, hrest⟩⟩
  · refine List.forall_mem_cons.mpr ⟨apart_halves p k, ?_⟩
    exact fun c hc x hx => whole c hc x ⟨(in_succ x p k).mpr (.inl hx.1), hx.2⟩
  · exact fun c hc x hx => whole c hc x ⟨(in_succ x p k).mpr (.inr hx.1), hx.2⟩

/-! ## Tilings -/

/-- Disjoint aligned blocks of order below `n` that cover the set `S`. -/
structure Tiling (n : Nat) (blocks : List Block) (S : Nat → Prop) : Prop where
  apart : blocks.Pairwise Apart
  aligned : ∀ b ∈ blocks, Aligned b
  order : ∀ b ∈ blocks, b.2 < n
  covers : ∀ x, (∃ b ∈ blocks, In x b) ↔ S x

namespace Tiling

variable {n : Nat} {bs cs : List Block} {S : Nat → Prop}

theorem nil (n : Nat) : Tiling n [] fun _ => False :=
  ⟨.nil, by simp, by simp, by simp⟩

theorem perm (h : Tiling n bs S) (hperm : bs.Perm cs) : Tiling n cs S where
  apart := (hperm.pairwise_iff Apart.symm).mp h.apart
  aligned b hb := h.aligned b (hperm.mem_iff.mpr hb)
  order b hb := h.order b (hperm.mem_iff.mpr hb)
  covers x := by
    rw [← h.covers x]
    exact exists_congr fun b => and_congr_left' hperm.mem_iff.symm

/-- A block outside the tiled set extends it. -/
theorem cons (h : Tiling n bs S) {b : Block} (aligned : Aligned b) (order : b.2 < n)
    (fresh : ∀ x, In x b → ¬S x) : Tiling n (b :: bs) fun x => In x b ∨ S x where
  apart := List.pairwise_cons.mpr
    ⟨fun c hc x hx => fresh x hx.1 ((h.covers x).mp ⟨c, hc, hx.2⟩), h.apart⟩
  aligned := List.forall_mem_cons.mpr ⟨aligned, h.aligned⟩
  order := List.forall_mem_cons.mpr ⟨order, h.order⟩
  covers x := by simp only [List.mem_cons, exists_eq_or_imp, h.covers x]

/-- Replace the two halves of a block by the block. -/
theorem join (h : Tiling n ((p, k) :: (p + 2 ^ k, k) :: bs) S) (aligned : Aligned (p, k + 1))
    (order : k + 1 < n) : Tiling n ((p, k + 1) :: bs) S where
  apart := by
    obtain ⟨left, hrest⟩ := List.pairwise_cons.mp h.apart
    obtain ⟨right, hrest⟩ := List.pairwise_cons.mp hrest
    refine List.pairwise_cons.mpr ⟨?_, hrest⟩
    rintro c hc x ⟨hx, hxc⟩
    rcases (in_succ x p k).mp hx with hx | hx
    · exact left c (List.mem_cons_of_mem _ hc) x ⟨hx, hxc⟩
    · exact right c hc x ⟨hx, hxc⟩
  aligned := List.forall_mem_cons.mpr
    ⟨aligned, fun b hb => h.aligned b (by simp [hb])⟩
  order := List.forall_mem_cons.mpr ⟨order, fun b hb => h.order b (by simp [hb])⟩
  covers x := by
    rw [← h.covers x]
    simp only [List.mem_cons, exists_eq_or_imp, in_succ, or_assoc]

/-- Replace a block by its halves. -/
theorem split (h : Tiling n ((p, k + 1) :: bs) S) :
    Tiling n ((p, k) :: (p + 2 ^ k, k) :: bs) S where
  apart := pairwise_halves h.apart
  aligned := by
    obtain ⟨left, right⟩ := (h.aligned _ List.mem_cons_self).halves
    exact List.forall_mem_cons.mpr ⟨left, List.forall_mem_cons.mpr
      ⟨right, fun b hb => h.aligned b (List.mem_cons_of_mem _ hb)⟩⟩
  order := by
    have whole : k + 1 < n := h.order _ List.mem_cons_self
    exact List.forall_mem_cons.mpr ⟨Nat.lt_of_succ_lt whole, List.forall_mem_cons.mpr
      ⟨Nat.lt_of_succ_lt whole, fun b hb => h.order b (List.mem_cons_of_mem _ hb)⟩⟩
  covers x := by
    rw [← h.covers x]
    simp only [List.mem_cons, exists_eq_or_imp, in_succ, or_assoc]

/-- Joining a block with its buddy, whichever of the two comes first. -/
theorem join_buddy (h : Tiling n ((p, k) :: (p ^^^ 2 ^ k, k) :: bs) S) (order : k + 1 < n) :
    Tiling n (((p ^^^ 2 ^ k) &&& p, k + 1) :: bs) S := by
  obtain ⟨q, aligned, common, ⟨hp, hb⟩ | ⟨hp, hb⟩⟩ :=
    buddy_cases (h.aligned _ List.mem_cons_self)
  all_goals
    rw [Nat.and_comm, common]
    rw [hb] at h
  · rw [hp] at h
    exact h.join aligned order
  · rw [hp] at h
    exact (h.perm (List.Perm.swap _ _ _)).join aligned order

end Tiling

end Dyadic

import Mathlib.Data.List.Basic

/-!
# Ring buffers

A buffer of `n` cells with a position to write at and a position to read from. One cell
stays free, so that the two positions are equal exactly if the buffer is empty.
`Ring.Holds` states which list the buffer holds, in the order in which it is read.
-/

namespace Ring

variable {α : Type*}

/-- The cells from `tail` on hold `xs`, and `head` is the cell after them. -/
structure Holds (n : Nat) (buf : Nat → α) (head tail : Nat) (xs : List α) : Prop where
  length : xs.length < n
  tail_lt : tail < n
  head_eq : head = (tail + xs.length) % n
  cell : ∀ i x, xs[i]? = some x → buf ((tail + i) % n) = x

variable {n head tail : Nat} {buf : Nat → α} {xs : List α}

theorem holds_nil (hn : 0 < n) (pos : Nat) (hpos : pos < n) : Holds n buf pos pos [] where
  length := hn
  tail_lt := hpos
  head_eq := (Nat.mod_eq_of_lt hpos).symm
  cell i x h := by
    rw [List.getElem?_nil] at h
    cases h

/-- Two offsets below `n` from one position meet only if they are equal. -/
theorem add_mod_inj {a i j : Nat} (ha : a < n) (hi : i < n) (hj : j < n)
    (h : (a + i) % n = (a + j) % n) : i = j := by
  rcases Nat.lt_or_ge (a + i) n with hi' | hi'
  · rcases Nat.lt_or_ge (a + j) n with hj' | hj'
    · rw [Nat.mod_eq_of_lt hi', Nat.mod_eq_of_lt hj'] at h
      omega
    · rw [Nat.mod_eq_of_lt hi', Nat.mod_eq_sub_mod hj', Nat.mod_eq_of_lt (by omega)] at h
      omega
  · rcases Nat.lt_or_ge (a + j) n with hj' | hj'
    · rw [Nat.mod_eq_of_lt hj', Nat.mod_eq_sub_mod hi', Nat.mod_eq_of_lt (by omega)] at h
      omega
    · rw [Nat.mod_eq_sub_mod hi', Nat.mod_eq_sub_mod hj', Nat.mod_eq_of_lt (by omega),
        Nat.mod_eq_of_lt (by omega)] at h
      omega

/-- The test for the empty buffer. -/
theorem Holds.head_eq_tail_iff (h : Holds n buf head tail xs) : head = tail ↔ xs = [] := by
  have htail : (tail + 0) % n = tail := Nat.mod_eq_of_lt h.tail_lt
  constructor
  · intro heq
    rw [h.head_eq] at heq
    have hlen := add_mod_inj h.tail_lt h.length (Nat.lt_of_le_of_lt (Nat.zero_le _) h.length)
      (heq.trans htail.symm)
    exact List.eq_nil_of_length_eq_zero hlen
  · rintro rfl
    rw [h.head_eq]
    exact htail

/-- The test for the full buffer. -/
theorem Holds.succ_head_eq_tail_iff (h : Holds n buf head tail xs) :
    (head + 1) % n = tail ↔ xs.length + 1 = n := by
  have hlen := h.length
  have htail : (tail + 0) % n = tail := Nat.mod_eq_of_lt h.tail_lt
  rw [h.head_eq, Nat.mod_add_mod, Nat.add_assoc]
  constructor
  · intro heq
    by_contra hne
    have hzero := add_mod_inj h.tail_lt (show xs.length + 1 < n by omega)
      (Nat.lt_of_le_of_lt (Nat.zero_le _) hlen) (heq.trans htail.symm)
    omega
  · intro heq
    rw [heq, Nat.add_mod_right]
    exact htail

theorem Holds.push (h : Holds n buf head tail xs) (hroom : xs.length + 1 < n) (x : α) :
    Holds n (Function.update buf head x) ((head + 1) % n) tail (xs ++ [x]) where
  length := by
    rw [List.length_append, List.length_singleton]
    exact hroom
  tail_lt := h.tail_lt
  head_eq := by
    rw [h.head_eq, Nat.mod_add_mod, List.length_append, List.length_singleton, Nat.add_assoc]
  cell i y hi := by
    rcases Nat.lt_trichotomy i xs.length with hlt | heq | hgt
    · rw [List.getElem?_append_left hlt] at hi
      have hne : (tail + i) % n ≠ head := by
        rw [h.head_eq]
        intro hmod
        have := add_mod_inj h.tail_lt (Nat.lt_trans hlt h.length) h.length hmod
        omega
      rw [Function.update_of_ne hne]
      exact h.cell i y hi
    · subst heq
      rw [List.getElem?_append_right (Nat.le_refl _), Nat.sub_self, List.getElem?_cons_zero,
        Option.some.injEq] at hi
      rw [← h.head_eq, Function.update_self]
      exact hi
    · rw [List.getElem?_eq_none (by rw [List.length_append, List.length_singleton]; omega)] at hi
      cases hi

theorem Holds.pop {x : α} (h : Holds n buf head tail (x :: xs)) :
    buf tail = x ∧ Holds n buf head ((tail + 1) % n) xs := by
  have hlen := h.length
  rw [List.length_cons] at hlen
  have hfirst := h.cell 0 x rfl
  rw [Nat.add_zero, Nat.mod_eq_of_lt h.tail_lt] at hfirst
  refine ⟨hfirst, by omega, Nat.mod_lt _ (by omega), ?_, fun i y hi => ?_⟩
  · rw [h.head_eq, List.length_cons, Nat.mod_add_mod, Nat.add_assoc, Nat.add_comm 1]
  · have hcell := h.cell (i + 1) y hi
    rw [Nat.mod_add_mod, Nat.add_assoc, Nat.add_comm 1]
    exact hcell

end Ring

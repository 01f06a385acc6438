import KernelTravel.Lib.Bytes

/-!
# Contents scattered over a memory

The bytes of a content need not lie side by side: an address function says where each
position is held. `Wrote` is the effect of a write to a range of positions, and its laws
put it together from writes to pieces that are contiguous in the memory.
-/

namespace Scatter

variable {addr : Nat → Nat} {off n k : Nat} {src : Nat → Byte} {m m' m'' : Nat → Byte}

/-- The positions from `off` on hold the first `n` bytes of `src`; no other address changes. -/
structure Wrote (addr : Nat → Nat) (off n : Nat) (src m m' : Nat → Byte) : Prop where
  inside : ∀ j < n, m' (addr (off + j)) = src j
  outside : ∀ a, (∀ j < n, addr (off + j) ≠ a) → m' a = m a

theorem Wrote.nil : Wrote addr off 0 src m m :=
  ⟨fun _ hj => absurd hj (Nat.not_lt_zero _), fun _ _ => rfl⟩

/-- A piece that is contiguous in the memory is written by a block copy. -/
theorem Wrote.blit {base : Nat} (contiguous : ∀ j < n, addr (off + j) = base + j) :
    Wrote addr off n src m (Mem.blit m base n src) where
  inside j hj := by
    rw [contiguous j hj, Mem.blit_apply, if_pos (by omega), Nat.add_sub_cancel_left]
  outside a ha := by
    rw [Mem.blit_apply, if_neg]
    rintro ⟨hle, hlt⟩
    refine ha (a - base) (by omega) ?_
    rw [contiguous _ (by omega)]
    omega

/-- A write followed by the write of the rest. -/
theorem Wrote.append (h : Wrote addr off n src m m')
    (h' : Wrote addr (off + n) k (fun j => src (n + j)) m' m'')
    (apart : ∀ i < n, ∀ j < k, addr (off + i) ≠ addr (off + n + j)) :
    Wrote addr off (n + k) src m m'' where
  inside j hj := by
    rcases Nat.lt_or_ge j n with hlt | hge
    · rw [h'.outside _ fun i hi => (apart j hlt i hi).symm, h.inside j hlt]
    · obtain ⟨i, rfl⟩ := Nat.exists_eq_add_of_le hge
      rw [← Nat.add_assoc]
      exact h'.inside i (by omega)
  outside a ha := by
    rw [h'.outside a, h.outside a]
    · intro i hi
      exact ha i (by omega)
    · intro i hi
      rw [Nat.add_assoc]
      exact ha (n + i) (by omega)

/-- Reading the range back, where positions have addresses of their own. -/
theorem Wrote.apply (h : Wrote addr off n src m m')
    (apart : ∀ j < n, addr (off + j) = addr k → off + j = k) :
    m' (addr k) = if off ≤ k ∧ k < off + n then src (k - off) else m (addr k) := by
  split
  · next hin =>
    obtain ⟨j, rfl⟩ := Nat.exists_eq_add_of_le hin.1
    rw [Nat.add_sub_cancel_left]
    exact h.inside j (by omega)
  · next hout =>
    refine h.outside _ fun j hj heq => hout ?_
    have := apart j hj heq
    omega

end Scatter

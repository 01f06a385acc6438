import KernelTravel.Lib.Bytes

/-!
# Writes one after another

A patch is a list of bytes and the address of the first of them. Patches that are written one
after another may meet, and then the last one is seen.

A `Space` is a memory in which only some addresses can be accessed.
-/

structure Patch where
  pos : Nat
  bytes : List Byte

namespace Patch

variable {m : Nat → Byte} {p : Patch} {ps : List Patch} {x : Nat} {b : Byte}

/-- The byte of the patch for an address. -/
def get? (p : Patch) (x : Nat) : Option Byte := if p.pos ≤ x then p.bytes[x - p.pos]? else none

def write (m : Nat → Byte) (p : Patch) : Nat → Byte := fun x => (p.get? x).getD (m x)

def writeAll (m : Nat → Byte) (ps : List Patch) : Nat → Byte := ps.foldl write m

/-- The memory has the bytes of the patch. -/
def Present (m : Nat → Byte) (p : Patch) : Prop := ∀ x b, p.get? x = some b → m x = b

theorem get?_pos (i : Nat) : p.get? (p.pos + i) = p.bytes[i]? := by
  rw [get?, if_pos (Nat.le_add_right ..), Nat.add_sub_cancel_left]

theorem get?_eq_some_iff : p.get? x = some b ↔ ∃ i, x = p.pos + i ∧ p.bytes[i]? = some b := by
  constructor
  · intro h
    rw [get?, Option.ite_none_right_eq_some] at h
    exact ⟨x - p.pos, by omega, h.2⟩
  · rintro ⟨i, rfl, h⟩
    rw [get?_pos, h]

/-- Only the addresses of the patch have bytes. -/
theorem bounds_of_get? (h : p.get? x = some b) : p.pos ≤ x ∧ x < p.pos + p.bytes.length := by
  obtain ⟨i, rfl, hi⟩ := get?_eq_some_iff.mp h
  obtain ⟨hlt, -⟩ := List.getElem?_eq_some_iff.mp hi
  omega

theorem get?_eq_none_iff : p.get? x = none ↔ x < p.pos ∨ p.pos + p.bytes.length ≤ x := by
  constructor
  · intro h
    by_contra hin
    push Not at hin
    obtain ⟨i, rfl⟩ := Nat.exists_eq_add_of_le hin.1
    rw [get?_pos, List.getElem?_eq_none_iff] at h
    omega
  · intro h
    cases hget : p.get? x with
    | none => rfl
    | some b =>
      have := bounds_of_get? hget
      omega

theorem writeAll_append (ps qs : List Patch) :
    writeAll m (ps ++ qs) = writeAll (writeAll m ps) qs :=
  List.foldl_append

theorem writeAll_of_uncovered (h : ∀ p ∈ ps, p.get? x = none) : writeAll m ps x = m x := by
  induction ps generalizing m with
  | nil => rfl
  | cons p ps ih =>
    obtain ⟨hp, hps⟩ := List.forall_mem_cons.mp h
    rw [writeAll, List.foldl_cons, ← writeAll, ih hps, write, hp, Option.getD_none]

/-- Where a patch is written, the byte of some patch is seen. -/
theorem exists_get?_writeAll (h : ∃ p ∈ ps, p.get? x ≠ none) :
    ∃ q ∈ ps, q.get? x = some (writeAll m ps x) := by
  induction ps generalizing m with
  | nil =>
    obtain ⟨p, hp, -⟩ := h
    exact absurd hp List.not_mem_nil
  | cons p ps ih =>
    rw [writeAll, List.foldl_cons, ← writeAll]
    by_cases hlater : ∃ q ∈ ps, q.get? x ≠ none
    · obtain ⟨q, hq, hseen⟩ := ih hlater
      exact ⟨q, List.mem_cons_of_mem p hq, hseen⟩
    · -- the first patch is the last one to write the address
      push Not at hlater
      obtain ⟨q, hq, hx⟩ := h
      have hfirst : p.get? x ≠ none := by
        rcases List.mem_cons.mp hq with rfl | hq
        · exact hx
        · exact absurd (hlater q hq) hx
      obtain ⟨b, hb⟩ := Option.ne_none_iff_exists'.mp hfirst
      refine ⟨p, List.mem_cons_self, ?_⟩
      rw [writeAll_of_uncovered hlater, write, hb, Option.getD_some]

end Patch

/-- A memory of which only some addresses can be accessed. -/
structure Space where
  bytes : Nat → Byte
  mapped : Nat → Bool

namespace Space

def Covers (u : Space) (p : Patch) : Prop := ∀ i < p.bytes.length, u.mapped (p.pos + i) = true

instance (u : Space) (p : Patch) : Decidable (u.Covers p) :=
  inferInstanceAs (Decidable (∀ i < p.bytes.length, u.mapped (p.pos + i) = true))

/-- A write to an address that is not mapped does not come back. -/
def put (u : Space) (p : Patch) : Option Space :=
  if u.Covers p then some { u with bytes := p.write u.bytes } else none

end Space

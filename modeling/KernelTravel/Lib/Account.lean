import Mathlib.Tactic.Common

/-!
# Accounts

A program that changes a state and may stop is a function in `StateT σ Option`. An account weighs
the states. `Account.Gains` says of a program that, whenever it completes, it has raised the weight
by an amount that may depend on its answer; on the way it has kept an invariant and a relation
between the state before and the state after. The rules follow the program.
-/

universe u

structure Account (σ : Type u) where
  inv : σ → Prop
  rel : σ → σ → Prop
  weight : σ → Int
  refl : ∀ s, rel s s
  trans : ∀ {s t u}, rel s t → rel t u → rel s u

namespace Account

/-- The program does not complete. -/
def stop {σ α : Type u} : StateT σ Option α := fun _ => none

def when {σ : Type u} (c : Prop) [Decidable c] (f : StateT σ Option PUnit) :
    StateT σ Option PUnit :=
  if c then f else pure ⟨⟩

variable {σ α β : Type u} (A : Account σ)

/-- A completed run of `f` has raised the weight by at least `k` of its answer. -/
def Gains (f : StateT σ Option α) (k : α → Int) : Prop :=
  ∀ s a t, A.inv s → f s = some (a, t) → A.inv t ∧ A.rel s t ∧ A.weight s + k a ≤ A.weight t

namespace Gains

variable {A} {f : StateT σ Option α} {g : α → StateT σ Option β} {k k' : α → Int} {l : β → Int}

theorem mono (h : A.Gains f k) (hk : ∀ a, k' a ≤ k a) : A.Gains f k' := by
  intro s a t inv run
  obtain ⟨inv', rel, hle⟩ := h s a t inv run
  exact ⟨inv', rel, Int.le_trans (Int.add_le_add_left (hk a) _) hle⟩

theorem pure {a : α} (hk : k a ≤ 0) : A.Gains (pure a) k := by
  intro s b t inv run
  cases run
  exact ⟨inv, A.refl s, by omega⟩

theorem stop : A.Gains Account.stop k := nofun

/-- What the first program has gained counts for the whole. -/
theorem bind (hf : A.Gains f k) (hg : ∀ a, A.Gains (g a) fun b => l b - k a) :
    A.Gains (f >>= g) l := by
  intro s b u inv run
  obtain ⟨⟨a, t⟩, hfirst, hrest⟩ := Option.bind_eq_some_iff.mp run
  obtain ⟨inv', rel, hle⟩ := hf s a t inv hfirst
  obtain ⟨inv'', rel', hle'⟩ := hg a t b u inv' hrest
  dsimp only at hle'
  exact ⟨inv'', A.trans rel rel', by omega⟩

theorem ite {c : Prop} [Decidable c] {f' : StateT σ Option α} (ht : c → A.Gains f k)
    (he : ¬c → A.Gains f' k) : A.Gains (if c then f else f') k := by
  split
  · exact ht ‹c›
  · exact he ‹¬c›

end Gains

end Account

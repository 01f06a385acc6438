import Mathlib.Algebra.BigOperators.Group.Finset.Piecewise
import Mathlib.Algebra.Order.BigOperators.Group.Finset

/-!
# Counting the cells of a table

A table has rows and, in each row, cells that are empty or hold an entry. `Tally.total` is the
number of cells that hold a given entry; the lemmas say how it changes when a cell is written
and when rows come and go.
-/

namespace Tally

open Function

variable {ρ κ β : Type*} [DecidableEq β]

/-- 1 if the cell holds `b`. -/
def one (cell : Option β) (b : β) : Nat := if cell = some b then 1 else 0

def row (cells : Finset κ) (f : κ → Option β) (b : β) : Nat := ∑ c ∈ cells, one (f c) b

def total (rows : Finset ρ) (cells : Finset κ) (table : ρ → κ → Option β) (b : β) : Nat :=
  ∑ r ∈ rows, row cells (table r) b

variable {rows : Finset ρ} {cells : Finset κ} {table : ρ → κ → Option β} {f : κ → Option β}
variable {r : ρ} {c : κ} {b : β}

@[simp] theorem one_none : one none b = 0 := rfl

@[simp] theorem one_self : one (some b) b = 1 := if_pos rfl

theorem one_of_ne {cell : Option β} (h : cell ≠ some b) : one cell b = 0 := if_neg h

theorem row_eq_zero (h : ∀ c ∈ cells, f c ≠ some b) : row cells f b = 0 :=
  Finset.sum_eq_zero fun c hc => one_of_ne (h c hc)

theorem row_pos (hc : c ∈ cells) (h : f c = some b) : 0 < row cells f b := by
  have hle : one (f c) b ≤ row cells f b :=
    Finset.single_le_sum (f := fun x => one (f x) b) (fun _ _ => Nat.zero_le _) hc
  rw [h, one_self] at hle
  exact hle

theorem row_le_card : row cells f b ≤ cells.card := by
  rw [row, Finset.card_eq_sum_ones]
  refine Finset.sum_le_sum fun c _ => ?_
  rw [one]
  split <;> omega

theorem row_le_total (hr : r ∈ rows) : row cells (table r) b ≤ total rows cells table b :=
  Finset.single_le_sum (f := fun x => row cells (table x) b) (fun _ _ => Nat.zero_le _) hr

theorem total_le : total rows cells table b ≤ rows.card * cells.card :=
  Finset.sum_le_card_nsmul rows _ _ fun _ _ => row_le_card

/-- One summand is replaced. -/
theorem sum_update {s : Finset κ} [DecidableEq κ] (hc : c ∈ s) (g : κ → Nat) (v : Nat) :
    ∑ x ∈ s, update g c v x + g c = ∑ x ∈ s, g x + v := by
  rw [Finset.sum_update_of_mem hc, Finset.sum_eq_add_sum_sdiff_singleton_of_mem hc g]
  omega

theorem row_update [DecidableEq κ] (hc : c ∈ cells) (v : Option β) :
    row cells (update f c v) b + one (f c) b = row cells f b + one v b := by
  have hcomp : (fun x => one (update f c v x) b) =
      update (fun x => one (f x) b) c (one v b) := by
    funext x
    exact Function.apply_update (fun _ o => one o b) f c v x
  rw [row, hcomp]
  exact sum_update hc (fun x => one (f x) b) (one v b)

variable [DecidableEq ρ]

/-- A row is replaced. -/
theorem total_update_row (hr : r ∈ rows) (g : κ → Option β) :
    total rows cells (update table r g) b + row cells (table r) b =
      total rows cells table b + row cells g b := by
  have hcomp : (fun x => row cells (update table r g x) b) =
      update (fun x => row cells (table x) b) r (row cells g b) := by
    funext x
    exact Function.apply_update (fun _ o => row cells o b) table r g x
  rw [total, hcomp]
  exact sum_update hr (fun x => row cells (table x) b) (row cells g b)

/-- A cell is written. -/
theorem total_update [DecidableEq κ] (hr : r ∈ rows) (hc : c ∈ cells) (v : Option β) :
    total rows cells (update table r (update (table r) c v)) b + one (table r c) b =
      total rows cells table b + one v b := by
  have hrow : row cells (update (table r) c v) b + one (table r c) b =
    row cells (table r) b + one v b := row_update hc v
  have htotal : total rows cells (update table r (update (table r) c v)) b +
      row cells (table r) b =
    total rows cells table b + row cells (update (table r) c v) b :=
    total_update_row hr _
  omega

/-- A new row appears. -/
theorem total_insert (hr : r ∉ rows) (g : κ → Option β) :
    total (insert r rows) cells (update table r g) b =
      total rows cells table b + row cells g b := by
  have hrest : ∑ x ∈ rows, row cells (update table r g x) b = total rows cells table b := by
    refine Finset.sum_congr rfl fun x hx => ?_
    have hne : x ≠ r := by
      rintro rfl
      exact hr hx
    rw [update_of_ne hne]
  rw [total, Finset.sum_insert hr, update_self, hrest, Nat.add_comm]

/-- A row goes. -/
theorem total_erase (hr : r ∈ rows) :
    total (rows.erase r) cells table b + row cells (table r) b = total rows cells table b :=
  Finset.sum_erase_add rows (fun x => row cells (table x) b) hr

end Tally

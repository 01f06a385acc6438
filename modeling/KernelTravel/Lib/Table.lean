import Mathlib.Data.List.Range
import Mathlib.Order.Lattice

/-!
# Tables with a number of entries in use

A table is a function on positions of which the first `n` are in use. Two operations on one
are here: a search for the last key that is at most a value, and a move of a run of cells one
place up.
-/

namespace KernelTravel.Table

section bisect

variable {α : Type} [LinearOrder α]

/-- Halve the closed interval from `l` to `r`. A table has `room` readable positions; the
search answers `none` when it would read behind them, which a table that claims more
entries than it has room for can make it do, and when its rounds are used up. -/
def bisectLoop (key : Nat → α) (room : Nat) (x : α) : Nat → Nat → Nat → Option Nat
  | 0, _, _ => none
  | fuel + 1, l, r =>
    if l ≤ r then
      let m := l + (r - l) / 2
      if m < room then
        if x < key m then bisectLoop key room x fuel l (m - 1)
        else bisectLoop key room x fuel (m + 1) r
      else none
    else some (l - 1)

/-- The last of `n` positions whose key is at most `x`, and position 0, which is never read,
when no later one is. -/
def bisect (key : Nat → α) (room : Nat) (x : α) (n : Nat) : Option Nat :=
  bisectLoop key room x n 1 (n - 1)

variable {key : Nat → α} {room n : Nat} {x : α}

/-- What the interval keeps: the keys before it are at most `x`, those behind it are above. -/
theorem bisectLoop_spec (mono : ∀ i j, i ≤ j → j < n → key i ≤ key j) (hroom : n ≤ room) :
    ∀ fuel l r, 0 < l → r + 1 < l + fuel → l ≤ r + 1 → r < n → (∀ i, 0 < i → i < l → key i ≤ x) →
      (∀ i, r < i → i < n → x < key i) →
      ∃ p, bisectLoop key room x fuel l r = some p ∧ p < n ∧ (0 < p → key p ≤ x) ∧
        ∀ i, p < i → i < n → x < key i := by
  intro fuel
  induction fuel with
  | zero =>
    -- the interval is empty before the rounds are used up
    intro l r hl hfuel hlr
    exact absurd hfuel (by omega)
  | succ fuel ih =>
    intro l r hl hfuel hlr hr hlow hhigh
    rw [bisectLoop]
    split
    case isFalse hstop =>
      exact ⟨l - 1, rfl, by omega, fun h0 => hlow _ h0 (by omega),
        fun i hi hn => hhigh i (by omega) hn⟩
    case isTrue hgo =>
      dsimp only
      rw [if_pos (by omega)]
      split
      case isTrue hlt =>
        exact ih l _ hl (by omega) (by omega) (by omega) hlow
          fun i hi hn => lt_of_lt_of_le hlt (mono _ i (by omega) hn)
      case isFalse hge =>
        exact ih _ r (by omega) (by omega) (by omega) hr
          (fun i h0 hi => (mono i _ (by omega) (by omega)).trans (not_lt.1 hge)) hhigh

/-- An answer does not depend on the room behind the positions that were read. -/
theorem bisectLoop_mono {fuel l r p room' : Nat} (hle : room ≤ room')
    (h : bisectLoop key room x fuel l r = some p) : bisectLoop key room' x fuel l r = some p := by
  induction fuel generalizing l r with
  | zero => cases h
  | succ fuel ih =>
    rw [bisectLoop] at h ⊢
    split
    case isFalse hstop =>
      rw [if_neg hstop] at h
      exact h
    case isTrue hgo =>
      rw [if_pos hgo] at h
      dsimp only at h ⊢
      split at h
      case isFalse => cases h
      case isTrue hroom =>
        rw [if_pos (hroom.trans_le hle)]
        split at h
        case isTrue hlt =>
          rw [if_pos hlt]
          exact ih h
        case isFalse hge =>
          rw [if_neg hge]
          exact ih h

theorem bisect_spec (mono : ∀ i j, i ≤ j → j < n → key i ≤ key j) (hroom : n ≤ room) (hn : 0 < n) :
    ∃ p, bisect key room x n = some p ∧ p < n ∧ (0 < p → key p ≤ x) ∧ ∀ i, p < i → i < n →
    x < key i :=
  bisectLoop_spec mono hroom n 1 (n - 1) (by omega) (by omega) (by omega) (by omega)
    (fun i h0 hi => by omega) (fun i hi hin => by omega)

/-- What an answer says, also in a table with less room than entries. -/
theorem bisect_eq_some (mono : ∀ i j, i ≤ j → j < n → key i ≤ key j) (hn : 0 < n) {p : Nat}
    (h : bisect key room x n = some p) :
    p < n ∧ (0 < p → key p ≤ x) ∧ ∀ i, p < i → i < n → x < key i := by
  obtain ⟨q, hq, hspec⟩ := bisect_spec (x := x) mono (Nat.le_max_right room n) hn
  obtain rfl : p = q :=
    Option.some.inj ((bisectLoop_mono (Nat.le_max_left room n) h).symm.trans hq)
  exact hspec

end bisect

section shiftUp

variable {α : Type}

/-- Copy the `n` cells from `i` on to the places one higher, lowest cell first. Each cell but
the first is overwritten before it is read, so the run ends as copies of its first cell:
only a run of at most one cell is moved. -/
def shiftUp (f : Nat → α) (i : Nat) : Nat → Nat → α
  | 0 => f
  | n + 1 => Function.update (shiftUp f i n) (i + n + 1) (shiftUp f i n (i + n))

end shiftUp

end KernelTravel.Table

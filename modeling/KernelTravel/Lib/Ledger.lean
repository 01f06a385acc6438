import Mathlib.Algebra.BigOperators.Intervals

/-!
# Ledgers of charged time

A ledger is a list of intervals of time, each charged to an owner, with the latest one first. In
a sequential ledger every interval starts when all earlier ones have ended. Then no instant is
charged twice, and neither an owner nor all of them together are charged more than the time that
has passed.
-/

namespace Ledger

structure Entry where
  owner : Nat
  start : Nat
  stop : Nat
  deriving DecidableEq, Repr

def Entry.length (e : Entry) : Int := e.stop - e.start

/-- The instants of the interval, without its end. -/
def Entry.Covers (e : Entry) (x : Nat) : Prop := e.start ≤ x ∧ x < e.stop

def total : List Entry → Int
  | [] => 0
  | e :: l => e.length + total l

/-- What is charged to `i`. -/
def spent : List Entry → Nat → Int
  | [], _ => 0
  | e :: l, i => (if e.owner = i then e.length else 0) + spent l i

/-- No instant belongs to two intervals. -/
def Once (l : List Entry) : Prop :=
  l.Pairwise fun e e' => ∀ x, ¬(e.Covers x ∧ e'.Covers x)

/-- All intervals lie between `lo` and `hi`, one after the other. -/
def Sequential (lo : Nat) : List Entry → Nat → Prop
  | [], hi => lo ≤ hi
  | e :: l, hi => e.start ≤ e.stop ∧ e.stop ≤ hi ∧ Sequential lo l e.start

variable {lo hi hi' b i n : Nat} {l : List Entry} {e : Entry}

theorem Sequential.mono (h : Sequential lo l hi) (hle : hi ≤ hi') : Sequential lo l hi' := by
  cases l with
  | nil => exact Nat.le_trans h hle
  | cons e l => exact ⟨h.1, h.2.1.trans hle, h.2.2⟩

theorem Sequential.stop_le (h : Sequential lo l hi) (he : e ∈ l) : e.stop ≤ hi := by
  induction l generalizing hi with
  | nil => cases he
  | cons e' l ih =>
    cases he with
    | head => exact h.2.1
    | tail _ he => exact (ih h.2.2 he).trans (h.1.trans h.2.1)

theorem Sequential.once (h : Sequential lo l hi) : Once l := by
  induction l generalizing hi with
  | nil => exact List.Pairwise.nil
  | cons e l ih =>
    refine List.Pairwise.cons (fun e' he' x hx => ?_) (ih h.2.2)
    -- the earlier interval has ended when this one starts
    have hstop : e'.stop ≤ e.start := h.2.2.stop_le he'
    exact absurd (hx.2.2.trans_le hstop) (Nat.not_lt.mpr hx.1.1)

theorem Sequential.total_le (h : Sequential lo l hi) : total l ≤ (hi : Int) - lo := by
  induction l generalizing hi with
  | nil =>
    have hle : lo ≤ hi := h
    rw [total]
    omega
  | cons e l ih =>
    have hrest := ih h.2.2
    have hstop := h.2.1
    rw [total, Entry.length]
    omega

/-- An owner that is charged nothing before `b` is not charged more than the time since `b`. -/
theorem Sequential.spent_le (h : Sequential lo l hi) (hb : ∀ e ∈ l, e.owner = i → b ≤ e.start)
    (hbh : b ≤ hi) : spent l i ≤ (hi : Int) - b := by
  induction l generalizing hi with
  | nil =>
    rw [spent]
    omega
  | cons e l ih =>
    have hb' : ∀ e ∈ l, e.owner = i → b ≤ e.start := fun e he => hb e (List.mem_cons_of_mem _ he)
    rw [spent]
    split
    next howner =>
      have hrest := ih h.2.2 hb' (hb e List.mem_cons_self howner)
      have hstop := h.2.1
      rw [Entry.length]
      omega
    next =>
      have hrest := ih (h.2.2.mono (h.1.trans h.2.1)) hb' hbh
      omega

theorem spent_of_forall_ne (h : ∀ e ∈ l, e.owner ≠ i) : spent l i = 0 := by
  induction l with
  | nil => rfl
  | cons e l ih =>
    rw [spent, if_neg (h e List.mem_cons_self), ih fun e he => h e (List.mem_cons_of_mem _ he)]
    rfl

/-- The sum over all owners. -/
theorem sum_spent (h : ∀ e ∈ l, e.owner < n) : ∑ i ∈ Finset.range n, spent l i = total l := by
  induction l with
  | nil => exact Finset.sum_const_zero
  | cons e l ih =>
    simp only [spent, total, Finset.sum_add_distrib, Finset.sum_ite_eq, Finset.mem_range]
    rw [if_pos (h e List.mem_cons_self), ih fun e he => h e (List.mem_cons_of_mem _ he)]

end Ledger

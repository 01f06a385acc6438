import KernelTravel.Lib.Run
import Mathlib.Order.Nat

/-!
# Infinite runs

A trace is an infinite run of a partial step function in which any position may also be
idle for the component that is looked at. Safety is an invariant of all positions. For
progress there is one rule: a condition that keeps a rank falling, and that keeps the
component from staying idle, is left.
-/

namespace Run

variable {σ : Type*} {α : Type*}

/-- Position `n` either takes the enabled input `ops n` or changes nothing. -/
def IsTrace (step : σ → α → Option σ) (cond : σ → α → Prop) (states : Nat → σ)
    (ops : Nat → Option α) : Prop :=
  ∀ n, match ops n with
    | none => states (n + 1) = states n
    | some a => cond (states n) a ∧ step (states n) a = some (states (n + 1))

variable {step : σ → α → Option σ} {cond : σ → α → Prop} {states : Nat → σ} {ops : Nat → Option α}

theorem IsTrace.idle (trace : IsTrace step cond states ops) {n : Nat} (h : ops n = none) :
    states (n + 1) = states n := by
  have hn := trace n
  rw [h] at hn
  exact hn

theorem IsTrace.taken (trace : IsTrace step cond states ops) {n : Nat} {a : α}
    (h : ops n = some a) : cond (states n) a ∧ step (states n) a = some (states (n + 1)) := by
  have hn := trace n
  rw [h] at hn
  exact hn

theorem IsTrace.invariant (trace : IsTrace step cond states ops) {I : σ → Prop}
    (start : I (states 0))
    (preserve : ∀ s a s', I s → cond s a → step s a = some s' → I s') (n : Nat) : I (states n) := by
  induction n with
  | zero => exact start
  | succ n ih =>
    cases h : ops n with
    | none =>
      rw [trace.idle h]
      exact ih
    | some a =>
      obtain ⟨hcond, hstep⟩ := trace.taken h
      exact preserve _ a _ ih hcond hstep

/-- A rank that falls with every step while `P` holds, and a step that comes while `P` holds,
end `P`. -/
theorem IsTrace.leaves (trace : IsTrace step cond states ops) (P : σ → Prop)
    (rank : σ → Nat) {n : Nat} (progress : ∀ m ≥ n, P (states m) → ∃ k ≥ m, ops k ≠ none)
    (descent : ∀ m ≥ n, ∀ a, ops m = some a → P (states m) → P (states (m + 1)) →
      rank (states (m + 1)) < rank (states m)) : ∃ m ≥ n, ¬P (states m) := by
  by_contra hall
  have hP : ∀ m ≥ n, P (states m) := fun m hm => by
    by_contra hnot
    exact hall ⟨m, hm, hnot⟩
  have hnone : ∀ r m, m ≥ n → rank (states m) = r → False := by
    intro r
    induction r using Nat.strongRecOn with
    | _ r ih =>
      intro m hm hr
      obtain ⟨k, hk, hop⟩ := progress m hm (hP m hm)
      -- the rank does not rise on the way to the next step
      have hle : ∀ d, rank (states (m + d)) ≤ rank (states m) := by
        intro d
        induction d with
        | zero => exact Nat.le_refl _
        | succ d ihd =>
          have hmd : m + d ≥ n := hm.trans (Nat.le_add_right m d)
          cases h : ops (m + d) with
          | none =>
            rw [← Nat.add_assoc, trace.idle h]
            exact ihd
          | some a =>
            exact (descent (m + d) hmd a h (hP _ hmd)
              (hP _ (hmd.trans (Nat.le_succ _)))).le.trans ihd
      obtain ⟨a, ha⟩ := Option.ne_none_iff_exists'.mp hop
      have hkn : k ≥ n := hm.trans hk
      have hfall := descent k hkn a ha (hP k hkn) (hP (k + 1) (hkn.trans (Nat.le_succ k)))
      have hrank : rank (states k) ≤ rank (states m) := by
        have := hle (k - m)
        rwa [Nat.add_sub_cancel' hk] at this
      exact ih _ (by omega) (k + 1) (hkn.trans (Nat.le_succ k)) rfl
  exact hnone _ n (le_refl n) rfl

/-- The states of a finite run, the last one for ever. -/
def path (step : σ → α → Option σ) : σ → List α → Nat → σ
  | s, _, 0 => s
  | s, [], _ + 1 => s
  | s, a :: as, n + 1 => match step s a with
    | none => s
    | some s' => path step s' as n

/-- A finite run that idles after its end is a trace. -/
theorem isTrace_path {s t : σ} {as : List α} (meets : Meets step cond s as)
    (run : exec step s as = some t) : IsTrace step cond (path step s as) fun n => as[n]? := by
  induction as generalizing s with
  | nil =>
    intro n
    cases n with
    | zero => rfl
    | succ n => rfl
  | cons a as ih =>
    obtain ⟨s', hstep, hrest⟩ := exec_cons_eq_some.mp run
    intro n
    cases n with
    | zero => exact ⟨meets.1, by simp only [path, hstep]⟩
    | succ n =>
      simpa only [List.getElem?_cons_succ, path, hstep] using ih (meets.2 s' hstep) hrest n

end Run

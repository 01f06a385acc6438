import Mathlib.Init

/-!
# Runs of a partial step function

A system is a step function that consumes an input and either refuses (`none`)
or moves to the next state. `Run.exec` feeds it a finite list of inputs.
`Run.Meets` states that every step of such a run satisfies a condition on the
state before the step and its input, and `Run.invariant` is the induction that
turns a one-step preservation proof into a statement about whole runs.
-/

namespace Run

variable {σ : Type*} {α : Type*}

/-- Feed the inputs in order. A refused input ends the run without a state. -/
def exec (step : σ → α → Option σ) : σ → List α → Option σ
  | s, [] => some s
  | s, a :: as => (step s a).bind fun s' => exec step s' as

/-- Every input of the run meets `cond` in the state in which it is consumed. -/
def Meets (step : σ → α → Option σ) (cond : σ → α → Prop) : σ → List α → Prop
  | _, [] => True
  | s, a :: as => cond s a ∧ ∀ s', step s a = some s' → Meets step cond s' as

variable {step : σ → α → Option σ} {cond : σ → α → Prop} {s t : σ} {a : α} {as : List α}

theorem exec_cons : exec step s (a :: as) = (step s a).bind fun s' => exec step s' as := rfl

theorem exec_cons_eq_some : exec step s (a :: as) = some t ↔
    ∃ s', step s a = some s' ∧ exec step s' as = some t := by
  rw [exec_cons, Option.bind_eq_some_iff]

theorem exec_append (as bs : List α) :
    exec step s (as ++ bs) = (exec step s as).bind fun s' => exec step s' bs := by
  induction as generalizing s with
  | nil => rfl
  | cons a as ih =>
    rw [List.cons_append, exec_cons, exec_cons, Option.bind_assoc]
    exact Option.bind_congr fun s' _ => ih

/-- Whether a run meets a decidable condition is found by running it. -/
instance decidableMeets (step : σ → α → Option σ) (cond : σ → α → Prop)
    [∀ s a, Decidable (cond s a)] : ∀ s as, Decidable (Meets step cond s as)
  | _, [] => .isTrue trivial
  | s, a :: as =>
    match h : step s a with
    | none => decidable_of_iff (cond s a) ⟨fun hc => ⟨hc, by simp [h]⟩, And.left⟩
    | some s' =>
      have := decidableMeets step cond s' as
      decidable_of_iff (cond s a ∧ Meets step cond s' as) (by simp [Meets, h])

theorem Meets.of_forall (h : ∀ s a, cond s a) : ∀ (as : List α) (s : σ), Meets step cond s as
  | [], _ => trivial
  | a :: as, s => ⟨h s a, fun s' _ => of_forall h as s'⟩

/-- What one step preserves under its condition, a run preserves. -/
theorem invariant {I : σ → Prop} (hs : I s) (meets : Meets step cond s as)
    (preserve : ∀ s a s', I s → cond s a → step s a = some s' → I s')
    (run : exec step s as = some t) : I t := by
  induction as generalizing s with
  | nil =>
    cases run
    exact hs
  | cons a as ih =>
    obtain ⟨s', hstep, hrest⟩ := exec_cons_eq_some.mp run
    exact ih (preserve s a s' hs meets.1 hstep) (meets.2 s' hstep) hrest

/-- Two conditions that agree on the states of an invariant, which steps that meet them keep. -/
theorem meets_congr {I : σ → Prop} {cond' : σ → α → Prop} (hs : I s)
    (agree : ∀ s a, I s → (cond s a ↔ cond' s a))
    (preserve : ∀ s a s', I s → cond s a → step s a = some s' → I s') :
    Meets step cond s as ↔ Meets step cond' s as := by
  induction as generalizing s with
  | nil => exact Iff.rfl
  | cons a as ih =>
    rw [Meets, Meets, ← agree s a hs]
    refine and_congr_right fun hcond => forall₂_congr fun s' hstep => ?_
    exact ih (preserve s a s' hs hcond hstep)

/-- The states that a run passes: the first one, and those of the rest. -/
theorem forall_take_cons {P : σ → Prop} : (∀ n t, exec step s ((a :: as).take n) = some t → P t) ↔
      P s ∧ ∀ s', step s a = some s' → ∀ n t, exec step s' (as.take n) = some t → P t := by
  constructor
  · intro h
    exact ⟨h 0 s rfl, fun s' hstep n t run => h (n + 1) t (exec_cons_eq_some.mpr ⟨s', hstep, run⟩)⟩
  · rintro ⟨hs, hrest⟩ n t run
    cases n with
    | zero =>
      cases run
      exact hs
    | succ n =>
      obtain ⟨s', hstep, run⟩ := exec_cons_eq_some.mp run
      exact hrest s' hstep n t run

/-- A property holds in all states of a run exactly if its steps meet a condition: an invariant
implies the property, a step that meets the condition keeps the invariant, and any other step
from it breaks the property. -/
theorem forall_states_iff {I P : σ → Prop} (hs : I s) (holds : ∀ s, I s → P s)
    (preserve : ∀ s a s', I s → cond s a → step s a = some s' → I s')
    (breaks : ∀ s a s', I s → ¬cond s a → step s a = some s' → ¬P s')
      (run : (exec step s as).isSome) :
    (∀ n t, exec step s (as.take n) = some t → P t) ↔ Meets step cond s as := by
  induction as generalizing s with
  | nil =>
    refine iff_of_true (fun n t ht => ?_) trivial
    rw [List.take_nil] at ht
    cases ht
    exact holds s hs
  | cons a as ih =>
    obtain ⟨t, run⟩ := Option.isSome_iff_exists.mp run
    obtain ⟨s', hstep, hrest⟩ := exec_cons_eq_some.mp run
    have hrun : (exec step s' as).isSome := Option.isSome_iff_exists.mpr ⟨t, hrest⟩
    rw [forall_take_cons, Meets]
    constructor
    · rintro ⟨-, hall⟩
      have hcond : cond s a := Classical.byContradiction fun hbad =>
        breaks s a s' hs hbad hstep (hall s' hstep 0 s' rfl)
      refine ⟨hcond, fun s'' hs'' => ?_⟩
      cases hstep.symm.trans hs''
      exact (ih (preserve s a s' hs hcond hstep) hrun).mp (hall s' hstep)
    · rintro ⟨hcond, hmeets⟩
      refine ⟨holds s hs, fun s'' hs'' => ?_⟩
      cases hstep.symm.trans hs''
      exact (ih (preserve s a s' hs hcond hstep) hrun).mpr (hmeets s' hstep)

/-- If the condition also makes the step succeed, the run reaches its end. -/
theorem total {I : σ → Prop} (hs : I s) (meets : Meets step cond s as)
    (progress : ∀ s a, I s → cond s a → ∃ s', step s a = some s' ∧ I s') :
    ∃ t, exec step s as = some t ∧ I t := by
  induction as generalizing s with
  | nil => exact ⟨s, rfl, hs⟩
  | cons a as ih =>
    obtain ⟨s', hstep, hs'⟩ := progress s a hs meets.1
    obtain ⟨t, hrest, ht⟩ := ih hs' (meets.2 s' hstep)
    exact ⟨t, exec_cons_eq_some.mpr ⟨s', hstep, hrest⟩, ht⟩

end Run

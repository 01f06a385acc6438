import Mathlib.Init

/-!
# Programs that answer or stop

A program is a value of `Except ε α`: it answers with an `α` or stops with an `ε`.
`Outcome.Ends` gives a condition for each of the two, and the rules below derive what a
sequence of programs does from what its parts do.
-/

namespace Outcome

universe u

variable {ε : Type*} {α β : Type u}

/-- An answer satisfies `post`, and a stop satisfies `stop`. -/
def Ends (x : Except ε α) (post : α → Prop) (stop : ε → Prop) : Prop :=
  match x with
  | .ok a => post a
  | .error e => stop e

variable {x : Except ε α} {f : α → Except ε β} {post post' : α → Prop} {stop stop' : ε → Prop}

@[simp] theorem ends_ok {a : α} : Ends (.ok a : Except ε α) post stop ↔ post a := Iff.rfl

theorem Ends.mono (h : Ends x post stop) (hpost : ∀ a, post a → post' a)
    (hstop : ∀ e, stop e → stop' e) : Ends x post' stop' := by
  cases x with
  | ok a => exact hpost a h
  | error e => exact hstop e h

theorem Ends.bind {post : β → Prop} {mid : α → Prop} (h : Ends x mid stop)
    (rest : ∀ a, mid a → Ends (f a) post stop) : Ends (x >>= f) post stop := by
  cases x with
  | ok a => exact rest a h
  | error e => exact h

theorem ok_bind (a : α) : ((.ok a : Except ε α) >>= f) = f a := rfl

theorem error_bind (e : ε) : ((.error e : Except ε α) >>= f) = .error e := rfl

theorem Ends.and (h : Ends x post stop) (h' : Ends x post' stop') :
    Ends x (fun a => post a ∧ post' a) (fun e => stop e ∧ stop' e) := by
  cases x with
  | ok a => exact ⟨h, h'⟩
  | error e => exact ⟨h, h'⟩

/-- A program that cannot stop answers. -/
theorem Ends.exists_ok (h : Ends x post stop) (hstop : ∀ e, ¬stop e) : ∃ a, x = .ok a ∧ post a := by
  cases x with
  | ok a => exact ⟨a, rfl, h⟩
  | error e => exact absurd h (hstop e)

theorem bind_eq_ok {b : β} : (x >>= f) = .ok b ↔ ∃ a, x = .ok a ∧ f a = .ok b := by
  cases x with
  | ok a => simp [bind, Except.bind]
  | error e => simp [bind, Except.bind]

theorem map_eq_ok {g : α → β} {b : β} : x.map g = .ok b ↔ ∃ a, x = .ok a ∧ g a = b := by
  cases x with
  | ok a => simp [Except.map]
  | error e => simp [Except.map]

theorem toOption_eq_some {a : α} : x.toOption = some a ↔ x = .ok a := by
  cases x with
  | ok a => simp [Except.toOption]
  | error e => simp [Except.toOption]

/-- A counted loop: the steps `i`, `i + 1`, ... with the number of them that are left. -/
def loop {σ : Type u} (step : Nat → σ → Except ε σ) : Nat → Nat → σ → Except ε σ
  | 0, _, s => .ok s
  | left + 1, i, s => step i s >>= loop step left (i + 1)

/-- What every step keeps, with the number of the step, a loop keeps. -/
theorem Ends.loop {σ : Type u} {step : Nat → σ → Except ε σ} (inv : Nat → σ → Prop) {n : Nat}
    (hstep : ∀ i s, i < n → inv i s → Ends (step i s) (inv (i + 1)) stop) (left i : Nat)
    (hn : i + left = n) {s : σ} (hs : inv i s) : Ends (Outcome.loop step left i s)
      (inv n) stop := by
  induction left generalizing i s with
  | zero =>
    rw [← hn]
    exact hs
  | succ left ih =>
    exact Ends.bind (hstep i s (by omega) hs) fun s' hs' => ih (i + 1) (by omega) hs'

theorem loop_add {σ : Type u} (step : Nat → σ → Except ε σ) (m n i : Nat) (s : σ) :
    loop step (m + n) i s = loop step m i s >>= loop step n (i + m) := by
  induction m generalizing i s with
  | zero => rw [Nat.zero_add, Nat.add_zero]; rfl
  | succ m ih =>
    rw [Nat.succ_add, loop, loop, bind_assoc]
    refine congrArg _ (funext fun s' => ?_)
    rw [ih, Nat.succ_add_eq_add_succ]

/-- A loop that follows another one, as long as that answers. -/
theorem loop_follows {σ τ : Type u} {f : Nat → σ → Except ε σ} {g : Nat → τ → Except ε τ}
    {image : τ → Except ε σ} (step : ∀ i t t', g i t = .ok t' → (image t >>= f i) = image t')
    {n i : Nat} {t t' : τ} (h : loop g n i t = .ok t') : (image t >>= loop f n i) = image t' := by
  induction n generalizing i t with
  | zero =>
    cases h
    exact bind_pure _
  | succ n ih =>
    obtain ⟨t₁, hfirst, hrest⟩ := bind_eq_ok.mp h
    rw [← ih hrest, ← step i t t₁ hfirst, bind_assoc]
    rfl

/-- What each element keeps, a fold keeps. -/
theorem Ends.foldlM {ι : Type*} {f : α → ι → Except ε α} {inv : α → Prop} {is : List ι}
    (hstep : ∀ i ∈ is, ∀ a, inv a → Ends (f a i) inv stop) {a : α} (ha : inv a) :
    Ends (is.foldlM f a) inv stop := by
  induction is generalizing a with
  | nil => exact ha
  | cons i is ih =>
    obtain ⟨hfirst, hrest⟩ := List.forall_mem_cons.mp hstep
    rw [List.foldlM_cons]
    exact (hfirst a ha).bind fun a' ha' => ih hrest ha'

theorem Ends.of_eq_ok {a : α} (h : Ends x post stop) (hx : x = .ok a) : post a := by
  rw [hx] at h
  exact h

theorem ends_of_ok (h : ∀ a, x = .ok a → post a) : Ends x post fun _ => True := by
  cases x with
  | ok a => exact h a rfl
  | error e => trivial

end Outcome

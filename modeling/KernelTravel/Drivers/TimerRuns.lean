import KernelTravel.Drivers.Timer
import KernelTravel.Lib.Run
import Mathlib.Data.List.Nodup

/-!
# When every timer is called once and on time

The list of level 0 that `calc_index` names is reached one tick after `expires`. Three
things break this: a distance of 63 names the list that is about to run, a higher level
is emptied only after its timers expired, and a call of `run_timers` visits one list in all its
rounds, however many ticks it is behind when a round begins. The condition `TimerSafe` excludes
them, for every order in which ticks, new timers and the steps of `run_timers` come.
-/

namespace KernelTravel.Timer

open Function

/-- A round with the list `slot` calls the timers that are due and no others. -/
def Fits (w : Wheel) (slot : Nat) : Prop :=
  slot = w.timerTicks % lvlSize ∨ w.vec 0 slot = [] ∧ w.vec 0 (w.timerTicks % lvlSize) = []

instance (w : Wheel) (slot : Nat) : Decidable (Fits w slot) := inferInstanceAs (Decidable (_ ∨ _))

/-- The list of a round that is under way. -/
def Phase.round : Phase → Option Nat
  | .idle | .test _ => none
  | .cascade slot _ | .list slot | .remove slot => some slot

/-- The list of the round that the test would begin. -/
def Phase.tested : Phase → Option Nat
  | .test slot => some slot
  | _ => none

/-- What each step asks of the state before it. -/
def TimerSafe (s : TimerSys) : TimerOp → Prop
  | .add t e => s.wheel.linked t = false ∧ s.wheel.timerTicks < e ∧ e ≤ s.wheel.timerTicks + 62 ∧
      ∀ slot ∈ s.phase.round, (e + 1) % lvlSize ≠ slot
  | .tick => s.wheel.ticks + 64 < 2 ^ 64
  | .start => s.phase = .idle
  | .next => ∀ slot ∈ s.phase.tested, s.wheel.timerTicks < s.wheel.ticks →
      s.wheel.ticks - s.wheel.timerTicks < 2 ^ 63 ∧ Fits s.wheel slot

instance (s : TimerSys) : ∀ op, Decidable (TimerSafe s op)
  | .add _ _ => inferInstanceAs (Decidable (_ ∧ _ ∧ _ ∧ _))
  | .tick => inferInstanceAs (Decidable (_ < _))
  | .start => inferInstanceAs (Decidable (_ = _))
  | .next => inferInstanceAs (Decidable (∀ _ ∈ _, _ → _))

/-- A linked timer is in the list that runs one tick after it expires, or it was called
there. The levels above 0 stay empty. -/
structure TimerInv (w : Wheel) : Prop where
  le : w.timerTicks ≤ w.ticks
  small : w.ticks + 63 < 2 ^ 64
  index : w.index 0 = w.timerTicks % lvlSize
  upper : ∀ n, n ≠ 0 → ∀ s, w.vec n s = []
  slot : ∀ s, ∀ t ∈ w.vec 0 s, s = (w.expires t + 1) % lvlSize
  due : ∀ s, ∀ t ∈ w.vec 0 s, w.timerTicks ≤ w.expires t + 1 ∧ w.expires t + 1 < w.timerTicks + 64
  nodup : ∀ s, (w.vec 0 s).Nodup
  waits : ∀ s, ∀ t ∈ w.vec 0 s, w.linked t = true ∧ w.calls t = []
  served : ∀ t, w.linked t = true →
    (∃ s, t ∈ w.vec 0 s) ∨ w.calls t = [(t, w.expires t + 1)]
  fresh : ∀ t, w.linked t = false → w.calls t = []

/-- The invariant in each phase. A timer that has been called counts as removed. -/
inductive SysInv : TimerSys → Prop where
  | idle {w : Wheel} (inv : TimerInv w) : SysInv ⟨w, .idle⟩
  | test {w : Wheel} {slot : Nat} (inv : TimerInv w) : SysInv ⟨w, .test slot⟩
  | cascade {w : Wheel} {slot n : Nat} (inv : TimerInv w) (hn : 0 < n ∧ n < lvlDepth)
      (lt : w.timerTicks < w.ticks) (fits : Fits w slot) : SysInv ⟨w, .cascade slot n⟩
  | list {w : Wheel} {slot : Nat} (inv : TimerInv w) (lt : w.timerTicks < w.ticks)
      (fits : Fits w slot) : SysInv ⟨w, .list slot⟩
  | remove {w : Wheel} {slot t : Nat} {rest : List Nat} (hvec : w.vec 0 slot = t :: rest)
      (inv : TimerInv (w.setVec 0 slot rest)) (lt : w.timerTicks < w.ticks)
      (now : slot = w.timerTicks % lvlSize) : SysInv ⟨w, .remove slot⟩

theorem sub64_of_le {a b : Nat} (h : b ≤ a) (ha : a < 2 ^ 64) : sub64 a b = a - b := by
  rw [sub64, Nat.add_comm, Nat.add_sub_assoc h, Nat.add_mod_left, Nat.mod_eq_of_lt (by omega)]

theorem init_timerInv : TimerInv Wheel.init where
  le := Nat.le_refl 0
  small := show 0 + 63 < 2 ^ 64 by decide
  index := rfl
  upper _ _ _ := rfl
  slot _ _ h := absurd h List.not_mem_nil
  due _ _ h := absurd h List.not_mem_nil
  nodup _ := List.nodup_nil
  waits _ _ h := absurd h List.not_mem_nil
  served _ h := absurd h Bool.false_ne_true
  fresh _ _ := rfl

section Add

variable {w : Wheel} {t e : Nat}

theorem calcIndex_zero (expire : Nat) : calcIndex expire 0 = (expire + 1) % lvlSize := by
  simp only [calcIndex, lvlStart, lvlOff, lvlSize]
  omega

/-- A near timer goes to level 0. -/
theorem calcWheelIdx_of_near (h : sub64 (w.expires t) w.timerTicks < 64) :
    calcWheelIdx w t = some ((w.expires t + 1) % lvlSize) := by
  rw [← calcIndex_zero]
  exact if_pos h

/-- The wheel with a near timer. -/
def withTimer (w : Wheel) (t e : Nat) : Wheel :=
  enqueueTimer { w with expires := update w.expires t e } t ((e + 1) % lvlSize)

theorem addTimer_of_near (hnew : w.linked t = false) (hlow : w.timerTicks < e)
    (hhigh : e ≤ w.timerTicks + 62) (hsmall : e < 2 ^ 64) :
    addTimer { w with expires := update w.expires t e } t = some (withTimer w t e) := by
  have hnear : sub64 e w.timerTicks < 64 := by
    rw [sub64_of_le (Nat.le_of_lt hlow) hsmall]
    omega
  have hidx : calcWheelIdx { w with expires := update w.expires t e } t =
      some ((e + 1) % lvlSize) := by
    rw [calcWheelIdx_of_near (by simpa only [update_self] using hnear)]
    simp only [update_self]
  simp only [addTimer, internalAddTimer, hidx, hnew]
  rfl

/-- The only change of the lists is the new last element of one list of level 0. -/
theorem withTimer_vec (n s : Nat) : (withTimer w t e).vec n s =
    if n = 0 ∧ s = (e + 1) % lvlSize then w.vec 0 ((e + 1) % lvlSize) ++ [t] else w.vec n s := by
  have hlevel : (e + 1) % lvlSize / lvlSize = 0 := Nat.div_eq_of_lt (Nat.mod_lt _ (by decide))
  simp only [withTimer, enqueueTimer, Wheel.setVec, hlevel, Nat.mod_mod]

theorem withTimer_setVec {slot : Nat} (hne : (e + 1) % lvlSize ≠ slot) (rest : List Nat) :
    (withTimer w t e).setVec 0 slot rest = withTimer (w.setVec 0 slot rest) t e := by
  have hvec : ((withTimer w t e).setVec 0 slot rest).vec =
      (withTimer (w.setVec 0 slot rest) t e).vec := by
    funext n s
    have hkept : (w.setVec 0 slot rest).vec 0 ((e + 1) % lvlSize) = w.vec 0 ((e + 1) % lvlSize) :=
      if_neg fun h => hne h.2
    rw [withTimer_vec, hkept]
    change (if n = 0 ∧ s = slot then rest else (withTimer w t e).vec n s) =
      if _ then _ else if n = 0 ∧ s = slot then rest else w.vec n s
    rw [withTimer_vec]
    by_cases hs : n = 0 ∧ s = slot
    · rw [if_pos hs, if_pos hs, if_neg fun h => hne (h.2.symm.trans hs.2)]
    · rw [if_neg hs, if_neg hs]
  exact Wheel.mk.injEq .. ▸ ⟨rfl, rfl, rfl, hvec, rfl, rfl, rfl⟩

theorem mem_withTimer_iff {s u : Nat} : u ∈ (withTimer w t e).vec 0 s ↔
    u ∈ w.vec 0 s ∨ u = t ∧ s = (e + 1) % lvlSize := by
  rw [withTimer_vec]
  by_cases hs : s = (e + 1) % lvlSize
  · rw [if_pos ⟨rfl, hs⟩, ← hs, List.mem_append, List.mem_singleton, and_iff_left rfl]
  · rw [if_neg fun h => hs h.2, or_iff_left fun h => hs h.2]

/-- A timer that is not linked is in no list. -/
theorem TimerInv.not_mem (inv : TimerInv w) (hnew : w.linked t = false) (s : Nat) :
    t ∉ w.vec 0 s := by
  intro hs
  rw [(inv.waits s t hs).1] at hnew
  exact Bool.noConfusion hnew

theorem add_inv (inv : TimerInv w) (hnew : w.linked t = false) (hlow : w.timerTicks < e)
    (hhigh : e ≤ w.timerTicks + 62) : TimerInv (withTimer w t e) := by
  have hout := inv.not_mem hnew
  have hmem : ∀ s u, u ∈ (withTimer w t e).vec 0 s →
      u = t ∧ s = (e + 1) % lvlSize ∨ u ≠ t ∧ u ∈ w.vec 0 s := by
    intro s u hu
    rcases mem_withTimer_iff.mp hu with hu | hu
    · exact .inr ⟨fun h => hout s (h ▸ hu), hu⟩
    · exact .inl hu
  constructor
  case le => exact inv.le
  case small => exact inv.small
  case index => exact inv.index
  case upper =>
    intro n hn s
    rw [withTimer_vec, if_neg fun h => hn h.1]
    exact inv.upper n hn s
  case slot =>
    intro s u hu
    change s = (update w.expires t e u + 1) % lvlSize
    rcases hmem s u hu with ⟨rfl, rfl⟩ | ⟨hne, hu⟩
    · rw [update_self]
    · rw [update_of_ne hne]
      exact inv.slot s u hu
  case due =>
    intro s u hu
    change w.timerTicks ≤ update w.expires t e u + 1 ∧
      update w.expires t e u + 1 < w.timerTicks + 64
    rcases hmem s u hu with ⟨rfl, rfl⟩ | ⟨hne, hu⟩
    · rw [update_self]
      omega
    · rw [update_of_ne hne]
      exact inv.due s u hu
  case nodup =>
    intro s
    rw [withTimer_vec]
    split
    · exact (inv.nodup _).append (List.nodup_singleton t) (List.disjoint_singleton.mpr (hout _))
    · exact inv.nodup s
  case waits =>
    intro s u hu
    change update w.linked t true u = true ∧ w.calls u = []
    rcases hmem s u hu with ⟨rfl, -⟩ | ⟨hne, hu⟩
    · exact ⟨update_self .., inv.fresh u hnew⟩
    · rw [update_of_ne hne]
      exact inv.waits s u hu
  case served =>
    intro u hu
    change update w.linked t true u = true at hu
    change _ ∨ w.calls u = [(u, update w.expires t e u + 1)]
    by_cases hne : u = t
    · subst hne
      exact .inl ⟨(e + 1) % lvlSize, mem_withTimer_iff.mpr (.inr ⟨rfl, rfl⟩)⟩
    · rw [update_of_ne hne] at hu ⊢
      refine (inv.served u hu).imp_left ?_
      rintro ⟨s, hs⟩
      exact ⟨s, mem_withTimer_iff.mpr (.inl hs)⟩
  case fresh =>
    intro u hu
    change update w.linked t true u = false at hu
    by_cases hne : u = t
    · subst hne
      rw [update_self] at hu
      exact Bool.noConfusion hu
    · rw [update_of_ne hne] at hu
      exact inv.fresh u hu

end Add

section Steps

variable {w : Wheel} {slot : Nat}

theorem tick_inv (inv : TimerInv w) (hroom : w.ticks + 64 < 2 ^ 64) :
    TimerInv { w with ticks := (w.ticks + 1) % 2 ^ 64 } := by
  have hticks : (w.ticks + 1) % 2 ^ 64 = w.ticks + 1 := Nat.mod_eq_of_lt (by omega)
  rw [hticks]
  exact { inv with
    le := Nat.le_succ_of_le inv.le
    small := by
      change w.ticks + 1 + 63 < 2 ^ 64
      omega }

/-- With the upper levels empty a cascade moves an index and nothing else. -/
theorem cascadeTimers_of_empty (inv : TimerInv w) {n : Nat} (hn : n ≠ 0) :
    ∃ index, cascadeTimers w n = some { w with index } ∧ TimerInv { w with index } := by
  refine ⟨update w.index n ((w.index n + 1) % lvlSize), ?_, { inv with index := ?_ }⟩
  · rw [cascadeTimers, inv.upper n hn]
    rfl
  · exact (update_of_ne hn.symm _ _).trans inv.index

/-- A timer whose list runs now expired on the tick before. -/
theorem TimerInv.expires_eq (inv : TimerInv w) {t : Nat}
    (ht : t ∈ w.vec 0 (w.timerTicks % lvlSize)) : w.expires t + 1 = w.timerTicks := by
  have hslot := inv.slot _ t ht
  have hdue := inv.due _ t ht
  rw [lvlSize] at hslot
  omega

theorem advance_timerTicks (inv : TimerInv w) : (advance w).timerTicks = w.timerTicks + 1 := by
  have hle := inv.le
  have hsmall := inv.small
  exact Nat.mod_eq_of_lt (by omega)

/-- When no timer is due any more the tick is over. -/
theorem advance_inv (inv : TimerInv w) (lt : w.timerTicks < w.ticks)
    (empty : w.vec 0 (w.timerTicks % lvlSize) = []) : TimerInv (advance w) := by
  have hnow := advance_timerTicks inv
  refine { inv with le := ?_, index := ?_, due := fun s t ht => ?_ }
  · rw [hnow]
    exact lt
  · rw [hnow]
    change update w.index 0 ((w.index 0 + 1) % lvlSize) 0 = _
    rw [update_self, inv.index, lvlSize]
    omega
  · obtain ⟨hlow, hhigh⟩ := inv.due s t ht
    have hlate : w.timerTicks ≠ w.expires t + 1 := by
      intro heq
      have hmem : t ∈ w.vec 0 s := ht
      rw [inv.slot s t ht, ← heq, empty] at hmem
      exact absurd hmem List.not_mem_nil
    rw [hnow]
    change _ ≤ w.expires t + 1 ∧ w.expires t + 1 < _
    omega

theorem calls_callTimer (w : Wheel) (t u : Nat) :
    (callTimer w t).calls u = w.calls u ++ if t = u then [(t, w.timerTicks)] else [] := by
  rw [Wheel.calls, callTimer, List.filter_append, List.filter_singleton, Bool.cond_decide]
  rfl

/-- The list that runs loses its first timer, which is in no other list: its `expires` names the
list. -/
theorem TimerInv.mem_removed_iff (inv : TimerInv w) {t : Nat} {rest : List Nat}
    (hvec : w.vec 0 slot = t :: rest) {s u : Nat} :
    u ∈ (w.setVec 0 slot rest).vec 0 s ↔ u ≠ t ∧ u ∈ w.vec 0 s := by
  have ht : t ∈ w.vec 0 slot := hvec ▸ List.mem_cons_self
  have hnodup := inv.nodup slot
  rw [hvec, List.nodup_cons] at hnodup
  by_cases hs : s = slot
  · have hlist : (w.setVec 0 slot rest).vec 0 s = rest := if_pos ⟨rfl, hs⟩
    rw [hlist, hs, hvec, List.mem_cons, and_or_left, not_and_self_iff, false_or]
    exact (and_iff_right_of_imp fun hu (h : u = t) => hnodup.1 (h ▸ hu)).symm
  · have hlist : (w.setVec 0 slot rest).vec 0 s = w.vec 0 s := if_neg fun h => hs h.2
    rw [hlist]
    refine (and_iff_right_of_imp fun hu (h : u = t) => hs ?_).symm
    exact (inv.slot s u hu).trans (h ▸ (inv.slot slot t ht).symm)

/-- A timer that is due is called once. -/
theorem call_inv (inv : TimerInv w) {t : Nat} {rest : List Nat}
    (hvec : w.vec 0 (w.timerTicks % lvlSize) = t :: rest) :
    TimerInv ((callTimer w t).setVec 0 (w.timerTicks % lvlSize) rest) := by
  have ht : t ∈ w.vec 0 (w.timerTicks % lvlSize) := hvec ▸ List.mem_cons_self
  have hmem := fun {s u} => @TimerInv.mem_removed_iff _ _ inv t rest hvec s u
  have hother : ∀ u, u ≠ t → (callTimer w t).calls u = w.calls u := by
    intro u hu
    rw [calls_callTimer, if_neg hu.symm, List.append_nil]
  constructor
  case le => exact inv.le
  case small => exact inv.small
  case index => exact inv.index
  case upper =>
    intro n hn s
    change (if n = 0 ∧ _ then rest else w.vec n s) = []
    rw [if_neg fun h => hn h.1]
    exact inv.upper n hn s
  case slot => exact fun s u hu => inv.slot s u (hmem.mp hu).2
  case due => exact fun s u hu => inv.due s u (hmem.mp hu).2
  case nodup =>
    intro s
    change (if 0 = 0 ∧ s = _ then rest else w.vec 0 s).Nodup
    split
    · exact (List.nodup_cons.mp (hvec ▸ inv.nodup _)).2
    · exact inv.nodup s
  case waits =>
    intro s u hu
    obtain ⟨hne, hu⟩ := hmem.mp hu
    change w.linked u = true ∧ (callTimer w t).calls u = []
    rw [hother u hne]
    exact inv.waits s u hu
  case served =>
    intro u hu
    change _ ∨ (callTimer w t).calls u = [(u, w.expires u + 1)]
    by_cases hne : u = t
    · right
      rw [hne, calls_callTimer, (inv.waits _ t ht).2, if_pos rfl, inv.expires_eq ht]
      rfl
    · rw [hother u hne]
      refine (inv.served u hu).imp_left ?_
      rintro ⟨s, hs⟩
      exact ⟨s, hmem.mpr ⟨hne, hs⟩⟩
  case fresh =>
    intro u hu
    have hne : u ≠ t := by
      rintro rfl
      exact Bool.noConfusion ((inv.waits _ u ht).1.symm.trans hu)
    exact (hother u hne).trans (inv.fresh u hu)

end Steps

/-! ## The steps of the system -/

section System

variable {s : TimerSys}

theorem behind_iff {w : Wheel} (inv : TimerInv w) :
    Behind w ↔ w.timerTicks < w.ticks ∧ w.ticks - w.timerTicks < 2 ^ 63 := by
  have hle := inv.le
  have hsmall := inv.small
  rw [Behind, sub64_of_le hle (by omega)]
  omega

theorem Fits.withTimer {w : Wheel} {slot t e : Nat} (fits : Fits w slot) (hlow : w.timerTicks < e)
    (hhigh : e ≤ w.timerTicks + 62) (hne : (e + 1) % lvlSize ≠ slot) :
    Fits (withTimer w t e) slot := by
  have hnow : w.timerTicks % lvlSize ≠ (e + 1) % lvlSize := by
    rw [lvlSize]
    omega
  refine fits.imp_right fun ⟨hslot, hdue⟩ => ?_
  rw [withTimer_vec, if_neg fun h => hne h.2.symm, withTimer_vec]
  exact ⟨hslot, (if_neg fun h => hnow h.2).trans hdue⟩

theorem addStep_inv (inv : SysInv s) {t e : Nat} (safe : TimerSafe s (.add t e)) :
    ∃ s', timerStep s (.add t e) = some s' ∧ SysInv s' := by
  obtain ⟨w, phase⟩ := s
  obtain ⟨hnew, hlow, hhigh, hround⟩ := safe
  dsimp only at hnew hlow hhigh hround
  have hsmall : w.timerTicks + 63 < 2 ^ 64 := by
    cases inv with
    | idle inv | test inv | cascade inv _ _ _ | list inv _ _ =>
      have := inv.le
      have := inv.small
      omega
    | remove _ inv _ _ =>
      have hle : w.timerTicks ≤ w.ticks := inv.le
      have hlast : w.ticks + 63 < 2 ^ 64 := inv.small
      omega
  refine ⟨⟨withTimer w t e, phase⟩, ?_, ?_⟩
  · rw [timerStep, addTimer_of_near hnew hlow hhigh (by omega)]
    rfl
  cases inv with
  | idle inv => exact .idle (add_inv inv hnew hlow hhigh)
  | test inv => exact .test (add_inv inv hnew hlow hhigh)
  | cascade inv hn lt fits =>
    exact .cascade (add_inv inv hnew hlow hhigh) hn lt (fits.withTimer hlow hhigh (hround _ rfl))
  | list inv lt fits =>
    exact .list (add_inv inv hnew hlow hhigh) lt (fits.withTimer hlow hhigh (hround _ rfl))
  | @remove _ slot u rest hvec inv lt now =>
    have hne := hround slot rfl
    refine @SysInv.remove _ slot u rest ?_ ?_ lt now
    · rw [withTimer_vec, if_neg fun h => hne h.2.symm]
      exact hvec
    · rw [withTimer_setVec hne]
      exact add_inv inv hnew hlow hhigh

theorem tickStep_inv (inv : SysInv s) (safe : TimerSafe s .tick) :
    ∃ s', timerStep s .tick = some s' ∧ SysInv s' := by
  obtain ⟨w, phase⟩ := s
  have hroom : w.ticks + 64 < 2 ^ 64 := safe
  have hlater : w.ticks < (w.ticks + 1) % 2 ^ 64 := by
    rw [Nat.mod_eq_of_lt (by omega)]
    exact Nat.lt_succ_self _
  refine ⟨_, rfl, ?_⟩
  cases inv with
  | idle inv => exact .idle (tick_inv inv hroom)
  | test inv => exact .test (tick_inv inv hroom)
  | cascade inv hn lt fits => exact .cascade (tick_inv inv hroom) hn (Nat.lt_trans lt hlater) fits
  | list inv lt fits => exact .list (tick_inv inv hroom) (Nat.lt_trans lt hlater) fits
  | remove hvec inv lt now => exact .remove hvec (tick_inv inv hroom) (Nat.lt_trans lt hlater) now

/-- What is left to do: the ticks, and the steps of the round. -/
def TimerSys.left (s : TimerSys) : Nat × Nat :=
  (s.wheel.ticks - s.wheel.timerTicks, match s.phase with
    | .idle => 0
    | .test slot => 2 * (s.wheel.vec 0 slot).length + 8
    | .cascade slot n => 2 * (s.wheel.vec 0 slot).length + (8 - n)
    | .list slot => 2 * (s.wheel.vec 0 slot).length
    | .remove slot => 2 * (s.wheel.vec 0 slot).length - 1)

/-- A step of `run_timers` ends it, with all ticks handled, or leaves less to do. -/
def Progress (s s' : TimerSys) : Prop :=
  s'.phase = .idle ∧ s'.wheel.timerTicks = s'.wheel.ticks ∨
    s'.phase ≠ .idle ∧ Prod.Lex (· < ·) (· < ·) s'.left s.left

/-- A step of `run_timers` that keeps the invariant. -/
def Advances (s : TimerSys) : Prop := ∃ s', timerStep s .next = some s' ∧ SysInv s' ∧ Progress s s'

variable {w : Wheel} {slot : Nat}

theorem advances_test (inv : TimerInv w) (safe : TimerSafe ⟨w, .test slot⟩ .next) :
    Advances ⟨w, .test slot⟩ := by
  by_cases hbehind : Behind w
  · have lt := ((behind_iff inv).mp hbehind).1
    have fits := (safe slot rfl lt).2
    by_cases hindex : w.index 0 = 0
    · refine ⟨⟨w, .cascade slot 1⟩, ?_, .cascade inv (by decide) lt fits, .inr ⟨nofun, ?_⟩⟩
      · simp only [timerStep, TimerSys.next, hbehind, hindex, if_true]
      · exact .right _ (Nat.add_lt_add_left (by decide) _)
    · refine ⟨⟨w, .list slot⟩, ?_, .list inv lt fits, .inr ⟨nofun, ?_⟩⟩
      · simp only [timerStep, TimerSys.next, hbehind, hindex, if_true, if_false]
      · exact .right _ (Nat.lt_add_of_pos_right (by decide))
  · have hdone : w.timerTicks = w.ticks := by
      have hle := inv.le
      have hnear := fun h => (safe slot rfl h).1
      rw [behind_iff inv] at hbehind
      dsimp only at hnear
      by_contra hne
      exact hbehind ⟨by omega, hnear (by omega)⟩
    exact ⟨⟨w, .idle⟩, if_neg hbehind, .idle inv, .inl ⟨rfl, hdone⟩⟩

theorem advances_cascade (inv : TimerInv w) {n : Nat} (hn : 0 < n ∧ n < lvlDepth)
    (lt : w.timerTicks < w.ticks) (fits : Fits w slot) : Advances ⟨w, .cascade slot n⟩ := by
  obtain ⟨index, hcascade, inv'⟩ := cascadeTimers_of_empty inv (Nat.ne_of_gt hn.1)
  have hdepth : n < 7 := hn.2
  by_cases hmore : index n = 1 ∧ n + 1 < lvlDepth
  · refine ⟨⟨{ w with index }, .cascade slot (n + 1)⟩, ?_,
      .cascade inv' ⟨n.succ_pos, hmore.2⟩ lt fits,
      .inr ⟨nofun, .right _ (Nat.add_lt_add_left (by omega) _)⟩⟩
    simp only [timerStep, TimerSys.next, hcascade, Option.bind_eq_bind, Option.bind_some]
    rw [if_pos hmore]
    rfl
  · refine ⟨⟨{ w with index }, .list slot⟩, ?_, .list inv' lt fits,
      .inr ⟨nofun, .right _ (Nat.lt_add_of_pos_right (by omega))⟩⟩
    simp only [timerStep, TimerSys.next, hcascade, Option.bind_eq_bind, Option.bind_some]
    rw [if_neg hmore]
    rfl

theorem advances_list (inv : TimerInv w) (lt : w.timerTicks < w.ticks) (fits : Fits w slot) :
    Advances ⟨w, .list slot⟩ := by
  cases hvec : w.vec 0 slot with
  | nil =>
    have empty : w.vec 0 (w.timerTicks % lvlSize) = [] := fits.elim (fun h => h ▸ hvec) And.right
    have hnow := advance_timerTicks inv
    refine ⟨⟨advance w, .test slot⟩, ?_, .test (advance_inv inv lt empty),
      .inr ⟨nofun, .left _ _ ?_⟩⟩
    · simp only [timerStep, TimerSys.next, hvec]
    · change w.ticks - (advance w).timerTicks < w.ticks - w.timerTicks
      omega
  | cons t rest =>
    have now : slot = w.timerTicks % lvlSize := fits.resolve_right fun h => by
      cases hvec.symm.trans h.1
    have inv' := call_inv inv (now ▸ hvec)
    rw [← now] at inv'
    refine ⟨⟨callTimer w t, .remove slot⟩, ?_, .remove hvec inv' lt now,
      .inr ⟨nofun, .right _ ?_⟩⟩
    · simp only [timerStep, TimerSys.next, hvec]
    · change 2 * (w.vec 0 slot).length - 1 < 2 * (w.vec 0 slot).length
      rw [hvec, List.length_cons]
      omega

theorem advances_remove {t : Nat} {rest : List Nat} (hvec : w.vec 0 slot = t :: rest)
    (inv : TimerInv (w.setVec 0 slot rest)) (lt : w.timerTicks < w.ticks)
    (now : slot = w.timerTicks % lvlSize) : Advances ⟨w, .remove slot⟩ := by
  refine ⟨⟨w.setVec 0 slot rest, .list slot⟩, ?_, .list inv lt (.inl now),
    .inr ⟨nofun, .right _ ?_⟩⟩
  · simp only [timerStep, TimerSys.next, hvec]
  · have hlist : (w.setVec 0 slot rest).vec 0 slot = rest := if_pos ⟨rfl, rfl⟩
    change 2 * ((w.setVec 0 slot rest).vec 0 slot).length < 2 * (w.vec 0 slot).length - 1
    rw [hlist, hvec, List.length_cons]
    omega

theorem advances_of_running (inv : SysInv s) (safe : TimerSafe s .next)
    (running : s.phase ≠ .idle) : Advances s := by
  cases inv with
  | idle inv => exact absurd rfl running
  | test inv => exact advances_test inv safe
  | cascade inv hn lt fits => exact advances_cascade inv hn lt fits
  | list inv lt fits => exact advances_list inv lt fits
  | remove hvec inv lt now => exact advances_remove hvec inv lt now

theorem timerStep_inv (inv : SysInv s) (op : TimerOp) (safe : TimerSafe s op) :
    ∃ s', timerStep s op = some s' ∧ SysInv s' := by
  cases op with
  | add t e => exact addStep_inv inv safe
  | tick => exact tickStep_inv inv safe
  | start =>
    obtain ⟨w, phase⟩ := s
    obtain rfl : phase = .idle := safe
    cases inv with
    | idle inv => exact ⟨_, rfl, .test inv⟩
  | next =>
    by_cases running : s.phase = .idle
    · exact ⟨s, by simp only [timerStep, TimerSys.next, running], inv⟩
    · obtain ⟨s', hstep, inv', -⟩ := advances_of_running inv safe running
      exact ⟨s', hstep, inv'⟩

/-- A timer that was added has either not been called and is not late, or it has been
called once, at its time. -/
def OnTime (w : Wheel) (t : Nat) : Prop :=
  (w.calls t = [] ∧ w.timerTicks ≤ w.expires t + 1) ∨
    ∃ k, w.calls t = [(t, k)] ∧ w.expires t ≤ k ∧ k < w.expires t + 2

theorem TimerInv.onTime {w : Wheel} (inv : TimerInv w) {t : Nat} (ht : w.linked t = true) :
    OnTime w t := by
  rcases inv.served t ht with ⟨s, hs⟩ | hcalls
  · exact .inl ⟨(inv.waits s t hs).2, (inv.due s t hs).1⟩
  · exact .inr ⟨_, hcalls, by omega, by omega⟩

theorem SysInv.onTime (inv : SysInv s) {t : Nat} (ht : s.wheel.linked t = true) :
    OnTime s.wheel t := by
  cases inv with
  | idle inv | test inv | cascade inv _ _ _ | list inv _ _ => exact inv.onTime ht
  | remove _ inv _ _ => exact inv.onTime ht

end System

/-! ## The softirq returns -/

section Returns

variable {s s' : TimerSys}

/-- The steps of `run_timers` are safe as long as nothing comes between them. -/
def Undisturbed (s : TimerSys) : Prop :=
  ∀ n, Run.Meets timerStep TimerSafe s (List.replicate n .next)

/-- The steps of `run_timers` lead to its end, with all ticks handled. -/
def Returns (s : TimerSys) : Prop :=
  ∃ n s', Run.exec timerStep s (List.replicate n .next) = some s' ∧
  s'.phase = .idle ∧ s'.wheel.timerTicks = s'.wheel.ticks

theorem Returns.of_next (hstep : timerStep s .next = some s') (returns : Returns s') :
    Returns s := by
  obtain ⟨n, t, hrun, ht⟩ := returns
  exact ⟨n + 1, t, Run.exec_cons_eq_some.mpr ⟨s', hstep, hrun⟩, ht⟩

theorem Undisturbed.next (h : Undisturbed s) (hstep : timerStep s .next = some s') :
    Undisturbed s' := fun n => (h (n + 1)).2 s' hstep

theorem SysInv.returns {s : TimerSys} (inv : SysInv s) (h : Undisturbed s)
    (running : s.phase ≠ .idle) : Returns s := by
  obtain ⟨s', hstep, inv', hend | ⟨running', hless⟩⟩ := advances_of_running inv (h 1).1 running
  · exact .of_next hstep ⟨0, s', rfl, hend⟩
  · exact (SysInv.returns inv' (h.next hstep) running').of_next hstep
termination_by s.left
decreasing_by exact hless

end Returns

/-- Every safe run reaches its end and every timer in it is on time there. If `run_timers` is under
way and comes to no unsafe round, it returns, with `timer_ticks` up to `ticks`. -/
theorem timer_runs (ops : List TimerOp) (safe : Run.Meets timerStep TimerSafe .init ops) :
    ∃ s, Run.exec timerStep .init ops = some s ∧ (∀ t, s.wheel.linked t = true → OnTime s.wheel t) ∧
      (s.phase ≠ .idle → Undisturbed s → Returns s) := by
  obtain ⟨s, hrun, inv⟩ := Run.total (.idle init_timerInv) safe fun s op inv => timerStep_inv inv op
  exact ⟨s, hrun, fun t => inv.onTime, fun running h => inv.returns h running⟩

/-- The second timer is added when the first one has been called and is not yet removed, and two
more ticks come in the same round. Nothing is due in them. -/
def twoTimers : List TimerOp :=
  [.add 0 1, .tick, .start] ++ .replicate 9 .next ++ [.tick, .start, .next, .next, .next, .tick,
    .start, .next, .next, .add 1 40, .tick, .tick] ++ .replicate 7 .next

theorem timer_runs_twoTimers :
    (Run.exec timerStep .init twoTimers).map
      (fun s => (s.phase, s.wheel.timerTicks, s.wheel.called)) =
        some (.idle, 5, [(0, 2)]) ∧
      ∃ s, Run.exec timerStep .init twoTimers = some s ∧
        (∀ t, s.wheel.linked t = true → OnTime s.wheel t) ∧
        (s.phase ≠ .idle → Undisturbed s → Returns s) :=
  ⟨by decide +kernel, timer_runs twoTimers (by decide +kernel)⟩

/-- A timer 63 ticks away is called at once. -/
theorem called_before_expires :
    (Run.exec timerStep .init ([.add 0 63, .tick, .start] ++ .replicate 8 .next)).map
      (fun s => (s.wheel.expires 0, s.wheel.called)) = some (63, [(0, 0)]) := by
  decide +kernel

end KernelTravel.Timer

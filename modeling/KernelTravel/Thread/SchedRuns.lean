import KernelTravel.Thread.Sched
import KernelTravel.Lib.Run
import Mathlib.Data.List.Nodup

/-!
# Every thread is where its status says

Each operation takes one thread from its place and puts it in another. `Held` describes the
state in between, with that thread in no list and no slot, so that an operation is one take
and one put. `schedule` is a put of the thread that goes and a take of the one that comes.
-/

namespace KernelTravel.Thread

open Function

/-- Every thread is where its status says, with `r` as the running one, if any. -/
structure Placed (s : Sched) (r : Option Nat) : Prop where
  running : ∀ t, s.status t = .running ↔ r = some t
  ready : ∀ t, s.status t = .ready ↔ t ∈ s.ready
  readyNodup : s.ready.Nodup
  waits : ∀ q, ∀ t ∈ s.wait q, s.status t = .blocked
  waitNodup : ∀ q, (s.wait q).Nodup
  apart : ∀ q q' t, t ∈ s.wait q → t ∈ s.wait q' → q = q'
  slots : ∀ k t, s.slot k = some t → s.status t = .blocked ∧ ∀ q, t ∉ s.wait q
  slotOnce : ∀ k k' t, s.slot k = some t → s.slot k' = some t → k = k'
  idleStatus : s.status s.idle = .ready ∨ s.status s.idle = .running ∨ s.status s.idle = .blocked
  idleWait : ∀ q, s.idle ∉ s.wait q
  idleSlot : ∀ k, s.slot k ≠ some s.idle

/-- The same for all threads but `t`, which is nowhere. -/
structure Held (s : Sched) (r : Option Nat) (t : Nat) : Prop where
  running : ∀ u, u ≠ t → (s.status u = .running ↔ r = some u)
  notRunning : r ≠ some t
  ready : ∀ u, u ≠ t → (s.status u = .ready ↔ u ∈ s.ready)
  notReady : t ∉ s.ready
  readyNodup : s.ready.Nodup
  waits : ∀ q, ∀ u ∈ s.wait q, s.status u = .blocked
  notWaiting : ∀ q, t ∉ s.wait q
  waitNodup : ∀ q, (s.wait q).Nodup
  apart : ∀ q q' u, u ∈ s.wait q → u ∈ s.wait q' → q = q'
  slots : ∀ k u, s.slot k = some u → s.status u = .blocked ∧ ∀ q, u ∉ s.wait q
  notInSlot : ∀ k, s.slot k ≠ some t
  slotOnce : ∀ k k' u, s.slot k = some u → s.slot k' = some u → k = k'
  idleStatus : s.idle ≠ t →
    s.status s.idle = .ready ∨ s.status s.idle = .running ∨ s.status s.idle = .blocked
  idleWait : ∀ q, s.idle ∉ s.wait q
  idleSlot : ∀ k, s.slot k ≠ some s.idle

theorem Placed.withCur {s : Sched} {r : Option Nat} (h : Placed s r) (c : Nat) :
    Placed { s with cur := c } r :=
  { h with }

section Status

variable {s : Sched} {t u : Nat} {st : TaskStatus}

theorem Sched.status_setStatus_self : (s.setStatus t st).status t = st := update_self ..

theorem Sched.status_setStatus_of_ne (h : u ≠ t) : (s.setStatus t st).status u = s.status u :=
  update_of_ne h ..

end Status

section Take

variable {s : Sched} {r : Option Nat} {t : Nat}

theorem Placed.not_running (h : Placed s r) (hstatus : s.status t ≠ .running) : r ≠ some t :=
  fun hr => hstatus ((h.running t).mpr hr)

theorem Placed.not_ready (h : Placed s r) (hstatus : s.status t ≠ .ready) : t ∉ s.ready :=
  fun ht => hstatus ((h.ready t).mpr ht)

/-- Clearing a slot moves no thread into another. -/
theorem Sched.slot_of_clear {k k' u : Nat} (h : (s.setSlot k none).slot k' = some u) :
    s.slot k' = some u := by
  have hu : update s.slot k none k' = some u := h
  by_cases hkk : k' = k
  · rw [hkk, update_self] at hu
    cases hu
  · rwa [update_of_ne hkk] at hu

/-- A thread that is in no list and no slot can be taken. -/
theorem Placed.hold (h : Placed s r) (hr : r ≠ some t) (hready : s.status t ≠ .ready)
    (hwait : ∀ q, t ∉ s.wait q) (hslot : ∀ k, s.slot k ≠ some t) : Held s r t where
  running u _ := h.running u
  notRunning := hr
  ready u _ := h.ready u
  notReady := h.not_ready hready
  readyNodup := h.readyNodup
  waits := h.waits
  notWaiting := hwait
  waitNodup := h.waitNodup
  apart := h.apart
  slots := h.slots
  notInSlot := hslot
  slotOnce := h.slotOnce
  idleStatus _ := h.idleStatus
  idleWait := h.idleWait
  idleSlot := h.idleSlot

/-- A thread in a wait list or a slot is blocked. -/
theorem Placed.free_of_status (h : Placed s r) (hne : s.status t ≠ .blocked) :
    (∀ q, t ∉ s.wait q) ∧ ∀ k, s.slot k ≠ some t :=
  ⟨fun q hq => hne (h.waits q t hq), fun k hk => hne (h.slots k t hk).1⟩

/-- The running thread gives up its status. -/
theorem Placed.takeRunning (h : Placed s (some t)) : Held s none t := by
  have hstatus : s.status t = .running := (h.running t).mpr rfl
  obtain ⟨hwait, hslot⟩ := h.free_of_status (t := t) (by rw [hstatus]; decide)
  have hready : t ∉ s.ready := h.not_ready (by rw [hstatus]; decide)
  refine ⟨?_, by simp, fun u _ => h.ready u, hready, h.readyNodup, h.waits, hwait, h.waitNodup,
    h.apart, h.slots, hslot, h.slotOnce, fun _ => h.idleStatus, h.idleWait, h.idleSlot⟩
  intro u hu
  rw [h.running u]
  simp [Ne.symm hu]

/-- A thread whose status admits no list. -/
theorem Placed.takeOther (h : Placed s r)
    (hstatus : s.status t = .waiting ∨ s.status t = .hanging ∨ s.status t = .died) :
    Held s r t := by
  obtain ⟨hrun, hready, hblocked⟩ : s.status t ≠ .running ∧ s.status t ≠ .ready ∧
      s.status t ≠ .blocked := by
    rcases hstatus with h | h | h
    all_goals
      rw [h]
      decide
  obtain ⟨hwait, hslot⟩ := h.free_of_status hblocked
  exact h.hold (h.not_running hrun) hready hwait hslot

/-- The idle thread blocked, and nobody holds it. -/
theorem Placed.takeIdle (h : Placed s r) (hstatus : s.status s.idle = .blocked) :
    Held s r s.idle := by
  have hrun : s.status s.idle ≠ .running := by rw [hstatus]; decide
  exact h.hold (h.not_running hrun) (by rw [hstatus]; decide) h.idleWait h.idleSlot

/-- The first thread of a wait list. -/
theorem Placed.takeWait (h : Placed s r) {q : Nat} {rest : List Nat} (hq : s.wait q = t :: rest) :
    Held { s with wait := update s.wait q rest } r t := by
  have hmem : t ∈ s.wait q := by rw [hq]; exact List.mem_cons_self
  have hstatus := h.waits q t hmem
  have hnodup := h.waitNodup q
  rw [hq, List.nodup_cons] at hnodup
  have hsub : ∀ q' u, u ∈ update s.wait q rest q' → u ∈ s.wait q' := by
    intro q' u hu
    by_cases hqq : q' = q
    · subst hqq
      rw [update_self] at hu
      rw [hq]
      exact List.mem_cons_of_mem t hu
    · rwa [update_of_ne hqq] at hu
  refine Held.mk (fun u _ => h.running u) (h.not_running (by rw [hstatus]; decide))
    (fun u _ => h.ready u) (h.not_ready (by rw [hstatus]; decide)) h.readyNodup
    (fun q' u hu => h.waits q' u (hsub q' u hu)) ?_ ?_
    (fun q₁ q₂ u h₁ h₂ => h.apart q₁ q₂ u (hsub q₁ u h₁) (hsub q₂ u h₂))
    (fun k u hk => ⟨(h.slots k u hk).1, fun q' hu => (h.slots k u hk).2 q' (hsub q' u hu)⟩)
    (fun k hk => (h.slots k t hk).2 q hmem) h.slotOnce (fun _ => h.idleStatus)
    (fun q' hu => h.idleWait q' (hsub q' _ hu)) h.idleSlot
  · intro q' hu
    have hqq := h.apart q' q t (hsub q' t hu) hmem
    subst hqq
    have hrest : t ∈ update s.wait q' rest q' := hu
    rw [update_self] at hrest
    exact hnodup.1 hrest
  · intro q'
    by_cases hqq : q' = q
    · subst hqq
      exact show (update s.wait q' rest q').Nodup by
        rw [update_self]
        exact hnodup.2
    · exact show (update s.wait q rest q').Nodup by
        rw [update_of_ne hqq]
        exact h.waitNodup q'

/-- The thread of a slot, which is cleared. -/
theorem Placed.takeSlot (h : Placed s r) {k : Nat} (hk : s.slot k = some t) :
    Held (s.setSlot k none) r t := by
  obtain ⟨hstatus, hwait⟩ := h.slots k t hk
  refine Held.mk (fun u _ => h.running u) (h.not_running (by rw [hstatus]; decide))
    (fun u _ => h.ready u) (h.not_ready (by rw [hstatus]; decide)) h.readyNodup h.waits hwait
    h.waitNodup h.apart (fun k' u hu => h.slots k' u (Sched.slot_of_clear hu)) ?_
    (fun k₁ k₂ u h₁ h₂ => h.slotOnce k₁ k₂ u (Sched.slot_of_clear h₁) (Sched.slot_of_clear h₂))
    (fun _ => h.idleStatus) h.idleWait (fun k' hu => h.idleSlot k' (Sched.slot_of_clear hu))
  intro k' hu
  have hkk := h.slotOnce k' k t (Sched.slot_of_clear hu) hk
  subst hkk
  have hnone : update s.slot k' none k' = some t := hu
  rw [update_self] at hnone
  cases hnone

/-- The first thread of the ready list. -/
theorem Placed.takeReady (h : Placed s r) {rest : List Nat} (hready : s.ready = t :: rest) :
    Held { s with ready := rest } r t := by
  have hmem : t ∈ s.ready := by rw [hready]; exact List.mem_cons_self
  have hstatus := (h.ready t).mpr hmem
  obtain ⟨hwait, hslot⟩ := h.free_of_status (t := t) (by rw [hstatus]; decide)
  have hnodup := h.readyNodup
  rw [hready, List.nodup_cons] at hnodup
  refine Held.mk (fun u _ => h.running u) (h.not_running (by rw [hstatus]; decide)) ?_ hnodup.1
    hnodup.2 h.waits hwait h.waitNodup h.apart h.slots hslot h.slotOnce (fun _ => h.idleStatus)
    h.idleWait h.idleSlot
  intro u hu
  rw [h.ready u, hready, List.mem_cons]
  exact or_iff_right hu

end Take

section Put

variable {s : Sched} {r : Option Nat} {t : Nat}

theorem Held.waits_setStatus (h : Held s r t) {st : TaskStatus} :
    ∀ q, ∀ u ∈ s.wait q, (s.setStatus t st).status u = .blocked := by
  intro q u hu
  have hne : u ≠ t := fun hut => h.notWaiting q (hut ▸ hu)
  rw [Sched.status_setStatus_of_ne hne]
  exact h.waits q u hu

theorem Held.slots_setStatus (h : Held s r t) {st : TaskStatus} :
    ∀ k u, s.slot k = some u → (s.setStatus t st).status u = .blocked ∧ ∀ q, u ∉ s.wait q := by
  intro k u hu
  have hne : u ≠ t := fun hut => h.notInSlot k (hut ▸ hu)
  rw [Sched.status_setStatus_of_ne hne]
  exact h.slots k u hu

theorem Held.idle_setStatus (h : Held s r t) {st : TaskStatus}
    (hst : st = .ready ∨ st = .running ∨ st = .blocked ∨ t ≠ s.idle) :
    (s.setStatus t st).status s.idle = .ready ∨ (s.setStatus t st).status s.idle = .running ∨
      (s.setStatus t st).status s.idle = .blocked := by
  by_cases ht : s.idle = t
  · rw [ht, Sched.status_setStatus_self]
    rcases hst with h | h | h | h
    · exact .inl h
    · exact .inr (.inl h)
    · exact .inr (.inr h)
    · exact absurd ht.symm h
  · rw [Sched.status_setStatus_of_ne ht]
    exact h.idleStatus ht

theorem Held.running_setStatus (h : Held s r t) {st : TaskStatus} (hst : st ≠ .running) :
    ∀ u, (s.setStatus t st).status u = .running ↔ r = some u := by
  intro u
  by_cases hu : u = t
  · subst hu
    rw [Sched.status_setStatus_self]
    exact ⟨fun h => absurd h hst, fun hr => absurd hr h.notRunning⟩
  · rw [Sched.status_setStatus_of_ne hu]
    exact h.running u hu

theorem Held.ready_setStatus (h : Held s r t) {st : TaskStatus} (hst : st ≠ .ready) :
    ∀ u, (s.setStatus t st).status u = .ready ↔ u ∈ s.ready := by
  intro u
  by_cases hu : u = t
  · subst hu
    rw [Sched.status_setStatus_self]
    exact ⟨fun h => absurd h hst, fun hr => absurd hr h.notReady⟩
  · rw [Sched.status_setStatus_of_ne hu]
    exact h.ready u hu

/-- The thread is put back with a status that stands in no wait list and no slot. -/
theorem Held.put (h : Held s r t) {st : TaskStatus} {list : List Nat} {r' : Option Nat}
    (running : ∀ u, (s.setStatus t st).status u = .running ↔ r' = some u)
    (ready : ∀ u, (s.setStatus t st).status u = .ready ↔ u ∈ list) (nodup : list.Nodup)
    (hst : st = .ready ∨ st = .running ∨ st = .blocked ∨ t ≠ s.idle) :
    Placed { s.setStatus t st with ready := list } r' where
  running := running
  ready := ready
  readyNodup := nodup
  waits := h.waits_setStatus
  waitNodup := h.waitNodup
  apart := h.apart
  slots := h.slots_setStatus
  slotOnce := h.slotOnce
  idleStatus := h.idle_setStatus hst
  idleWait := h.idleWait
  idleSlot := h.idleSlot

/-- To the ready list, at either end. -/
theorem Held.putReady (h : Held s r t) {list : List Nat} (hlist : list.Perm (t :: s.ready)) :
    Placed { s.setStatus t .ready with ready := list } r := by
  refine h.put (h.running_setStatus (by decide)) (fun u => ?_)
    (hlist.nodup_iff.mpr (List.nodup_cons.mpr ⟨h.notReady, h.readyNodup⟩)) (.inl rfl)
  rw [hlist.mem_iff, List.mem_cons]
  by_cases hu : u = t
  · subst hu
    rw [Sched.status_setStatus_self]
    exact ⟨fun _ => .inl rfl, fun _ => rfl⟩
  · rw [Sched.status_setStatus_of_ne hu, h.ready u hu]
    exact (or_iff_right hu).symm

/-- To the processor. -/
theorem Held.putRunning (h : Held s none t) : Placed (s.setStatus t .running) (some t) := by
  refine h.put (fun u => ?_) (h.ready_setStatus (by decide)) h.readyNodup (.inr (.inl rfl))
  by_cases hu : u = t
  · subst hu
    rw [Sched.status_setStatus_self]
    exact ⟨fun _ => rfl, fun _ => rfl⟩
  · rw [Sched.status_setStatus_of_ne hu, h.running u hu]
    simp [Ne.symm hu]

/-- To no list. -/
theorem Held.putAside (h : Held s r t) {st : TaskStatus} (hrun : st ≠ .running)
    (hready : st ≠ .ready) (hidle : st = .blocked ∨ t ≠ s.idle) : Placed (s.setStatus t st) r :=
  h.put (h.running_setStatus hrun) (h.ready_setStatus hready) h.readyNodup (.inr (.inr hidle))

/-- To the end of a wait list. -/
theorem Held.putWait (h : Held s r t) (q : Nat) (hidle : t ≠ s.idle) :
    Placed ({ s with wait := update s.wait q (s.wait q ++ [t]) }.setStatus t .blocked) r := by
  have hmem : ∀ q' u, u ∈ update s.wait q (s.wait q ++ [t]) q' →
      u ∈ s.wait q' ∨ u = t ∧ q' = q := by
    intro q' u hu
    by_cases hqq : q' = q
    · subst hqq
      rw [update_self, List.mem_append, List.mem_singleton] at hu
      exact hu.imp_right fun hut => ⟨hut, rfl⟩
    · rw [update_of_ne hqq] at hu
      exact .inl hu
  refine Placed.mk (h.running_setStatus (by decide)) (h.ready_setStatus (by decide))
    h.readyNodup ?_ ?_ ?_ ?_ h.slotOnce (h.idle_setStatus (.inr (.inr (.inl rfl)))) ?_ h.idleSlot
  · intro q' u hu
    rcases hmem q' u hu with hu | ⟨rfl, -⟩
    · exact h.waits_setStatus q' u hu
    · exact Sched.status_setStatus_self
  · intro q'
    change (update s.wait q (s.wait q ++ [t]) q').Nodup
    by_cases hqq : q' = q
    · subst hqq
      rw [update_self]
      exact (h.waitNodup q').append (List.nodup_singleton t)
        (List.disjoint_singleton.mpr (h.notWaiting q'))
    · rw [update_of_ne hqq]
      exact h.waitNodup q'
  · intro q₁ q₂ u h₁ h₂
    rcases hmem q₁ u h₁ with hold₁ | ⟨hut, hq₁⟩
    · rcases hmem q₂ u h₂ with hold₂ | ⟨hut, -⟩
      · exact h.apart q₁ q₂ u hold₁ hold₂
      · exact absurd (hut ▸ hold₁) (h.notWaiting q₁)
    · rcases hmem q₂ u h₂ with hold₂ | ⟨-, hq₂⟩
      · exact absurd (hut ▸ hold₂) (h.notWaiting q₂)
      · exact hq₁.trans hq₂.symm
  · intro k u hu
    refine ⟨(h.slots_setStatus k u hu).1, fun q' hq' => ?_⟩
    rcases hmem q' u hq' with hq' | ⟨rfl, -⟩
    · exact (h.slots k u hu).2 q' hq'
    · exact h.notInSlot k hu
  · intro q' hq'
    rcases hmem q' _ hq' with hq' | ⟨hidle', -⟩
    · exact h.idleWait q' hq'
    · exact hidle hidle'.symm

/-- To an empty slot. -/
theorem Held.putSlot (h : Held s r t) {k : Nat} (hk : s.slot k = none) (hidle : t ≠ s.idle) :
    Placed ((s.setSlot k (some t)).setStatus t .blocked) r := by
  have hget : ∀ k' u, update s.slot k (some t) k' = some u →
      k' ≠ k ∧ s.slot k' = some u ∨ k' = k ∧ u = t := by
    intro k' u hu
    by_cases hkk : k' = k
    · subst hkk
      rw [update_self, Option.some.injEq] at hu
      exact .inr ⟨rfl, hu.symm⟩
    · rw [update_of_ne hkk] at hu
      exact .inl ⟨hkk, hu⟩
  refine Placed.mk (h.running_setStatus (by decide)) (h.ready_setStatus (by decide)) h.readyNodup
    h.waits_setStatus h.waitNodup h.apart ?_ ?_ (h.idle_setStatus (.inr (.inr (.inl rfl))))
      h.idleWait ?_
  · intro k' u hu
    rcases hget k' u hu with ⟨-, hu⟩ | ⟨-, rfl⟩
    · exact h.slots_setStatus k' u hu
    · exact ⟨Sched.status_setStatus_self, h.notWaiting⟩
  · intro k₁ k₂ u h₁ h₂
    rcases hget k₁ u h₁ with ⟨-, hold₁⟩ | ⟨hk₁, hut⟩
    · rcases hget k₂ u h₂ with ⟨-, hold₂⟩ | ⟨-, hut⟩
      · exact h.slotOnce k₁ k₂ u hold₁ hold₂
      · exact absurd (hut ▸ hold₁) (h.notInSlot k₁)
    · rcases hget k₂ u h₂ with ⟨-, hold₂⟩ | ⟨hk₂, -⟩
      · exact absurd (hut ▸ hold₂) (h.notInSlot k₂)
      · exact hk₁.trans hk₂.symm
  · intro k' hu
    rcases hget k' _ hu with ⟨-, hu⟩ | ⟨-, hidle'⟩
    · exact h.idleSlot k' hu
    · exact hidle hidle'.symm

end Put

section Calls

variable {s : Sched} {r : Option Nat} {t : Nat}

theorem readyAppend_spec (h : Held s r t) :
    readyAppend s t = some { s.setStatus t .ready with ready := s.ready ++ [t] } ∧
      Placed { s.setStatus t .ready with ready := s.ready ++ [t] } r :=
  ⟨if_neg h.notReady, h.putReady (List.perm_append_singleton t s.ready)⟩

theorem threadUnblock_spec (h : Held s r t) (hasleep : asleep (s.status t) = true) :
    threadUnblock s t = some { s.setStatus t .ready with ready := t :: s.ready } ∧
      Placed { s.setStatus t .ready with ready := t :: s.ready } r := by
  refine ⟨?_, h.putReady (List.Perm.refl _)⟩
  rw [threadUnblock, if_pos hasleep, if_neg h.notReady]

/-- With nobody running, the end of `schedule` finds a thread: if no other is ready, the idle
thread is blocked. -/
theorem wakeIdle_pick (h : Placed s none) :
    ∃ s', (wakeIdle s).bind pick = some s' ∧ Placed s' (some s'.cur) := by
  have hpick : ∀ s : Sched, Placed s none → s.ready ≠ [] →
      ∃ s', pick s = some s' ∧ Placed s' (some s'.cur) := by
    intro s h hne
    obtain ⟨next, rest, hready⟩ := List.exists_cons_of_ne_nil hne
    refine ⟨_, by rw [pick, hready], ?_⟩
    exact (h.takeReady hready).putRunning.withCur next
  by_cases hempty : s.ready = []
  · have hblocked : s.status s.idle = .blocked := by
      rcases h.idleStatus with hidle | hidle | hidle
      · rw [h.ready, hempty] at hidle
        exact absurd hidle List.not_mem_nil
      · cases (h.running s.idle).mp hidle
      · exact hidle
    obtain ⟨hrun, hplaced⟩ := threadUnblock_spec (h.takeIdle hblocked) (by rw [hblocked]; rfl)
    rw [wakeIdle, if_pos hempty, hrun, Option.bind_some]
    exact hpick _ hplaced (List.cons_ne_nil _ _)
  · rw [wakeIdle, if_neg hempty, Option.bind_some]
    exact hpick s h hempty

/-- `schedule` after the current thread gave up its status. -/
theorem schedule_of_placed_none (h : Placed s none) :
    ∃ s', schedule s = some s' ∧ Placed s' (some s'.cur) := by
  have hcur : s.status s.cur ≠ .running := fun hr => by cases (h.running s.cur).mp hr
  rw [schedule, requeue, if_neg hcur, Option.bind_some]
  exact wakeIdle_pick h

/-- `schedule` while the current thread still runs. -/
theorem schedule_of_placed (h : Placed s (some s.cur)) :
    ∃ s', schedule s = some s' ∧ Placed s' (some s'.cur) := by
  obtain ⟨hrun, hplaced⟩ := readyAppend_spec h.takeRunning
  rw [schedule, requeue, if_pos ((h.running s.cur).mpr rfl), hrun, Option.bind_some]
  exact wakeIdle_pick hplaced

theorem threadBlock_spec {stat : TaskStatus} (hcur : s.status s.cur = .running)
    (hasleep : asleep stat = true) (h : Placed (s.setStatus s.cur stat) none) :
    ∃ s', threadBlock s stat = some s' ∧ Placed s' (some s'.cur) := by
  rw [threadBlock, if_pos ⟨hasleep, hcur⟩]
  exact schedule_of_placed_none h

end Calls

theorem schedStep_placed {s : Sched} (h : Placed s (some s.cur)) (op : SchedOp)
    (enabled : Enabled s op) : ∃ s', schedStep s op = some s' ∧ Placed s' (some s'.cur) := by
  have hcur : s.status s.cur = .running := (h.running s.cur).mpr rfl
  cases op with
  | start t =>
    obtain ⟨hrun, hplaced⟩ := readyAppend_spec (h.takeOther (.inr (.inr enabled)))
    exact ⟨_, hrun, hplaced⟩
  | tick => exact schedule_of_placed h
  | yield =>
    obtain ⟨hrun, hplaced⟩ := readyAppend_spec h.takeRunning
    rw [schedStep, threadYield, hrun, Option.bind_some]
    exact schedule_of_placed_none hplaced
  | idleBlock =>
    exact threadBlock_spec hcur rfl (h.takeRunning.putAside (by decide) (by decide) (.inl rfl))
  | waitChild =>
    exact threadBlock_spec hcur rfl (h.takeRunning.putAside (by decide) (by decide) (.inr enabled))
  | exit =>
    exact threadBlock_spec hcur rfl (h.takeRunning.putAside (by decide) (by decide) (.inr enabled))
  | wakeParent t =>
    have hstatus : s.status t = .waiting := enabled
    obtain ⟨hrun, hplaced⟩ := threadUnblock_spec (h.takeOther (.inl hstatus)) (by rw [hstatus]; rfl)
    exact ⟨_, hrun, hplaced⟩
  | reap t =>
    have hstatus : s.status t = .hanging := enabled
    have hidle : t ≠ s.idle := by
      rintro rfl
      rcases h.idleStatus with hi | hi | hi
      all_goals
        rw [hi] at hstatus
        cases hstatus
    have hheld := h.takeOther (.inr (.inl hstatus))
    exact ⟨_, if_neg hheld.notReady, hheld.putAside (by decide) (by decide) (.inr hidle)⟩
  | semaWait q =>
    have hheld := h.takeRunning
    rw [schedStep, semaWait, if_neg (hheld.notWaiting q)]
    exact threadBlock_spec hcur rfl (hheld.putWait q enabled)
  | semaWake q =>
    rw [schedStep, semaWake]
    split
    · exact ⟨s, rfl, h⟩
    · rename_i t rest hq
      have hstatus : s.status t = .blocked := h.waits q t (by rw [hq]; exact List.mem_cons_self)
      obtain ⟨hrun, hplaced⟩ := threadUnblock_spec (h.takeWait hq)
        (show asleep (s.status t) = true by rw [hstatus]; rfl)
      exact ⟨_, hrun, hplaced⟩
  | sleepOn k =>
    rw [schedStep, sleepOn, if_pos enabled.2]
    exact threadBlock_spec hcur rfl (h.takeRunning.putSlot enabled.2 enabled.1)
  | wakeup k =>
    obtain ⟨t, hk⟩ := Option.ne_none_iff_exists'.mp enabled
    have hstatus := (h.slots k t hk).1
    have hheld := h.takeSlot hk
    obtain ⟨-, hplaced⟩ := threadUnblock_spec hheld
      (show asleep (s.status t) = true by rw [hstatus]; rfl)
    -- the slot is cleared after the thread was put on the list, which is the same state
    refine ⟨_, ?_, hplaced⟩
    rw [schedStep, wakeup, hk, Option.bind_some, threadUnblock, hstatus,
      if_pos (show asleep .blocked = true from rfl),
      if_neg (show t ∉ s.ready from hheld.notReady)]
    rfl
  | wakeSleep k =>
    obtain ⟨t, hk⟩ := Option.ne_none_iff_exists'.mp enabled
    have hstatus := (h.slots k t hk).1
    obtain ⟨hrun, hplaced⟩ := threadUnblock_spec (h.takeSlot hk)
      (show asleep (s.status t) = true by rw [hstatus]; rfl)
    rw [schedStep, wakeSleep, hk, Option.bind_some, threadPreempt, hrun, Option.bind_some]
    exact schedule_of_placed hplaced
  | clearSlot k =>
    exact ⟨_, rfl, { h with
      slots := fun k' u hu => h.slots k' u (Sched.slot_of_clear hu)
      slotOnce := fun k₁ k₂ u h₁ h₂ =>
        h.slotOnce k₁ k₂ u (Sched.slot_of_clear h₁) (Sched.slot_of_clear h₂)
      idleSlot := fun k' hu => h.idleSlot k' (Sched.slot_of_clear hu) }⟩

/-- What the scheduler promises between calls. -/
structure SchedOk (s : Sched) : Prop where
  oneRunning : ∃! t, s.status t = .running
  ready : ∀ t, s.status t = .ready ↔ s.ready.count t = 1
  readyOnce : ∀ t, s.ready.count t ≤ 1
  waitOnce : ∀ q t, (s.wait q).count t ≤ 1
  readyWait : ∀ q t, t ∈ s.ready → t ∉ s.wait q
  waitWait : ∀ q q' t, t ∈ s.wait q → t ∈ s.wait q' → q = q'
  idle : s.ready = [] → s.idle ≠ s.cur → s.status s.idle = .blocked
  scheduled : ∃ s', schedule s = some s'

theorem Placed.schedOk {s : Sched} (h : Placed s (some s.cur)) : SchedOk s where
  oneRunning := by
    refine ⟨s.cur, (h.running s.cur).mpr rfl, fun t ht => ?_⟩
    exact (Option.some.inj ((h.running t).mp ht)).symm
  ready t := by
    rw [h.ready]
    constructor
    · exact List.count_eq_one_of_mem h.readyNodup
    · intro hcount
      exact List.count_pos_iff.mp (by omega)
  readyOnce := List.nodup_iff_count_le_one.mp h.readyNodup
  waitOnce q := List.nodup_iff_count_le_one.mp (h.waitNodup q)
  readyWait q t ht hq := by
    have hready := (h.ready t).mpr ht
    rw [h.waits q t hq] at hready
    cases hready
  waitWait := h.apart
  idle hempty hne := by
    rcases h.idleStatus with hidle | hidle | hidle
    · rw [h.ready, hempty] at hidle
      exact absurd hidle List.not_mem_nil
    · exact absurd (Option.some.inj ((h.running s.idle).mp hidle)).symm hne
    · exact hidle
  scheduled := by
    obtain ⟨s', hrun, -⟩ := schedule_of_placed h
    exact ⟨s', hrun⟩

theorem init_placed : Placed Sched.init (some 0) where
  running t := by
    simp only [Sched.init, Option.some.injEq]
    split
    · rename_i h
      exact ⟨fun _ => h.symm, fun _ => rfl⟩
    · rename_i h
      constructor
      · intro hs
        split at hs
        · cases hs
        · cases hs
      · intro ht
        exact absurd ht.symm h
  ready t := by
    simp only [Sched.init]
    split
    · rename_i h
      simp [h]
    · split
      · simp
        omega
      · simp
        omega
  readyNodup := by decide
  waits _ _ h := absurd h List.not_mem_nil
  waitNodup _ := List.nodup_nil
  apart _ _ _ h := absurd h List.not_mem_nil
  slots _ _ h := by cases h
  slotOnce _ _ _ h := by cases h
  idleStatus := .inl rfl
  idleWait _ := List.not_mem_nil
  idleSlot _ := by
    intro h
    cases h

/-- Every run of calls that the kernel makes ends without a failed assertion, and the lists
agree with the statuses in the state it reaches. -/
theorem sched_runs (ops : List SchedOp) (enabled : Run.Meets schedStep Enabled Sched.init ops) :
    ∃ s, Run.exec schedStep Sched.init ops = some s ∧ SchedOk s := by
  obtain ⟨s, hrun, hplaced⟩ := Run.total (I := fun s => Placed s (some s.cur)) init_placed enabled
    fun _ op h => schedStep_placed h op
  exact ⟨s, hrun, hplaced.schedOk⟩

/-- Threads fork, wait on a semaphore, sleep on a timer and exit, until only idle is left. -/
def forkWaitSleep : List SchedOp :=
  [.start 3, .semaWait 0, .tick, .idleBlock, .semaWake 0, .waitChild, .semaWait 5, .sleepOn 7,
    .idleBlock, .wakeSleep 7, .wakeParent 3, .exit, .reap 1, .yield]

theorem sched_runs_forkWaitSleep :
    ∃ s, Run.exec schedStep Sched.init forkWaitSleep = some s ∧ SchedOk s :=
  sched_runs forkWaitSleep (by decide +kernel)

end KernelTravel.Thread

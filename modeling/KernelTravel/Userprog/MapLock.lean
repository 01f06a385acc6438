import KernelTravel.Lib.Run
import KernelTravel.Thread.Sync

/-!
# The semaphore of an address space

`map_lock` guards three sections: the one of `elf_map`, the one at the end of `load`, and the one
of the page fault handler, all exits of which go through `sema_up`. The section of `load` ends
with a second `sema_down` where `sema_up` is meant. And the semaphore starts with the value 4,
so that it admits four threads at once. A process that is forked shares the address space of its
parent until `execve` gives it a new one. `sys_mmap` does not use the semaphore.

A thread can lose the processor anywhere; here it does between two calls on the semaphore, which
run with interrupts off. A step that the thread cannot make, and a failed `ASSERT`, are `none`.
-/

namespace KernelTravel.Userprog

open Function

open KernelTravel.Sync (Semaphore semaInit semaRound semaUp)

/-- The sections that are guarded by `map_lock`. -/
inductive Guarded where
  | elfMap
  | load
  | pageFault
  deriving DecidableEq

/-- Where a thread is. -/
inductive MapPhase where
  | outside
  /-- Asleep in the `sema_down` before the section. -/
  | waits (g : Guarded)
  /-- Ready again there. -/
  | ready (g : Guarded)
  | inside (g : Guarded)
  /-- Asleep in the `sema_down` at the end of `load`. -/
  | stuck
  /-- Ready again there. -/
  | freed
  deriving DecidableEq

/-- Before the call that ends the section has returned. -/
def MapPhase.within : MapPhase → Bool
  | .inside _ | .stuck | .freed => true
  | .outside | .waits _ | .ready _ => false

/-- `MAX_MAP_LOCK_NUM`. -/
def maxMapLockNum : Nat := 4

/-- The address spaces by number, of which `next` is not in use yet, and the threads. -/
structure Spaces where
  mapLock : Nat → Semaphore
  next : Nat
  mm : Nat → Nat
  phase : Nat → MapPhase

namespace Spaces

/-- One address space, as `mm_struct_init` makes it, for the first thread and those that are
forked from it. -/
def init : Spaces := ⟨fun _ => semaInit maxMapLockNum, 1, fun _ => 0, fun _ => .outside⟩

def goto (s : Spaces) (t : Nat) (phase : MapPhase) : Spaces :=
  { s with phase := update s.phase t phase }

def setLock (s : Spaces) (m : Nat) (sema : Semaphore) : Spaces :=
  { s with mapLock := update s.mapLock m sema }

/-- A round of `sema_down` by thread `t`, which goes to `got` or sleeps in `sleep`. -/
def down (s : Spaces) (t : Nat) (got sleep : MapPhase) : Option Spaces :=
  (semaRound (s.mapLock (s.mm t)) t).map fun r =>
    (s.setLock (s.mm t) r.1).goto t (if r.2 then got else sleep)

/-- `thread_unblock` of a thread that sleeps in `sema_down`. -/
def unblock (s : Spaces) (u : Nat) : Option Spaces :=
  match s.phase u with
  | .waits g => some (s.goto u (.ready g))
  | .stuck => some (s.goto u .freed)
  | _ => none

def up (s : Spaces) (t : Nat) : Option Spaces :=
  let r := semaUp (s.mapLock (s.mm t))
  let s := (s.setLock (s.mm t) r.1).goto t .outside
  match r.2 with
  | none => some s
  | some u => s.unblock u

end Spaces

inductive SpaceOp where
  /-- `sys_fork` by `t` of the new thread `u`. -/
  | fork (t u : Nat)
  /-- `load` has found an ELF header and takes a new `mm_struct`. -/
  | newMm (t : Nat)
  /-- The `sema_down` before a section. -/
  | enter (t : Nat) (g : Guarded)
  /-- The call that ends the section. -/
  | leave (t : Nat)
  /-- A thread that was woken runs. -/
  | resume (t : Nat)
  /-- `sys_mmap`, or a page fault at an address of the kernel. -/
  | unguarded (t : Nat)

def spaceStep (s : Spaces) : SpaceOp → Option Spaces
  | .fork t u =>
    if s.phase t = .outside ∧ s.phase u = .outside then some { s with mm := update s.mm u (s.mm t) }
    else none
  | .newMm t =>
    if s.phase t = .outside then
      some { s.setLock s.next (semaInit maxMapLockNum) with
        next := s.next + 1, mm := update s.mm t s.next }
    else none
  | .enter t g => if s.phase t = .outside then s.down t (.inside g) (.waits g) else none
  | .leave t =>
    match s.phase t with
    | .inside .elfMap => s.up t
    -- `sema_down` is called again
    | .inside .load => s.down t .outside .stuck
    | .inside .pageFault => s.up t
    | _ => none
  | .resume t =>
    match s.phase t with
    | .ready g => s.down t (.inside g) (.waits g)
    | .freed => s.down t .outside .stuck
    | _ => none
  | .unguarded t => if s.phase t = .outside then some s else none

/-- The threads that are inside a section of an address space. -/
def Spaces.Within (s : Spaces) (m t : Nat) : Prop := s.mm t = m ∧ (s.phase t).within = true

/-- Without a thread inside, the semaphore has its first value; and there is never more than one
thread inside. -/
def Balanced (s : Spaces) : Prop :=
  ∀ m < s.next, ((∀ t, ¬s.Within m t) → (s.mapLock m).value = maxMapLockNum) ∧
    ∀ t u, s.Within m t → s.Within m u → t = u

/-- A thread enters a section of an address space while no other thread is inside one, and the
section of `load` does not end. -/
def LockSafe (s : Spaces) : SpaceOp → Prop
  | .enter t _ => ∀ u, ¬s.Within (s.mm t) u
  | .leave t => s.phase t ≠ .inside .load
  | .fork _ _ | .newMm _ | .resume _ | .unguarded _ => True

/-! ## The invariant -/

/-- No thread sleeps, and an address space is free, or has one thread inside. -/
structure Calm (s : Spaces) : Prop where
  used : ∀ t, s.mm t < s.next
  awake : ∀ t, s.phase t = .outside ∨ ∃ g, s.phase t = .inside g
  list : ∀ m < s.next, (s.mapLock m).waitList = []
  value : ∀ m < s.next, (∀ t, ¬s.Within m t) ∧ (s.mapLock m).value = maxMapLockNum ∨
    ∃ t, s.Within m t ∧ (∀ u, s.Within m u → u = t) ∧ (s.mapLock m).value + 1 = maxMapLockNum

section Steps

variable {s s' : Spaces} {t u m : Nat} {op : SpaceOp} {g : Guarded}

theorem calm_init : Calm .init where
  used _ := Nat.one_pos
  awake _ := .inl rfl
  list _ _ := rfl
  value _ _ := .inl ⟨fun _ h => Bool.false_ne_true h.2, rfl⟩

theorem Calm.balanced (calm : Calm s) : Balanced s := by
  intro m hm
  rcases calm.value m hm with ⟨hnone, hvalue⟩ | ⟨t, ht, hall, -⟩
  · exact ⟨fun _ => hvalue, fun t u ht => absurd ht (hnone t)⟩
  · exact ⟨fun hnone => absurd ht (hnone t), fun a b ha hb => (hall a ha).trans (hall b hb).symm⟩

theorem Calm.value_pos (calm : Calm s) (hm : m < s.next) : (s.mapLock m).value ≠ 0 := by
  rcases calm.value m hm with ⟨-, hvalue⟩ | ⟨t, -, -, hvalue⟩
  all_goals
    unfold maxMapLockNum at hvalue
    omega

/-- The value of one semaphore and the phase of one thread of its address space change. -/
def Spaces.move (s : Spaces) (t value : Nat) (phase : MapPhase) : Spaces :=
  (s.setLock (s.mm t) { s.mapLock (s.mm t) with value }).goto t phase

/-- In such a state `sema_down` does not sleep. -/
theorem Calm.down (calm : Calm s) (t : Nat) (got sleep : MapPhase) :
    s.down t got sleep = some (s.move t ((s.mapLock (s.mm t)).value - 1) got) := by
  rw [Spaces.down, semaRound, if_neg (calm.value_pos (calm.used t))]
  rfl

/-- Nor is there anyone to wake. -/
theorem Calm.up (calm : Calm s) (t : Nat) :
    s.up t = some (s.move t (((s.mapLock (s.mm t)).value + 1) % 256) .outside) := by
  have hup : semaUp (s.mapLock (s.mm t)) =
      ({ s.mapLock (s.mm t) with value := ((s.mapLock (s.mm t)).value + 1) % 256 }, none) := by
    rw [semaUp]
    split
    next => rfl
    next u rest hcons =>
      rw [calm.list _ (calm.used t)] at hcons
      cases hcons
  rw [Spaces.up, hup]
  rfl

theorem mapLock_move_of_ne {value : Nat} {phase : MapPhase} (hm : m ≠ s.mm t) :
    (s.move t value phase).mapLock m = s.mapLock m := update_of_ne hm _ _

theorem mapLock_move_self {value : Nat} {phase : MapPhase} :
    (s.move t value phase).mapLock (s.mm t) = { s.mapLock (s.mm t) with value } := update_self ..

theorem within_move_self {value : Nat} {phase : MapPhase} :
    (s.move t value phase).Within m t ↔ s.mm t = m ∧ phase.within = true := by
  rw [Spaces.Within]
  change s.mm t = m ∧ (update s.phase t phase t).within = true ↔ _
  rw [update_self]

theorem within_move_of_ne {value : Nat} {phase : MapPhase} (hu : u ≠ t) :
    (s.move t value phase).Within m u ↔ s.Within m u := by
  rw [Spaces.Within]
  change s.mm u = m ∧ (update s.phase t phase u).within = true ↔ _
  rw [update_of_ne hu]
  rfl

/-- Another address space is as it was. -/
theorem within_move_other {value : Nat} {phase : MapPhase} (hm : m ≠ s.mm t) :
    (s.move t value phase).Within m u ↔ s.Within m u := by
  by_cases hu : u = t
  · rw [hu, within_move_self]
    exact ⟨fun h => absurd h.1.symm hm, fun h => absurd h.1.symm hm⟩
  · exact within_move_of_ne hu

variable (calm : Calm s)
include calm

/-- To show that the new state is calm, only the address space of the thread matters. -/
theorem Calm.move {value : Nat} {phase : MapPhase}
    (hphase : phase = .outside ∨ ∃ g, phase = .inside g)
    (hself : (∀ u, ¬(s.move t value phase).Within (s.mm t) u) ∧ value = maxMapLockNum ∨
      ∃ u, (s.move t value phase).Within (s.mm t) u ∧
        (∀ v, (s.move t value phase).Within (s.mm t) v → v = u) ∧ value + 1 = maxMapLockNum) :
    Calm (s.move t value phase) where
  used := calm.used
  awake u := by
    change update s.phase t phase u = _ ∨ ∃ g, update s.phase t phase u = _
    by_cases hu : u = t
    · rw [hu, update_self]
      exact hphase
    · rw [update_of_ne hu]
      exact calm.awake u
  list m hm := by
    by_cases heq : m = s.mm t
    · rw [heq, mapLock_move_self]
      exact calm.list _ (calm.used t)
    · rw [mapLock_move_of_ne heq]
      exact calm.list m hm
  value m hm := by
    by_cases heq : m = s.mm t
    · rw [heq, mapLock_move_self]
      exact hself
    · rw [mapLock_move_of_ne heq]
      simp only [within_move_other heq]
      exact calm.value m hm

theorem Calm.enter (hsafe : ∀ u, ¬s.Within (s.mm t) u) (g : Guarded) :
    Calm (s.move t ((s.mapLock (s.mm t)).value - 1) (.inside g)) := by
  have hvalue : (s.mapLock (s.mm t)).value = maxMapLockNum :=
    (calm.balanced _ (calm.used t)).1 hsafe
  refine calm.move (.inr ⟨g, rfl⟩) (.inr ⟨t, within_move_self.mpr ⟨rfl, rfl⟩, fun v hv => ?_, ?_⟩)
  · by_contra hne
    exact hsafe v ((within_move_of_ne hne).mp hv)
  · rw [hvalue]
    rfl

/-- The thread that is inside leaves. -/
theorem Calm.leave (hinside : s.phase t = .inside g) :
    Calm (s.move t (((s.mapLock (s.mm t)).value + 1) % 256) .outside) ∧
      ∀ value u, ¬(s.move t value .outside).Within (s.mm t) u := by
  have hwithin : s.Within (s.mm t) t := ⟨rfl, by rw [hinside]; rfl⟩
  have hgone : ∀ value u, ¬(s.move t value .outside).Within (s.mm t) u := by
    intro value u hu
    by_cases hut : u = t
    · rw [hut, within_move_self] at hu
      exact Bool.false_ne_true hu.2
    · exact hut ((calm.balanced _ (calm.used t)).2 u t ((within_move_of_ne hut).mp hu) hwithin)
  refine ⟨calm.move (.inl rfl) (.inl ⟨hgone _, ?_⟩), hgone⟩
  rcases calm.value _ (calm.used t) with ⟨hnone, -⟩ | ⟨v, -, -, hvalue⟩
  · exact absurd hwithin (hnone t)
  · rw [hvalue]
    rfl

/-! ## Steps -/

theorem calm_fork (hu : s.phase u = .outside) :
    Calm { s with mm := update s.mm u (s.mm t) } := by
  have hwithin : ∀ m v, ({ s with mm := update s.mm u (s.mm t) } : Spaces).Within m v ↔
      s.Within m v := by
    intro m v
    rw [Spaces.Within, Spaces.Within]
    by_cases hv : v = u
    · rw [hv, hu]
      exact ⟨fun h => absurd h.2 Bool.false_ne_true, fun h => absurd h.2 Bool.false_ne_true⟩
    · dsimp only
      rw [update_of_ne hv]
  refine ⟨fun v => ?_, calm.awake, calm.list, fun m hm => ?_⟩
  · dsimp only
    by_cases hv : v = u
    · rw [hv, update_self]
      exact calm.used t
    · rw [update_of_ne hv]
      exact calm.used v
  · simp only [hwithin]
    exact calm.value m hm

theorem calm_newMm (ht : s.phase t = .outside) :
    Calm { s.setLock s.next (semaInit maxMapLockNum) with
      next := s.next + 1, mm := update s.mm t s.next } := by
  set s' : Spaces := { s.setLock s.next (semaInit maxMapLockNum) with
    next := s.next + 1, mm := update s.mm t s.next } with hs'
  have hnew : s'.mapLock s.next = semaInit maxMapLockNum := update_self ..
  have hold : ∀ m < s.next, s'.mapLock m = s.mapLock m :=
    fun m hm => update_of_ne (Nat.ne_of_lt hm) _ _
  -- the thread itself is outside, so nobody is inside the new address space
  have hwithin : ∀ m v, s'.Within m v ↔ s.Within m v := by
    intro m v
    by_cases hv : v = t
    · have hout : ¬(s.phase v).within = true := by
        rw [hv, ht]
        exact Bool.false_ne_true
      exact ⟨fun h => absurd h.2 hout, fun h => absurd h.2 hout⟩
    · rw [Spaces.Within, Spaces.Within, show s'.mm v = s.mm v from update_of_ne hv _ _]
      rfl
  have hnone : ∀ v, ¬s'.Within s.next v := by
    intro v hv
    exact Nat.ne_of_lt (calm.used v) ((hwithin _ _).mp hv).1
  refine ⟨fun v => ?_, calm.awake, fun m hm => ?_, fun m hm => ?_⟩
  · change update s.mm t s.next v < s.next + 1
    by_cases hv : v = t
    · rw [hv, update_self]
      exact Nat.lt_succ_self _
    · rw [update_of_ne hv]
      exact Nat.lt_succ_of_lt (calm.used v)
  · rcases Nat.lt_succ_iff_lt_or_eq.mp hm with hlt | rfl
    · rw [hold m hlt]
      exact calm.list m hlt
    · rw [hnew]
      rfl
  · rcases Nat.lt_succ_iff_lt_or_eq.mp hm with hlt | rfl
    · rw [hold m hlt]
      simp only [hwithin]
      exact calm.value m hlt
    · rw [hnew]
      exact .inl ⟨hnone, rfl⟩

theorem Calm.spaceStep (safe : LockSafe s op) (step : spaceStep s op = some s') : Calm s' := by
  cases op with
  | fork t u =>
    rw [Userprog.spaceStep] at step
    split at step
    next hout =>
      cases step
      exact calm_fork calm hout.2
    next => cases step
  | newMm t =>
    rw [Userprog.spaceStep] at step
    split at step
    next hout =>
      cases step
      exact calm_newMm calm hout
    next => cases step
  | enter t g =>
    rw [Userprog.spaceStep] at step
    split at step
    next =>
      rw [calm.down] at step
      cases step
      exact calm.enter safe g
    next => cases step
  | leave t =>
    rcases calm.awake t with hout | ⟨g, hin⟩
    · rw [Userprog.spaceStep, hout] at step
      cases step
    · have hup : s.up t = some s' := by
        cases g with
        | elfMap => rwa [Userprog.spaceStep, hin] at step
        | load => exact absurd hin safe
        | pageFault => rwa [Userprog.spaceStep, hin] at step
      rw [calm.up] at hup
      cases hup
      exact (calm.leave hin).1
  | resume t =>
    rcases calm.awake t with hout | ⟨g, hin⟩
    · rw [Userprog.spaceStep, hout] at step
      cases step
    · rw [Userprog.spaceStep, hin] at step
      cases step
  | unguarded t =>
    rw [Userprog.spaceStep] at step
    split at step
    next =>
      cases step
      exact calm
    next => cases step

/-- A second thread is let in, as the value is 3 while one is inside. -/
theorem Calm.not_balanced_enter (hout : s.phase t = .outside) (hu : s.Within (s.mm t) u)
    (g : Guarded) : ¬Balanced (s.move t ((s.mapLock (s.mm t)).value - 1) (.inside g)) := by
  intro hbal
  have hne : u ≠ t := by
    rintro rfl
    rw [Spaces.Within, hout] at hu
    exact Bool.false_ne_true hu.2
  exact hne ((hbal (s.mm t) (calm.used t)).2 u t ((within_move_of_ne hne).mpr hu)
    (within_move_self.mpr ⟨rfl, rfl⟩))

/-- At the end of `load` the value goes from 3 to 2. -/
theorem Calm.not_balanced_load (hin : s.phase t = .inside .load) :
    ¬Balanced (s.move t ((s.mapLock (s.mm t)).value - 1) .outside) := by
  intro hbal
  have hvalue := (hbal (s.mm t) (calm.used t)).1 ((calm.leave hin).2 _)
  rw [mapLock_move_self] at hvalue
  change (s.mapLock (s.mm t)).value - 1 = 4 at hvalue
  rcases calm.value _ (calm.used t) with ⟨-, hfull⟩ | ⟨v, -, -, hone⟩
  · change _ = 4 at hfull
    omega
  · change _ = 4 at hone
    omega

theorem Calm.breaks (unsafely : ¬LockSafe s op) (step : Userprog.spaceStep s op = some s') :
    ¬Balanced s' := by
  cases op with
  | enter t g =>
    obtain ⟨u, hu⟩ : ∃ u, s.Within (s.mm t) u := by
      by_contra hnone
      exact unsafely (not_exists.mp hnone)
    rw [Userprog.spaceStep] at step
    split at step
    next hout =>
      rw [calm.down] at step
      cases step
      exact calm.not_balanced_enter hout hu g
    next => cases step
  | leave t =>
    have hin : s.phase t = .inside .load := not_not.mp unsafely
    rw [Userprog.spaceStep, hin] at step
    change s.down t .outside .stuck = some s' at step
    rw [calm.down] at step
    cases step
    exact calm.not_balanced_load hin
  | fork | newMm | resume | unguarded => exact absurd trivial unsafely

end Steps

/-- The semaphore balances, and keeps all but one thread out, in just those runs in which nobody
enters while another thread is inside, and no `load` comes to its end. -/
theorem mapLock_balanced_iff (ops : List SpaceOp) (hrun : (Run.exec spaceStep .init ops).isSome) :
    (∀ n s, Run.exec spaceStep .init (ops.take n) = some s → Balanced s) ↔
      Run.Meets spaceStep LockSafe .init ops :=
  Run.forall_states_iff calm_init (fun _ calm => calm.balanced)
    (fun _ _ _ calm safe step => calm.spaceStep safe step)
    (fun _ _ _ calm unsafely step => calm.breaks unsafely step) hrun

/-- A program with one segment is being loaded. -/
theorem mapLock_balanced_iff_segment :
    (Run.exec spaceStep .init [.newMm 0, .enter 0 .elfMap, .leave 0]).isSome ∧
      ∀ n s, Run.exec spaceStep .init ([.newMm 0, .enter 0 .elfMap, .leave 0].take n) = some s →
      Balanced s := by
  refine ⟨rfl, (mapLock_balanced_iff _ rfl).mpr ?_⟩
  refine ⟨trivial, fun s hs => ?_⟩
  cases hs
  refine ⟨fun u hu => Bool.false_ne_true hu.2, fun s hs => ?_⟩
  cases hs
  refine ⟨fun hload => ?_, fun s hs => trivial⟩
  cases hload

/-- After an `execve` the value is 2; and of two processes with one address space both are in the
page fault handler. -/
theorem execve_loses_lock : (∃ s, Run.exec spaceStep .init
        [.newMm 0, .enter 0 .elfMap, .leave 0, .enter 0 .load, .leave 0] = some s ∧
      (∀ t, ¬s.Within 1 t) ∧ (s.mapLock 1).value = 2 ∧ ¬Balanced s) ∧
    ∃ s, Run.exec spaceStep .init [.fork 0 1, .enter 0 .pageFault, .enter 1 .pageFault] = some s ∧
      s.Within 0 0 ∧ s.Within 0 1 ∧ ¬Balanced s := by
  constructor
  · have hloaded : ∃ s, Run.exec spaceStep .init
        [.newMm 0, .enter 0 .elfMap, .leave 0, .enter 0 .load, .leave 0] = some s ∧
        (∀ t, ¬s.Within 1 t) ∧ (s.mapLock 1).value = 2 ∧ 1 < s.next := by
      refine ⟨_, rfl, ?_, rfl, by decide⟩
      rintro t ⟨-, hphase⟩
      simp [Spaces.goto, Spaces.setLock, Spaces.init, MapPhase.within] at hphase
    obtain ⟨s, hs, hnone, hvalue, hnext⟩ := hloaded
    refine ⟨s, hs, hnone, hvalue, fun hbal => ?_⟩
    exact absurd (hvalue.symm.trans ((hbal 1 hnext).1 hnone)) (by decide)
  · refine ⟨_, rfl, ⟨rfl, rfl⟩, ⟨rfl, rfl⟩, fun hbal => ?_⟩
    exact absurd ((hbal 0 (by decide)).2 0 1 ⟨rfl, rfl⟩ ⟨rfl, rfl⟩) (by decide)

end KernelTravel.Userprog

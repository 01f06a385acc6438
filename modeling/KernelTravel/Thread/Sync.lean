import Mathlib.Algebra.Group.Nat.Defs
import Mathlib.Data.List.Basic

/-!
# Semaphores and reentrant locks

`sema_down` and `sema_up` run with interrupts off. A thread that finds the value 0 goes to
the wait list and sleeps; `sema_up` takes the first thread off the list, makes it ready and
raises the value, and the woken thread looks at the value again when it runs. The lock is a
semaphore with the value 1 and two fields that are read and written with interrupts on. A
failed `ASSERT` and `BUG()` are `none`.
-/

namespace KernelTravel.Sync

structure Semaphore where
  value : Nat
  waitList : List Nat
  deriving DecidableEq, Repr

def semaInit (value : Nat) : Semaphore := ⟨value, []⟩

/-- One round of the loop of `sema_down` by thread `t`: it gets a unit, or it goes to sleep. -/
def semaRound (sema : Semaphore) (t : Nat) : Option (Semaphore × Bool) :=
  if sema.value = 0 then
    if t ∈ sema.waitList then none
    else some ({ sema with waitList := sema.waitList ++ [t] }, false)
  else some ({ sema with value := sema.value - 1 }, true)

/-- `sema_up`, with the thread that it makes ready. The value is a `uint8_t`. -/
def semaUp (sema : Semaphore) : Semaphore × Option Nat :=
  match sema.waitList with
  | [] => ({ sema with value := (sema.value + 1) % 256 }, none)
  | t :: rest => (⟨(sema.value + 1) % 256, rest⟩, some t)

/-- A semaphore with the threads that were taken off the wait list and did not run since,
and with the numbers of completed operations. -/
structure SemSys where
  sema : Semaphore
  woken : List Nat
  ups : Nat
  downs : Nat
  deriving DecidableEq, Repr

def SemSys.init (value : Nat) : SemSys := ⟨semaInit value, [], 0, 0⟩

inductive SemOp where
  /-- Thread `t` calls `sema_down`. -/
  | down (t : Nat)
  /-- The woken thread `t` runs. -/
  | resume (t : Nat)
  | up
  deriving DecidableEq, Repr

def SemSys.round (s : SemSys) (t : Nat) : Option SemSys :=
  (semaRound s.sema t).map fun result =>
    { s with sema := result.1, downs := if result.2 then s.downs + 1 else s.downs }

def semStep (s : SemSys) : SemOp → Option SemSys
  | .down t => s.round t
  | .resume t => { s with woken := s.woken.erase t }.round t
  | .up =>
    let result := semaUp s.sema
    some { s with sema := result.1, woken := s.woken ++ result.2.toList, ups := s.ups + 1 }

/-- A thread in `sema_down` makes no other call, a thread runs again after it was woken, and
the value stays below 256. -/
def SemEnabled (s : SemSys) : SemOp → Prop
  | .down t => t ∉ s.sema.waitList ∧ t ∉ s.woken
  | .resume t => t ∈ s.woken
  | .up => s.sema.value + 1 < 256

instance (s : SemSys) : ∀ op, Decidable (SemEnabled s op)
  | .down _ => inferInstanceAs (Decidable (_ ∧ _))
  | .resume _ => inferInstanceAs (Decidable (_ ∈ _))
  | .up => inferInstanceAs (Decidable (_ < _))

/-- Where a thread is in the code of the lock. -/
inductive Pc where
  /-- In no call. -/
  | idle
  /-- Before the test of `holder` in `lock_acquire`. -/
  | acquire
  /-- Before `sema_down`. -/
  | down
  /-- Asleep in `sema_down`. -/
  | queued
  /-- Ready again in `sema_down`. -/
  | woken
  /-- Before `holder = running_thread()`. -/
  | gotSema
  /-- Before `acquire_nr = 1`. -/
  | gotHolder
  /-- Before `acquire_nr++`. -/
  | nest
  /-- Before `ASSERT(acquire_nr != 0)` in `lock_release`. -/
  | release
  /-- Before the test of `holder`. -/
  | relHolder
  /-- Before the test `acquire_nr == 1`. -/
  | relTest
  /-- Before `acquire_nr = 0`. -/
  | relZero
  /-- Before `holder = NULL`. -/
  | relNull
  /-- Before `sema_up`. -/
  | relUp
  /-- Before `acquire_nr--`. -/
  | relDec
  deriving DecidableEq, Repr

/-- A lock and the threads that use it. `depth` counts the calls of `lock_acquire` that
returned and were not yet followed by their `lock_release`. -/
structure LockSys where
  holder : Option Nat
  acquireNr : Nat
  sema : Semaphore
  pc : Nat → Pc
  depth : Nat → Nat

def LockSys.init : LockSys where
  holder := none
  acquireNr := 0
  sema := semaInit 1
  pc _ := .idle
  depth _ := 0

namespace LockSys

def goto (s : LockSys) (t : Nat) (pc : Pc) : LockSys :=
  { s with pc := Function.update s.pc t pc }

/-- `lock_acquire` returns. -/
def acquired (s : LockSys) (t : Nat) : LockSys :=
  { s.goto t .idle with depth := Function.update s.depth t (s.depth t + 1) }

/-- The next statement of thread `t`. -/
def run (s : LockSys) (t : Nat) : Option LockSys :=
  match s.pc t with
  | .idle => none
  | .acquire => some (s.goto t (if s.holder = some t then .nest else .down))
  | .down | .woken =>
    (semaRound s.sema t).map fun result =>
      { s with sema := result.1 }.goto t (if result.2 then .gotSema else .queued)
  | .queued => none
  | .gotSema => some ({ s with holder := some t }.goto t .gotHolder)
  | .gotHolder => some ({ s with acquireNr := 1 }.acquired t)
  | .nest => some ({ s with acquireNr := (s.acquireNr + 1) % 2 ^ 32 }.acquired t)
  | .release => if s.acquireNr = 0 then none else some (s.goto t .relHolder)
  | .relHolder => if s.holder = some t then some (s.goto t .relTest) else none
  | .relTest => some (s.goto t (if s.acquireNr = 1 then .relZero else .relDec))
  | .relZero => some ({ s with acquireNr := 0 }.goto t .relNull)
  | .relNull => some ({ s with holder := none }.goto t .relUp)
  | .relUp =>
    let result := semaUp s.sema
    let s := { s with sema := result.1 }.goto t .idle
    match result.2 with
    | none => some s
    | some u => some (s.goto u .woken)
  | .relDec => some ({ s with acquireNr := s.acquireNr - 1 }.goto t .idle)

end LockSys

inductive LockOp where
  | acquire (t : Nat)
  | release (t : Nat)
  | run (t : Nat)
  deriving DecidableEq, Repr

def lockStep (s : LockSys) : LockOp → Option LockSys
  | .acquire t => some (s.goto t .acquire)
  | .release t =>
    some ({ s with depth := Function.update s.depth t (s.depth t - 1) }.goto t .release)
  | .run t => s.run t

/-- Calls are made between calls, a release follows an acquire, the nesting stays below
2^32, and a thread that is not asleep may execute its next statement at any time. -/
def LockEnabled (s : LockSys) : LockOp → Prop
  | .acquire t => s.pc t = .idle ∧ s.depth t + 1 < 2 ^ 32
  | .release t => s.pc t = .idle ∧ 0 < s.depth t
  | .run t => s.pc t ≠ .idle ∧ s.pc t ≠ .queued

instance (s : LockSys) : ∀ op, Decidable (LockEnabled s op)
  | .acquire _ => inferInstanceAs (Decidable (_ ∧ _))
  | .release _ => inferInstanceAs (Decidable (_ ∧ _))
  | .run _ => inferInstanceAs (Decidable (_ ∧ _))

end KernelTravel.Sync

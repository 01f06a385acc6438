import Mathlib.Data.List.Basic

/-!
# The scheduler

Every thread has one list element, `general_tag`, which is on the ready list or on the wait
list of a semaphore. A thread can also sleep without being on a list; then the pointer in an
ioqueue or in a timer says whom to wake. The operations below are those of `thread.c` and of
their callers, each as it runs with interrupts off. A failed `ASSERT` and `BUG()` are `none`.
-/

namespace KernelTravel.Thread

inductive TaskStatus where
  | running | ready | blocked | waiting | hanging | died
  deriving DecidableEq, Repr

/-- The threads by number. `wait q` is the wait list of semaphore `q`; `slot k` is a pointer
to a thread that sleeps: `producer` or `consumer` of an ioqueue, or the data of a timer.
A number without a thread has the status `died`. -/
structure Sched where
  cur : Nat
  idle : Nat
  status : Nat → TaskStatus
  ready : List Nat
  wait : Nat → List Nat
  slot : Nat → Option Nat

/-- The state after `thread_init`: thread 0 is `main` and runs, `initcode` and `idle` are ready. -/
def Sched.init : Sched where
  cur := 0
  idle := 2
  status t := if t = 0 then .running else if t ≤ 2 then .ready else .died
  ready := [1, 2]
  wait _ := []
  slot _ := none

def Sched.setStatus (s : Sched) (t : Nat) (status : TaskStatus) : Sched :=
  { s with status := Function.update s.status t status }

/-- The statuses that `thread_block` and `thread_unblock` admit. -/
def asleep (status : TaskStatus) : Bool :=
  status = .blocked ∨ status = .waiting ∨ status = .hanging

/-- `list_append` to the ready list. -/
def readyAppend (s : Sched) (t : Nat) : Option Sched :=
  if t ∈ s.ready then none else some { s.setStatus t .ready with ready := s.ready ++ [t] }

def threadUnblock (s : Sched) (t : Nat) : Option Sched :=
  if asleep (s.status t) then
    if t ∈ s.ready then none else some { s.setStatus t .ready with ready := t :: s.ready }
  else none

/-- The first part of `schedule`: a thread that still runs goes to the end of the list. -/
def requeue (s : Sched) : Option Sched :=
  if s.status s.cur = .running then readyAppend s s.cur else some s

def wakeIdle (s : Sched) : Option Sched :=
  if s.ready = [] then threadUnblock s s.idle else some s

/-- The last part of `schedule`: switch to the first thread of the list. -/
def pick (s : Sched) : Option Sched :=
  match s.ready with
  | [] => none
  | next :: rest => some { s.setStatus next .running with ready := rest, cur := next }

def schedule (s : Sched) : Option Sched :=
  ((requeue s).bind wakeIdle).bind pick

def threadBlock (s : Sched) (stat : TaskStatus) : Option Sched :=
  if asleep stat ∧ s.status s.cur = .running then schedule (s.setStatus s.cur stat) else none

def threadYield (s : Sched) : Option Sched :=
  (readyAppend s s.cur).bind schedule

def threadPreempt (s : Sched) (t : Nat) : Option Sched :=
  (threadUnblock s t).bind schedule

/-- `thread_exit`, which `sys_wait` calls for a child that it found. -/
def threadExit (s : Sched) (t : Nat) : Option Sched :=
  if t ∈ s.ready then none else some (s.setStatus t .died)

/-- A round of the loop of `sema_down` that finds the value 0. -/
def semaWait (s : Sched) (q : Nat) : Option Sched :=
  if s.cur ∈ s.wait q then none
  else threadBlock { s with wait := Function.update s.wait q (s.wait q ++ [s.cur]) } .blocked

/-- What `sema_up` does with the wait list. -/
def semaWake (s : Sched) (q : Nat) : Option Sched :=
  match s.wait q with
  | [] => some s
  | t :: rest => threadUnblock { s with wait := Function.update s.wait q rest } t

def Sched.setSlot (s : Sched) (k : Nat) (t : Option Nat) : Sched :=
  { s with slot := Function.update s.slot k t }

/-- `ioq_wait`, and `normal_sleep` with its timer. -/
def sleepOn (s : Sched) (k : Nat) : Option Sched :=
  if s.slot k = none then threadBlock (s.setSlot k (some s.cur)) .blocked else none

/-- `wakeup`. -/
def wakeup (s : Sched) (k : Nat) : Option Sched :=
  (s.slot k).bind fun t => (threadUnblock s t).map fun s => s.setSlot k none

/-- The callback `wake_sleep` of a timer. -/
def wakeSleep (s : Sched) (k : Nat) : Option Sched :=
  (s.slot k).bind fun t => threadPreempt (s.setSlot k none) t

inductive SchedOp where
  /-- `thread_start`, `process_execute` or `sys_fork` with the new thread `t`. -/
  | start (t : Nat)
  /-- `schedule` from the timer interrupt. -/
  | tick
  | yield
  /-- The loop of the idle thread. -/
  | idleBlock
  /-- `sys_wait` without a child that exited. -/
  | waitChild
  /-- The last call of `sys_exit`. -/
  | exit
  /-- `sys_exit` finds its parent waiting. -/
  | wakeParent (t : Nat)
  | reap (t : Nat)
  | semaWait (q : Nat)
  | semaWake (q : Nat)
  | sleepOn (k : Nat)
  | wakeup (k : Nat)
  | wakeSleep (k : Nat)
  /-- The ioqueue of a pipe is cleared when the pipe is released. -/
  | clearSlot (k : Nat)
  deriving DecidableEq, Repr

def schedStep (s : Sched) : SchedOp → Option Sched
  | .start t => readyAppend s t
  | .tick => schedule s
  | .yield => threadYield s
  | .idleBlock => threadBlock s .blocked
  | .waitChild => threadBlock s .waiting
  | .exit => threadBlock s .hanging
  | .wakeParent t => threadUnblock s t
  | .reap t => threadExit s t
  | .semaWait q => semaWait s q
  | .semaWake q => semaWake s q
  | .sleepOn k => sleepOn s k
  | .wakeup k => wakeup s k
  | .wakeSleep k => wakeSleep s k
  | .clearSlot k => some (s.setSlot k none)

/-- When the kernel makes a call: what the caller has checked itself, and that the idle
thread executes its loop and nothing else. -/
def Enabled (s : Sched) : SchedOp → Prop
  | .start t => s.status t = .died
  | .tick => True
  | .yield => s.cur ≠ s.idle
  | .idleBlock => s.cur = s.idle
  | .waitChild => s.cur ≠ s.idle
  | .exit => s.cur ≠ s.idle
  | .wakeParent t => s.status t = .waiting
  | .reap t => s.status t = .hanging
  | .semaWait _ => s.cur ≠ s.idle
  | .semaWake _ => True
  | .sleepOn k => s.cur ≠ s.idle ∧ s.slot k = none
  | .wakeup k => s.slot k ≠ none
  | .wakeSleep k => s.slot k ≠ none
  | .clearSlot _ => True

instance (s : Sched) : ∀ op, Decidable (Enabled s op)
  | .start _ => inferInstanceAs (Decidable (_ = _))
  | .tick => .isTrue trivial
  | .yield => inferInstanceAs (Decidable (_ ≠ _))
  | .idleBlock => inferInstanceAs (Decidable (_ = _))
  | .waitChild => inferInstanceAs (Decidable (_ ≠ _))
  | .exit => inferInstanceAs (Decidable (_ ≠ _))
  | .wakeParent _ => inferInstanceAs (Decidable (_ = _))
  | .reap _ => inferInstanceAs (Decidable (_ = _))
  | .semaWait _ => inferInstanceAs (Decidable (_ ≠ _))
  | .semaWake _ => .isTrue trivial
  | .sleepOn _ => inferInstanceAs (Decidable (_ ∧ _))
  | .wakeup _ => inferInstanceAs (Decidable (_ ≠ _))
  | .wakeSleep _ => inferInstanceAs (Decidable (_ ≠ _))
  | .clearSlot _ => .isTrue trivial

end KernelTravel.Thread

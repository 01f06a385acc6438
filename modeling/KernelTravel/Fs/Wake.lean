import KernelTravel.Fs.Pipe
import KernelTravel.Thread.Sync

/-!
# Sleeping on a character queue

`ioq_getchar` and `ioq_putchar` as the threads of the machine run them. A thread that finds
the queue empty or full takes the lock of the queue, enters itself as the consumer or the
producer and sleeps with the lock held; the next character put or taken wakes it. A thread
runs without interruption from one sleep to the next, with interrupts off. A failed `ASSERT`
and `BUG()` are `none`.
-/

namespace KernelTravel.Pipe

open KernelTravel.Sync (Semaphore semaInit semaRound semaUp)

/-- The two roles: a consumer waits for a character, a producer for room. -/
inductive Side where
  | consumer
  | producer
  deriving DecidableEq, Repr

def Side.other : Side → Side
  | .consumer => .producer
  | .producer => .consumer

inductive Phase where
  /-- Runs, or is in no call. -/
  | idle
  /-- Asleep in `lock_acquire`. -/
  | lockWait (side : Side)
  /-- Ready again in `lock_acquire`. -/
  | lockReady (side : Side)
  /-- Asleep in `ioq_wait`. -/
  | ioqWait (side : Side)
  /-- Ready again in `ioq_wait`. -/
  | ioqReady (side : Side)
  deriving DecidableEq, Repr

/-- A queue with its lock and its two waiters, the threads that use it, and the open write ends
of the pipe. `arg` is the character that a thread puts, and `done` counts the characters taken
and put. -/
structure WakeSys where
  threads : Nat
  ioq : Ioqueue
  holder : Option Nat
  acquireNr : Nat
  sema : Semaphore
  waiter : Side → Option Nat
  phase : Nat → Phase
  arg : Nat → Char8
  offset : Nat
  writers : Nat
  done : Side → Nat

/-- A new pipe for any number of threads. -/
def WakeSys.init (threads : Nat) (buf : Nat → Char8) : WakeSys :=
  ⟨threads, ioqueueInit buf, none, 0, semaInit 1, fun _ => none, fun _ => .idle, fun _ => 0, 2, 1,
    fun _ => 0⟩

def WakeSys.goto (s : WakeSys) (t : Nat) (phase : Phase) : WakeSys :=
  { s with phase := Function.update s.phase t phase }

/-- `thread_unblock` of a thread that must be asleep. -/
def WakeSys.threadUnblock (s : WakeSys) (u : Nat) : Option WakeSys :=
  match s.phase u with
  | .lockWait side => some (s.goto u (.lockReady side))
  | .ioqWait side => some (s.goto u (.ioqReady side))
  | _ => none

/-- `wakeup` of the waiter, if there is one. -/
def WakeSys.wakeup (s : WakeSys) (side : Side) : Option WakeSys :=
  match s.waiter side with
  | none => some s
  | some u =>
    (s.threadUnblock u).map fun s' => { s' with waiter := Function.update s'.waiter side none }

def WakeSys.ioqWait (s : WakeSys) (t : Nat) (side : Side) : Option WakeSys :=
  if s.waiter side = none then
    some ({ s with waiter := Function.update s.waiter side (some t) }.goto t (.ioqWait side))
  else none

/-- A round of `sema_down` in `lock_acquire`, and `ioq_wait` if it got the lock. -/
def WakeSys.semaDown (s : WakeSys) (t : Nat) (side : Side) : Option WakeSys :=
  (semaRound s.sema t).bind fun (sema, got) =>
    if got then { s with sema := sema, holder := some t, acquireNr := 1 }.ioqWait t side
    else some ({ s with sema := sema }.goto t (.lockWait side))

def WakeSys.lockAcquire (s : WakeSys) (t : Nat) (side : Side) : Option WakeSys :=
  if s.holder = some t then { s with acquireNr := s.acquireNr + 1 }.ioqWait t side
  else s.semaDown t side

def WakeSys.lockRelease (s : WakeSys) (t : Nat) : Option WakeSys :=
  if s.acquireNr = 0 ∨ s.holder ≠ some t then none
  else if s.acquireNr = 1 then
    let released := { s with acquireNr := 0, holder := none, sema := (semaUp s.sema).1 }
    match (semaUp s.sema).2 with
    | none => some released
    | some u => released.threadUnblock u
  else some { s with acquireNr := s.acquireNr - 1 }

/-- The end of both functions: the queue has changed, and the waiter of the other side wakes. -/
def WakeSys.serve (s : WakeSys) (t : Nat) (side : Side) (q : Ioqueue) : Option WakeSys :=
  ({ s with ioq := q, done := Function.update s.done side (s.done side + 1) }.goto t .idle).wakeup
    side.other

/-- `ioq_getchar` from the head of its loop. -/
def WakeSys.getchar (s : WakeSys) (t : Nat) : Option WakeSys :=
  match ioqGetchar s.ioq with
  | none => s.lockAcquire t .consumer
  | some (_, q) =>
    -- the end character leaves the queue and its waiters alone
    if ioqEmpty s.ioq then some (s.goto t .idle) else s.serve t .consumer q

/-- `ioq_putchar` from the head of its loop. -/
def WakeSys.putchar (s : WakeSys) (t : Nat) : Option WakeSys :=
  match ioqPutchar s.ioq (s.arg t) with
  | none => s.lockAcquire t .producer
  | some q => s.serve t .producer q

def WakeSys.loop (s : WakeSys) (t : Nat) : Side → Option WakeSys
  | .consumer => s.getchar t
  | .producer => s.putchar t

/-- `sys_close` on a descriptor of the pipe. The lock and the waiters are cleared with the
queue. -/
def WakeSys.sysClose (s : WakeSys) : WakeSys :=
  if s.offset = 0 then { s with offset := minusOne }
  else if s.offset = 1 then
    { s with offset := 0, ioq := ioqueueClear, holder := none, acquireNr := 0, sema := ⟨0, []⟩,
             waiter := fun _ => none }
  else { s with offset := s.offset - 1 }

inductive WakeOp where
  /-- Thread `t` calls `ioq_getchar`. -/
  | get (t : Nat)
  /-- Thread `t` is in the loop of `pipe_write`. -/
  | put (t : Nat) (byte : Char8)
  /-- A ready thread runs. -/
  | resume (t : Nat)
  /-- A descriptor appears: uncounted by `sys_dup`, or counted by `sys_dup2` or `sys_fork`. -/
  | add (writer counted : Bool)
  /-- `sys_close` by the process `pid`. -/
  | close (writer : Bool) (pid : Nat)
  /-- `sys_dup2` puts a standard descriptor in the place of one of the pipe. -/
  | drop (writer : Bool)

def WakeSys.writersLess (s : WakeSys) (writer : Bool) : Nat :=
  if writer then s.writers - 1 else s.writers

def wakeStep (s : WakeSys) : WakeOp → Option WakeSys
  | .get t => s.getchar t
  | .put t byte =>
    -- pipe_write tests the flag before each character
    if s.ioq.flag = 0 then some s
    else { s with arg := Function.update s.arg t byte }.putchar t
  | .resume t =>
    match s.phase t with
    | .lockReady side => (s.goto t .idle).semaDown t side
    | .ioqReady side => ((s.goto t .idle).lockRelease t).bind fun s' => s'.loop t side
    | _ => none
  | .add writer counted =>
    some { s with
      offset := if counted then (s.offset + 1) % 2 ^ 32 else s.offset
      writers := if writer then s.writers + 1 else s.writers }
  | .close writer pid =>
    if pid < pipeTableRows then some { s.sysClose with writers := s.writersLess writer }
    else none
  | .drop writer => some { s with writers := s.writersLess writer }

end KernelTravel.Pipe

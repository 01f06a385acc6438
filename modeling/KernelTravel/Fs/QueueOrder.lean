import KernelTravel.Fs.Wake
import KernelTravel.Lib.Run

/-!
# The order of the characters in a queue

Any threads call `ioq_getchar` and `ioq_putchar` on one queue, and sleep in them and run again in
any order. What they put and what they get is recorded beside the state. A thread that sleeps
changes nothing in the queue, and after it has been woken it looks at the queue again, so that
every character is put to a queue with room and taken from one that is not empty.
-/

namespace KernelTravel.Pipe

open Function

/-- A call of one of the two functions, or a thread that runs again. -/
inductive QueueOp where
  | getchar (t : Nat)
  | putchar (t : Nat) (byte : Char8)
  | resume (t : Nat)

def QueueOp.thread : QueueOp → Nat
  | .getchar t | .putchar t _ | .resume t => t

def queueStep (s : WakeSys) : QueueOp → Option WakeSys
  | .getchar t => s.getchar t
  | .putchar t byte => { s with arg := update s.arg t byte }.putchar t
  | .resume t => wakeStep s (.resume t)

/-- The queue with the characters put to it, and those that were returned and are not the end
character of an empty queue. -/
structure Traced where
  sys : WakeSys
  puts : List Char8
  gots : List Char8

namespace Traced

/-- A queue after `ioqueue_init`, open or closed. -/
def init (threads : Nat) (buf : Nat → Char8) (flag : Nat) : Traced :=
  ⟨{ WakeSys.init threads buf with ioq := { ioqueueInit buf with flag } }, [], []⟩

def step (w : Traced) (op : QueueOp) : Option Traced :=
  (queueStep w.sys op).map fun s =>
    { sys := s
      puts := if s.done .producer = w.sys.done .producer then w.puts
        else w.puts ++ [s.arg op.thread]
      gots :=
        if s.done .consumer = w.sys.done .consumer then w.gots
        else w.gots ++ ((ioqGetchar w.sys.ioq).map Prod.fst).toList }

end Traced

/-! ## What a step does to the queue -/

/-- The queue and the counts are as they were. -/
structure Kept (s s' : WakeSys) : Prop where
  ioq : s'.ioq = s.ioq
  done : s'.done = s.done
  arg : s'.arg = s.arg

namespace Kept

variable {s s' s'' : WakeSys} {t u : Nat} {side : Side}

theorem refl (s : WakeSys) : Kept s s := ⟨rfl, rfl, rfl⟩

theorem trans (h : Kept s s') (h' : Kept s' s'') : Kept s s'' :=
  ⟨h'.ioq.trans h.ioq, h'.done.trans h.done, h'.arg.trans h.arg⟩

theorem threadUnblock (h : s.threadUnblock u = some s') : Kept s s' := by
  rw [WakeSys.threadUnblock] at h
  split at h
  · cases h
    exact ⟨rfl, rfl, rfl⟩
  · cases h
    exact ⟨rfl, rfl, rfl⟩
  · cases h

theorem wakeup (h : s.wakeup side = some s') : Kept s s' := by
  rw [WakeSys.wakeup] at h
  split at h
  · cases h
    exact refl s
  · obtain ⟨s₁, hunblock, rfl⟩ := Option.map_eq_some_iff.mp h
    exact (threadUnblock hunblock).trans ⟨rfl, rfl, rfl⟩

theorem ioqWait (h : s.ioqWait t side = some s') : Kept s s' := by
  rw [WakeSys.ioqWait] at h
  split at h
  · cases h
    exact ⟨rfl, rfl, rfl⟩
  · cases h

theorem semaDown (h : s.semaDown t side = some s') : Kept s s' := by
  obtain ⟨⟨sema, got⟩, -, h⟩ := Option.bind_eq_some_iff.mp h
  cases got with
  | true =>
    have hwait : Kept { s with sema := sema, holder := some t, acquireNr := 1 } s' := ioqWait h
    exact ⟨hwait.ioq, hwait.done, hwait.arg⟩
  | false =>
    cases h
    exact ⟨rfl, rfl, rfl⟩

theorem lockAcquire (h : s.lockAcquire t side = some s') : Kept s s' := by
  rw [WakeSys.lockAcquire] at h
  split at h
  · have hwait : Kept { s with acquireNr := s.acquireNr + 1 } s' := ioqWait h
    exact ⟨hwait.ioq, hwait.done, hwait.arg⟩
  · exact semaDown h

theorem lockRelease (h : s.lockRelease t = some s') : Kept s s' := by
  rw [WakeSys.lockRelease] at h
  split at h
  · cases h
  split at h
  · dsimp only at h
    split at h
    · cases h
      exact ⟨rfl, rfl, rfl⟩
    · have hunblock := threadUnblock h
      exact ⟨hunblock.ioq, hunblock.done, hunblock.arg⟩
  · cases h
    exact ⟨rfl, rfl, rfl⟩

end Kept

/-- What a step may do to the queue: nothing, take the next character, or put one. -/
inductive Effect (s : WakeSys) (byte : Char8) (s' : WakeSys) : Prop where
  | quiet (ioq : s'.ioq = s.ioq) (done : s'.done = s.done)
  | took (get : ioqGetchar s.ioq = some (s.ioq.buf s.ioq.tail, s'.ioq))
    (nonempty : ioqEmpty s.ioq = false)
      (done : s'.done = update s.done .consumer (s.done .consumer + 1))
  | put (put : ioqPutchar s.ioq byte = some s'.ioq)
      (done : s'.done = update s.done .producer (s.done .producer + 1))

section Effect

variable {s s' : WakeSys} {t : Nat} {op : QueueOp}

theorem Kept.effect (h : Kept s s') (byte : Char8) : Effect s byte s' := .quiet h.ioq h.done

theorem getchar_effect (h : s.getchar t = some s') (byte : Char8) : Effect s byte s' := by
  rw [WakeSys.getchar, ioqGetchar] at h
  by_cases hempty : ioqEmpty s.ioq = true
  · rw [if_pos hempty] at h
    by_cases hflag : s.ioq.flag = 0
    · rw [if_pos hflag] at h
      dsimp only at h
      rw [if_pos hempty] at h
      cases h
      exact .quiet rfl rfl
    · rw [if_neg hflag] at h
      exact (Kept.lockAcquire h).effect byte
  · rw [if_neg hempty] at h
    dsimp only at h
    rw [if_neg hempty, WakeSys.serve] at h
    have hwake := Kept.wakeup h
    refine .took ?_ (Bool.eq_false_iff.mpr hempty) hwake.done
    rw [ioqGetchar, if_neg hempty, hwake.ioq]
    rfl

theorem putchar_effect (h : s.putchar t = some s') : s'.arg = s.arg ∧ Effect s (s.arg t) s' := by
  rw [WakeSys.putchar] at h
  split at h
  next => exact ⟨(Kept.lockAcquire h).arg, (Kept.lockAcquire h).effect _⟩
  next q hput =>
    rw [WakeSys.serve] at h
    have hwake := Kept.wakeup h
    refine ⟨hwake.arg, .put ?_ hwake.done⟩
    rw [hput, hwake.ioq]
    rfl

theorem queueStep_effect (h : queueStep s op = some s') : Effect s (s'.arg op.thread) s' := by
  cases op with
  | getchar t => exact getchar_effect h _
  | putchar t byte =>
    obtain ⟨harg, heffect⟩ := putchar_effect (s := { s with arg := update s.arg t byte }) h
    rw [harg]
    cases heffect with
    | quiet ioq done => exact .quiet ioq done
    | took get nonempty done => exact .took get nonempty done
    | put put done => exact .put put done
  | resume t =>
    rw [queueStep, wakeStep] at h
    split at h
    next side _ =>
      have hdown := Kept.semaDown h
      exact .quiet hdown.ioq hdown.done
    next side _ =>
      obtain ⟨s₁, hrelease, hloop⟩ := Option.bind_eq_some_iff.mp h
      -- the queue is the one before the lock was released
      have hidle : Kept s (s.goto t .idle) := ⟨rfl, rfl, rfl⟩
      have hkept : Kept s s₁ := hidle.trans (Kept.lockRelease hrelease)
      have heffect : Effect s₁ (s'.arg t) s' := by
        cases side with
        | consumer => exact getchar_effect hloop _
        | producer =>
          obtain ⟨harg, heffect⟩ := putchar_effect hloop
          rw [harg]
          exact heffect
      cases heffect with
      | quiet ioq done => exact .quiet (ioq.trans hkept.ioq) (done.trans hkept.done)
      | took get nonempty done =>
        rw [hkept.ioq] at get nonempty
        rw [hkept.done] at done
        exact .took get nonempty done
      | put put done =>
        rw [hkept.ioq] at put
        rw [hkept.done] at done
        exact .put put done
    next => cases h

end Effect

/-! ## Runs -/

/-- The queue holds what was put and not returned. -/
def Ordered (w : Traced) : Prop := ∃ unread, Holds w.sys.ioq unread ∧ w.puts = w.gots ++ unread

section Runs

variable {w w' : Traced} {op : QueueOp}

theorem ordered_init (threads : Nat) (buf : Nat → Char8) (flag : Nat) :
    Ordered (.init threads buf flag) :=
  ⟨[], holds_init buf, rfl⟩

theorem holds_of_get {q q' : Ioqueue} {xs : List Char8} {byte : Char8} (h : Holds q xs)
    (hempty : ioqEmpty q = false) (hget : ioqGetchar q = some (byte, q')) :
    ∃ rest, xs = byte :: rest ∧ Holds q' rest := by
  cases xs with
  | nil => exact absurd ((ioqEmpty_iff h).mpr rfl) (Bool.eq_false_iff.mp hempty)
  | cons x rest =>
    obtain ⟨q₁, hget₁, hrest, -⟩ := ioqGetchar_cons h
    cases hget₁.symm.trans hget
    exact ⟨rest, rfl, hrest⟩

theorem holds_of_put {q q' : Ioqueue} {xs : List Char8} {byte : Char8} (h : Holds q xs)
    (hput : ioqPutchar q byte = some q') : Holds q' (xs ++ [byte]) := by
  have hroom : xs.length + 1 < bufsize := by
    have hlen := h.length
    by_contra hfull
    have heq : nextPos q.head = q.tail := (Ring.Holds.succ_head_eq_tail_iff h).mpr (by omega)
    rw [ioqPutchar, ioqFull, if_pos (decide_eq_true heq)] at hput
    cases hput
  obtain ⟨q₁, hput₁, hholds, -⟩ := ioqPutchar_of_room h hroom byte
  cases hput₁.symm.trans hput
  exact hholds

theorem ordered_step (ordered : Ordered w) (hstep : w.step op = some w') : Ordered w' := by
  obtain ⟨unread, holds, hputs⟩ := ordered
  obtain ⟨s', hqueue, rfl⟩ := Option.map_eq_some_iff.mp hstep
  cases queueStep_effect hqueue with
  | quiet ioq done =>
    refine ⟨unread, ?_, ?_⟩
    · rw [ioq]
      exact holds
    · simp only [done, if_true]
      exact hputs
  | took get nonempty done =>
    obtain ⟨rest, rfl, hrest⟩ := holds_of_get holds nonempty get
    have hproducer : s'.done .producer = w.sys.done .producer := by
      rw [done, update_of_ne (by decide)]
    have hconsumer : s'.done .consumer ≠ w.sys.done .consumer := by
      rw [done, update_self]
      omega
    refine ⟨rest, hrest, ?_⟩
    simp only [hproducer, if_true, if_neg hconsumer, get]
    rw [hputs]
    exact (List.append_assoc _ [_] rest).symm
  | put put done =>
    have hproducer : s'.done .producer ≠ w.sys.done .producer := by
      rw [done, update_self]
      omega
    have hconsumer : s'.done .consumer = w.sys.done .consumer := by
      rw [done, update_of_ne (by decide)]
    refine ⟨unread ++ [s'.arg op.thread], holds_of_put holds put, ?_⟩
    simp only [if_neg hproducer, hconsumer, if_true]
    rw [hputs, List.append_assoc]

/-- In every state of every run the characters returned are the first ones put, and the queue
holds the others. -/
theorem queue_fifo (threads : Nat) (buf : Nat → Char8) (flag : Nat) (ops : List QueueOp)
    (run : Run.exec Traced.step (.init threads buf flag) ops = some w) :
    w.sys.ioq.head < 2048 ∧ w.sys.ioq.tail < 2048 ∧ ioqLength w.sys.ioq + w.gots.length =
      w.puts.length ∧ ioqLength w.sys.ioq ≤ 2047 ∧ w.puts = w.gots ++ contents w.sys.ioq := by
  have meets : Run.Meets Traced.step (fun _ _ => True) (.init threads buf flag) ops :=
    .of_forall (fun _ _ => trivial) _ _
  obtain ⟨unread, holds, hputs⟩ : Ordered w :=
    Run.invariant (ordered_init threads buf flag) meets
      (fun _ _ _ h _ hstep => ordered_step h hstep) run
  have hlength := ioqLength_eq holds
  have hlt := holds.length
  unfold bufsize at hlt
  refine ⟨?_, holds.tail_lt, ?_, by omega, ?_⟩
  · rw [holds.head_eq]
    exact Nat.mod_lt _ (by decide)
  · rw [hlength, hputs, List.length_append, Nat.add_comm]
  · rw [contents_eq holds]
    exact hputs

end Runs

/-- A consumer that sleeps and is woken by the first of two characters. -/
theorem queue_fifo_sleeping : ∃ w, Run.exec Traced.step (.init 2 (fun _ => 0) 1)
        [.getchar 0, .putchar 1 65, .putchar 1 66, .resume 0] = some w ∧ w.gots = [65] ∧
        w.puts = [65, 66] ∧
      w.sys.ioq.head < 2048 ∧ w.sys.ioq.tail < 2048 ∧ ioqLength w.sys.ioq + w.gots.length =
        w.puts.length ∧
      ioqLength w.sys.ioq ≤ 2047 ∧ w.puts = w.gots ++ contents w.sys.ioq :=
  ⟨_, rfl, rfl, rfl,
    queue_fifo 2 (fun _ => 0) 1 [.getchar 0, .putchar 1 65, .putchar 1 66, .resume 0] rfl⟩

end KernelTravel.Pipe

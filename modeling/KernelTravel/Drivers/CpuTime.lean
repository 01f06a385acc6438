import KernelTravel.Kernel.Nesting
import KernelTravel.Lib.Ledger

/-!
# CPU time

The user time of a process is charged by `utimes_end` from the stamp of the last `utimes_begin`,
its system time by `stimes_end` from the stamp of the last `stimes_begin`. The calls are made on
the way into and out of an interrupt, in `schedule`, in `sys_times` and at the end of `execve`.
The interrupts, softirqs and switches are those of `Kernel.Nesting`.

A step carries the clock time that passes before each of its readings of the clock. The times
are `long`, the overflow of which is not defined, and are integers here. The charges are also
kept in a ledger, which the code does not have.
-/

namespace KernelTravel.CpuTime

open Function

open KernelTravel.Nesting (Frame Nest NestOp nestStep)
open Ledger (Entry Sequential spent)

/-- `time_record` and `start_times` of a process. -/
structure TaskTimes where
  tmsUtime : Int
  tmsStime : Int
  startUtime : Nat
  startStime : Nat

def TaskTimes.zero : TaskTimes := ⟨0, 0, 0, 0⟩

structure Timed where
  nest : Nest
  /-- `rdtime`. -/
  now : Nat
  /-- The processes with smaller numbers have been created. -/
  next : Nat
  born : Nat → Nat
  times : Nat → TaskTimes
  ledger : List Entry

namespace Timed

/-- After `thread_init`: the stamps of all three threads are 0. -/
def init (boot : Nat) (active : BitVec 32) : Timed :=
  ⟨.init active, boot, 3, fun _ => boot, fun _ => .zero, []⟩

def pass (s : Timed) (d : Nat) : Timed := { s with now := s.now + d }

def setTimes (s : Timed) (p : Nat) (times : TaskTimes) : Timed :=
  { s with times := update s.times p times }

def charge (s : Timed) (p start : Nat) : Timed := { s with ledger := ⟨p, start, s.now⟩ :: s.ledger }

def utimesBegin (s : Timed) (p : Nat) : Timed :=
  s.setTimes p { s.times p with startUtime := s.now }

def utimesEnd (s : Timed) (p : Nat) : Timed :=
  (s.charge p (s.times p).startUtime).setTimes p
    { s.times p with tmsUtime := (s.times p).tmsUtime + (s.now - (s.times p).startUtime) }

def stimesBegin (s : Timed) (p : Nat) : Timed :=
  s.setTimes p { s.times p with startStime := s.now }

def stimesEnd (s : Timed) (p : Nat) : Timed :=
  (s.charge p (s.times p).startStime).setTimes p
    { s.times p with tmsStime := (s.times p).tmsStime + (s.now - (s.times p).startStime) }

end Timed

/-- The calls that read the clock. -/
inductive Stamp where
  | utimesBegin (p : Nat)
  | utimesEnd (p : Nat)
  | stimesBegin (p : Nat)
  | stimesEnd (p : Nat)

def Timed.stamp (s : Timed) : Stamp → Timed
  | .utimesBegin p => s.utimesBegin p
  | .utimesEnd p => s.utimesEnd p
  | .stimesBegin p => s.stimesBegin p
  | .stimesEnd p => s.stimesEnd p

/-- The calls one after the other, with the time that passes before each of them. -/
def Timed.stamps (s : Timed) : List Nat → List Stamp → Timed
  | _, [] => s
  | delays, c :: cs => ((s.pass (delays.headD 0)).stamp c).stamps delays.tail cs

def irqEnter (p : Nat) : List Stamp := [.utimesEnd p, .stimesBegin p]

def irqExit (p : Nat) : List Stamp := [.stimesEnd p]

/-- `schedule` by `p`, once it has chosen the thread. -/
def schedule (p next : Nat) : List Stamp := .utimesBegin next :: irqExit p

/-- The end of `do_irq`, unless `do_softirq` runs first. -/
def doIrqEnd (p : Nat) (before after : List Frame) : List Stamp :=
  if after = before then [.utimesBegin p] else []

/-- What a step of the interrupts does with the clock; `n` and `n'` are before and after it. -/
def nestStamps (n n' : Nest) : NestOp → List Stamp
  | .irq _ none =>
    irqEnter n.cur ++ irqExit n.cur ++ doIrqEnd n.cur (n.frames n.cur) (n'.frames n.cur)
  | .irq _ (some next) => irqEnter n.cur ++ schedule n.cur next
  | .irqReturn => irqExit n.cur ++ doIrqEnd n.cur (n.frames n.cur).tail (n'.frames n.cur)
  | .wakeSleep next => irqEnter n.cur ++ schedule n.cur next
  | .softirqEnd _ => [.utimesBegin n.cur]
  | .threadBlock next => irqEnter n.cur ++ schedule n.cur next
  -- `thread_yield` does not call `irq_enter`
  | .threadYield next => schedule n.cur next

inductive TimeOp where
  | nest (op : NestOp)
  /-- `copy_pcb` and `init_thread` clear the times. -/
  | fork
  /-- The end of `sys_execve`. -/
  | execve
  | sysTimes

/-- The thread that a switch chooses has been created. -/
def switchesTo : NestOp → Option Nat
  | .irq _ next => next
  | .wakeSleep next | .threadBlock next | .threadYield next => some next
  | .irqReturn | .softirqEnd _ => none

/-- A step with the time that passes before its readings. -/
def timeStep (s : Timed) : TimeOp × List Nat → Option Timed
  | (.nest op, delays) =>
    if ∀ next ∈ switchesTo op, next < s.next then
      (nestStep s.nest op).map fun n' =>
        { s.stamps delays (nestStamps s.nest n' op) with nest := n' }
    else none
  | (.fork, delays) =>
    if s.nest.frames s.nest.cur = [] then
      let s := s.pass (delays.headD 0)
      some { s.setTimes s.next .zero with
        next := s.next + 1, born := update s.born s.next s.now }
    else none
  | (.execve, delays) =>
    if s.nest.frames s.nest.cur = [] then some (s.stamps delays [.utimesBegin s.nest.cur]) else none
  | (.sysTimes, delays) =>
    if s.nest.frames s.nest.cur = [] then
      some (s.stamps delays
        [.utimesEnd s.nest.cur, .utimesBegin s.nest.cur, .stimesEnd s.nest.cur])
    else none

/-- The time charged to a process. -/
def Timed.cpuTime (s : Timed) (p : Nat) : Int := (s.times p).tmsUtime + (s.times p).tmsStime

structure Right (boot : Nat) (s : Timed) : Prop where
  own : ∀ p < s.next, s.cpuTime p ≤ (s.now : Int) - s.born p
  all : ∑ p ∈ Finset.range s.next, s.cpuTime p ≤ (s.now : Int) - boot
  once : Ledger.Once s.ledger

/-- The process has been given a stamp for its user time. -/
def Timed.Stamped (s : Timed) (p : Nat) : Prop := s.born p ≤ (s.times p).startUtime

/-- An interrupt comes outside of softirqs and finds a stamp; at a switch the clock stands still
between `utimes_begin` of one thread and `stimes_end` of the other; no thread comes back to an
interrupt from which it was switched out; and `thread_preempt`, `thread_yield` and `sys_times`
are not called. -/
def TimeSafe (s : Timed) : TimeOp × List Nat → Prop
  | (.nest (.irq _ none), _) => s.nest.frames s.nest.cur = [] ∧ s.Stamped s.nest.cur
  | (.nest (.irq _ (some _)), delays) =>
    s.nest.frames s.nest.cur = [] ∧ s.Stamped s.nest.cur ∧ delays.getD 3 0 = 0
  | (.nest (.threadBlock _), delays) => s.Stamped s.nest.cur ∧ delays.getD 3 0 = 0
  | (.nest .irqReturn, _) | (.nest (.wakeSleep _), _) | (.nest (.threadYield _), _)
  | (.sysTimes, _) =>
    False
  | (.nest (.softirqEnd _), _) | (.fork, _) | (.execve, _) => True

instance (s : Timed) (p : Nat) : Decidable (s.Stamped p) := inferInstanceAs (Decidable (_ ≤ _))

instance (s : Timed) : ∀ op, Decidable (TimeSafe s op)
  | (.nest (.irq _ none), _) => inferInstanceAs (Decidable (_ ∧ _))
  | (.nest (.irq _ (some _)), _) => inferInstanceAs (Decidable (_ ∧ _ ∧ _))
  | (.nest (.threadBlock _), _) => inferInstanceAs (Decidable (_ ∧ _))
  | (.nest .irqReturn, _) | (.nest (.wakeSleep _), _) | (.nest (.threadYield _), _)
  | (.sysTimes, _) =>
    .isFalse id
  | (.nest (.softirqEnd _), _) | (.fork, _) | (.execve, _) => .isTrue trivial

/-! ## The ledger -/

/-- The times are those of the ledger, the charges of which follow one another. -/
structure Books (boot : Nat) (s : Timed) : Prop where
  seq : Sequential boot s.ledger s.now
  spent : ∀ p, s.cpuTime p = spent s.ledger p
  owner : ∀ e ∈ s.ledger, e.owner < s.next ∧ s.born e.owner ≤ e.start
  born : ∀ p < s.next, s.born p ≤ s.now
  stamp : ∀ p, (s.times p).startUtime ≤ s.now

/-- The time since `start` may be charged to `p`. -/
structure Fresh (boot : Nat) (s : Timed) (p start : Nat) : Prop where
  seq : Sequential boot s.ledger start
  le : start ≤ s.now
  born : s.born p ≤ start
  created : p < s.next

section Books

variable {boot : Nat} {s : Timed} {p q start d : Nat}

theorem books_init (boot : Nat) (active : BitVec 32) : Books boot (.init boot active) where
  seq := Nat.le_refl _
  spent _ := rfl
  owner _ he := absurd he List.not_mem_nil
  born _ _ := Nat.le_refl _
  stamp _ := Nat.zero_le _

theorem Books.right (books : Books boot s) : Right boot s where
  own p hp := by
    rw [books.spent]
    refine books.seq.spent_le (fun e he howner => ?_) (books.born p hp)
    rw [← howner]
    exact (books.owner e he).2
  all := by
    simp only [books.spent]
    rw [Ledger.sum_spent fun e he => (books.owner e he).1]
    exact books.seq.total_le
  once := books.seq.once

theorem Books.pass (books : Books boot s) (d : Nat) : Books boot (s.pass d) where
  seq := books.seq.mono (Nat.le_add_right _ _)
  spent := books.spent
  owner := books.owner
  born p hp := (books.born p hp).trans (Nat.le_add_right _ _)
  stamp p := (books.stamp p).trans (Nat.le_add_right _ _)

theorem Fresh.pass (fresh : Fresh boot s p start) (d : Nat) : Fresh boot (s.pass d) p start :=
  ⟨fresh.seq, fresh.le.trans (Nat.le_add_right _ _), fresh.born, fresh.created⟩

/-- A stamp that is taken now. -/
theorem Books.fresh_now (books : Books boot s) (hp : p < s.next) : Fresh boot s p s.now :=
  ⟨books.seq, Nat.le_refl _, books.born p hp, hp⟩

theorem times_setTimes_self {t : TaskTimes} : (s.setTimes p t).times p = t := update_self ..

theorem times_setTimes_of_ne {t : TaskTimes} (hq : q ≠ p) : (s.setTimes p t).times q = s.times q :=
  update_of_ne hq ..

/-- A call that only takes a stamp. -/
theorem Books.setTimes (books : Books boot s) {t : TaskTimes}
    (ht : t.tmsUtime + t.tmsStime = s.cpuTime p) (hstamp : t.startUtime ≤ s.now) :
    Books boot (s.setTimes p t) := by
  refine ⟨books.seq, fun q => ?_, books.owner, books.born, fun q => ?_⟩
  · by_cases hq : q = p
    · rw [hq, Timed.cpuTime, times_setTimes_self, ht]
      exact books.spent p
    · rw [Timed.cpuTime, times_setTimes_of_ne hq]
      exact books.spent q
  · by_cases hq : q = p
    · rw [hq, times_setTimes_self]
      exact hstamp
    · rw [times_setTimes_of_ne hq]
      exact books.stamp q

theorem Books.utimesBegin (books : Books boot s) (p : Nat) : Books boot (s.utimesBegin p) :=
  books.setTimes rfl (Nat.le_refl _)

theorem Books.stimesBegin (books : Books boot s) (p : Nat) : Books boot (s.stimesBegin p) :=
  books.setTimes rfl (books.stamp p)

/-- A call that charges the time since `start`. -/
theorem Books.charge (books : Books boot s) (fresh : Fresh boot s p start) {t : TaskTimes}
    (ht : t.tmsUtime + t.tmsStime = s.cpuTime p + (s.now - start)) (hstamp : t.startUtime ≤ s.now) :
    Books boot ((s.charge p start).setTimes p t) := by
  refine ⟨⟨fresh.le, Nat.le_refl _, fresh.seq⟩, fun q => ?_, fun e he => ?_, books.born,
    fun q => ?_⟩
  · change _ = (if p = q then Entry.length ⟨p, start, s.now⟩ else 0) + Ledger.spent s.ledger q
    by_cases hq : q = p
    · rw [hq, Timed.cpuTime, times_setTimes_self, ht, if_pos rfl, books.spent p]
      exact Int.add_comm _ _
    · rw [Timed.cpuTime, times_setTimes_of_ne hq, if_neg (Ne.symm hq), Int.zero_add]
      exact books.spent q
  · cases he with
    | head => exact ⟨fresh.created, fresh.born⟩
    | tail _ he => exact books.owner e he
  · by_cases hq : q = p
    · rw [hq, times_setTimes_self]
      exact hstamp
    · rw [times_setTimes_of_ne hq]
      exact books.stamp q

theorem Books.utimesEnd (books : Books boot s) (fresh : Fresh boot s p (s.times p).startUtime) :
    Books boot (s.utimesEnd p) := by
  refine books.charge fresh ?_ (books.stamp p)
  dsimp only [Timed.cpuTime]
  omega

theorem Books.stimesEnd (books : Books boot s) (fresh : Fresh boot s p (s.times p).startStime) :
    Books boot (s.stimesEnd p) := by
  refine books.charge fresh ?_ (books.stamp p)
  dsimp only [Timed.cpuTime]
  omega

/-! ## Interrupts and switches -/

/-- Between `irq_enter` and `irq_exit` of `p`. -/
structure InIrq (boot : Nat) (s : Timed) (p : Nat) : Prop where
  books : Books boot s
  fresh : Fresh boot s p (s.times p).startStime

/-- `irq_enter` closes the user time, and opens the system time after that. -/
theorem Books.irqEnter (books : Books boot s) (fresh : Fresh boot s p (s.times p).startUtime)
    (d d' : Nat) : InIrq boot ((((s.pass d).utimesEnd p).pass d').stimesBegin p) p := by
  have hclosed : Books boot (((s.pass d).utimesEnd p).pass d') :=
    ((books.pass d).utimesEnd (fresh.pass d)).pass d'
  refine ⟨hclosed.stimesBegin p, ?_⟩
  have hstamp : (((((s.pass d).utimesEnd p).pass d').stimesBegin p).times p).startStime =
      ((((s.pass d).utimesEnd p).pass d').stimesBegin p).now := by
    rw [Timed.stimesBegin, times_setTimes_self]
    rfl
  rw [hstamp]
  exact (hclosed.stimesBegin p).fresh_now fresh.created

theorem InIrq.pass (irq : InIrq boot s p) (d : Nat) : InIrq boot (s.pass d) p :=
  ⟨irq.books.pass d, irq.fresh.pass d⟩

/-- Giving a thread its stamp does not move the stamp of the system time. -/
theorem InIrq.utimesBegin (irq : InIrq boot s p) (q : Nat) : InIrq boot (s.utimesBegin q) p := by
  have hstamp : ((s.utimesBegin q).times p).startStime = (s.times p).startStime := by
    by_cases hp : p = q
    · rw [hp, Timed.utimesBegin, times_setTimes_self]
    · rw [Timed.utimesBegin, times_setTimes_of_ne hp]
  refine ⟨irq.books.utimesBegin q, ?_⟩
  rw [hstamp]
  exact ⟨irq.fresh.seq, irq.fresh.le, irq.fresh.born, irq.fresh.created⟩

theorem InIrq.irqExit (irq : InIrq boot s p) (d : Nat) : Books boot ((s.pass d).stimesEnd p) :=
  (irq.books.pass d).stimesEnd (irq.fresh.pass d)

/-- The stamp that a thread has been given is that of the present time. -/
structure JustStamped (boot : Nat) (s : Timed) (p : Nat) : Prop where
  books : Books boot s
  stamp : (s.times p).startUtime = s.now

theorem Books.justStamped (books : Books boot s) (p : Nat) :
    JustStamped boot (s.utimesBegin p) p := by
  refine ⟨books.utimesBegin p, ?_⟩
  rw [Timed.utimesBegin, times_setTimes_self]
  rfl

/-- An interrupt without a switch. -/
theorem Books.irq (books : Books boot s) (fresh : Fresh boot s p (s.times p).startUtime)
    (delays : List Nat) : Books boot (s.stamps delays (CpuTime.irqEnter p ++ CpuTime.irqExit p)) ∧
      JustStamped boot
        (s.stamps delays (CpuTime.irqEnter p ++ CpuTime.irqExit p ++ [.utimesBegin p])) p := by
  have hleft := ((books.irqEnter fresh (delays.headD 0) (delays.tail.headD 0)).irqExit
    (delays.tail.tail.headD 0))
  exact ⟨hleft, (hleft.pass (delays.tail.tail.tail.headD 0)).justStamped p⟩

theorem startUtime_stimesEnd : ((s.stimesEnd p).times q).startUtime = (s.times q).startUtime := by
  by_cases hq : q = p
  · rw [hq, Timed.stimesEnd, times_setTimes_self]
  · rw [Timed.stimesEnd, times_setTimes_of_ne hq]
    rfl

/-- A switch. Without time between its last two readings, the stamp of the thread that comes is
not before the end of the last charge. -/
theorem Books.switch (books : Books boot s) (fresh : Fresh boot s p (s.times p).startUtime)
    {delays : List Nat} (hdelay : delays.getD 3 0 = 0) :
    JustStamped boot (s.stamps delays (CpuTime.irqEnter p ++ CpuTime.schedule p q)) q := by
  have hstill : delays.tail.tail.tail.headD 0 = 0 := by
    rw [← hdelay]
    rcases delays with _ | ⟨a, _ | ⟨b, _ | ⟨c, l⟩⟩⟩
    · rfl
    · rfl
    · rfl
    · cases l <;> rfl
  set given :=
    (((((s.pass (delays.headD 0)).utimesEnd p).pass (delays.tail.headD 0)).stimesBegin p).pass
    (delays.tail.tail.headD 0)).utimesBegin q with hgiven
  have hin : InIrq boot given p :=
    ((books.irqEnter fresh _ _).pass _).utimesBegin q
  change JustStamped boot ((given.pass (delays.tail.tail.tail.headD 0)).stimesEnd p) q
  rw [hstill]
  refine ⟨hin.irqExit 0, ?_⟩
  rw [startUtime_stimesEnd]
  change (given.times q).startUtime = given.now
  rw [hgiven, Timed.utimesBegin, times_setTimes_self]
  rfl

end Books

/-! ## Steps -/

/-- The running thread, in its own code and with a stamp, has not been charged since then. -/
structure TimeInv (boot : Nat) (s : Timed) : Prop where
  books : Books boot s
  cur : s.nest.cur < s.next
  fresh : s.nest.frames s.nest.cur = [] → s.Stamped s.nest.cur →
    Fresh boot s s.nest.cur (s.times s.nest.cur).startUtime

section Steps

variable {boot : Nat} {s s' : Timed} {n n' : Nest} {p : Nat} {delays : List Nat}

theorem Books.withNest (books : Books boot s) (n : Nest) : Books boot { s with nest := n } :=
  ⟨books.seq, books.spent, books.owner, books.born, books.stamp⟩

theorem next_stamps (delays : List Nat) (cs : List Stamp) :
    (s.stamps delays cs).next = s.next ∧ (s.stamps delays cs).nest = s.nest := by
  induction cs generalizing s delays with
  | nil => exact ⟨rfl, rfl⟩
  | cons c cs ih =>
    obtain ⟨hnext, hnest⟩ := ih (s := (s.pass (delays.headD 0)).stamp c) delays.tail
    rw [Timed.stamps, hnext, hnest]
    cases c <;> exact ⟨rfl, rfl⟩

/-- A thread with the stamp of the present time runs. -/
theorem JustStamped.timeInv (just : JustStamped boot s n.cur) (hcur : n.cur < s.next) :
    TimeInv boot { s with nest := n } := by
  refine ⟨just.books.withNest n, hcur, fun _ _ => ?_⟩
  change Fresh boot _ n.cur (s.times n.cur).startUtime
  rw [just.stamp]
  exact (just.books.withNest n).fresh_now hcur

theorem cur_leaveIrq : n.leaveIrq.cur = n.cur := by
  have hexit : n.irqExit.cur = n.cur := by
    rw [Nest.irqExit]
    split <;> rfl
  rw [Nest.leaveIrq]
  split
  · rw [Nest.doSoftirq]
    split
    · exact hexit
    · exact hexit
  · exact hexit

theorem timeInv_init (boot : Nat) (active : BitVec 32) : TimeInv boot (.init boot active) where
  books := books_init boot active
  cur := Nat.succ_pos 2
  fresh _ hstamped := ⟨hstamped, Nat.zero_le _, hstamped, Nat.succ_pos 2⟩

theorem TimeInv.irq (inv : TimeInv boot s) {raised : BitVec 32}
    (hframes : s.nest.frames s.nest.cur = [])
    (hstamped : s.Stamped s.nest.cur) (hcur : n'.cur = s.nest.cur) :
    TimeInv boot { s.stamps delays (nestStamps s.nest n' (.irq raised none)) with nest := n' } := by
  obtain ⟨hleft, hjust⟩ := inv.books.irq (inv.fresh hframes hstamped) delays
  rw [nestStamps, doIrqEnd, hframes]
  split
  next =>
    rw [← hcur] at hjust ⊢
    refine hjust.timeInv ?_
    rw [(next_stamps _ _).1, hcur]
    exact inv.cur
  next hsoft =>
    rw [List.append_nil]
    refine ⟨hleft.withNest n', ?_, fun hnil _ => ?_⟩
    · change n'.cur < (s.stamps delays _).next
      rw [(next_stamps _ _).1, hcur]
      exact inv.cur
    · rw [← hcur] at hsoft
      exact absurd hnil hsoft

theorem TimeInv.switch (inv : TimeInv boot s) (hframes : s.nest.frames s.nest.cur = [])
    (hstamped : s.Stamped s.nest.cur) (hdelay : delays.getD 3 0 = 0) (hnext : n'.cur < s.next) :
    TimeInv boot
      { s.stamps delays (irqEnter s.nest.cur ++ schedule s.nest.cur n'.cur) with nest := n' } := by
  refine (inv.books.switch (inv.fresh hframes hstamped) hdelay).timeInv ?_
  rw [(next_stamps _ _).1]
  exact hnext

/-- `execve`, and the end of a softirq. -/
theorem TimeInv.begin (inv : TimeInv boot s) (hcur : n'.cur = s.nest.cur) :
    TimeInv boot { s.stamps delays [.utimesBegin s.nest.cur] with nest := n' } := by
  rw [← hcur]
  refine ((inv.books.pass (delays.headD 0)).justStamped n'.cur).timeInv ?_
  rw [hcur]
  exact inv.cur

theorem TimeInv.fork (inv : TimeInv boot s) (d : Nat) :
    TimeInv boot { (s.pass d).setTimes s.next .zero with
      next := s.next + 1, born := update s.born s.next (s.now + d) } := by
  have hpassed := inv.books.pass d
  have hborn : ∀ p < s.next, update s.born s.next (s.now + d) p = s.born p :=
    fun p hp => update_of_ne hp.ne _ _
  have hnone : Ledger.spent s.ledger s.next = 0 :=
    Ledger.spent_of_forall_ne fun e he => (hpassed.owner e he).1.ne
  have hbooks : Books boot ((s.pass d).setTimes s.next .zero) :=
    hpassed.setTimes ((hpassed.spent s.next).trans hnone).symm (Nat.zero_le _)
  refine ⟨⟨hbooks.seq, hbooks.spent, fun e he => ?_, fun p hp => ?_, hbooks.stamp⟩, ?_,
    fun hframes hstamped => ?_⟩
  · obtain ⟨howner, hstart⟩ := hpassed.owner e he
    refine ⟨Nat.lt_succ_of_lt howner, ?_⟩
    change update s.born s.next (s.now + d) e.owner ≤ e.start
    rw [hborn _ howner]
    exact hstart
  · change update s.born s.next (s.now + d) p ≤ s.now + d
    rcases Nat.lt_succ_iff_lt_or_eq.mp hp with hlt | rfl
    · rw [hborn p hlt]
      exact hpassed.born p hlt
    · rw [update_self]
  · exact Nat.lt_succ_of_lt inv.cur
  · have htimes : (update s.times s.next .zero) s.nest.cur = s.times s.nest.cur :=
      update_of_ne inv.cur.ne _ _
    have hold : s.Stamped s.nest.cur := by
      have hnew : update s.born s.next (s.now + d) s.nest.cur ≤
          (update s.times s.next .zero s.nest.cur).startUtime := hstamped
      rwa [hborn _ inv.cur, htimes] at hnew
    have hfresh := inv.fresh hframes hold
    change Fresh boot _ s.nest.cur (update s.times s.next .zero s.nest.cur).startUtime
    rw [htimes]
    refine ⟨hfresh.seq, hfresh.le.trans (Nat.le_add_right _ _), ?_, Nat.lt_succ_of_lt inv.cur⟩
    change update s.born s.next (s.now + d) s.nest.cur ≤ _
    rw [hborn _ inv.cur]
    exact hfresh.born

theorem TimeInv.timeStep (inv : TimeInv boot s) (op : TimeOp × List Nat) (safe : TimeSafe s op)
    (step : timeStep s op = some s') : TimeInv boot s' := by
  obtain ⟨op, delays⟩ := op
  cases op with
  | nest op =>
    rw [CpuTime.timeStep, Option.ite_none_right_eq_some] at step
    obtain ⟨hnext, step⟩ := step
    obtain ⟨n', hnest, rfl⟩ := Option.map_eq_some_iff.mp step
    cases op with
    | irq raised next =>
      rw [nestStep, Option.ite_none_right_eq_some] at hnest
      cases next with
      | none =>
        cases hnest.2
        exact inv.irq safe.1 safe.2 cur_leaveIrq
      | some next =>
        cases hnest.2
        exact inv.switch safe.1 safe.2.1 safe.2.2 (hnext next rfl)
    | threadBlock next =>
      rw [nestStep, Option.ite_none_right_eq_some] at hnest
      cases hnest.2
      exact inv.switch hnest.1 safe.1 safe.2 (hnext next rfl)
    | softirqEnd raised =>
      rw [nestStep] at hnest
      split at hnest
      · cases hnest
        exact inv.begin rfl
      · cases hnest
    | irqReturn => exact absurd safe id
    | wakeSleep next => exact absurd safe id
    | threadYield next => exact absurd safe id
  | fork =>
    rw [CpuTime.timeStep, Option.ite_none_right_eq_some] at step
    cases step.2
    exact inv.fork _
  | execve =>
    rw [CpuTime.timeStep, Option.ite_none_right_eq_some] at step
    cases step.2
    exact inv.begin rfl
  | sysTimes => exact absurd safe id

end Steps

/-- In every state that a safe run reaches, no process has been charged more than the time since
its creation, nor all of them more than the time since the start, and no interval twice. -/
theorem cpuTime_right (boot : Nat) (active : BitVec 32) (ops : List (TimeOp × List Nat))
    (safe : Run.Meets timeStep TimeSafe (.init boot active) ops) (s : Timed)
    (run : Run.exec timeStep (.init boot active) ops = some s) : Right boot s :=
  (Run.invariant (timeInv_init boot active) safe (fun _ op _ inv hsafe => inv.timeStep op hsafe)
    run).books.right

/-- An interrupt, a fork, a switch to the child, its `execve` and an interrupt. -/
def forkAndExecve : List (TimeOp × List Nat) :=
  [(.nest (.irq 0 none), [10, 1, 2, 1]), (.fork, [3]), (.nest (.threadBlock 3), [1, 1, 1]),
    (.execve, [1]), (.nest (.irq 0 none), [5, 1, 1, 1])]

theorem cpuTime_right_forkAndExecve :
    ∃ s, Run.exec timeStep (.init 0 0) forkAndExecve = some s ∧ Right 0 s := by
  have hrun : (Run.exec timeStep (.init 0 0) forkAndExecve).isSome = true := by decide +kernel
  obtain ⟨s, hs⟩ := Option.isSome_iff_exists.mp hrun
  exact ⟨s, hs, cpuTime_right 0 0 forkAndExecve (by decide +kernel) s hs⟩

/-- Thread 0 runs for 10, is switched out by an interrupt and comes back: it is charged 53 of 52.
A process that calls `sys_times` after 10 is charged 20. A switch during which the clock advances
by 1 charges that time to both threads. A thread that is created at 5 is charged since 0. -/
theorem cpuTime_twice : (∃ s, Run.exec timeStep (.init 0 0) [(.nest (.irq 0 (some 1)), [10, 0, 1]),
        (.nest (.irq 0 (some 0)), [39, 0, 1]), (.nest .irqReturn, [1])] = some s ∧
      s.now = 52 ∧ s.cpuTime 0 = 53 ∧ ¬Right 0 s) ∧
    (∃ s, Run.exec timeStep (.init 0 0) [(.sysTimes, [10])] = some s ∧
      s.now = 10 ∧ s.cpuTime 0 = 20 ∧ ¬Right 0 s) ∧
    (∃ s, Run.exec timeStep (.init 0 0) [(.nest (.threadBlock 1), [10, 0, 0, 1]),
        (.nest (.threadBlock 0), [])] = some s ∧
      s.now = 11 ∧ s.cpuTime 0 = 11 ∧ s.cpuTime 1 = 1 ∧ ¬Right 0 s) ∧
    ∃ s, Run.exec timeStep (.init 5 0) [(.nest (.irq 0 none), [1])] = some s ∧
      s.now = 6 ∧ s.born 0 = 5 ∧ s.cpuTime 0 = 6 ∧ ¬Right 5 s := by
  refine ⟨⟨_, rfl, rfl, rfl, fun h => ?_⟩, ⟨_, rfl, rfl, rfl, fun h => ?_⟩,
    ⟨_, rfl, rfl, rfl, rfl, fun h => ?_⟩, ⟨_, rfl, rfl, rfl, rfl, fun h => ?_⟩⟩
  · exact absurd (h.own 0 (by decide)) (by decide)
  · exact absurd (h.own 0 (by decide)) (by decide)
  · exact absurd h.all (by decide)
  · exact absurd (h.own 0 (by decide)) (by decide)

end KernelTravel.CpuTime

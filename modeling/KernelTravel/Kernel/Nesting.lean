import KernelTravel.Lib.Run
import Mathlib.Algebra.Group.Nat.Defs
import Mathlib.Logic.Function.Basic

/-!
# Nesting counters of interrupts and softirqs

`irq_count` and `bh_count` are global, but a thread can be switched out between an
increment and the matching decrement. `schedule` therefore leaves the interrupt for the
thread that goes and sets `switching`, so that the thread that comes does not leave it a
second time. A thread is modelled by the stack of the interrupt frames that it is in; a
step is a stretch of code that runs with interrupts off.
-/

namespace KernelTravel.Nesting

inductive Frame where
  /-- In `do_irq`, below the handler that called `schedule`. -/
  | irq
  /-- In `do_softirq`, with the actions it runs and whether interrupts are on. -/
  | softirq (active : BitVec 32) (intr : Bool)
  deriving DecidableEq, Repr

structure Nest where
  cur : Nat
  frames : Nat → List Frame
  irqCount : Nat
  bhCount : Nat
  switching : Bool
  softirqActive : BitVec 32

/-- `--` on a `uint32_t`. -/
def dec32 (n : Nat) : Nat := if n = 0 then 2 ^ 32 - 1 else n - 1

def inc32 (n : Nat) : Nat := (n + 1) % 2 ^ 32

namespace Nest

def init (active : BitVec 32) : Nest where
  cur := 0
  frames _ := []
  irqCount := 0
  bhCount := 0
  switching := false
  softirqActive := active

def irqEnter (n : Nest) : Nest :=
  { n with switching := false, irqCount := inc32 n.irqCount }

def irqExit (n : Nest) : Nest :=
  if n.switching then { n with switching := false } else { n with irqCount := dec32 n.irqCount }

def bhEnable (n : Nest) : Nest := { n with bhCount := dec32 n.bhCount }

def bhDisable (n : Nest) : Nest := { n with bhCount := inc32 n.bhCount }

def inInterrupt (n : Nest) : Bool := (n.bhCount + n.irqCount) % 2 ^ 32 ≠ 0

def raiseSoftirq (n : Nest) (bits : BitVec 32) : Nest :=
  { n with softirqActive := n.softirqActive ||| bits }

def setFrames (n : Nest) (l : List Frame) : Nest :=
  { n with frames := Function.update n.frames n.cur l }

/-- `schedule`, once it has chosen the thread. -/
def schedule (n : Nest) (next : Nat) : Nest :=
  { n.irqExit with switching := true, cur := next }

/-- `do_softirq` up to the point where the actions run. -/
def doSoftirq (n : Nest) : Nest :=
  if n.inInterrupt then n
  else
    { n.bhDisable.setFrames (.softirq n.softirqActive true :: n.frames n.cur) with
      softirqActive := 0 }

/-- The end of `do_irq`. -/
def leaveIrq (n : Nest) : Nest :=
  let n := n.irqExit
  if n.softirqActive ≠ 0 then n.doSoftirq else n

end Nest

/-- The thread runs with interrupts on. -/
def interruptible : List Frame → Bool
  | [] => true
  | .softirq _ intr :: _ => intr
  | .irq :: _ => false

inductive NestOp where
  /-- An interrupt whose handler raises `raised` and, with `some next`, calls `schedule`. -/
  | irq (raised : BitVec 32) (next : Option Nat)
  /-- A thread that was switched out in `do_irq` comes back to it. -/
  | irqReturn
  /-- The timer callback `wake_sleep` for the thread `next`. -/
  | wakeSleep (next : Nat)
  /-- The actions are done; they raised `raised`. -/
  | softirqEnd (raised : BitVec 32)
  | threadBlock (next : Nat)
  | threadYield (next : Nat)
  deriving DecidableEq, Repr

def nestStep (n : Nest) : NestOp → Option Nest
  | .irq raised next =>
    if interruptible (n.frames n.cur) then
      let entered := n.irqEnter.raiseSoftirq raised
      match next with
      | none => some entered.leaveIrq
      | some next => some ((entered.setFrames (.irq :: n.frames n.cur)).schedule next)
    else none
  | .irqReturn =>
    match n.frames n.cur with
    | .irq :: rest => some (n.setFrames rest).leaveIrq
    | _ => none
  | .wakeSleep next =>
    match n.frames n.cur with
    -- `thread_preempt` turns interrupts off and does not turn them on again
    | .softirq active _ :: rest =>
      some ((n.bhEnable.setFrames (.softirq active false :: rest)).irqEnter.schedule next)
    | _ => none
  | .softirqEnd raised =>
    match n.frames n.cur with
    | .softirq _ _ :: rest => some ((n.raiseSoftirq raised).bhEnable.setFrames rest)
    | _ => none
  | .threadBlock next =>
    if n.frames n.cur = [] then some (n.irqEnter.schedule next) else none
  -- `thread_yield` does not call `irq_enter`
  | .threadYield next =>
    if n.frames n.cur = [] then some (n.schedule next) else none

/-- What each step asks of the state before it. -/
def NestSafe (n : Nest) : NestOp → Prop
  | .irq _ (some _) => n.frames n.cur = []
  | .wakeSleep _ => n.bhCount ≠ 0
  | .softirqEnd _ => n.bhCount ≠ 0
  | .threadYield _ => n.switching = true
  | _ => True

instance (n : Nest) : ∀ op, Decidable (NestSafe n op)
  | .irq _ (some _) => inferInstanceAs (Decidable (_ = _))
  | .irq _ none => .isTrue trivial
  | .irqReturn => .isTrue trivial
  | .wakeSleep _ => inferInstanceAs (Decidable (_ ≠ _))
  | .softirqEnd _ => inferInstanceAs (Decidable (_ ≠ _))
  | .threadBlock _ => .isTrue trivial
  | .threadYield _ => inferInstanceAs (Decidable (_ = _))

/-- What a thread that is not running was doing: its own code, `do_irq`, or a softirq that a
callback interrupted. -/
def Parked (l : List Frame) : Prop :=
  l = [] ∨ l = [.irq] ∨ ∃ active, l = [.softirq active false]

/-- `bh_count` counts the one softirq that may be running. -/
def softirqs : List Frame → Nat
  | .softirq _ true :: _ => 1
  | _ => 0

structure NestInv (n : Nest) : Prop where
  irqCount : n.irqCount = 0
  bhCount : n.bhCount = softirqs (n.frames n.cur)
  parked : ∀ t, t ≠ n.cur → Parked (n.frames t)
  running : Parked (n.frames n.cur) ∨ ∃ active, n.frames n.cur = [.softirq active true]
  switching : n.frames n.cur = [.irq] → n.switching = true

section Steps

variable {n : Nest} {next : Nat} {l : List Frame}

theorem Parked.softirqs (h : Parked l) : softirqs l = 0 := by
  rcases h with rfl | rfl | ⟨active, rfl⟩
  · rfl
  · rfl
  · rfl

theorem Nest.frames_setFrames_self : (n.setFrames l).frames n.cur = l := Function.update_self ..

theorem Nest.frames_setFrames_of_ne {t : Nat} (h : t ≠ n.cur) :
    (n.setFrames l).frames t = n.frames t :=
  Function.update_of_ne h ..

theorem Nest.schedule_irqEnter (h : n.irqCount = 0) :
    n.irqEnter.schedule next = { n with switching := true, cur := next } := by
  have hcount : dec32 (inc32 n.irqCount) = n.irqCount := by rw [h]; rfl
  simp only [schedule, irqExit, irqEnter, hcount]
  rfl

theorem Nest.irqExit_irqEnter (h : n.irqCount = 0) :
    n.irqEnter.irqExit = { n with switching := false } := by
  have hcount : dec32 (inc32 n.irqCount) = n.irqCount := by rw [h]; rfl
  simp only [irqExit, irqEnter, hcount]
  rfl

/-- The thread that goes leaves parked frames behind, so any thread may come. -/
theorem NestInv.switch (irqCount : n.irqCount = 0) (bhCount : n.bhCount = 0)
    (parked : ∀ t, Parked (n.frames t)) : NestInv { n with switching := true, cur := next } where
  irqCount := irqCount
  bhCount := bhCount.trans (parked next).softirqs.symm
  parked t _ := parked t
  running := .inl (parked next)
  switching _ := rfl

theorem parked_setFrames (h : ∀ t, t ≠ n.cur → Parked (n.frames t)) (hl : Parked l) (t : Nat) :
    Parked ((n.setFrames l).frames t) := by
  by_cases ht : t = n.cur
  · subst ht
    rw [Nest.frames_setFrames_self]
    exact hl
  · rw [Nest.frames_setFrames_of_ne ht]
    exact h t ht

/-- Outside of softirqs the end of an interrupt runs what was raised. -/
theorem Nest.doSoftirq_of_zero (hirq : n.irqCount = 0) (hbh : n.bhCount = 0) :
    n.doSoftirq =
      { n.setFrames (.softirq n.softirqActive true :: n.frames n.cur) with
        bhCount := 1, softirqActive := 0 } := by
  have hnot : n.inInterrupt = false := by
    rw [inInterrupt, hirq, hbh]
    rfl
  rw [doSoftirq, hnot, if_neg Bool.false_ne_true]
  simp only [bhDisable, setFrames, hbh]
  rfl

theorem Nest.frames_leaveIrq {m : Nest} (hexit : n.irqExit = m) (hirq : m.irqCount = 0)
    (hbh : m.bhCount = 0) (hactive : m.softirqActive ≠ 0) :
    n.leaveIrq.frames n.leaveIrq.cur = .softirq m.softirqActive true :: m.frames m.cur := by
  have hrun : n.leaveIrq = m.doSoftirq := by
    rw [leaveIrq, hexit]
    exact if_pos hactive
  rw [hrun, doSoftirq_of_zero hirq hbh]
  exact Function.update_self ..

theorem doSoftirq_inv (inv : NestInv n) (hframes : n.frames n.cur = []) : NestInv n.doSoftirq := by
  have hbh : n.bhCount = 0 := inv.bhCount.trans (by rw [hframes]; rfl)
  rw [Nest.doSoftirq_of_zero inv.irqCount hbh, hframes]
  have hcur : (n.setFrames [.softirq n.softirqActive true]).frames n.cur =
      [.softirq n.softirqActive true] := Nest.frames_setFrames_self
  constructor
  case irqCount => exact inv.irqCount
  case bhCount =>
    change 1 = softirqs ((n.setFrames [.softirq n.softirqActive true]).frames n.cur)
    rw [hcur]
    rfl
  case parked =>
    intro t ht
    have hother : t ≠ n.cur := ht
    change Parked ((n.setFrames [.softirq n.softirqActive true]).frames t)
    rw [Nest.frames_setFrames_of_ne hother]
    exact inv.parked t hother
  case running => exact .inr ⟨_, hcur⟩
  case switching =>
    intro h
    cases h.symm.trans hcur

/-- In a softirq the counter keeps `do_softirq` from nesting. -/
theorem Nest.doSoftirq_of_busy (hirq : n.irqCount = 0) (hbh : n.bhCount = 1) : n.doSoftirq = n := by
  have hbusy : n.inInterrupt = true := by
    rw [inInterrupt, hirq, hbh]
    rfl
  rw [doSoftirq, hbusy, if_pos rfl]

variable (inv : NestInv n)
include inv

/-- The end of `do_irq`, after the interrupt was left. -/
theorem softirqCheck_inv
    (hframes : n.frames n.cur = [] ∨ ∃ active, n.frames n.cur = [.softirq active true]) :
    NestInv (if n.softirqActive ≠ 0 then n.doSoftirq else n) := by
  split
  · rcases hframes with hframes | ⟨active, hframes⟩
    · exact doSoftirq_inv inv hframes
    · have hbh : n.bhCount = 1 := inv.bhCount.trans (by rw [hframes]; rfl)
      rw [Nest.doSoftirq_of_busy inv.irqCount hbh]
      exact inv
  · exact inv

theorem interruptible_cases (h : interruptible (n.frames n.cur) = true) :
    n.frames n.cur = [] ∨ ∃ active, n.frames n.cur = [.softirq active true] := by
  rcases inv.running with (hnil | hirq | ⟨active, hsoft⟩) | hsoft
  · exact .inl hnil
  · rw [hirq] at h
    exact absurd h Bool.false_ne_true
  · rw [hsoft] at h
    exact absurd h Bool.false_ne_true
  · exact .inr hsoft

theorem irq_inv (raised : BitVec 32) (h : interruptible (n.frames n.cur) = true) :
    NestInv (n.irqEnter.raiseSoftirq raised).leaveIrq := by
  have hcases := interruptible_cases inv h
  have hleft : (n.irqEnter.raiseSoftirq raised).irqExit =
      { n.raiseSoftirq raised with switching := false } :=
    Nest.irqExit_irqEnter (n := n.raiseSoftirq raised) inv.irqCount
  rw [Nest.leaveIrq, hleft]
  refine softirqCheck_inv ⟨inv.irqCount, inv.bhCount, inv.parked, inv.running,
    fun hirq => ?_⟩ hcases
  rw [show n.frames n.cur = [.irq] from hirq] at h
  exact absurd h Bool.false_ne_true

theorem irqSchedule_inv (raised : BitVec 32) (hframes : n.frames n.cur = []) :
    NestInv
      (((n.irqEnter.raiseSoftirq raised).setFrames (.irq :: n.frames n.cur)).schedule next) := by
  have hbh : n.bhCount = 0 := inv.bhCount.trans (by rw [hframes]; rfl)
  have hsched : ((n.irqEnter.raiseSoftirq raised).setFrames (.irq :: n.frames n.cur)).schedule
    next =
      { (n.raiseSoftirq raised).setFrames [.irq] with switching := true, cur := next } := by
    rw [hframes]
    exact Nest.schedule_irqEnter (n := (n.raiseSoftirq raised).setFrames [.irq]) inv.irqCount
  rw [hsched]
  exact NestInv.switch (n := (n.raiseSoftirq raised).setFrames [.irq]) inv.irqCount hbh
    (parked_setFrames inv.parked (.inr (.inl rfl)))

/-- A thread that comes back into `do_irq` finds `switching` set and leaves nothing. -/
theorem irqReturn_inv (hframes : n.frames n.cur = [.irq]) : NestInv (n.setFrames []).leaveIrq := by
  have hbh : n.bhCount = 0 := inv.bhCount.trans (by rw [hframes]; rfl)
  have hleft : (n.setFrames []).irqExit = { n.setFrames [] with switching := false } :=
    if_pos (inv.switching hframes)
  have hcur : (n.setFrames []).frames n.cur = [] := Nest.frames_setFrames_self
  rw [Nest.leaveIrq, hleft]
  refine softirqCheck_inv ⟨inv.irqCount, ?_, fun t _ => ?_, .inl (.inl hcur),
    fun hirq => ?_⟩ (.inl hcur)
  · change n.bhCount = softirqs ((n.setFrames []).frames n.cur)
    rw [hcur, hbh]
    rfl
  · exact parked_setFrames inv.parked (.inl rfl) t
  · cases hirq.symm.trans hcur

/-- With `bh_count` above 0 the running thread is in a softirq of its own. -/
theorem softirq_of_bhCount (hbh : n.bhCount ≠ 0) :
    n.bhCount = 1 ∧ ∃ active, n.frames n.cur = [.softirq active true] := by
  rcases inv.running with hparked | ⟨active, hsoft⟩
  · exact absurd (inv.bhCount.trans hparked.softirqs) hbh
  · refine ⟨inv.bhCount.trans ?_, active, hsoft⟩
    rw [hsoft]
    rfl

theorem wakeSleep_inv (hbh : n.bhCount = 1) (active : BitVec 32) :
    NestInv ((n.bhEnable.setFrames [.softirq active false]).irqEnter.schedule next) := by
  rw [Nest.schedule_irqEnter (n := n.bhEnable.setFrames [.softirq active false]) inv.irqCount]
  refine NestInv.switch (n := n.bhEnable.setFrames [.softirq active false]) inv.irqCount ?_
    (parked_setFrames (n := n.bhEnable) inv.parked (.inr (.inr ⟨active, rfl⟩)))
  change dec32 n.bhCount = 0
  rw [hbh]
  rfl

theorem softirqEnd_inv (hbh : n.bhCount = 1) (raised : BitVec 32) :
    NestInv ((n.raiseSoftirq raised).bhEnable.setFrames []) := by
  have hcur : (n.setFrames []).frames n.cur = [] := Nest.frames_setFrames_self
  refine ⟨inv.irqCount, ?_, fun t _ => ?_, .inl (.inl hcur), fun hirq => ?_⟩
  · change dec32 n.bhCount = softirqs ((n.setFrames []).frames n.cur)
    rw [hcur, hbh]
    rfl
  · exact parked_setFrames inv.parked (.inl rfl) t
  · cases hirq.symm.trans hcur

/-- Leaving the own code for another thread, with the counter already balanced. -/
theorem leave_inv (hframes : n.frames n.cur = []) :
    NestInv { n with switching := true, cur := next } := by
  refine NestInv.switch inv.irqCount (inv.bhCount.trans (by rw [hframes]; rfl)) fun t => ?_
  by_cases ht : t = n.cur
  · rw [ht, hframes]
    exact .inl rfl
  · exact inv.parked t ht

theorem nestStep_inv (op : NestOp) (safe : NestSafe n op) {n' : Nest}
    (hstep : nestStep n op = some n') : NestInv n' := by
  cases op with
  | irq raised next =>
    rw [nestStep, Option.ite_none_right_eq_some] at hstep
    obtain ⟨hon, hstep⟩ := hstep
    cases next with
    | none =>
      cases hstep
      exact irq_inv inv raised hon
    | some next =>
      cases hstep
      exact irqSchedule_inv inv raised safe
  | irqReturn =>
    rw [nestStep] at hstep
    split at hstep
    · rename_i rest hframes
      cases hstep
      rcases inv.running with (h | h | ⟨active, h⟩) | ⟨active, h⟩
      · cases h.symm.trans hframes
      · cases h.symm.trans hframes
        exact irqReturn_inv inv h
      · cases h.symm.trans hframes
      · cases h.symm.trans hframes
    · cases hstep
  | wakeSleep next =>
    obtain ⟨hbh, active, hframes⟩ := softirq_of_bhCount inv safe
    simp only [nestStep, hframes, Option.some.injEq] at hstep
    rw [← hstep]
    exact wakeSleep_inv inv hbh active
  | softirqEnd raised =>
    obtain ⟨hbh, active, hframes⟩ := softirq_of_bhCount inv safe
    simp only [nestStep, hframes, Option.some.injEq] at hstep
    rw [← hstep]
    exact softirqEnd_inv inv hbh raised
  | threadBlock next =>
    rw [nestStep, Option.ite_none_right_eq_some, Nest.schedule_irqEnter inv.irqCount,
      Option.some.injEq] at hstep
    rw [← hstep.2]
    exact leave_inv inv hstep.1
  | threadYield next =>
    rw [nestStep, Option.ite_none_right_eq_some, Option.some.injEq] at hstep
    have hsched : n.schedule next = { n with switching := true, cur := next } := by
      have hswitching : n.switching = true := safe
      rw [Nest.schedule, Nest.irqExit, if_pos hswitching]
    rw [← hstep.2, hsched]
    exact leave_inv inv hstep.1

end Steps

/-- Outside of interrupts the counters are 0, and the end of the next interrupt runs every
softirq that is raised, also when the handler switched threads. -/
structure Outside (n : Nest) : Prop where
  counters : n.frames n.cur = [] → n.irqCount = 0 ∧ n.bhCount = 0
  notIn : n.frames n.cur = [] → n.inInterrupt = false
  atExit : ∀ raised, n.frames n.cur = [] → n.softirqActive ||| raised ≠ 0 →
    ∃ n', nestStep n (.irq raised none) = some n' ∧
      n'.frames n'.cur = [.softirq (n.softirqActive ||| raised) true]
  atReturn : n.frames n.cur = [.irq] → n.softirqActive ≠ 0 →
    ∃ n', nestStep n .irqReturn = some n' ∧ n'.frames n'.cur = [.softirq n.softirqActive true]

theorem NestInv.outside {n : Nest} (inv : NestInv n) : Outside n := by
  have hzero : ∀ l, n.frames n.cur = l → Parked l → n.bhCount = 0 := by
    rintro l rfl hl
    exact inv.bhCount.trans hl.softirqs
  constructor
  case counters =>
    intro hframes
    exact ⟨inv.irqCount, hzero _ hframes (.inl rfl)⟩
  case notIn =>
    intro hframes
    rw [Nest.inInterrupt, inv.irqCount, hzero _ hframes (.inl rfl)]
    rfl
  case atExit =>
    intro raised hframes hactive
    have hleft : (n.irqEnter.raiseSoftirq raised).irqExit =
        { n.raiseSoftirq raised with switching := false } :=
      Nest.irqExit_irqEnter (n := n.raiseSoftirq raised) inv.irqCount
    refine ⟨(n.irqEnter.raiseSoftirq raised).leaveIrq, ?_, ?_⟩
    · rw [nestStep, hframes]
      rfl
    · rw [Nest.frames_leaveIrq hleft inv.irqCount (hzero _ hframes (.inl rfl)) hactive]
      exact congrArg _ hframes
  case atReturn =>
    intro hframes hactive
    have hleft : (n.setFrames []).irqExit = { n.setFrames [] with switching := false } :=
      if_pos (inv.switching hframes)
    refine ⟨(n.setFrames []).leaveIrq, ?_, ?_⟩
    · simp only [nestStep, hframes]
    · rw [Nest.frames_leaveIrq hleft inv.irqCount (hzero _ hframes (.inr (.inl rfl))) hactive]
      exact congrArg _ (Nest.frames_setFrames_self (n := n))

theorem init_nestInv (active : BitVec 32) : NestInv (Nest.init active) where
  irqCount := rfl
  bhCount := rfl
  parked _ _ := .inl rfl
  running := .inl (.inl rfl)
  switching h := absurd h (List.cons_ne_nil _ _).symm

/-- In every state that a safe run reaches, a thread outside of interrupts finds the
counters at 0. -/
theorem nest_runs (active : BitVec 32) (ops : List NestOp)
    (safe : Run.Meets nestStep NestSafe (Nest.init active) ops) (n : Nest)
    (run : Run.exec nestStep (Nest.init active) ops = some n) : Outside n :=
  (Run.invariant (init_nestInv active) safe (fun _ op _ inv hsafe => nestStep_inv inv op hsafe)
    run).outside

/-- A softirq with an interrupt in it, a sleep, a switch by the timer and a switch back. -/
def switchesAndSoftirq : List NestOp :=
  [.irq 0 none, .irq 0 none, .softirqEnd 1, .threadBlock 1, .threadYield 2, .irq 0 (some 0),
    .irq 0 (some 2), .irqReturn, .softirqEnd 1]

theorem nest_runs_switchesAndSoftirq :
    ∃ n, Run.exec nestStep (Nest.init 1) switchesAndSoftirq = some n ∧ Outside n := by
  have hrun : (Run.exec nestStep (Nest.init 1) switchesAndSoftirq).isSome = true := by
    decide +kernel
  obtain ⟨n, hn⟩ := Option.isSome_iff_exists.mp hrun
  exact ⟨n, hn, nest_runs 1 switchesAndSoftirq (by decide +kernel) n hn⟩

/-- After `thread_yield` the other thread runs with `irq_count` wrapped around. After a timer
callback woke a thread, the thread that ran the softirq comes back, ends it and runs its own
code with `bh_count` wrapped around. -/
theorem counters_wrap : (Run.exec nestStep (Nest.init 0) [.irq 0 none, .threadYield 1]).map
        (fun n => (n.frames n.cur, n.irqCount)) = some ([], 2 ^ 32 - 1) ∧
      (Run.exec nestStep (Nest.init 1)
        [.threadBlock 1, .irq 0 none, .wakeSleep 0, .irq 0 (some 1), .softirqEnd 1]).map
          (fun n => (n.frames n.cur, n.bhCount)) = some ([], 2 ^ 32 - 1) := by
  constructor
  · decide +kernel
  · decide +kernel

end KernelTravel.Nesting

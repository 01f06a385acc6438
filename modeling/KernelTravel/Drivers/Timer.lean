import Mathlib.Algebra.Group.Nat.Defs
import Mathlib.Data.List.Basic

/-!
# The timer wheel

`tvecs` is a wheel of seven levels with 64 lists each. `add_timer` picks a level by the
distance of `expires` from `timer_ticks`, and `run_timers` brings `timer_ticks` up to
`ticks`, one tick at a time, calling the timers of one list of level 0 and emptying one
list of a higher level whenever the index below it is back at 0. It reads `ticks` again before
every round, and timers are added between its steps.

The model keeps each list as the list of its timers in order. `none` stands for a use of
the uninitialised `idx` of `calc_wheel_idx`, for a walk that leaves its list, and for `BUG()`.
-/

namespace KernelTravel.Timer

def lvlDepth : Nat := 7

def lvlSize : Nat := 64

def lvlOff (n : Nat) : Nat := n * lvlSize

def lvlStart (n : Nat) : Nat := 2 ^ (6 * n)

/-- Subtraction of `unsigned long`. -/
def sub64 (a b : Nat) : Nat := (a + 2 ^ 64 - b) % 2 ^ 64

/-- The wheel, the two clocks and the timers, which are numbered. `linked t` is
`timer->elm.prev != NULL`; nothing clears that pointer once it is set. `called` lists the
calls of `func` with the value of `timer_ticks` at each. -/
structure Wheel where
  ticks : Nat
  timerTicks : Nat
  index : Nat → Nat
  vec : Nat → Nat → List Nat
  expires : Nat → Nat
  linked : Nat → Bool
  called : List (Nat × Nat)

namespace Wheel

/-- The state after `timer_init`. -/
def init : Wheel where
  ticks := 0
  timerTicks := 0
  index _ := 0
  vec _ _ := []
  expires _ := 0
  linked _ := false
  called := []

def setVec (w : Wheel) (n s : Nat) (l : List Nat) : Wheel :=
  { w with vec := fun n' s' => if n' = n ∧ s' = s then l else w.vec n' s' }

def setIndex (w : Wheel) (n i : Nat) : Wheel :=
  { w with index := Function.update w.index n i }

end Wheel

/-- The position of a list among all levels. The sum is cut to an `unsigned int`. -/
def calcIndex (expire lvl : Nat) : Nat :=
  (expire / lvlStart lvl + 1) % 2 ^ 32 % lvlSize + lvlOff lvl

/-- No branch assigns `idx` when the distance is at least `LVL_START(6)`. -/
def calcWheelIdx (w : Wheel) (t : Nat) : Option Nat :=
  let expire := w.expires t
  let delta := sub64 expire w.timerTicks
  if delta < lvlStart 1 then some (calcIndex expire 0)
  else if delta < lvlStart 2 then some (calcIndex expire 1)
  else if delta < lvlStart 3 then some (calcIndex expire 2)
  else if delta < lvlStart 4 then some (calcIndex expire 3)
  else if delta < lvlStart 5 then some (calcIndex expire 4)
  else if delta < lvlStart 6 then some (calcIndex expire 5)
  else none

def enqueueTimer (w : Wheel) (t idx : Nat) : Wheel :=
  { w.setVec (idx / lvlSize) (idx % lvlSize) (w.vec (idx / lvlSize) (idx % lvlSize) ++ [t]) with
    linked := Function.update w.linked t true }

def internalAddTimer (w : Wheel) (t : Nat) : Option Wheel := do
  let idx ← calcWheelIdx w t
  return enqueueTimer w t idx

def addTimer (w : Wheel) (t : Nat) : Option Wheel :=
  if w.linked t then none else internalAddTimer w t

/-- Empty the list at the index of level `n`. `list_append` makes the tail of the target
list the successor of the timer, and the walk goes on from there: in its own list it stops
and `list_init` drops every timer, in another list it takes that tail for a timer. -/
def cascadeTimers (w : Wheel) (n : Nat) : Option Wheel :=
  let slot := w.index n
  match w.vec n slot with
  | [] => some (w.setIndex n ((slot + 1) % lvlSize))
  | t :: _ => do
    let idx ← calcWheelIdx w t
    if idx / lvlSize = n ∧ idx % lvlSize = slot then
      some ((w.setVec n slot []).setIndex n ((slot + 1) % lvlSize))
    else none

/-- Call the first timer of a list. -/
def callTimer (w : Wheel) (t : Nat) : Wheel := { w with called := w.called ++ [(t, w.timerTicks)] }

def advance (w : Wheel) : Wheel :=
  { w.setIndex 0 ((w.index 0 + 1) % lvlSize) with timerTicks := (w.timerTicks + 1) % 2 ^ 64 }

/-- The test `(long)(ticks - timer_ticks) > 0`. -/
def Behind (w : Wheel) : Prop :=
  0 < sub64 w.ticks w.timerTicks ∧ sub64 w.ticks w.timerTicks < 2 ^ 63

instance (w : Wheel) : Decidable (Behind w) := inferInstanceAs (Decidable (_ ∧ _))

/-- Where `run_timers` stands. `slot` is `cur_list`, which is taken from the index before the loop
and is not moved with it. -/
inductive Phase where
  | idle
  /-- Before the test of the loop. -/
  | test (slot : Nat)
  /-- Before `cascade_timers` of level `n`. -/
  | cascade (slot n : Nat)
  /-- Before the test of the inner loop. -/
  | list (slot : Nat)
  /-- The first timer of the list has been called and is still in the list. -/
  | remove (slot : Nat)
  deriving DecidableEq, Repr

/-- The wheel and the softirq. It runs with interrupts on, and the function of a timer may let
other threads run: ticks and new timers come between any two of its steps. -/
structure TimerSys where
  wheel : Wheel
  phase : Phase

namespace TimerSys

def init : TimerSys := ⟨.init, .idle⟩

/-- `run_timers` up to its next phase. The levels above 0 are emptied while the index below is
back at 0, and the loop over them goes on only after an index became 1. -/
def next (s : TimerSys) : Option TimerSys :=
  match s.phase with
  | .idle => some s
  | .test slot =>
    if Behind s.wheel then
      some ⟨s.wheel, if s.wheel.index 0 = 0 then .cascade slot 1 else .list slot⟩
    else some ⟨s.wheel, .idle⟩
  | .cascade slot n => do
    let w ← cascadeTimers s.wheel n
    return ⟨w, if w.index n = 1 ∧ n + 1 < lvlDepth then .cascade slot (n + 1) else .list slot⟩
  | .list slot =>
    match s.wheel.vec 0 slot with
    | [] => some ⟨advance s.wheel, .test slot⟩
    | t :: _ => some ⟨callTimer s.wheel t, .remove slot⟩
  | .remove slot =>
    match s.wheel.vec 0 slot with
    | [] => none
    | _ :: rest => some ⟨s.wheel.setVec 0 slot rest, .list slot⟩

end TimerSys

inductive TimerOp where
  /-- `add_timer` on timer `t` with `expires` set to `e`. -/
  | add (t e : Nat)
  /-- A timer interrupt. -/
  | tick
  /-- The softirq starts. It is raised again only at its end. -/
  | start
  /-- The softirq goes on if it runs. -/
  | next
  deriving DecidableEq, Repr

def timerStep (s : TimerSys) : TimerOp → Option TimerSys
  | .add t e =>
    (addTimer { s.wheel with expires := Function.update s.wheel.expires t e } t).map (⟨·, s.phase⟩)
  | .tick => some { s with wheel := { s.wheel with ticks := (s.wheel.ticks + 1) % 2 ^ 64 } }
  | .start => if s.phase = .idle then some ⟨s.wheel, .test (s.wheel.index 0)⟩ else none
  | .next => s.next

/-- The calls of the function of timer `t`. -/
def Wheel.calls (w : Wheel) (t : Nat) : List (Nat × Nat) :=
  w.called.filter fun c => c.1 = t

end KernelTravel.Timer

import Mathlib.Data.BitVec
import Mathlib.Data.Fintype.Pi

/-!
# Signals

`check_signals` runs before an interrupt returns to user mode. It takes pending signals
from the set of the process until it finds one with a handler, saves the user context in
a frame on the user stack and makes the registers enter the handler. The handler returns
into code that calls `sys_sigreturn`, which takes the context back from the frame.

A failed `ASSERT` is `none`. The loop of `check_signals` is given fuel, and `none` also
stands for a loop that is still running when the fuel is used up.
-/

namespace KernelTravel.Signal

-- For the numbers of registers.
instance neZero_registers : NeZero 32 := ⟨by decide⟩

/-- `sigset_t`: four words, of which eight bits each stand for a signal. -/
structure Sigset where
  sig : Fin 4 → BitVec 64
  deriving DecidableEq

/-- How the operations of `sigset.h` start: `ASSERT(0 < signo && signo <= SIGMAX)`, then
`signo -= 1`. Below they are given the index. -/
def signoIndex (signo : Nat) : Option (Fin 32) :=
  if h : 0 < signo ∧ signo ≤ 32 then some ⟨signo - 1, by omega⟩ else none

/-- The word of a signal. -/
def wordOf (v : Fin 32) : Fin 4 := ⟨v / 8, by omega⟩

def bitOf (v : Fin 32) : Nat := v % 8

namespace Sigset

def initSigset : Sigset := ⟨fun _ => 0⟩

def sigismember (s : Sigset) (v : Fin 32) : Bool := (s.sig (wordOf v)).getLsbD (bitOf v)

def sigaddset (s : Sigset) (v : Fin 32) : Sigset :=
  ⟨Function.update s.sig (wordOf v) (s.sig (wordOf v) ||| BitVec.twoPow 64 (bitOf v))⟩

def sigremove (s : Sigset) (v : Fin 32) : Sigset :=
  ⟨Function.update s.sig (wordOf v) (s.sig (wordOf v) &&& ~~~BitVec.twoPow 64 (bitOf v))⟩

def sigsetOr (s t : Sigset) : Sigset := ⟨fun i => s.sig i ||| t.sig i⟩

end Sigset

/-- The lowest bit that is set, and 0 if there is none. -/
def findLsb (x : BitVec 64) : Nat :=
  ((List.range 64).find? x.getLsbD).getD 0

abbrev sigDfl : BitVec 64 := 0

abbrev sigIgn : BitVec 64 := 1

def sigchld : Nat := 17

def sigcont : Nat := 18

def sigurg : Nat := 23

def sigwinch : Nat := 28

/-- The macro `M`. -/
def sigMask (sig : Nat) : BitVec 64 := BitVec.twoPow 64 (sig - 1)

def sigKernelIgnoreMask : BitVec 64 :=
  sigMask sigcont ||| sigMask sigchld ||| sigMask sigwinch ||| sigMask sigurg

def sigKernelIgnore (sig : Nat) : Bool := sigMask sig &&& sigKernelIgnoreMask ≠ 0

structure KSigaction where
  saHandler : BitVec 64
  saMask : Sigset
  saFlags : BitVec 32
  saRestorer : BitVec 64
  deriving DecidableEq

/-- `struct pt_regs`, without the fields that signals leave alone. -/
structure PtRegs where
  regs : Fin 32 → BitVec 64
  origA0 : BitVec 64
  csrEra : BitVec 64
  csrPrmd : BitVec 64
  deriving DecidableEq

/-- `struct sigframe`. -/
structure Sigframe where
  ucStack : BitVec 64
  ucSigmask : Sigset
  csrEra : BitVec 64
  csrPrmd : BitVec 64
  space : Fin 32 → BitVec 64
  deriving DecidableEq

def sysSigreturnNr : BitVec 64 := 139

/-- The instructions that a handler returns to. -/
inductive Insn where
  | liA7 (nr : BitVec 64)
  | syscall
  deriving DecidableEq

def sigreturnCode : List Insn := [.liA7 sysSigreturnNr, .syscall]

/-- What signals read and write of a process: its sets and handlers, the user registers
on its kernel stack at `regsAddr`, the frames on its user stack by address, and the code at
`SIGRETURN_ADDR`. -/
structure Proc where
  pending : Sigset
  blocked : Sigset
  action : Fin 32 → KSigaction
  regs : PtRegs
  regsAddr : BitVec 64
  stack : BitVec 64 → Sigframe
  returnCode : List Insn

/-- The test is `*s && ~*m`: a word is taken when it has a pending signal and some bit of
the blocked word is clear. The signal is the lowest pending one of the word. -/
def getSignal (pending blocked : Sigset) : Nat :=
  match Fin.find? fun i => pending.sig i ≠ 0 ∧ ~~~blocked.sig i ≠ 0 with
  | some i => i * 8 + findLsb (pending.sig i) + 1
  | none => 0

def dequeueSignal (p : Proc) : Option (Nat × Proc) :=
  let sig := getSignal p.pending p.blocked
  if sig = 0 then some (0, p)
  else (signoIndex sig).map fun v => (sig, { p with pending := p.pending.sigremove v })

def isignoredSignals (p : Proc) (v : Fin 32) : Bool :=
  if p.blocked.sigismember v then false
  else (p.action v).saHandler = sigIgn ∨
    ((p.action v).saHandler = sigDfl ∧ sigKernelIgnore (v + 1) = true)

def specificSendsig (p : Proc) (v : Fin 32) : Proc :=
  if isignoredSignals p v then p else { p with pending := p.pending.sigaddset v }

def saveSigcontext (regs : PtRegs) (blocked : Sigset) : Sigframe where
  ucStack := regs.regs 3
  ucSigmask := blocked
  csrEra := regs.csrEra
  csrPrmd := regs.csrPrmd
  space := regs.regs

/-- The loop over the 32 registers also writes the stack pointer, after `uc_stack`. -/
def restoreSigcontext (p : Proc) (f : Sigframe) : Proc :=
  { p with
    blocked := f.ucSigmask
    regs := { p.regs with regs := f.space, csrEra := f.csrEra, csrPrmd := f.csrPrmd } }

def sysSigreturn (p : Proc) : Proc := restoreSigcontext p (p.stack (p.regs.regs 3))

def sizeofSigframe : BitVec 64 := 312

/-- The page at `USER_TOP - 0x2000`, which holds the code that calls `sys_sigreturn`. -/
def sigreturnAddr : BitVec 64 := 2 ^ 39 - 0x2000

def setSigframe (p : Proc) (v : Fin 32) : Proc :=
  let frame := p.regs.regs 3 - sizeofSigframe
  { p with
    stack := Function.update p.stack frame (saveSigcontext p.regs p.blocked)
    returnCode := sigreturnCode
    regs := { p.regs with
      regs := Function.update (Function.update (Function.update p.regs.regs 1 sigreturnAddr)
        3 frame) 4 (BitVec.ofNat 64 (v + 1))
      csrEra := (p.action v).saHandler } }

/-- The loop of `check_signals` for the signal `sig` that was taken last. The second
component is the index of the signal whose handler is entered. -/
def checkLoop : Nat → Nat → Proc → Option (Proc × Option (Fin 32))
  | 0, _, _ => none
  | fuel + 1, sig, p =>
    if sig = 0 then some (p, none)
    else (signoIndex sig).bind fun v =>
      if p.blocked.sigismember v then
        (dequeueSignal (specificSendsig p v)).bind fun next => checkLoop fuel next.1 next.2
      else if (p.action v).saHandler ≠ sigDfl then
        some (setSigframe { p with blocked := p.blocked.sigsetOr (p.action v).saMask } v, some v)
      -- `continue` without taking another signal
      else if sigKernelIgnore sig then checkLoop fuel sig p
      else (dequeueSignal p).bind fun next => checkLoop fuel next.1 next.2

def checkSignals (fuel : Nat) (p : Proc) : Option (Proc × Option (Fin 32)) :=
  (dequeueSignal p).bind fun next => checkLoop fuel next.1 next.2

/-- The system calls by number with the values that they leave in the result register.
`sys_sigreturn` is a `void` function, so `ret` is what its code leaves there. -/
def syscallTable (other : BitVec 64 → Proc → Proc × BitVec 64) (ret : BitVec 64)
    (nr : BitVec 64) (p : Proc) : Proc × BitVec 64 :=
  if nr = sysSigreturnNr then (sysSigreturn p, ret) else other nr p

def Proc.setA0 (p : Proc) (value : BitVec 64) : Proc :=
  { p with regs := { p.regs with regs := Function.update p.regs.regs 4 value } }

/-- `do_syscall`: the result of the call is stored over register 4 after the call. -/
def doSyscall (table : BitVec 64 → Proc → Proc × BitVec 64) (p : Proc) : Proc :=
  let nr := p.regs.regs 11
  let p := { p with
    regs := { p.regs with csrEra := p.regs.csrEra + 4, origA0 := p.regs.regs 4 } }
  let p := p.setA0 (-38)
  if 300 < nr.toNat then p
  else
    let p :=
      if nr = sysSigreturnNr then { p with regs := { p.regs with origA0 := p.regsAddr } } else p
    let done := table nr p
    done.1.setA0 done.2

end KernelTravel.Signal

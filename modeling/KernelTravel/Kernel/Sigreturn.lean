import KernelTravel.Kernel.Dispatch

/-!
# The way into a handler and back

`check_signals` adds `sa_mask` to the blocked set before it saves that set, and
`do_syscall` stores the result of `sys_sigreturn` over the register that the call has just
restored. The other registers, the program counter and the mode come back unchanged.
-/

namespace KernelTravel.Signal

open Sigset

variable {p p' q : Proc} {v : Fin 32} {fuel sig : Nat}

/-- Every bit of `t` is set in `s`. -/
def Sigset.Covers (s t : Sigset) : Prop :=
  ∀ i k, (t.sig i).getLsbD k = true → (s.sig i).getLsbD k = true

theorem Sigset.sigsetOr_eq_left_iff {s t : Sigset} : s.sigsetOr t = s ↔ s.Covers t := by
  constructor
  · intro h i k hk
    have hbit : ((s.sigsetOr t).sig i).getLsbD k = true := by
      simp [sigsetOr, hk]
    rw [h] at hbit
    exact hbit
  · intro h
    cases s with
    | mk words =>
      refine congrArg Sigset.mk (funext fun i => BitVec.eq_of_getLsbD_eq fun k _ => ?_)
      have hk := h i k
      rw [BitVec.getLsbD_or]
      cases ht : (t.sig i).getLsbD k with
      | false => rw [Bool.or_false]
      | true => simpa [ht] using hk ht

theorem dequeueSignal_frame {next : Nat × Proc} (h : dequeueSignal p = some next) :
    ∃ pending, next.2 = { p with pending := pending } := by
  rw [dequeueSignal] at h
  split at h
  · cases h
    exact ⟨p.pending, rfl⟩
  · obtain ⟨u, -, rfl⟩ := Option.map_eq_some_iff.mp h
    exact ⟨_, rfl⟩

theorem specificSendsig_frame (p : Proc) (v : Fin 32) :
    ∃ pending, specificSendsig p v = { p with pending := pending } := by
  rw [specificSendsig]
  split
  · exact ⟨p.pending, rfl⟩
  · exact ⟨_, rfl⟩

/-- The process at the entry of the handler of `v`, up to the pending signals that are left. -/
def Proc.entered (p : Proc) (v : Fin 32) (pending : Sigset) : Proc :=
  setSigframe { p with
    pending := pending
    blocked := p.blocked.sigsetOr (p.action v).saMask } v

/-- Until a handler is entered the loop changes the pending set only. -/
theorem checkLoop_entered (h : checkLoop fuel sig p = some (p', some v)) :
    ∃ pending, p' = p.entered v pending := by
  induction fuel generalizing sig p with
  | zero => exact absurd h (Option.some_ne_none _).symm
  | succ fuel ih =>
    rw [checkLoop] at h
    split at h
    · cases h
    obtain ⟨u, -, h⟩ := Option.bind_eq_some_iff.mp h
    split at h
    · obtain ⟨pending, hsent⟩ := specificSendsig_frame p u
      obtain ⟨next, hdequeue, hrest⟩ := Option.bind_eq_some_iff.mp h
      rw [hsent] at hdequeue
      obtain ⟨pending', hnext⟩ := dequeueSignal_frame hdequeue
      rw [hnext] at hrest
      obtain ⟨left, hentered⟩ := ih hrest
      exact ⟨left, hentered⟩
    split at h
    · cases h
      exact ⟨p.pending, rfl⟩
    split at h
    · exact ih h
    · obtain ⟨next, hdequeue, hrest⟩ := Option.bind_eq_some_iff.mp h
      obtain ⟨pending, hnext⟩ := dequeueSignal_frame hdequeue
      rw [hnext] at hrest
      obtain ⟨left, hentered⟩ := ih hrest
      exact ⟨left, hentered⟩

theorem checkSignals_entered (h : checkSignals fuel p = some (p', some v)) :
    ∃ pending, p' = p.entered v pending := by
  obtain ⟨next, hdequeue, hrest⟩ := Option.bind_eq_some_iff.mp h
  obtain ⟨pending, hnext⟩ := dequeueSignal_frame hdequeue
  rw [hnext] at hrest
  obtain ⟨left, hentered⟩ := checkLoop_entered hrest
  exact ⟨left, hentered⟩

/-- The handler returned: the process is about to execute `syscall` for `sys_sigreturn`,
with the stack pointer at the frame and the frame untouched. All else may have changed. -/
structure Returns (p' q : Proc) : Prop where
  nr : q.regs.regs 11 = sysSigreturnNr
  sp : q.regs.regs 3 = p'.regs.regs 3
  frame : q.stack (p'.regs.regs 3) = p'.stack (p'.regs.regs 3)

theorem entered_sp (pending : Sigset) :
    (p.entered v pending).regs.regs 3 = p.regs.regs 3 - sizeofSigframe := rfl

theorem entered_frame (pending : Sigset) :
    (p.entered v pending).stack (p.regs.regs 3 - sizeofSigframe) =
      saveSigcontext p.regs (p.blocked.sigsetOr (p.action v).saMask) :=
  Function.update_self ..

/-- `do_syscall` with the number of `sys_sigreturn` restores the frame at the stack pointer
and then stores the result. -/
theorem doSyscall_sigreturn (other : BitVec 64 → Proc → Proc × BitVec 64) (ret : BitVec 64)
    (hnr : q.regs.regs 11 = sysSigreturnNr) : ∃ q' : Proc, doSyscall (syscallTable other ret) q =
        (restoreSigcontext q' (q.stack (q.regs.regs 3))).setA0 ret := by
  simp only [doSyscall, hnr, syscallTable, sysSigreturn, if_true]
  rw [if_neg (by decide)]
  exact ⟨_, rfl⟩

/-- The blocked set and the user context are those of before the signal. -/
structure RoundTrip (p r : Proc) : Prop where
  blocked : r.blocked = p.blocked
  regs : r.regs.regs = p.regs.regs
  era : r.regs.csrEra = p.regs.csrEra
  prmd : r.regs.csrPrmd = p.regs.csrPrmd

/-- The round trip through a handler is exact if and only if `sa_mask` blocks nothing new
and the interrupted `a0` is what `sys_sigreturn` leaves as its result. -/
theorem sigreturn_roundTrip_iff (p p' q : Proc) (v : Fin 32) (fuel : Nat)
    (henter : checkSignals fuel p = some (p', some v)) (hreturn : Returns p' q)
    (other : BitVec 64 → Proc → Proc × BitVec 64) (ret : BitVec 64) :
    RoundTrip p (doSyscall (syscallTable other ret) q) ↔
      p.blocked.Covers (p.action v).saMask ∧ p.regs.regs 4 = ret := by
  obtain ⟨pending, rfl⟩ := checkSignals_entered henter
  obtain ⟨q', hcall⟩ := doSyscall_sigreturn other ret hreturn.nr
  have hframe : q.stack (q.regs.regs 3) =
      saveSigcontext p.regs (p.blocked.sigsetOr (p.action v).saMask) := by
    rw [hreturn.sp, hreturn.frame, entered_sp, entered_frame]
  rw [hcall, hframe, ← sigsetOr_eq_left_iff]
  constructor
  · rintro ⟨hblocked, hregs, -, -⟩
    refine ⟨hblocked, ?_⟩
    change Function.update p.regs.regs 4 ret = p.regs.regs at hregs
    rw [← hregs, Function.update_self]
  · rintro ⟨hblocked, rfl⟩
    exact ⟨hblocked, Function.update_eq_self 4 p.regs.regs, rfl, rfl⟩

/-- The state in which a handler that changes nothing makes its last system call. -/
def returning (p' : Proc) : Proc :=
  { p' with regs := { p'.regs with regs := Function.update p'.regs.regs 11 sysSigreturnNr } }

theorem returns_returning (p' : Proc) : Returns p' (returning p') where
  nr := by simp [returning]
  sp := by simp [returning]
  frame := rfl

/-- `SIGUSR1` with a handler whose `sa_mask` is empty, and a result that is the old `a0`. -/
theorem sigreturn_roundTrip_usr1 :
    ∃ p', checkSignals 1 (smallProc (initSigset.sigaddset 9) initSigset 9 initSigset) =
    some (p', some 9) ∧
      RoundTrip (smallProc (initSigset.sigaddset 9) initSigset 9 initSigset)
        (doSyscall (syscallTable (fun _ p => (p, 0)) 4) (returning p')) := by
  have hrun : (checkSignals 1 (smallProc (initSigset.sigaddset 9) initSigset 9 initSigset)).map
      Prod.snd = some (some 9) := by decide +kernel
  obtain ⟨⟨p', started⟩, henter, rfl⟩ := Option.map_eq_some_iff.mp hrun
  exact ⟨p', henter, (sigreturn_roundTrip_iff _ p' _ 9 1 henter (returns_returning p') _ 4).mpr
    ⟨fun _ _ hbit => hbit, rfl⟩⟩

/-- A handler of `SIGUSR1` with `SIGTERM` in its `sa_mask` leaves `SIGTERM` blocked for good. -/
theorem blocked_after_sigreturn :
    (checkSignals 1 (smallProc (initSigset.sigaddset 9) initSigset 9 (initSigset.sigaddset 14))).map
      (fun r => (doSyscall (syscallTable (fun _ p => (p, 0)) 4) (returning r.1)).blocked) =
        some (initSigset.sigaddset 14) ∧ initSigset.sigaddset 14 ≠ initSigset := by
  constructor
  · decide +kernel
  · decide +kernel

end KernelTravel.Signal

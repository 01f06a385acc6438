import KernelTravel.Fs.FdRuns
import KernelTravel.Thread.Pid

/-!
# The rows of `pipe_table`

`pipe_table` has ten rows and is indexed with process numbers, of which there are 1024.
`sys_fork` copies the row of the parent to the row of the child, `sys_pipe` and `sys_close` write
the row of the caller. A process holds its number until it is waited for.

The accesses of a call are computed beside its effect. An index is the value the source computes:
`get_free_slot_in_global` gives -1 for a full table, and `sys_pipe` uses it.
-/

namespace KernelTravel.Fd

open Pid (allocatePid releasePid pidBytes pidCount)
open Mm (Bitmap)
open KernelTravel.Pipe (pipeTableRows)

inductive Access where
  | pipeTable (pid : Int)
  | fileTable (i : Int)
  | fdTable (fd : Int)

def Access.InBounds : Access → Prop
  | .pipeTable pid => 0 ≤ pid ∧ pid < pipeTableRows
  | .fileTable i => 0 ≤ i ∧ i < maxFileOpen
  | .fdTable fd => 0 ≤ fd ∧ fd < maxFilesOpenPerProc

instance : DecidablePred Access.InBounds
  | .pipeTable pid => inferInstanceAs (Decidable (0 ≤ pid ∧ pid < pipeTableRows))
  | .fileTable i => inferInstanceAs (Decidable (0 ≤ i ∧ i < maxFileOpen))
  | .fdTable fd => inferInstanceAs (Decidable (0 ≤ fd ∧ fd < maxFilesOpenPerProc))

/-- What a search looks at: everything up to the first hit. -/
def scanned (hit : Nat → Bool) : List Nat → List Nat
  | [] => []
  | i :: is => i :: if hit i then [] else scanned hit is

namespace FdSys

def getFreeSlotAccesses (s : FdSys) : List Access :=
  (scanned (fun i => !s.isPipe i && (s.fileTable i).dirent.isNone)
    (List.range' 3 (maxFileOpen - 3))).map fun i : Nat => .fileTable i

/-- `pcb_fd_install` of a slot, or of -1, which leaves the descriptor free. -/
def installed (s : FdSys) (p : Nat) (slot : Option Nat) : FdSys :=
  match s.freeFd p with
  | none => s
  | some fd => s.setFd p fd slot

def installAccesses (s : FdSys) (p : Nat) (slot : Int) : List Access :=
  ((scanned (fun fd => (s.fdTable p fd).isNone) localFds).map fun fd : Nat => .fdTable fd) ++
    match s.freeFd p with
    | none => []
    | some fd => [.fdTable fd, .fileTable slot]

def pipeAccesses (s : FdSys) (p : Nat) : List Access :=
  let slot : Int := s.getFreeSlotInGlobal.elim (-1) fun i => i
  s.getFreeSlotAccesses ++ .fileTable slot :: s.installAccesses p slot ++
    (s.installed p s.getFreeSlotInGlobal).installAccesses p slot ++ [.pipeTable p]

/-- A descriptor outside the table is taken for one of a pipe, which it may be. -/
def closeAccesses (s : FdSys) (p fd : Nat) : List Access :=
  if fd < 3 then []
  else if maxFilesOpenPerProc ≤ fd then [.pipeTable p]
  else
    match s.fdTable p fd with
    | none => []
    | some i => if s.isPipe i then [.pipeTable p] else []

def exitAccesses (s : FdSys) (p : Nat) : List Nat → List Access
  | [] => []
  | fd :: fds =>
    (if s.fdTable p fd = none then [] else s.closeAccesses p fd) ++
      match s.exitRound p fd with
      | none => []
      | some s' => s'.exitAccesses p fds

end FdSys

/-- `zombies` are the processes that have ended and have not been waited for. -/
structure TreeSys where
  fds : FdSys
  pidBitmap : Bitmap
  zombies : Finset Nat

/-- `init` has the number 1. The numbers 2 and 3 are those of the idle and of the main thread. The
slot that `main` leaves in use is no pipe. -/
def TreeSys.boot : TreeSys := ⟨.init {1}, ⟨pidBytes, fun i => if i = 0 then 7 else 0⟩, ∅⟩

/-- A fork fails if there are no pages for the bitmap of the child. -/
inductive TreeOp where
  | fork (p : Nat) (fails : Bool)
  | wait (p q : Nat)
  | call (op : FdOp)

def TreeOp.caller : TreeOp → Nat
  | .fork p _ | .wait p _ => p
  | .call op => op.caller

namespace TreeSys

/-- A fork that fails has taken a number for the child and does not give it back. -/
def sysFork (s : TreeSys) (p : Nat) (fails : Bool) : Option TreeSys :=
  (allocatePid s.pidBitmap).bind fun (child, b) =>
    if fails then some { s with pidBitmap := b }
    else (s.fds.call (.fork p child.toNat)).map fun fds => { s with fds := fds, pidBitmap := b }

def sysWait (s : TreeSys) (q : Nat) : Option TreeSys :=
  if q ∈ s.zombies then
    (releasePid s.pidBitmap q).map fun b => { s with pidBitmap := b, zombies := s.zombies.erase q }
  else none

def call (s : TreeSys) : TreeOp → Option TreeSys
  | .fork p fails => s.sysFork p fails
  | .wait _ q => s.sysWait q
  | .call (.fork _ _) => none
  | .call (.exit p) =>
    (s.fds.call (.exit p)).map fun fds => { s with fds := fds, zombies := insert p s.zombies }
  | .call op => (s.fds.call op).map fun fds => { s with fds := fds }

def step (s : TreeSys) (op : TreeOp) : Option TreeSys :=
  if op.caller ∈ s.fds.live then s.call op else none

/-- The accesses to the tables by `sys_fork`, `sys_pipe` and `sys_close`. -/
def accesses (s : TreeSys) : TreeOp → List Access
  | .fork _ true => []
  | .fork p false =>
    match allocatePid s.pidBitmap, s.fds.updateInodeOpenCnts p with
    | some (child, _), some _ => [.pipeTable child, .pipeTable p]
    | _, _ => []
  | .call (.pipe p) => s.fds.pipeAccesses p
  | .call (.close p fd) => s.fds.closeAccesses p fd
  | .call (.exit p) => s.fds.exitAccesses p localFds
  | _ => []

def InBounds (s : TreeSys) (op : TreeOp) : Prop :=
  op.caller ∈ s.fds.live → ∀ a ∈ s.accesses op, a.InBounds

/-- If the number of a child can be had at all, then one below ten. -/
def RowFree (s : TreeSys) : Prop :=
  (∃ i < pidCount, ¬s.pidBitmap.Marked i) → ∃ i < pipeTableRows - 1, ¬s.pidBitmap.Marked i

/-- A process forks only while a row is free, and makes a pipe only while a slot is free. -/
def Roomy (s : TreeSys) (op : TreeOp) : Prop :=
  op.caller ∈ s.fds.live →
    match op with
    | .fork p false => s.fds.updateInodeOpenCnts p ≠ none → s.RowFree
    | .call (.pipe _) => s.fds.getFreeSlotInGlobal ≠ none
    | _ => True

/-- Live processes have a row. -/
structure Inv (s : TreeSys) : Prop where
  bytes : s.pidBitmap.btmpBytesLen = pidBytes
  rows : ∀ p ∈ s.fds.live, p < pipeTableRows

end TreeSys

section Accesses

variable {s : FdSys} {p fd i : Nat}

theorem mem_of_mem_scanned {hit : Nat → Bool} {is : List Nat} (h : i ∈ scanned hit is) :
    i ∈ is := by
  induction is with
  | nil => exact h
  | cons j is ih =>
    rw [scanned, List.mem_cons] at h
    rcases h with rfl | h
    · exact List.mem_cons_self
    · split at h
      · exact absurd h List.not_mem_nil
      · exact List.mem_cons_of_mem j (ih h)

theorem inBounds_localFd (hfd : fd ∈ localFds) : (Access.fdTable fd).InBounds := by
  have hlt := (mem_localFds.mp hfd).2
  exact ⟨Int.natCast_nonneg fd, by exact_mod_cast hlt⟩

theorem inBounds_getFreeSlot : ∀ a ∈ s.getFreeSlotAccesses, a.InBounds := by
  intro a ha
  obtain ⟨i, hi, rfl⟩ := List.mem_map.mp ha
  have hlt := (List.mem_range'_1.mp (mem_of_mem_scanned hi)).2
  exact ⟨Int.natCast_nonneg i, by exact_mod_cast hlt⟩

theorem inBounds_install {slot : Int} (hslot : (Access.fileTable slot).InBounds) :
    ∀ a ∈ s.installAccesses p slot, a.InBounds := by
  intro a ha
  rw [FdSys.installAccesses, List.mem_append] at ha
  rcases ha with ha | ha
  · obtain ⟨fd, hfd, rfl⟩ := List.mem_map.mp ha
    exact inBounds_localFd (mem_of_mem_scanned hfd)
  · split at ha
    next => exact absurd ha List.not_mem_nil
    next fd hfree =>
      rw [List.mem_pair] at ha
      rcases ha with rfl | rfl
      · exact inBounds_localFd (freeFd_eq_some hfree).1
      · exact hslot

theorem inBounds_pipe_iff (hp : p < pipeTableRows) :
    (∀ a ∈ s.pipeAccesses p, a.InBounds) ↔ s.getFreeSlotInGlobal ≠ none := by
  constructor
  · intro h hnone
    have hslot := h (.fileTable (-1)) (by simp [FdSys.pipeAccesses, hnone])
    exact absurd hslot.1 (by decide)
  · intro hsome
    obtain ⟨i, hi⟩ := Option.ne_none_iff_exists'.mp hsome
    have hlt : i < maxFileOpen := (List.mem_range'_1.mp (List.mem_of_find?_eq_some hi)).2
    have hslot : (Access.fileTable i).InBounds := ⟨Int.natCast_nonneg i, by exact_mod_cast hlt⟩
    intro a ha
    simp only [FdSys.pipeAccesses, hi, Option.elim_some, List.mem_append, List.mem_cons,
      List.not_mem_nil, or_false] at ha
    rcases ha with ((ha | rfl | ha) | ha) | rfl
    · exact inBounds_getFreeSlot a ha
    · exact hslot
    · exact inBounds_install hslot a ha
    · exact inBounds_install hslot a ha
    · exact ⟨Int.natCast_nonneg p, by exact_mod_cast hp⟩

theorem eq_of_mem_closeAccesses {a : Access} (h : a ∈ s.closeAccesses p fd) : a = .pipeTable p := by
  rw [FdSys.closeAccesses] at h
  split at h
  · exact absurd h List.not_mem_nil
  · split at h
    · exact List.mem_singleton.mp h
    · split at h
      · exact absurd h List.not_mem_nil
      · split at h
        · exact List.mem_singleton.mp h
        · exact absurd h List.not_mem_nil

theorem eq_of_mem_exitAccesses {a : Access} {fds : List Nat} (h : a ∈ s.exitAccesses p fds) :
    a = .pipeTable p := by
  induction fds generalizing s with
  | nil => exact absurd h List.not_mem_nil
  | cons fd fds ih =>
    rw [FdSys.exitAccesses, List.mem_append] at h
    rcases h with h | h
    · split at h
      · exact absurd h List.not_mem_nil
      · exact eq_of_mem_closeAccesses h
    · split at h
      · exact absurd h List.not_mem_nil
      · exact ih h

end Accesses

/-! ## The live processes -/

section Live

variable {s s' : FdSys} {p fd i : Nat}

theorem live_pcbFdInstall : (s.pcbFdInstall p i).2.live = s.live := by
  rw [FdSys.pcbFdInstall]
  split <;> rfl

theorem live_fileOpen {file : Nat} : (s.fileOpen p file).2.live = s.live := by
  rw [FdSys.fileOpen]
  split
  · exact live_pcbFdInstall
  · split
    · rfl
    · exact live_pcbFdInstall

theorem live_sysClose (h : s.sysClose p fd = some s') : s'.live = s.live := by
  rw [FdSys.sysClose] at h
  split at h
  · cases h
    rfl
  · split at h
    · cases h
    · split at h
      · cases h
      · split at h
        · split at h
          · cases h
            rfl
          · cases h
        · cases h
          rfl

theorem live_exitRound (h : s.exitRound p fd = some s') : s'.live = s.live := by
  rw [FdSys.exitRound] at h
  split at h
  · cases h
    rfl
  · exact live_sysClose h

theorem live_foldlM {f : FdSys → Nat → Option FdSys}
    (keeps : ∀ s fd s', f s fd = some s' → s'.live = s.live)
    {fds : List Nat} (h : fds.foldlM f s = some s') : s'.live = s.live := by
  induction fds generalizing s with
  | nil =>
    cases h
    rfl
  | cons fd fds ih =>
    rw [List.foldlM_cons, Option.bind_eq_bind, Option.bind_eq_some_iff] at h
    obtain ⟨t, hround, hrest⟩ := h
    exact (ih hrest).trans (keeps s fd t hround)

/-- No call but a fork brings a process to life. -/
theorem live_call {op : FdOp} (hfork : ∀ q child, op ≠ .fork q child) (h : s.call op = some s') :
    s'.live ⊆ s.live := by
  cases op with
  | openFile p found create file =>
    match found, create, h with
    | none, false, h =>
      cases h
      rfl
    | none, true, h =>
      obtain ⟨i, -, rfl⟩ := Option.map_eq_some_iff.mp h
      exact live_pcbFdInstall.subset
    | some f, true, h =>
      cases h
      exact live_fileOpen.subset
    | some f, false, h =>
      obtain ⟨i, -, rfl⟩ := Option.map_eq_some_iff.mp h
      exact live_fileOpen.subset
  | create p file =>
    obtain ⟨i, -, rfl⟩ := Option.map_eq_some_iff.mp h
    exact live_pcbFdInstall.subset
  | dup p oldfd =>
    rw [FdSys.call, FdSys.sysDup] at h
    split at h
    · cases h
    · split at h
      · split at h
        · cases h
          rfl
        · cases h
      · cases h
        exact live_pcbFdInstall.subset
  | dup2 p old new =>
    rw [FdSys.call, FdSys.sysDup2] at h
    split at h
    · cases h
    · split at h
      · cases h
        rfl
      · split at h
        · cases h
        · obtain ⟨i, -, rfl⟩ := Option.map_eq_some_iff.mp h
          split <;> rfl
  | pipe p =>
    rw [FdSys.call, FdSys.sysPipe] at h
    split at h
    · obtain ⟨i, -, rfl⟩ := Option.map_eq_some_iff.mp h
      exact (live_pcbFdInstall.trans live_pcbFdInstall).subset
    · cases h
  | fork q child => exact absurd rfl (hfork q child)
  | close p fd => exact (live_sysClose h).subset
  | exit p =>
    obtain ⟨t, hrounds, rfl⟩ := Option.map_eq_some_iff.mp h
    exact (Finset.erase_subset p t.live).trans
      (live_foldlM (fun _ _ _ => live_exitRound) hrounds).subset

theorem live_updateOpenCnt (h : s.updateOpenCnt p fd = some s') : s'.live = s.live := by
  rw [FdSys.updateOpenCnt] at h
  split at h
  · cases h
    rfl
  · split at h
    · cases h
      rfl
    · split at h
      · cases h
      · cases h
        rfl

theorem live_updateInodeOpenCnts (h : s.updateInodeOpenCnts p = some s') : s'.live = s.live :=
  live_foldlM (fun _ _ _ => live_updateOpenCnt) h

end Live

/-! ## Runs -/

namespace TreeSys

variable {s s' : TreeSys} {op : TreeOp} {p : Nat}

/-- A row is free exactly if the number that the next child is given has a row. -/
theorem Inv.rowFree_iff (inv : s.Inv) :
    s.RowFree ↔ ∀ child b, allocatePid s.pidBitmap = some (child, b) →
    (Access.pipeTable child).InBounds := by
  have hrows : pipeTableRows - 1 < pidCount := by decide
  constructor
  · intro hfree child b halloc
    have hclear : ∃ i < pidCount, ¬s.pidBitmap.Marked i := by
      by_contra hfull
      push Not at hfull
      cases (Pid.allocatePid_full inv.bytes hfull).symm.trans halloc
    obtain ⟨i, hi, hi'⟩ := hfree hclear
    obtain ⟨k, hk, b', hlowest, -⟩ := Pid.allocatePid_spec inv.bytes (hi.trans hrows) hi'
    cases hlowest.symm.trans halloc
    exact ⟨by omega, by omega⟩
  · rintro hbounds ⟨i, hi, hclear⟩
    obtain ⟨k, hk, b', halloc, hkclear, -⟩ := Pid.allocatePid_spec inv.bytes hi hclear
    have hlt := (hbounds _ _ halloc).2
    exact ⟨k, by omega, hkclear⟩

theorem Inv.inBounds_row (inv : s.Inv) (hp : p ∈ s.fds.live) : (Access.pipeTable p).InBounds :=
  ⟨Int.natCast_nonneg p, by exact_mod_cast inv.rows p hp⟩

theorem Inv.inBounds_fork_iff (inv : s.Inv) (hp : p ∈ s.fds.live) :
    (∀ a ∈ s.accesses (.fork p false), a.InBounds) ↔
      (s.fds.updateInodeOpenCnts p ≠ none → s.RowFree) := by
  rw [inv.rowFree_iff]
  cases hcnts : s.fds.updateInodeOpenCnts p with
  | none =>
    refine iff_of_true ?_ fun h => absurd rfl h
    simp only [accesses, hcnts]
    split <;> simp_all
  | some fds =>
    cases halloc : allocatePid s.pidBitmap with
    | none => simp [accesses, hcnts, halloc]
    | some r =>
      obtain ⟨child, b⟩ := r
      simp [accesses, hcnts, halloc, inv.inBounds_row hp]

theorem Inv.inBounds_iff (inv : s.Inv) (op : TreeOp) : s.InBounds op ↔ s.Roomy op := by
  refine forall_congr' fun hp => ?_
  match op, hp with
  | .fork p true, hp => exact iff_of_true (fun _ h => absurd h List.not_mem_nil) trivial
  | .fork p false, hp => exact inv.inBounds_fork_iff hp
  | .wait p q, hp => exact iff_of_true (fun _ h => absurd h List.not_mem_nil) trivial
  | .call (.pipe p), hp => exact inBounds_pipe_iff (inv.rows p hp)
  | .call (.close p fd), hp =>
    exact iff_of_true (fun a ha => eq_of_mem_closeAccesses ha ▸ inv.inBounds_row hp) trivial
  | .call (.exit p), hp =>
    exact iff_of_true (fun a ha => eq_of_mem_exitAccesses ha ▸ inv.inBounds_row hp) trivial
  | .call (.openFile ..), hp | .call (.create ..), hp | .call (.dup ..), hp | .call (.dup2 ..), hp
  | .call (.fork ..), hp => exact iff_of_true (fun _ h => absurd h List.not_mem_nil) trivial

/-- The child of a fork that returns has a row. -/
theorem Inv.sysFork {fails : Bool} (inv : s.Inv) (hfork : s.sysFork p fails = some s') :
    s'.Inv := by
  obtain ⟨⟨child, b⟩, halloc, hrest⟩ := Option.bind_eq_some_iff.mp hfork
  have hbytes : b.btmpBytesLen = pidBytes := by
    obtain ⟨off, hscan, hset⟩ := Option.bind_eq_some_iff.mp halloc
    obtain ⟨b', hset, hpure⟩ := Option.bind_eq_some_iff.mp hset
    cases hpure
    exact (Bitmap.bitmapSet_marked hset).1.trans inv.bytes
  cases fails with
  | true =>
    cases hrest
    exact ⟨hbytes, inv.rows⟩
  | false =>
    obtain ⟨fds, hcall, rfl⟩ := Option.map_eq_some_iff.mp hrest
    simp only [FdSys.call, FdSys.sysFork, Option.ite_none_left_eq_some,
      Option.ite_none_right_eq_some, Option.map_eq_some_iff] at hcall
    obtain ⟨-, ⟨-, hchild⟩, fds', hcnts, rfl⟩ := hcall
    refine ⟨hbytes, fun q hq => ?_⟩
    rcases Finset.mem_insert.mp hq with rfl | hq
    · exact hchild
    · exact inv.rows q (live_updateInodeOpenCnts hcnts ▸ hq)

theorem Inv.call (inv : s.Inv) (hcall : s.call op = some s') : s'.Inv := by
  match op, hcall with
  | .fork p fails, hcall => exact inv.sysFork hcall
  | .wait p q, hcall =>
    simp only [TreeSys.call, sysWait, Option.ite_none_right_eq_some,
      Option.map_eq_some_iff] at hcall
    obtain ⟨-, b, hrelease, rfl⟩ := hcall
    exact ⟨(Bitmap.bitmapSet_marked hrelease).1.trans inv.bytes, inv.rows⟩
  | .call (.exit p), hcall | .call (.openFile ..), hcall | .call (.create ..), hcall
  | .call (.dup ..), hcall
  | .call (.dup2 ..), hcall | .call (.pipe p), hcall | .call (.close ..), hcall =>
    obtain ⟨fds, hfds, rfl⟩ := Option.map_eq_some_iff.mp hcall
    exact ⟨inv.bytes, fun q hq => inv.rows q (live_call (by rintro _ _ ⟨⟩) hfds hq)⟩

theorem Inv.step (inv : s.Inv) (hstep : s.step op = some s') : s'.Inv := by
  simp only [TreeSys.step, Option.ite_none_right_eq_some] at hstep
  exact inv.call hstep.2

theorem Inv.boot : boot.Inv := ⟨rfl, by decide⟩

/-- From the start of the system all accesses are in bounds exactly as long as every fork finds a
number below ten and every pipe a slot. -/
theorem pipeTable_inBounds_iff (ops : List TreeOp) :
    Run.Meets TreeSys.step InBounds TreeSys.boot ops ↔
    Run.Meets TreeSys.step Roomy TreeSys.boot ops :=
  Run.meets_congr Inv.boot (fun _ op inv => inv.inBounds_iff op)
    fun _ _ _ inv _ hstep => inv.step hstep

instance (s : TreeSys) (op : TreeOp) : Decidable (s.InBounds op) :=
  inferInstanceAs (Decidable (op.caller ∈ s.fds.live → ∀ a ∈ s.accesses op, a.InBounds))

/-- The seventh child has the number 10, for which there is no row. -/
theorem seventhChild_outOfBounds :
    ¬Run.Meets TreeSys.step InBounds TreeSys.boot (List.replicate 7 (.fork 1 false)) := by
  decide +kernel

end TreeSys

end KernelTravel.Fd

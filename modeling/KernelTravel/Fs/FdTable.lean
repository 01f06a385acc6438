import KernelTravel.Fs.Pipe
import KernelTravel.Lib.Tally

/-!
# Open files

The global table of open files and the descriptor tables of the processes. A slot of the global
table that holds a file counts its descriptors in `refcnt`, one that holds a pipe in `offset`.
The counter of the directory entry and the content of the pipes are not modelled. `none` as the
result of a step stands for an access outside the tables or through an invalid pointer, and for a
failed `ASSERT`; as an entry of a descriptor table it is -1.
-/

namespace KernelTravel.Fd

open KernelTravel.Pipe (pipeTableRows)

def maxFileOpen : Nat := 64

def maxFilesOpenPerProc : Nat := 101

def devFile : Int := 1

def devPipe : Int := 2

structure Slot where
  dirent : Option Nat
  type : Int
  offset : Nat
  refcnt : Nat
  deriving DecidableEq, Repr

structure FdSys where
  fileTable : Nat → Slot
  fdTable : Nat → Nat → Option Nat
  live : Finset Nat

/-- Processes that have only the standard descriptors, and an empty table. The call by which `main`
opens `initcode`, which leaves slot 3 in use, is a step of its own. -/
def FdSys.init (live : Finset Nat) : FdSys :=
  ⟨fun _ => ⟨none, 0, 0, 0⟩, fun _ fd => if fd < 3 then some fd else none, live⟩

/-- The `unsigned int` counters go up and down by 1. -/
def inc (x : Nat) : Nat := (x + 1) % 2 ^ 32

def dec (x : Nat) : Nat := if x = 0 then 2 ^ 32 - 1 else x - 1

def FdSys.setSlot (s : FdSys) (i : Nat) (slot : Slot) : FdSys :=
  { s with fileTable := Function.update s.fileTable i slot }

def FdSys.setFd (s : FdSys) (p fd : Nat) (v : Option Nat) : FdSys :=
  { s with fdTable := Function.update s.fdTable p (Function.update (s.fdTable p) fd v) }

def FdSys.isPipe (s : FdSys) (i : Nat) : Bool := (s.fileTable i).type = devPipe

def FdSys.getFreeSlotInGlobal (s : FdSys) : Option Nat :=
  (List.range' 3 (maxFileOpen - 3)).find? fun i => !s.isPipe i && (s.fileTable i).dirent.isNone

/-- The descriptors after the three standard ones. -/
def localFds : List Nat := List.range' 3 (maxFilesOpenPerProc - 3)

def FdSys.freeFd (s : FdSys) (p : Nat) : Option Nat :=
  localFds.find? fun fd => (s.fdTable p fd).isNone

/-- A full table leaves everything as it is and gives 0. -/
def FdSys.pcbFdInstall (s : FdSys) (p i : Nat) : Nat × FdSys :=
  match s.freeFd p with
  | none => (0, s)
  | some fd =>
    (fd, (s.setFd p fd (some i)).setSlot i
      { s.fileTable i with refcnt := inc (s.fileTable i).refcnt })

/-- The slot in which `file_open` finds the file open. -/
def FdSys.slotOf (s : FdSys) (file : Nat) : Option Nat :=
  (List.range maxFileOpen).find? fun i => (s.fileTable i).dirent = some file

/-- `file_open`, with `none` for the return value -1. -/
def FdSys.fileOpen (s : FdSys) (p file : Nat) : Option Nat × FdSys :=
  match s.slotOf file with
  | some i =>
    let r := (s.setSlot i { s.fileTable i with
      refcnt := inc (s.fileTable i).refcnt }).pcbFdInstall p i
    (some r.1, r.2)
  | none =>
    match s.getFreeSlotInGlobal with
    | none => (none, s)
    | some i =>
      let r := (s.setSlot i ⟨some file, devFile, 0, 1⟩).pcbFdInstall p i
      (some r.1, r.2)

/-- `file_create`. A full table is only reported, and the slot -1 is written. The answer of
`op->file_create` is not looked at: after a failure `file` is what the pointer held before, which is
taken not to be null. -/
def FdSys.fileCreate (s : FdSys) (p file : Nat) : Option FdSys :=
  s.getFreeSlotInGlobal.map fun i =>
    ((s.setSlot i ⟨some file, devFile, 0, (s.fileTable i).refcnt⟩).pcbFdInstall p i).2

/-- `sys_open` on a path that leads to `found`, or to nothing; `file` is the entry that a call
with `O_CREATE` makes. -/
def FdSys.sysOpen (s : FdSys) (p : Nat) (found : Option Nat) (create : Bool) (file : Nat) :
    Option FdSys :=
  match found, create with
  | none, false => some s
  | none, true => s.fileCreate p file
  | some f, true => some (s.fileOpen p f).2
  | some f, false =>
    -- the slot of the returned descriptor gets the offset 0
    let r := s.fileOpen p f
    (r.1.bind (r.2.fdTable p)).map fun i =>
      r.2.setSlot i { r.2.fileTable i with offset := 0 }

def FdSys.sysDup (s : FdSys) (p oldfd : Nat) : Option FdSys :=
  if maxFilesOpenPerProc ≤ oldfd then none
  else
    match s.fdTable p oldfd with
    | none => if s.freeFd p = none then some s else none
    | some i => some (s.pcbFdInstall p i).2

/-- `sys_dup2`. A `new_local_fd` that is in use is passed to `file_close` as a pointer. -/
def FdSys.sysDup2 (s : FdSys) (p oldLocalFd newLocalFd : Nat) : Option FdSys :=
  if maxFilesOpenPerProc ≤ newLocalFd then none
  else if oldLocalFd < 3 then some (s.setFd p newLocalFd (some oldLocalFd))
  else if maxFilesOpenPerProc ≤ oldLocalFd ∨ s.fdTable p newLocalFd ≠ none then none
  else
    (s.fdTable p oldLocalFd).map fun i =>
      if s.isPipe i then
        (s.setSlot i { s.fileTable i with offset := inc (s.fileTable i).offset }).setFd p newLocalFd
          (some i)
      else s.setFd p newLocalFd (some i)

def FdSys.sysPipe (s : FdSys) (p : Nat) : Option FdSys :=
  if p < pipeTableRows then
    s.getFreeSlotInGlobal.map fun i =>
      ((((s.setSlot i { s.fileTable i with
        type := devPipe, offset := 2 }).pcbFdInstall p i).2).pcbFdInstall p i).2
  else none

/-- One round of `update_inode_open_cnts`. -/
def FdSys.updateOpenCnt (s : FdSys) (p fd : Nat) : Option FdSys :=
  match s.fdTable p fd with
  | none => some s
  | some i =>
    if s.isPipe i then
      some (s.setSlot i { s.fileTable i with offset := inc (s.fileTable i).offset })
    else if (s.fileTable i).dirent = none then none
    else some s

def FdSys.updateInodeOpenCnts (s : FdSys) (p : Nat) : Option FdSys :=
  localFds.foldlM (fun (t : FdSys) fd => t.updateOpenCnt p fd) s

/-- `sys_fork`: the child gets a copy of the table. -/
def FdSys.sysFork (s : FdSys) (p child : Nat) : Option FdSys :=
  if p < pipeTableRows ∧ child < pipeTableRows then
    (s.updateInodeOpenCnts p).map fun s' =>
      { s' with
        fdTable := Function.update s'.fdTable child (s'.fdTable p)
        live := insert child s'.live }
  else none

def fileClose (slot : Slot) : Slot :=
  if slot.dirent = none then slot
  else if dec slot.refcnt = 0 then ⟨none, -1, 2 ^ 32 - 1, 0⟩
  else { slot with refcnt := dec slot.refcnt }

def FdSys.sysClose (s : FdSys) (p fd : Nat) : Option FdSys :=
  if fd < 3 then some s
  else if maxFilesOpenPerProc ≤ fd then none
  else
    match s.fdTable p fd with
    | none => none
    | some i =>
      if s.isPipe i then
        if p < pipeTableRows then
          some ((s.setSlot i { s.fileTable i with
            offset := dec (s.fileTable i).offset }).setFd p fd none)
        else none
      else some ((s.setSlot i (fileClose (s.fileTable i))).setFd p fd none)

/-- One round of the loop of `sys_exit`. -/
def FdSys.exitRound (s : FdSys) (p fd : Nat) : Option FdSys :=
  if s.fdTable p fd = none then some s else s.sysClose p fd

def FdSys.sysExit (s : FdSys) (p : Nat) : Option FdSys :=
  (localFds.foldlM (fun (t : FdSys) fd => t.exitRound p fd) s).map fun s' =>
    { s' with live := s'.live.erase p }

inductive FdOp where
  | openFile (p : Nat) (found : Option Nat) (create : Bool) (file : Nat)
  | create (p file : Nat)
  | dup (p oldfd : Nat)
  | dup2 (p oldLocalFd newLocalFd : Nat)
  | pipe (p : Nat)
  | fork (p child : Nat)
  | close (p fd : Nat)
  | exit (p : Nat)

/-- The process that makes the call. -/
def FdOp.caller : FdOp → Nat
  | .openFile p _ _ _ | .create p _ | .dup p _ | .dup2 p _ _ | .pipe p | .fork p _ | .close p _
  | .exit p => p

def FdSys.call (s : FdSys) : FdOp → Option FdSys
  | .openFile p found create file => s.sysOpen p found create file
  | .create p file => s.fileCreate p file
  | .dup p oldfd => s.sysDup p oldfd
  | .dup2 p oldLocalFd newLocalFd => s.sysDup2 p oldLocalFd newLocalFd
  | .pipe p => s.sysPipe p
  | .fork p child => if child ∈ s.live then none else s.sysFork p child
  | .close p fd => s.sysClose p fd
  | .exit p => s.sysExit p

/-- Only a live process makes calls, and the pid of a new process is not in use. -/
def fdStep (s : FdSys) (op : FdOp) : Option FdSys :=
  if op.caller ∈ s.live then s.call op else none

/-- The number of descriptors of a process that hold slot `i`. -/
def FdSys.held (s : FdSys) (p i : Nat) : Nat :=
  Tally.row (Finset.range maxFilesOpenPerProc) (s.fdTable p) i

/-- The number of descriptors of all live processes that hold slot `i`. -/
def FdSys.holders (s : FdSys) (i : Nat) : Nat :=
  Tally.total s.live (Finset.range maxFilesOpenPerProc) s.fdTable i

def FdSys.inUse (s : FdSys) (i : Nat) : Bool := s.isPipe i || (s.fileTable i).dirent.isSome

/-- The reference count of a slot. -/
def FdSys.refCount (s : FdSys) (i : Nat) : Nat :=
  if s.isPipe i then (s.fileTable i).offset else (s.fileTable i).refcnt

/-- A new file has a slot and a descriptor. -/
def CreateSafe (s : FdSys) (p : Nat) : Prop :=
  s.getFreeSlotInGlobal ≠ none ∧ s.freeFd p ≠ none

/-- An existing file is not opened, or there is no slot for it. -/
def OpenSafe (s : FdSys) (p : Nat) : Option Nat → Bool → Prop
  | none, false => True
  | none, true => CreateSafe s p
  | some f, true => s.slotOf f = none ∧ s.getFreeSlotInGlobal = none
  | some _, false => False

/-- A pipe is not duplicated, and neither is an unused descriptor, unless the table is full. -/
def DupSafe (s : FdSys) (p : Nat) : Option Nat → Prop
  | none => s.freeFd p = none
  | some i => s.isPipe i = true → s.freeFd p = none

/-- The original is a standard descriptor or a pipe. -/
def Dup2Safe (s : FdSys) : Option Nat → Prop
  | none => False
  | some i => 3 ≤ i → s.isPipe i = true

/-- There are two unused descriptors. -/
def TwoFree (s : FdSys) (p : Nat) : Prop :=
  ∃ a ∈ localFds, ∃ b ∈ localFds, a ≠ b ∧ s.fdTable p a = none ∧ s.fdTable p b = none

/-- The descriptor is in use, and is not the last one of a pipe. -/
def CloseSafe (s : FdSys) (p : Nat) : Option Nat → Prop
  | none => False
  | some i => s.isPipe i = true → p < pipeTableRows ∧ 1 < (s.fileTable i).offset

def FdSafe (s : FdSys) : FdOp → Prop
  | .openFile p found create _ => OpenSafe s p found create
  | .create p _ => CreateSafe s p
  | .dup p oldfd => oldfd < maxFilesOpenPerProc ∧ DupSafe s p (s.fdTable p oldfd)
  | .dup2 p oldLocalFd newLocalFd =>
    newLocalFd < maxFilesOpenPerProc ∧
      if oldLocalFd < 3 then ∀ i ∈ s.fdTable p newLocalFd, i < 3
      else oldLocalFd < maxFilesOpenPerProc ∧ s.fdTable p newLocalFd = none ∧
        Dup2Safe s (s.fdTable p oldLocalFd)
  | .pipe p => p < pipeTableRows ∧ s.getFreeSlotInGlobal ≠ none ∧ TwoFree s p
  | .fork p child =>
    p < pipeTableRows ∧ child < pipeTableRows ∧
      ∀ fd ∈ localFds, ∀ i ∈ s.fdTable p fd, s.isPipe i = true
  | .close p fd => 3 ≤ fd → fd < maxFilesOpenPerProc ∧ CloseSafe s p (s.fdTable p fd)
  | .exit p =>
    ∀ fd ∈ localFds, ∀ i ∈ s.fdTable p fd, s.isPipe i = true →
      p < pipeTableRows ∧ s.held p i < (s.fileTable i).offset

instance (s : FdSys) (p : Nat) : Decidable (CreateSafe s p) :=
  inferInstanceAs (Decidable (s.getFreeSlotInGlobal ≠ none ∧ s.freeFd p ≠ none))

instance (s : FdSys) (p : Nat) : ∀ found create, Decidable (OpenSafe s p found create)
  | none, false => .isTrue trivial
  | none, true => inferInstanceAs (Decidable (CreateSafe s p))
  | some f, true =>
    inferInstanceAs (Decidable (s.slotOf f = none ∧ s.getFreeSlotInGlobal = none))
  | some _, false => .isFalse id

instance (s : FdSys) (p : Nat) : ∀ cell, Decidable (DupSafe s p cell)
  | none => inferInstanceAs (Decidable (s.freeFd p = none))
  | some i => inferInstanceAs (Decidable (s.isPipe i = true → s.freeFd p = none))

instance (s : FdSys) : ∀ cell, Decidable (Dup2Safe s cell)
  | none => .isFalse id
  | some i => inferInstanceAs (Decidable (3 ≤ i → s.isPipe i = true))

instance (s : FdSys) (p : Nat) : Decidable (TwoFree s p) :=
  inferInstanceAs (Decidable (∃ a ∈ localFds, ∃ b ∈ localFds, a ≠ b ∧ s.fdTable p a = none ∧
    s.fdTable p b = none))

instance (s : FdSys) (p : Nat) : ∀ cell, Decidable (CloseSafe s p cell)
  | none => .isFalse id
  | some i => inferInstanceAs (Decidable
      (s.isPipe i = true → p < pipeTableRows ∧ 1 < (s.fileTable i).offset))

instance (s : FdSys) : ∀ op, Decidable (FdSafe s op)
  | .openFile p found create _ => inferInstanceAs (Decidable (OpenSafe s p found create))
  | .create p _ => inferInstanceAs (Decidable (CreateSafe s p))
  | .dup p oldfd => inferInstanceAs (Decidable
      (oldfd < maxFilesOpenPerProc ∧ DupSafe s p (s.fdTable p oldfd)))
  | .dup2 p oldLocalFd newLocalFd => inferInstanceAs (Decidable
      (newLocalFd < maxFilesOpenPerProc ∧
        if oldLocalFd < 3 then ∀ i ∈ s.fdTable p newLocalFd, i < 3
        else oldLocalFd < maxFilesOpenPerProc ∧ s.fdTable p newLocalFd = none ∧
          Dup2Safe s (s.fdTable p oldLocalFd)))
  | .pipe p => inferInstanceAs (Decidable
      (p < pipeTableRows ∧ s.getFreeSlotInGlobal ≠ none ∧ TwoFree s p))
  | .fork p child => inferInstanceAs (Decidable (p < pipeTableRows ∧ child < pipeTableRows ∧
      ∀ fd ∈ localFds, ∀ i ∈ s.fdTable p fd, s.isPipe i = true))
  | .close p fd => inferInstanceAs (Decidable
      (3 ≤ fd → fd < maxFilesOpenPerProc ∧ CloseSafe s p (s.fdTable p fd)))
  | .exit p => inferInstanceAs (Decidable (∀ fd ∈ localFds, ∀ i ∈ s.fdTable p fd,
      s.isPipe i = true → p < pipeTableRows ∧ s.held p i < (s.fileTable i).offset))

end KernelTravel.Fd

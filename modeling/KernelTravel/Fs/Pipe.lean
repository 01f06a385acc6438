import KernelTravel.Drivers.Ioqueue
import Mathlib.Algebra.Group.Int.Defs
import Mathlib.Algebra.Group.Nat.Defs

/-!
# Pipes

`pipe_read`, `pipe_write` and what `sys_read` and `sys_close` add to them, over one pipe and
all descriptors that refer to it. The number of open descriptors of each end, the characters
that `pipe_write` accepted, those that `sys_read` reported and the ends of file that it
reported are kept beside the state of the kernel. The reads of the pipe come one after the
other; a read that sleeps stays in `call`.
-/

namespace KernelTravel.Pipe

/-- The call stops with a return value, having written `buffer`, or it sleeps. -/
inductive PipeRead where
  | returned (ret : Nat) (buffer : List Char8)
  | blocked (buffer : List Char8)

/-- The value -1 as an `uint32_t`. -/
def minusOne : Nat := 2 ^ 32 - 1

/-- The loop of `pipe_read` with `left` characters to go and `buffer` already written. -/
def pipeRead : Nat → Ioqueue → List Char8 → PipeRead × Ioqueue
  | 0, q, buffer => (.returned buffer.length buffer, q)
  | left + 1, q, buffer =>
    match ioqGetchar q with
    | none => (.blocked buffer, q)
    | some (byte, q') =>
      if byte = endChar then (.returned minusOne (buffer ++ [byte]), q')
      else pipeRead left q' (buffer ++ [byte])

/-- The loop of `pipe_write`, with the number of characters already written. -/
def pipeWriteLoop : Ioqueue → Nat → List Char8 → Option (Nat × Ioqueue)
  | q, bytesWrite, [] => some (bytesWrite, q)
  | q, bytesWrite, byte :: rest =>
    if q.flag = 0 then some (0, q)
    else (ioqPutchar q byte).bind fun q' => pipeWriteLoop q' (bytesWrite + 1) rest

def pipeWrite (q : Ioqueue) (buffer : List Char8) : Option (Nat × Ioqueue) :=
  let ioqLeft := bufsize - ioqLength q - 1
  pipeWriteLoop q 0 (buffer.take (if buffer.length < ioqLeft then buffer.length else ioqLeft))

/-- The conversion to `int`. -/
def toInt32 (x : Nat) : Int := if x < 2 ^ 31 then x else (x : Int) - 2 ^ 32

def stdin : Nat := 0

def stdout : Nat := 1

def stderr : Nat := 2

/-- The descriptors for which `sys_read` does not call `pipe_read`. -/
def readError (fd : Nat) : Bool := fd = stdout || fd = stderr

/-- The return value of `sys_read` after `pipe_read` returned `ret`. Only on the path of an
ordinary descriptor is `ret` looked at. -/
def sysReadRet (fd count ret : Nat) : Int :=
  if fd ≠ stdin ∧ ¬readError fd ∧ ret = minusOne then 0 else toInt32 count

/-- A call of `sys_read` into a buffer that held `old`, after `got` was written to it. -/
structure ReadCall where
  fd : Nat
  old : List Char8
  got : List Char8
  woken : Bool

/-- The pipe and its write side when an end of file was reported. -/
structure Eof where
  empty : Bool
  writers : Nat

structure PipeSys where
  ioq : Ioqueue
  offset : Nat
  readers : Nat
  writers : Nat
  call : Option ReadCall
  accepted : List Char8
  delivered : List Char8
  eofs : List Eof

/-- The pipe as `sys_pipe` leaves it. -/
def PipeSys.init (buf : Nat → Char8) : PipeSys :=
  ⟨ioqueueInit buf, 2, 1, 1, none, [], [], []⟩

/-- The characters that a sleeping read took out of the pipe. -/
def PipeSys.got (s : PipeSys) : List Char8 := s.call.elim [] ReadCall.got

/-- `sys_read` returns. Its caller takes as many characters out of the buffer as the return
value says, and takes 0 for the end of the file unless it asked for nothing. -/
def PipeSys.sysReadReturn (s : PipeSys) (fd : Nat) (old : List Char8) (ret : Nat)
    (buffer : List Char8) (q : Ioqueue) : PipeSys :=
  let value := sysReadRet fd old.length ret
  { s with
    ioq := q
    call := none
    delivered := s.delivered ++ (buffer ++ old.drop buffer.length).take value.toNat
    eofs := if value = 0 ∧ old ≠ [] then s.eofs ++ [⟨ioqEmpty q, s.writers⟩] else s.eofs }

/-- `sys_read` runs up to its return or to its next sleep. -/
def PipeSys.sysRead (s : PipeSys) (c : ReadCall) : PipeSys :=
  if readError c.fd then s.sysReadReturn c.fd c.old minusOne [] s.ioq
  else
    match pipeRead (c.old.length - c.got.length) s.ioq c.got with
    | (.blocked buffer, q) => { s with ioq := q, call := some ⟨c.fd, c.old, buffer, false⟩ }
    | (.returned ret buffer, q) => s.sysReadReturn c.fd c.old ret buffer q

/-- `sys_close` on a descriptor of the pipe. The queue is cleared when the counter gets to 0. -/
def PipeSys.sysClose (s : PipeSys) : PipeSys :=
  if s.offset = 0 then { s with offset := minusOne }
  else if s.offset = 1 then { s with offset := 0, ioq := ioqueueClear }
  else { s with offset := s.offset - 1 }

/-- `pipe_table` has a row for each of the first ten pids. -/
def pipeTableRows : Nat := 10

/-- What can happen to a pipe. A descriptor appears by `sys_dup`, which does not count it, or by
`sys_dup2` and `sys_fork`, which do. It goes by `sys_close` of a process, or uncounted, when
`sys_dup2` puts a standard descriptor in its place. -/
inductive PipeOp where
  | write (bytes : List Char8)
  | read (fd : Nat) (old : List Char8)
  | resume
  | addWriter (counted : Bool)
  | addReader (counted : Bool)
  | closeWriter (pid : Nat)
  | closeReader (pid : Nat)
  | dropWriter
  | dropReader

def PipeSys.count (s : PipeSys) (counted : Bool) : Nat :=
  if counted then (s.offset + 1) % 2 ^ 32 else s.offset

/-- The process that sleeps in a read keeps its descriptor. -/
def PipeSys.heldReaders (s : PipeSys) : Nat := if s.call.isSome then 1 else 0

/-- `none` stands for a step that is not possible, and for the write of `sys_close` past the
end of `pipe_table`. -/
def pipeStep (s : PipeSys) : PipeOp → Option PipeSys
  | .write bytes =>
    if 0 < s.writers then
      (pipeWrite s.ioq bytes).map fun (ret, q) =>
        { s with
          ioq := q
          accepted := s.accepted ++ bytes.take ret
          call := if ret = 0 then s.call else s.call.map fun c => { c with woken := true } }
    else none
  | .read fd old =>
    if 0 < s.readers ∧ s.call.isNone then some (s.sysRead ⟨fd, old, [], false⟩) else none
  | .resume => s.call.bind fun c => if c.woken then some (s.sysRead c) else none
  | .addWriter counted =>
    if 0 < s.writers then some { s with writers := s.writers + 1, offset := s.count counted }
    else none
  | .addReader counted =>
    if 0 < s.readers then some { s with readers := s.readers + 1, offset := s.count counted }
    else none
  | .closeWriter pid =>
    if 0 < s.writers ∧ pid < pipeTableRows then some { s.sysClose with writers := s.writers - 1 }
    else none
  | .closeReader pid =>
    if s.heldReaders < s.readers ∧ pid < pipeTableRows then
      some { s.sysClose with readers := s.readers - 1 }
    else none
  | .dropWriter => if 0 < s.writers then some { s with writers := s.writers - 1 } else none
  | .dropReader =>
    if s.heldReaders < s.readers then some { s with readers := s.readers - 1 } else none

/-- No character `'@'` is written; no read asks for more than an `int` can report or uses
descriptor 1 or 2; descriptor 0 is not read any more after the queue was cleared; and the close
that clears it leaves no read end, or an empty pipe without a write end. -/
def PipeSafe (s : PipeSys) : PipeOp → Prop
  | .write bytes => endChar ∉ bytes
  | .read fd old =>
    old.length < 2 ^ 31 ∧ readError fd = false ∧ (fd = stdin → s.ioq.flag ≠ 0 ∨ old = [])
  | .closeWriter _ =>
    s.offset = 1 → s.readers = 0 ∨ ioqEmpty s.ioq = true ∧ s.writers = 1
  | .closeReader _ =>
    s.offset = 1 → s.readers = 1 ∨ ioqEmpty s.ioq = true ∧ s.writers = 0
  | _ => True

instance (s : PipeSys) : ∀ op, Decidable (PipeSafe s op)
  | .write bytes => inferInstanceAs (Decidable (endChar ∉ bytes))
  | .read fd old => inferInstanceAs (Decidable
      (old.length < 2 ^ 31 ∧ readError fd = false ∧ (fd = stdin → s.ioq.flag ≠ 0 ∨ old = [])))
  | .closeWriter _ => inferInstanceAs (Decidable
      (s.offset = 1 → s.readers = 0 ∨ ioqEmpty s.ioq = true ∧ s.writers = 1))
  | .closeReader _ => inferInstanceAs (Decidable
      (s.offset = 1 → s.readers = 1 ∨ ioqEmpty s.ioq = true ∧ s.writers = 0))
  | .resume | .addWriter _ | .addReader _ | .dropWriter | .dropReader => .isTrue trivial

end KernelTravel.Pipe

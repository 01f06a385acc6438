import KernelTravel.Lib.Bytes
import KernelTravel.Lib.Links

/-!
# The sector cache

`fs/buf.c` keeps 2^14 groups of eight 512-byte buffers. A group is an intrusive
doubly linked list of its own buffers (`lib/kernel/list.c`), scanned from the
head for a hit and from the tail for a buffer to reuse. The control blocks, the
link fields, the data area and the disk are the components of `Cache`.

A pointer to a `Buffer` is its position `(i, j)` in `bufferGroups`, a pointer
into the data area is a byte offset into `bufferData`. An operation answers
`none` where the kernel would follow a null or unset pointer. The locks, the
`disk` field and the messages of `printk` are not read by any of these functions
and have no counterpart here.
-/

namespace KernelTravel.Buf

def bufSize : Nat := 512
def bgroupNum : Nat := 2 ^ 14
def bgroupMask : Nat := bgroupNum - 1
def bgroupBufNum : Nat := 8

/-- One sector. -/
abbrev Block := Fin bufSize → Byte

/-- A pointer to `bufferGroups[i].buf[j]`. -/
abbrev BufPtr := Nat × Nat

/-- The link fields in `bufferGroups`: the two sentinels of every group and one
node in every buffer. -/
inductive Node where
  | head (group : Nat)
  | tail (group : Nat)
  | elem (group idx : Nat)
deriving DecidableEq, Repr

/-- The control block of a buffer. `data` is the offset of its sector. -/
structure Buffer where
  blockno : Nat
  dev : Int
  valid : Bool
  dirty : Bool
  refcnt : Nat
  data : Nat
deriving DecidableEq, Repr

structure Cache where
  buf : BufPtr → Buffer
  links : Links Node
  mem : Nat → Byte
  disk : Nat → Block
  /-- Every `block_write` issued so far, newest first. -/
  written : List (Nat × Block)

namespace Cache

def setBuf (s : Cache) (p : BufPtr) (b : Buffer) : Cache :=
  { s with buf := Function.update s.buf p b }

@[simp] theorem setBuf_buf (s : Cache) (p : BufPtr) (b : Buffer) :
    (s.setBuf p b).buf = Function.update s.buf p b := rfl

@[simp] theorem setBuf_links (s : Cache) (p : BufPtr) (b : Buffer) :
    (s.setBuf p b).links = s.links := rfl

@[simp] theorem setBuf_mem (s : Cache) (p : BufPtr) (b : Buffer) :
    (s.setBuf p b).mem = s.mem := rfl

@[simp] theorem setBuf_disk (s : Cache) (p : BufPtr) (b : Buffer) :
    (s.setBuf p b).disk = s.disk := rfl

@[simp] theorem setBuf_written (s : Cache) (p : BufPtr) (b : Buffer) :
    (s.setBuf p b).written = s.written := rfl

end Cache

/-- The address of `bufferData[i].buf[j]`, as an offset into `bufferData`. -/
def dataAddr (p : BufPtr) : Nat := (p.1 * bgroupBufNum + p.2) * bufSize

/-- `(int) dev` for an unsigned 32-bit device number. -/
def toInt32 (dev : Nat) : Int := if dev < 2 ^ 31 then dev else (dev : Int) - 2 ^ 32

/-- The stored `int` as C compares it with a `uint64_t`: sign-extended. -/
def toUInt64 (dev : Int) : Nat := (dev % 2 ^ 64).toNat

/-- The 512 bytes a buffer points to. -/
def Cache.bytes (s : Cache) (p : BufPtr) : Block := Mem.window s.mem (s.buf p).data bufSize

/-- `block_read(blockno, 1, addr, 1)`. -/
def blockRead (s : Cache) (blockno addr : Nat) : Cache :=
  { s with mem := Mem.blit s.mem addr bufSize (Mem.ofBlock (s.disk blockno)) }

/-- `block_write(blockno, 1, addr, 1)`. -/
def blockWrite (s : Cache) (blockno addr : Nat) : Cache :=
  let sector : Block := Mem.window s.mem addr bufSize
  { s with
    disk := Function.update s.disk blockno sector
    written := (blockno, sector) :: s.written }

/-! ## The list functions -/

def listInit (l : Links Node) (i : Nat) : Links Node :=
  (((l.setPrev (.head i) none).setNext (.head i) (some (.tail i))).setPrev (.tail i)
    (some (.head i))).setNext (.tail i) none

def listInsertBefore (l : Links Node) (before elm : Node) : Option (Links Node) :=
  l.insertBefore before elm

def listAppend (l : Links Node) (i : Nat) (elm : Node) : Option (Links Node) :=
  listInsertBefore l (.tail i) elm

def listRemove (l : Links Node) (elm : Node) : Option (Links Node) := l.unlink elm

/-- The walks below visit at most the eight nodes of a group and its far sentinel;
a longer walk is one that does not end. -/
def walkFuel : Nat := bgroupBufNum + 1

def listTraversal (s : Cache) (i : Nat) (func : Node → Cache → Bool × Cache) :
    Option (Option Node × Cache) := do
  let ret ← s.links.next (.head i)
  Links.scan (fun s x => s.links.next x) func (.tail i) walkFuel ret s

def listReverse (s : Cache) (i : Nat) (func : Node → Cache → Bool × Cache) :
    Option (Option Node × Cache) := do
  let ret ← s.links.prev (.tail i)
  Links.scan (fun s x => s.links.prev x) func (.head i) walkFuel ret s

/-- The buffer whose `Buffer_node` this is; a sentinel belongs to no buffer. -/
def elem2entry : Node → Option BufPtr
  | .elem i j => some (i, j)
  | .head _ => none
  | .tail _ => none

/-! ## The cache functions -/

def bufInitBuffer (i : Nat) (s : Cache) (j : Nat) : Option Cache := do
  let s := s.setBuf (i, j) { s.buf (i, j) with dev := -1, data := dataAddr (i, j) }
  let links ← listAppend s.links i (.elem i j)
  return { s with links }

def bufInitGroup (s : Cache) (i : Nat) : Option Cache :=
  (List.range bgroupBufNum).foldlM (bufInitBuffer i) { s with links := listInit s.links i }

def bufInit (s : Cache) : Option Cache := (List.range bgroupNum).foldlM bufInitGroup s

/-- Take a further reference when the buffer holds the wanted block. -/
def checkCached (dev blockno : Nat) : Node → Cache → Bool × Cache
  | .elem i j, s =>
    let buf := s.buf (i, j)
    if toUInt64 buf.dev = dev ∧ buf.blockno = blockno then
      (true, s.setBuf (i, j) { buf with refcnt := (buf.refcnt + 1) % 2 ^ 16 })
    else (false, s)
  | _, s => (false, s)

/-- Reassign the buffer when nobody references it. A valid dirty buffer is
written out first, under the number of the block it is about to receive. -/
def checkUncached (dev blockno : Nat) : Node → Cache → Bool × Cache
  | .elem i j, s =>
    let buf := s.buf (i, j)
    if buf.refcnt = 0 then
      let s := if buf.valid && buf.dirty then blockWrite s blockno buf.data else s
      (true, s.setBuf (i, j)
        { buf with dev := toInt32 dev, blockno, valid := false, dirty := false, refcnt := 1 })
    else (false, s)
  | _, s => (false, s)

/-- The inner `Option` is the returned pointer, which may be null. -/
def bufAlloc (s : Cache) (dev blockno : Nat) : Option (Option BufPtr × Cache) := do
  let group := blockno &&& bgroupMask
  let (elem, s) ← listTraversal s group (checkCached dev blockno)
  match elem with
  | some elem =>
    let buf ← elem2entry elem
    return (some buf, s)
  | none =>
    let (elem1, s) ← listReverse s group (checkUncached dev blockno)
    match elem1 with
    | some elem1 =>
      let buf ← elem2entry elem1
      return (some buf, s)
    | none => return (none, s)

/-- `bufAlloc` may answer null, which is dereferenced here. -/
def bufRead (s : Cache) (dev blockno : Nat) (isRead : Bool) : Option (BufPtr × Cache) := do
  let (buf, s) ← bufAlloc s dev blockno
  let buf ← buf
  if (s.buf buf).valid then return (buf, s)
  else
    let s := if isRead then blockRead s blockno (s.buf buf).data else s
    return (buf, s.setBuf buf { s.buf buf with valid := true })

def bufWrite (s : Cache) (p : BufPtr) : Cache := s.setBuf p { s.buf p with dirty := true }

def bufRelease (s : Cache) (p : BufPtr) : Option Cache := do
  let s := s.setBuf p { s.buf p with refcnt := ((s.buf p).refcnt + (2 ^ 16 - 1)) % 2 ^ 16 }
  if (s.buf p).refcnt = 0 then
    let group := (s.buf p).blockno &&& bgroupMask
    let links ← listRemove s.links (.elem p.1 p.2)
    let links ← listAppend links group (.elem p.1 p.2)
    return { s with links }
  else return s

def bufSyncBuffer (i : Nat) (s : Cache) (j : Nat) : Cache :=
  let buf := s.buf (i, j)
  if buf.valid && buf.dirty then
    (blockWrite s buf.blockno buf.data).setBuf (i, j) { buf with dirty := false }
  else s

def bufSync (s : Cache) : Cache :=
  (List.range bgroupNum).foldl
    (fun s i => (List.range bgroupBufNum).foldl (bufSyncBuffer i) s) s

end KernelTravel.Buf

import KernelTravel.Ext4.Balloc
import KernelTravel.Lib.Table

/-!
# The extent tree of an ext4 inode

`ext4_extent.c` keeps the map from logical to physical blocks of a file in a tree whose
root lies in the inode and whose other nodes each lie in a block. A node is read through
the buffer of the first sector of its block: 512 bytes, room for 41 entries, whatever
number of entries the header allows. The sector cache is taken to keep the buffers of the
nodes of a call. The allocator is a parameter.

A walk from the root to a leaf is stored in consecutive elements of the static array
`extent_path`; `ext4_path_alloc` reserves one element only, so the second walk of a split
lies over the first one, one element further. No function of the file stores `lb_id`.

An operation answers `none` where it reads or writes an entry outside the bytes of its
node, follows a null pointer, leaves `extent_path` or fails an `ASSERT`. The checksum of a
node is the constant 0; the place it is written to, four bytes behind the last entry the
header allows, is recorded in `stray` when it is outside the buffer.
-/

namespace KernelTravel.Extent

open Ext4 (AllocResult bufSize)

def extentMagic : Nat := 0xF30A
def extInitMaxLen : Nat := 0x8000
def extUnwrittenMaxLen : Nat := extInitMaxLen - 1
def extentPathMax : Nat := 16
def eio : Int := 5

/-- The twelve bytes of an entry, as three little-endian words. An extent keeps its block
count in the low half of the second word and the high half of its start in the other; an
index keeps its child in the second word and the low half of the third. -/
structure Entry where
  w0 : Nat
  w1 : Nat
  w2 : Nat
deriving DecidableEq, Repr

namespace Entry

def firstBlock (e : Entry) : Nat := e.w0

def blockCount (e : Entry) : Nat := e.w1 % 2 ^ 16

/-- `ext4_ext_pblock`. -/
def pblock (e : Entry) : Nat := e.w1 / 2 ^ 16 * 2 ^ 32 + e.w2

/-- `ext4_idx_pblock`. -/
def idxPblock (e : Entry) : Nat := e.w2 % 2 ^ 16 * 2 ^ 32 + e.w1

def setFirstBlock (e : Entry) (n : Nat) : Entry := { e with w0 := n }

def setBlockCount (e : Entry) (n : Nat) : Entry :=
  { e with w1 := e.w1 / 2 ^ 16 * 2 ^ 16 + n % 2 ^ 16 }

def storePblock (e : Entry) (pb : Nat) : Entry :=
  { e with w1 := pb / 2 ^ 32 % 2 ^ 16 * 2 ^ 16 + e.w1 % 2 ^ 16, w2 := pb % 2 ^ 32 }

/-- The padding behind the high half keeps what it was. -/
def storeIdxPblock (e : Entry) (pb : Nat) : Entry :=
  { e with w1 := pb % 2 ^ 32, w2 := e.w2 / 2 ^ 16 * 2 ^ 16 + pb / 2 ^ 32 % 2 ^ 16 }

def actualLen (e : Entry) : Nat :=
  if e.blockCount ≤ extInitMaxLen then e.blockCount else e.blockCount - extInitMaxLen

def isUnwritten (e : Entry) : Bool := decide (extInitMaxLen < e.blockCount)

def markInitialized (e : Entry) : Entry := e.setBlockCount e.actualLen

def markUnwritten (e : Entry) : Entry := e.setBlockCount (e.blockCount ||| extInitMaxLen)

/-- Extent `b` goes on where `a` ends, in the file and on the disk. -/
def Continues (a b : Entry) : Prop :=
  a.pblock + a.actualLen = b.pblock ∧ (a.firstBlock + a.actualLen) % 2 ^ 32 = b.firstBlock

/-- An extent of the state of `ex1` can have the length of both. -/
def LenFits (ex1 ex2 : Entry) : Prop :=
  ex1.actualLen + ex2.actualLen ≤ if ex1.isUnwritten then extUnwrittenMaxLen else extInitMaxLen

def CanAppend (ex1 ex2 : Entry) : Prop := Continues ex1 ex2 ∧ LenFits ex1 ex2

def CanPrepend (ex1 ex2 : Entry) : Prop := Continues ex2 ex1 ∧ LenFits ex1 ex2

instance (a b : Entry) : Decidable (Continues a b) := inferInstanceAs (Decidable (_ ∧ _))
instance (a b : Entry) : Decidable (LenFits a b) := inferInstanceAs (Decidable (_ ≤ _))
instance (a b : Entry) : Decidable (CanAppend a b) := inferInstanceAs (Decidable (_ ∧ _))
instance (a b : Entry) : Decidable (CanPrepend a b) := inferInstanceAs (Decidable (_ ∧ _))

/-- The block count that both merges store. -/
def lengthen (ex newext : Entry) : Entry :=
  let e := ex.setBlockCount (ex.actualLen + newext.actualLen)
  if ex.isUnwritten then e.markUnwritten else e

def append (ex newext : Entry) : Entry := ex.lengthen newext

/-- The start on the disk is not changed. -/
def prepend (ex newext : Entry) : Entry := (ex.setFirstBlock newext.firstBlock).lengthen newext

/-- Where `ext4_ext_find_goal` wants `block`: beside the extent as it would lie in a file
without holes. -/
def goal (ex : Entry) (block : Nat) : Nat :=
  if ex.firstBlock < block then (ex.pblock + (block - ex.firstBlock)) % 2 ^ 64
  else (ex.pblock + 2 ^ 64 - (ex.firstBlock - block)) % 2 ^ 64

/-- `IN_RANGE` with the block and the extent that covers it. -/
def InRange (e : Entry) (iblock : Nat) : Prop :=
  e.firstBlock ≤ iblock ∧ iblock ≤ (e.firstBlock + e.actualLen + 2 ^ 32 - 1) % 2 ^ 32

instance (e : Entry) (iblock : Nat) : Decidable (InRange e iblock) :=
  inferInstanceAs (Decidable (_ ∧ _))

end Entry

/-- A header and the entries behind it. -/
structure Node where
  magic : Nat
  entriesCount : Nat
  maxEntriesCount : Nat
  depth : Nat
  entry : Nat → Entry

namespace Node

def setEntry (n : Node) (i : Nat) (e : Entry) : Node :=
  { n with entry := Function.update n.entry i e }

/-- The forward `memcpy` of the `len` entries from `i` on to `i + 1`. -/
def moveUp (n : Node) (i len : Nat) : Node := { n with entry := Table.shiftUp n.entry i len }

def addCount (n : Node) (m : Nat) : Node :=
  { n with entriesCount := (n.entriesCount + m) % 2 ^ 16 }

def subCount (n : Node) (m : Nat) : Node :=
  { n with entriesCount := (n.entriesCount + 2 ^ 16 - m) % 2 ^ 16 }

/-- The copy of `m` entries of another node, from its entry `j` on, to entry `i` on. -/
def copyFrom (n src : Node) (i j m : Nat) : Node :=
  { n with entry := fun k => if i ≤ k ∧ k < i + m then src.entry (j + (k - i)) else n.entry k }

end Node

/-- Where a node lies. -/
inductive Ref where
  | inode
  | block (pblk : Nat)
deriving DecidableEq, Repr

/-- The entries that lie inside the memory of a node: the 60 bytes of the inode, or the 512
bytes of a buffer. -/
def Ref.room : Ref → Nat
  | .inode => 4
  | .block _ => 41

/-- `struct ext4_extent_path`. A pointer to an entry is its number in the node of `header`. -/
structure PathElem where
  pBlock : Nat
  lbId : Nat
  depth : Nat
  maxdepth : Nat
  header : Option Ref
  index : Option Nat
  extent : Option Nat
  flag : Bool

/-- An element after `memset`. -/
def PathElem.zero : PathElem := ⟨0, 0, 0, 0, none, none, none, false⟩

structure Allocator (σ : Type) where
  allocBlock : σ → Nat → AllocResult × σ
  freeBlocks : σ → Nat → Nat → σ

structure St (σ : Type) where
  logBlockSize : Nat
  inodeIndex : Nat
  inodesPerGroup : Nat
  node : Ref → Node
  dirty : Ref → Bool
  stray : List (Ref × Nat)
  path : Nat → PathElem
  balloc : σ

namespace St

variable {σ : Type}

def blockSize (s : St σ) : Nat := 1024 <<< s.logBlockSize

/-- `ext_depth`. -/
def extDepth (s : St σ) : Nat := (s.node .inode).depth

def setNode (s : St σ) (r : Ref) (n : Node) : St σ := { s with node := Function.update s.node r n }

def setElem (s : St σ) (k : Nat) (e : PathElem) : St σ :=
  { s with path := Function.update s.path k e }

def setDirty (s : St σ) (r : Ref) : St σ := { s with dirty := Function.update s.dirty r true }

/-- Read an element of `extent_path`. -/
def elem (s : St σ) (k : Nat) : Option PathElem :=
  if k < extentPathMax then some (s.path k) else none

/-- Read an entry of a node. -/
def entry (s : St σ) (r : Ref) (i : Nat) : Option Entry :=
  if i < r.room then some ((s.node r).entry i) else none

def setEntry (s : St σ) (r : Ref) (i : Nat) (e : Entry) : Option (St σ) :=
  if i < r.room then some (s.setNode r ((s.node r).setEntry i e)) else none

/-- Move the entries from `i` on one place up. -/
def moveUp (s : St σ) (r : Ref) (i len : Nat) : Option (St σ) :=
  if len = 0 then some s
  else if i + len < r.room then some (s.setNode r ((s.node r).moveUp i len))
  else none

/-! ## Capacities, headers and the allocator -/

def extSpaceRoot : Nat := 4
def extSpaceRootIdx : Nat := 4
def extSpaceBlock (s : St σ) : Nat := (s.blockSize - 12) / 12 % 2 ^ 16
def extSpaceBlockIdx (s : St σ) : Nat := (s.blockSize - 12) / 12 % 2 ^ 16

def extMaxEntries (s : St σ) (depth : Nat) : Nat :=
  if depth = s.extDepth then if depth = 0 then extSpaceRoot else extSpaceRootIdx
  else if depth = 0 then s.extSpaceBlock else s.extSpaceBlockIdx

/-- `ext4_ext_check`: the message of the first check that fails. -/
def extCheck (s : St σ) (r : Ref) (depth : Nat) : Option String :=
  let eh := s.node r
  if eh.magic ≠ extentMagic then some "invalid magic"
  else if eh.depth ≠ depth then some "unexpected eh_depth"
  else if eh.maxEntriesCount = 0 then some "invalid eh_max"
  else if eh.maxEntriesCount < eh.entriesCount then some "invalid eh_entries"
  else none

/-- `ext4_extent_block_csum_set`. -/
def blockCsumSet (s : St σ) (r : Ref) : St σ :=
  let max := (s.node r).maxEntriesCount
  match r with
  | .inode => { s with stray := (r, 12 + 12 * max) :: s.stray }
  | .block _ =>
    if 12 + 12 * max + 4 ≤ bufSize then
      s.setNode r ((s.node r).setEntry max (((s.node r).entry max).setFirstBlock 0))
    else { s with stray := (r, 12 + 12 * max) :: s.stray }

def inodeToGoalBlock (s : St σ) : Nat := (s.inodeIndex - 1) / s.inodesPerGroup

/-- `ext4_new_meta_blocks`: an error number and a block, which is 0 on an error. The number
of blocks is always 1. -/
def newMetaBlocks (A : Allocator σ) (s : St σ) (goal : Nat) : Int × Nat × St σ :=
  match A.allocBlock s.balloc goal with
  | (.block b, a) => (0, b, { s with balloc := a })
  | (.error r, a) => (r, 0, { s with balloc := a })

def extFreeBlocks (A : Allocator σ) (s : St σ) (block count : Nat) : St σ :=
  { s with balloc := A.freeBlocks s.balloc block count }

/-! ## Walks -/

def pathAlloc (s : St σ) : Option (Nat × St σ) :=
  ((List.range extentPathMax).find? fun i => !(s.path i).flag).map fun i =>
    (i, s.setElem i { s.path i with flag := true })

def pathFree (s : St σ) (k : Nat) : St σ :=
  s.setElem k { s.path k with
    flag := false, depth := 0, maxdepth := 0, header := none, index := none, extent := none }

/-- `ext4_ext_dirty`. -/
def extDirty (s : St σ) (e : PathElem) : St σ :=
  if e.lbId ≠ 0 then
    match e.header with
    | some r => s.setDirty r
    | none => s
  else s.setDirty .inode

/-- One round of `ext4_ext_drop_refs`. -/
def dropRef (s : St σ) (k : Nat) : Option (St σ) := do
  let e ← s.elem k
  if e.lbId ≠ 0 then
    let r ← e.header
    if s.dirty r then some (s.blockCsumSet r) else some s
  else some s

def dropRefsFrom : Nat → Nat → St σ → Option (St σ)
  | 0, _, s => some s
  | n + 1, k, s => do
    let s ← s.dropRef k
    dropRefsFrom n (k + 1) s

def dropRefs (s : St σ) (k : Nat) (keepOther : Bool) : Option (St σ) := do
  let e ← s.elem k
  dropRefsFrom ((if keepOther then 0 else e.depth) + 1) k s

def binsearchIdx (s : St σ) (r : Ref) (block : Nat) : Option Nat :=
  Table.bisect (fun i => ((s.node r).entry i).firstBlock) r.room block (s.node r).entriesCount

/-- `ext4_ext_binsearch`: the pointer stays null in an empty leaf. -/
def binsearch (s : St σ) (r : Ref) (block : Nat) : Option (Option Nat) :=
  if (s.node r).entriesCount = 0 then some none
  else (Table.bisect (fun i => ((s.node r).entry i).firstBlock) r.room block
    (s.node r).entriesCount).map some

/-- The last part of `ext4_find_extent`, at the leaf. -/
def findLeaf (s : St σ) (block k : Nat) : Option (Int × St σ) := do
  let e ← s.elem k
  let r ← e.header
  let extent ← s.binsearch r block
  match extent with
  | none => some (0, s.setElem k { e with depth := 0, extent := none, index := none })
  | some p =>
    let ex ← s.entry r p
    some (0, s.setElem k
      { e with depth := 0, extent := some p, index := none, pBlock := ex.pblock })

/-- The loop of `ext4_find_extent`, with `i` levels left. -/
def findLoop (block depth base : Nat) : Nat → Nat → St σ → Option (Int × St σ)
  | 0, ppos, s => s.findLeaf block (base + ppos)
  | i + 1, ppos, s => do
    let e ← s.elem (base + ppos)
    let r ← e.header
    let p ← s.binsearchIdx r block
    let ix ← s.entry r p
    let s := s.setElem (base + ppos)
      { e with index := some p, pBlock := ix.idxPblock, depth := i + 1, extent := none }
    let next ← s.elem (base + ppos + 1)
    if next.lbId = 0 ∨ next.lbId ≠ ix.idxPblock then
      if (s.extCheck (.block ix.idxPblock) i).isSome then some (-1, s)
      else if depth < ppos + 1 then some (-1, s)
      else
        let s := s.setElem (base + ppos + 1)
          { next with lbId := 0, header := some (.block ix.idxPblock) }
        findLoop block depth base i (ppos + 1) s
    else findLoop block depth base i (ppos + 1) s

/-- The walk that `ext4_find_extent` reuses, or a new one. -/
def takePath (s : St σ) (orig : Option Nat) : Option (Option Nat × St σ) := do
  match orig with
  | none =>
    match s.pathAlloc with
    | none => some (none, s)
    | some (k, s) => some (some k, s.setElem k { s.path k with maxdepth := s.extDepth + 1 })
  | some k =>
    let s ← s.dropRefs k false
    if (s.path k).maxdepth < s.extDepth then
      let s := s.pathFree k
      match s.pathAlloc with
      | none => some (none, s)
      | some (k, s) => some (some k, s.setElem k { s.path k with maxdepth := s.extDepth + 1 })
    else some (some k, s)

/-- The return value and what `orig_path` points to afterwards. -/
def findExtent (s : St σ) (block : Nat) (orig : Option Nat) :
    Option (Int × Option Nat × St σ) := do
  let (path, s) ← s.takePath orig
  match path with
  | none => some (-1, none, s)
  | some k =>
    let s := s.setElem k { s.path k with header := some .inode, lbId := 0 }
    let (ret, s) ← findLoop block s.extDepth k s.extDepth 0 s
    if ret = 0 then some (0, some k, s)
    else
      let s ← s.dropRefs k false
      some (ret, none, s.pathFree k)

/-! ## Insertion into a node -/

/-- Store the key of the entry that a walk takes at level `k`. -/
def setKey (s : St σ) (k border : Nat) : Option (St σ) := do
  let e ← s.elem k
  let r ← e.header
  let i ← e.index
  let ix ← s.entry r i
  let s ← s.setEntry r i (ix.setFirstBlock border)
  some (s.extDirty e)

/-- The keys from level `k` up to the root, as long as the walk takes the first entry. -/
def correctLoop (base border : Nat) : Nat → St σ → Option (St σ)
  | 0, s => s.setKey base border
  | k + 1, s => do
    let s ← s.setKey (base + (k + 1)) border
    let e ← s.elem (base + (k + 1))
    if e.index = some 0 then correctLoop base border k s else some s

def correctIndexes (s : St σ) (base : Nat) : Option (Int × St σ) := do
  let depth := s.extDepth
  let e ← s.elem (base + depth)
  match e.extent, e.header with
  | some p, some r =>
    match depth with
    | 0 => some (0, s)
    | d + 1 =>
      if p ≠ 0 then some (0, s)
      else
        let ex ← s.entry r p
        let s ← correctLoop base ex.firstBlock d s
        some (0, s)
  | _, _ => some (-1, s)

/-- What `ext4_ext_insert_leaf` returns, with `need_split`. -/
structure LeafOut (σ : Type) where
  ret : Int
  needSplit : Bool
  s : St σ

/-- The label `out` after a success. -/
def leafDone (s : St σ) (k p : Nat) (r : Ref) : Option (LeafOut σ) := do
  let ex ← s.entry r p
  some ⟨0, false, s.setElem k { s.path k with extent := some p, pBlock := ex.pblock }⟩

/-- Write a merged extent over the one the walk found. -/
def leafMerge (s : St σ) (k p : Nat) (r : Ref) (e : PathElem) (ex : Entry) :
    Option (LeafOut σ) := do
  let s ← s.setEntry r p ex
  leafDone (s.extDirty e) k p r

/-- The place of a new extent beside the one the walk found. -/
def leafPos (n : Node) (extent : Option Nat) (newext : Entry) : Nat :=
  match extent with
  | none => 0
  | some p => if (n.entry p).firstBlock < newext.firstBlock then p + 1 else p

/-- The last part of `ext4_ext_insert_leaf`: a place of its own for the new extent. -/
def leafPlace (s : St σ) (base k : Nat) (r : Ref) (e : PathElem) (newext : Entry) :
    Option (LeafOut σ) := do
  let eh := s.node r
  if eh.entriesCount = eh.maxEntriesCount then some ⟨-1, true, s⟩
  else
    let p := leafPos eh e.extent newext
    let s := if e.extent = none then s.setElem k { e with extent := some 0 } else s
    if eh.entriesCount < p then none
    else
      let s ← s.moveUp r p (eh.entriesCount - p)
      if eh.maxEntriesCount ≤ p then some ⟨-1, false, s⟩
      else
        let ex ← s.entry r p
        let s ← s.setEntry r p (((ex.setFirstBlock newext.firstBlock).setBlockCount
          newext.blockCount).storePblock newext.pblock)
        let s := s.setNode r ((s.node r).addCount 1)
        if (s.node r).entriesCount ≤ p then some ⟨-1, false, s⟩
        else
          let (err, s) ← s.correctIndexes base
          if err ≠ 0 then some ⟨err, false, s⟩
          else leafDone (s.extDirty e) k p r

def insertLeaf (s : St σ) (base depth : Nat) (newext : Entry) (noCombine : Bool) :
    Option (LeafOut σ) := do
  let e ← s.elem (base + depth)
  let r ← e.header
  match e.extent with
  | none => s.leafPlace base (base + depth) r e newext
  | some p =>
    let ex ← s.entry r p
    if newext.firstBlock = ex.firstBlock then some ⟨-1, false, s⟩
    else if noCombine = false ∧ ex.CanAppend newext then
      s.leafMerge (base + depth) p r e (ex.append newext)
    else if noCombine = false ∧ ex.CanPrepend newext then
      s.leafMerge (base + depth) p r e (ex.prepend newext)
    else s.leafPlace base (base + depth) r e newext

/-- `ext4_ext_insert_index`, at element `k`. -/
def insertIndex (s : St σ) (k insertIdx insertBlock : Nat) (setToIx : Bool) :
    Option (Int × St σ) := do
  let e ← s.elem k
  let r ← e.header
  let eh := s.node r
  match e.index with
  | none => place e r eh 0
  | some i =>
    let ix ← s.entry r i
    if insertIdx = ix.firstBlock then some (eio, s)
    else place e r eh (if ix.firstBlock < insertIdx then i + 1 else i)
where
  place (e : PathElem) (r : Ref) (eh : Node) (i : Nat) : Option (Int × St σ) := do
    let full := s
    let s := if e.index = none then s.setElem k { e with index := some 0 } else s
    if eh.entriesCount = eh.maxEntriesCount then some (eio, full)
    else if eh.maxEntriesCount ≤ i then some (eio, s)
    else if eh.entriesCount < i then none
    else
      let s ← s.moveUp r i (eh.entriesCount - i)
      let ix ← s.entry r i
      let s ← s.setEntry r i ((ix.setFirstBlock insertIdx).storeIdxPblock insertBlock)
      let s := s.setNode r ((s.node r).addCount 1)
      if (s.node r).entriesCount ≤ i then some (eio, s)
      else
        let s := s.extDirty e
        if setToIx then
          let ix ← s.entry r i
          some (0, s.setElem k { s.path k with index := some i, pBlock := ix.idxPblock })
        else some (0, s)

/-! ## Growing and splitting -/

/-- The root after its content has moved to the block `newblock`. -/
def grownRoot (n : Node) (newblock : Nat) : Node :=
  let ix := (n.entry 0).storeIdxPblock newblock
  { (n.setEntry 0 ix) with
    entriesCount := 1
    maxEntriesCount := if n.depth = 0 then extSpaceRootIdx else n.maxEntriesCount
    depth := (n.depth + 1) % 2 ^ 16 }

/-- The new node: the 60 bytes of the root over what the buffer held. -/
def grownChild (s : St σ) (newblock : Nat) : Node :=
  let root := s.node .inode
  { root with
    magic := extentMagic
    maxEntriesCount := if s.extDepth = 0 then s.extSpaceBlock else s.extSpaceBlockIdx
    entry := fun i =>
      if i < extSpaceRoot then root.entry i else (s.node (.block newblock)).entry i }

def growIndepth (A : Allocator σ) (s : St σ) : Option (Int × St σ) := do
  let goal :=
    if s.extDepth = 0 then s.inodeToGoalBlock else ((s.node .inode).entry 0).idxPblock
  let (err, newblock, s) := s.newMetaBlocks A goal
  if newblock = 0 then some (err, s)
  else
    let root := s.node .inode
    let s := (s.setNode (.block newblock) (s.grownChild newblock)).blockCsumSet (.block newblock)
    let s := s.setNode .inode (grownRoot root newblock)
    some (err, (s.setDirty (.block newblock)).setDirty .inode)

/-- `ext4_ext_find_goal`. -/
def findGoal (s : St σ) (base block : Nat) : Option Nat := do
  let root ← s.elem base
  let e ← s.elem (base + root.depth)
  match e.extent with
  | some p =>
    let r ← e.header
    let ex ← s.entry r p
    some (ex.goal block)
  | none => if e.lbId ≠ 0 then some e.lbId else some s.inodeToGoalBlock

/-- `ext4_ext_init_header` on the buffer of a new node. -/
def initHeader (s : St σ) (r : Ref) (depth : Nat) : Node :=
  { s.node r with
    entriesCount := 0, maxEntriesCount := s.extMaxEntries depth, magic := extentMagic,
      depth := depth }

/-- Copy `m` entries behind entry `p` of the node `r` to the new node and take them out of
`r`; both `memcpy` calls of `ext4_ext_split_node`. -/
def moveTail (s : St σ) (r new : Ref) (p i m : Nat) (e : PathElem) : Option (St σ) :=
  if m = 0 then some s
  else if p + m < r.room ∧ i + m ≤ new.room then
    let s := s.setNode new (((s.node new).copyFrom (s.node r) i (p + 1) m).addCount m)
    some ((s.setNode r ((s.node r).subCount m)).extDirty e)
  else none

/-- The round of `ext4_ext_split_node` at the leaf. -/
def splitLeaf (s : St σ) (k nk : Nat) (new : Ref) : Option (St σ) := do
  let e ← s.elem k
  let r ← e.header
  let p ← e.extent
  let m := (s.node r).maxEntriesCount - 1 - p
  let s := s.setNode new (s.initHeader new 0)
  let s ← s.moveTail r new p 0 m e
  let ne ← s.elem nk
  some ((s.setElem nk { ne with
    pBlock := if m = 0 then 0 else ((s.node new).entry 0).pblock
    extent := if m = 0 then none else some 0
    depth := (s.node new).depth, maxdepth := 0, index := none, header := some new,
    lbId := 0 }).setDirty new)

/-- The round of `ext4_ext_split_node` at an index level. -/
def splitIdx (s : St σ) (k nk height insertIdx : Nat) (new : Ref) : Option (St σ) := do
  let e ← s.elem k
  let r ← e.header
  let i ← e.index
  let m := (s.node r).maxEntriesCount - 1 - i
  let child ← s.elem (nk + 1)
  let n := s.initHeader new height
  let ix := ((n.entry 0).setFirstBlock insertIdx).storeIdxPblock child.lbId
  let s := s.setNode new ((n.setEntry 0 ix).addCount 1)
  let s ← s.moveTail r new i 1 m e
  let ne ← s.elem nk
  some ((s.setElem nk { ne with
    pBlock := ((s.node new).entry 0).idxPblock
    depth := (s.node new).depth, maxdepth := 0, extent := none, index := some 0,
    header := some new, lbId := 0 }).setDirty new)

/-- The loop of `ext4_ext_split_node` over `n` levels from `i` upwards. Answers the return
value and the block that the clean-up releases. -/
def splitLoop (A : Allocator σ) (base nbase depth insertIdx : Nat) (newext : Entry) :
    Nat → Nat → St σ → Option (Int × Nat × St σ)
  | 0, _, s => some (0, 0, s)
  | n + 1, i, s => do
    let goal ← s.findGoal base newext.firstBlock
    let (ret, newblock, s) := s.newMetaBlocks A goal
    if ret ≠ 0 then some (ret, newblock, s)
    else
      let new := Ref.block newblock
      let s ← if i = depth then s.splitLeaf (base + i) (nbase + n) new
        else s.splitIdx (base + i) (nbase + n) (depth - i) insertIdx new
      splitLoop A base nbase depth insertIdx newext n (i - 1) s

/-- The blocks of the new walk that the clean-up of a failed split releases. -/
def splitCleanup (A : Allocator σ) (nbase : Nat) : Nat → St σ → Option (St σ)
  | 0, s => some s
  | n + 1, s => do
    let ne ← s.elem (nbase + n)
    if ne.lbId ≠ 0 then
      splitCleanup A nbase n
        ((s.extFreeBlocks A ne.lbId 1).setElem (nbase + n) { ne with lbId := 0 })
    else splitCleanup A nbase n s

/-- `ext4_ext_split_node`: the return value, `ins_right_leaf` and the state. -/
def splitNode (A : Allocator σ) (s : St σ) (base nbase atLevel : Nat) (newext : Entry) :
    Option (Int × Bool × St σ) := do
  let depth := s.extDepth
  if atLevel = 0 then none
  else
    let e ← s.elem (base + depth)
    let r ← e.header
    let p ← e.extent
    let insertIdx ←
      if p + 1 = (s.node r).maxEntriesCount then some newext.firstBlock
      else (s.entry r (p + 1)).map Entry.firstBlock
    let (ret, newblock, s) ← splitLoop A base nbase depth insertIdx newext
      (depth + 1 - atLevel) depth s
    if ret ≠ 0 then
      let s := if newblock = 0 then s else s.extFreeBlocks A newblock 1
      let s ← splitCleanup A nbase (depth + 1 - atLevel) s
      some (ret, false, s)
    else
      let insRight := decide (insertIdx ≤ newext.firstBlock)
      let ne ← s.elem nbase
      let (ret, s) ← s.insertIndex (base + (atLevel - 1)) insertIdx ne.lbId insRight
      if ret ≠ 0 then
        let s ← splitCleanup A nbase (depth + 1 - atLevel) s
        some (ret, insRight, s)
      else some (0, insRight, s)

/-- `ext4_ext_replace_path`. -/
def replacePath (s : St σ) (k nk : Nat) : Option (St σ) := do
  let s ← s.dropRefs k true
  let ne ← s.elem nk
  some ((s.setElem k ne).setElem nk .zero)

/-- The loop over the levels of a split that has succeeded. -/
def replaceLoop (base nbase atLevel : Nat) (insRight : Bool) : Nat → St σ → Option (St σ)
  | 0, s => some s
  | level + 1, s => do
    if insRight then
      let s ← s.replacePath (base + atLevel + level) (nbase + level)
      replaceLoop base nbase atLevel insRight level s
    else
      let ne ← s.elem (nbase + level)
      let s ← if ne.lbId ≠ 0 then s.dropRefs (nbase + level) true else some s
      replaceLoop base nbase atLevel insRight level s

/-- The lowest level at or above `k` whose node has a free entry. -/
def freeLevel (s : St σ) (base : Nat) : Nat → Option (Option Nat)
  | 0 => do
    let e ← s.elem base
    let r ← e.header
    some (if (s.node r).entriesCount < (s.node r).maxEntriesCount then some 0 else none)
  | k + 1 => do
    let e ← s.elem (base + (k + 1))
    let r ← e.header
    if (s.node r).entriesCount < (s.node r).maxEntriesCount then some (some (k + 1))
    else s.freeLevel base k

/-- The blocks that `ext4_ext_insert_extent` releases when it fails. -/
def releaseNew (A : Allocator σ) (nbase : Nat) : Nat → St σ → Option (St σ)
  | 0, s => some s
  | level + 1, s => do
    let ne ← s.elem (nbase + level)
    if ne.lbId ≠ 0 then
      let s ← (s.extFreeBlocks A ne.lbId 1).dropRefs (nbase + level) true
      releaseNew A nbase level s
    else releaseNew A nbase level s

/-- The label `out` of `ext4_ext_insert_extent`. -/
def insertOut (A : Allocator σ) (s : St σ) (ret : Int) (path : Option Nat) (base level : Nat)
    (npath : Option Nat) : Option (Int × Option Nat × St σ) := do
  let s ← if ret = 0 then some s
    else do
      let s ← s.dropRefs base false
      match npath with
      | none => some s
      | some nbase => releaseNew A nbase level s
  some (ret, path, match npath with | none => s | some nbase => s.pathFree nbase)

/-- Make room for a new extent: grow the tree when every node of the walk is full, then split
from the leaf up to the level below the one with a free entry. Answers the return value,
the walk, the second walk and the level at which the function stands then. -/
def makeRoom (A : Allocator σ) (s : St σ) (base : Nat) (newext : Entry) (npath : Option Nat) :
    Option (Int × Option Nat × Option Nat × Nat × St σ) := do
  let depth := s.extDepth
  let free ← s.freeLevel base depth
  match free with
  | some i => split base (some base) (depth - i) depth s
  | none =>
    let (ret, s) ← s.growIndepth A
    if ret ≠ 0 then some (ret, some base, npath, depth + 1, s)
    else
      let (ret, path, s) ← s.findExtent newext.firstBlock (some base)
      match ret, path with
      | 0, some base => split base path depth (depth + 1) s
      | ret, path => some (ret, path, npath, depth + 1, s)
where
  split (base : Nat) (path : Option Nat) (level depth : Nat) (s : St σ) :
      Option (Int × Option Nat × Option Nat × Nat × St σ) := do
    if level = 0 then some (0, path, npath, 0, s)
    else
      match s.pathAlloc with
      | none => some (-1, path, none, level, s)
      | some (nbase, s) =>
        let atLevel := depth - (level - 1)
        let (ret, insRight, s) ← s.splitNode A base nbase atLevel newext
        if ret ≠ 0 then some (ret, path, some nbase, level, s)
        else
          let s ← replaceLoop base nbase atLevel insRight level s
          some (0, path, some nbase, level, s)

/-- `ext4_ext_insert_extent`, with a bound on the number of times it comes to the label
`again`. -/
def insertExtent (A : Allocator σ) (newext : Entry) (noCombine : Bool) :
    Nat → Option Nat → Option Nat → St σ → Option (Int × Option Nat × St σ)
  | 0, _, _, _ => none
  | fuel + 1, path, npath, s => do
    let base ← path
    let out ← s.insertLeaf base s.extDepth newext noCombine
    if out.needSplit then
      let (ret, path, npath, level, s) ← out.s.makeRoom A base newext npath
      if ret ≠ 0 then s.insertOut A ret path base level npath
      else insertExtent A newext noCombine fuel path npath s
    else out.s.insertOut A out.ret path base 0 npath

/-! ## Extents that are not written yet -/

/-- Subtraction of `ext4_lblk_t`. -/
def sub32 (a b : Nat) : Nat := (a + 2 ^ 32 - b) % 2 ^ 32

/-- `ext4_ext_split_extent_at`. A failed insertion ends as a success of the `ext4_ext_dirty`
behind it. -/
def splitExtentAt (A : Allocator σ) (fuel : Nat) (s : St σ) (base split : Nat)
    (unwrit1 unwrit2 : Bool) : Option (Int × Option Nat × St σ) := do
  let k := base + s.extDepth
  let e ← s.elem k
  let r ← e.header
  let p ← e.extent
  let ex ← s.entry r p
  let eeLen := ex.actualLen
  if split = ex.firstBlock then
    let s ← s.setEntry r p (if unwrit2 then ex.markUnwritten else ex.markInitialized)
    some (0, some base, s.extDirty e)
  else
    let ex1 := ex.setBlockCount (sub32 split ex.firstBlock)
    let s ← s.setEntry r p (if unwrit1 then ex1.markUnwritten else ex1)
    let newex :=
      ((Entry.mk split 0 0).setBlockCount (sub32 eeLen (sub32 split ex.firstBlock))).storePblock
      (sub32 split ex.firstBlock + ex.pblock)
    let newex := if unwrit2 then newex.markUnwritten else newex
    let (err, path, s) ← insertExtent A newex true fuel (some base) none (s.extDirty e)
    if err = 0 then some (0, path, s)
    else
      let old ← s.entry r p
      let s ← s.setEntry r p (old.setBlockCount eeLen)
      some (0, path, s.extDirty e)

def convertToInitialized (A : Allocator σ) (fuel : Nat) (s : St σ) (base split blocks : Nat) :
    Option (Int × Option Nat × St σ) := do
  let e ← s.elem (base + s.extDepth)
  let r ← e.header
  let p ← e.extent
  let ex ← s.entry r p
  if split < ex.firstBlock then none
  else if (split + blocks) % 2 ^ 32 = (ex.firstBlock + ex.actualLen) % 2 ^ 32 then
    s.splitExtentAt A fuel base split true false
  else if ex.firstBlock = split then
    s.splitExtentAt A fuel base ((split + blocks) % 2 ^ 32) false true
  else
    let (err, path, s) ← s.splitExtentAt A fuel base ((split + blocks) % 2 ^ 32) true true
    if err = 0 then
      let base ← path
      s.splitExtentAt A fuel base split true false
    else some (err, path, s)

/-- `EXT4_LBA2PBA(block + i)`. The macro has no brackets around its argument, so that only `i` is
multiplied, as a number of 32 bits. -/
def zeroSector (s : St σ) (block i : Nat) : Nat := block + i * s.blockSize % 2 ^ 32 / bufSize

/-- `ext4_ext_zero_unwritten_range`: a whole block of zeros goes to the buffer of one sector. If a
node lies in that sector, it is lost. -/
def zeroUnwrittenRange (block : Nat) : Nat → St σ → St σ
  | 0, s => s
  | n + 1, s =>
    let s := zeroUnwrittenRange block n s
    let start := s.zeroSector block n * bufSize
    let r := Ref.block (start / s.blockSize)
    let s := if start % s.blockSize = 0
      then (s.setNode r ⟨0, 0, 0, 0, fun _ => ⟨0, 0, 0⟩⟩).setDirty r else s
    { s with stray := (r, bufSize) :: s.stray }

/-! ## Mapping a block -/

/-- What `ext4_extent_get_blocks` returns and stores. -/
structure Out (σ : Type) where
  ret : Int
  result : Nat
  blocksCount : Nat
  s : St σ

/-- The label `out2`. -/
def getDone (s : St σ) (path : Option Nat) (ret : Int) (result blocksCount : Nat) :
    Option (Out σ) :=
  match path with
  | none => some ⟨ret, result, blocksCount, s⟩
  | some base => do
    let s ← s.dropRefs base false
    some ⟨ret, result, blocksCount, s.pathFree base⟩

/-- The new extent of one block. -/
def newExtent (iblock newblock : Nat) : Entry :=
  ((Entry.mk iblock 0 0).storePblock newblock).setBlockCount 1

/-- The part for a block that no extent covers. The distance to the next extent is computed
first and then replaced by the 1 of the allocator; it is left out. -/
def getNew (A : Allocator σ) (fuel : Nat) (s : St σ) (base iblock maxBlocks : Nat)
    (create : Bool) : Option (Out σ) := do
  if create = false then s.getDone (some base) 0 0 0
  else
    let goal ← s.findGoal base iblock
    let (err, newblock, s) := s.newMetaBlocks A goal
    if newblock = 0 then s.getDone (some base) err 0 0
    else
      let newex := newExtent iblock newblock
      let (err, path, s) ← insertExtent A newex false fuel (some base) none s
      if err ≠ 0 then (s.extFreeBlocks A newex.pblock newex.blockCount).getDone path err 0 0
      else s.getDone path 0 newex.pblock (min 1 maxBlocks)

/-- The part for a block inside the extent `ex`. -/
def getCovered (A : Allocator σ) (fuel : Nat) (s : St σ) (base iblock maxBlocks : Nat)
    (create : Bool) (ex : Entry) : Option (Out σ) := do
  let allocated := ex.actualLen - (iblock - ex.firstBlock)
  let newblock := iblock - ex.firstBlock + ex.pblock
  if ex.isUnwritten = false then s.getDone (some base) 0 newblock (min allocated maxBlocks)
  else if create = false then s.getDone (some base) 0 0 (min allocated maxBlocks)
  else
    let zeroRange := min allocated maxBlocks
    let (err, path, s) ←
      (zeroUnwrittenRange newblock zeroRange s).convertToInitialized A fuel base iblock zeroRange
    if err ≠ 0 then s.getDone path err 0 0 else s.getDone path 0 newblock zeroRange

def getBlocks (A : Allocator σ) (fuel : Nat) (s : St σ) (iblock maxBlocks : Nat)
    (create : Bool) : Option (Out σ) := do
  let (err, path, s) ← s.findExtent iblock none
  if err ≠ 0 then some ⟨err, 0, 0, s⟩
  else
    let base ← path
    let e ← s.elem (base + s.extDepth)
    match e.extent with
    | none => s.getNew A fuel base iblock maxBlocks create
    | some p =>
      let r ← e.header
      let ex ← s.entry r p
      if ex.InRange iblock then s.getCovered A fuel base iblock maxBlocks create ex
      else s.getNew A fuel base iblock maxBlocks create

end St

end KernelTravel.Extent

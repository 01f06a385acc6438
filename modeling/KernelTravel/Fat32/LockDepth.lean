import KernelTravel.Fat32.File
import KernelTravel.Fs.Path
import KernelTravel.Lib.Account

/-!
# The locks of the file system

`mtx_file` and `mtx_dirent` may be taken again by the thread that holds them. The functions below
are those of `fs/fat32` that take one of them, reduced to what they do to the locks. What they look
up in memory on the way is the next one of a list of words, as other threads may have changed it
while the lock was not held. A function that takes no lock has no counterpart; its answer is a word.
`createItemAt` searches the tree of `Fs.Path`.

A failed `ASSERT` and `BUG()` stop the kernel. The fuel bounds loops and calls within calls, so what
holds for any fuel holds for every call that returns.
-/

namespace KernelTravel.Fat32.LockDepth

open Function

open KernelTravel.Fs (DirTree pathDepthCnt)
open Account (when stop)

inductive Mtx where
  | mtxFile
  | mtxDirent
  deriving DecidableEq

/-- `struct lock`. The semaphore does not show: `sema_down` returns when the lock is free. -/
structure Lock where
  holder : Option Nat
  acquireNr : Nat

/-- `depth` counts the calls of `lock_acquire` that were not yet followed by their `lock_release`.
The kernel does not store it. -/
structure Kernel where
  lock : Mtx → Lock
  words : List Nat
  depth : Mtx → Nat

abbrev Act := StateT Kernel Option

def word : Act Nat := fun k =>
  match k.words with
  | [] => none
  | w :: words => some (w, { k with words })

def lockAcquired (me : Nat) (l : Lock) : Lock :=
  if l.holder = some me then { l with acquireNr := (l.acquireNr + 1) % 2 ^ 32 } else ⟨some me, 1⟩

def lockReleased (l : Lock) : Lock :=
  if l.acquireNr = 1 then ⟨none, 0⟩ else { l with acquireNr := l.acquireNr - 1 }

/-! ## The functions -/

section Calls

variable (me : Nat)

def lockAcquire (m : Mtx) : Act Unit := fun k =>
  some ((), { k with
    lock := update k.lock m (lockAcquired me (k.lock m))
    depth := update k.depth m (k.depth m + 1) })

def lockRelease (m : Mtx) : Act Unit := fun k =>
  if (k.lock m).acquireNr = 0 ∨ (k.lock m).holder ≠ some me then none
  else some ((), { k with
    lock := update k.lock m (lockReleased (k.lock m))
    depth := update k.depth m (k.depth m - 1) })

/-- `lock_release` before a return. -/
def releaseAnd (r : Int) : Act Int := do
  lockRelease me .mtxFile
  pure r

def direntAlloc : Act Unit := do
  lockAcquire me .mtxDirent
  let free ← word
  if free = 0 then stop
  lockRelease me .mtxDirent

def direntDealloc : Act Unit := do
  lockAcquire me .mtxDirent
  lockRelease me .mtxDirent

def fatfileRead (off n : Nat) : Act Int := do
  lockAcquire me .mtxFile
  let fileSize ← word
  if fileSize ≤ off then releaseAnd me 0
  else
    let n := if fileSize < (off + n) % 2 ^ 32 then fileSize - off else n
    if n = 0 then releaseAnd me 0 else releaseAnd me n

/-- `sync_dirent_rawdata_back`, given the write to the parent. -/
def syncWith (write : Nat → Nat → Act Int) : Act Unit := do
  let parentDir ← word
  when (parentDir ≠ 0) do
    let parentDirOff ← word
    let _ ← write parentDirOff direntSize

def fileExtend (write : Nat → Nat → Act Int) (newSize : Nat) : Act Unit := do
  let fileSize ← word
  if fileSize < newSize then syncWith write else stop

def fatfileWrite : Nat → Nat → Nat → Act Int
  | 0, _, _ => stop
  | fuel + 1, off, n => do
    lockAcquire me .mtxFile
    if n = 0 then stop
    else do
      let fileSize ← word
      when (fileSize < (off + n) % 2 ^ 32) (fileExtend (fatfileWrite fuel) ((off + n) % 2 ^ 32))
      releaseAnd me n

variable (fuel : Nat)

def syncDirentRawdataBack : Act Unit := syncWith (fatfileWrite me fuel)

/-- The first loop of `file_shrink`. -/
def zeroLoop (upto : Nat) : Nat → Nat → Act Unit
  | 0, _ => stop
  | rounds + 1, i =>
    if i < 2 ^ 31 ∧ i < upto then do
      let _ ← fatfileWrite me fuel i (min 1024 (upto - i))
      zeroLoop upto rounds (i + 1024)
    else pure ()

def fileShrink (newsize : Nat) : Act Int := do
  lockAcquire me .mtxFile
  let fileSize ← word
  if fileSize < newsize then stop
  else do
    when (fileSize % pageSize ≠ 0) (zeroLoop me fuel (pgroundup newsize) fuel newsize)
    syncDirentRawdataBack me fuel
    releaseAnd me 0

/-- The loop of `dirGetDentFrom` over the slots: one that is empty, a dot entry or a part of a long
name is passed over. -/
def scanLoop : Nat → Nat → Act Int
  | 0, _ => stop
  | rounds + 1, j => do
    let fileSize ← word
    if j < fileSize then do
      let _ ← fatfileRead me j direntSize
      let passed ← word
      if passed ≠ 0 then scanLoop rounds ((j + direntSize) % 2 ^ 32)
      else do
        direntAlloc me
        releaseAnd me direntSize
    else releaseAnd me 0

def dirGetDentFrom (offset : Nat) : Act Int := do
  lockAcquire me .mtxFile
  if offset % direntSize ≠ 0 then stop else scanLoop me fuel offset

/-- The first loop of `dir_alloc_entry`, which counts free slots in a row up to `cnt`. -/
def freeLoop (cnt prevSize : Nat) : Nat → Nat → Nat → Act Nat
  | 0, _, _ => stop
  | rounds + 1, offset, curN =>
    if offset < prevSize then do
      let _ ← fatfileRead me offset direntSize
      let name0 ← word
      if name0 = 0 then
        if curN + 1 = cnt then pure offset
        else freeLoop cnt prevSize rounds (offset + direntSize) (curN + 1)
      else freeLoop cnt prevSize rounds (offset + direntSize) 0
    else pure offset

/-- The second loop marks the slots from `offset` to `endOff`. -/
def markLoop (endOff : Nat) : Nat → Nat → Act Unit
  | 0, _ => stop
  | rounds + 1, offset =>
    if offset ≤ endOff then do
      let _ ← fatfileWrite me fuel offset direntSize
      markLoop endOff rounds ((offset + direntSize) % 2 ^ 32)
    else pure ()

def dirAllocEntry (cnt : Nat) : Act Int :=
  if cnt = 0 then stop
  else do
    lockAcquire me .mtxFile
    let prevSize ← word
    let _ ← freeLoop me cnt prevSize fuel 0 0
    if prevSize % direntSize ≠ 0 then stop
    else do
      let startOff ← word
      let endOff ← word
      markLoop me fuel endOff fuel startOff
      direntAlloc me
      releaseAnd me 0

/-- The loop of `dir_alloc_file` over the long entries. -/
def longLoop : Nat → Act Unit
  | 0 => pure ()
  | left + 1 => do
    let off ← word
    let _ ← fatfileWrite me fuel off direntSize
    let complete ← word
    if complete ≠ 0 then pure () else longLoop left

def dirAllocFile : Act Int := do
  direntAlloc me
  let cnt ← word
  let r ← dirAllocEntry me fuel cnt
  if r ≠ 0 then stop
  else do
    longLoop me fuel (cnt - 1)
    pure 0

def createItemAt (tree : DirTree) (path : List Byte) (isDir : Int) : Act Int := do
  lockAcquire me .mtxFile
  match tree.searchFile path with
  | none => stop
  | some (found, record) =>
    if pathDepthCnt path ≠ pathDepthCnt record.searchedPath then releaseAnd me (-1)
    else
      match found with
      | some dir =>
        if isDir = 1 ∧ tree.type dir = .dir then releaseAnd me (-1)
        else if isDir = 0 ∧ tree.type dir = .file then releaseAnd me (-1)
        -- no `lock_release` here
        else pure (-1)
      | none => do
        let r ← dirAllocFile me fuel
        if r < 0 then releaseAnd me r
        else do
          syncDirentRawdataBack me fuel
          releaseAnd me 0

/-- `rm_unused_file`, given the removal of a child. -/
def rmUnusedFile (rm : Act Int) : Act Int := do
  let refcnt ← word
  let parentDirent ← word
  if refcnt ≠ 0 ∨ parentDirent = 0 then stop
  else do
    let children ← word
    (List.range children).forM fun _ => do
      let _ ← rm
    let _ ← fileShrink me fuel 0
    let cnt ← word
    (List.range cnt).forM fun _ => do
      let off ← word
      let _ ← fatfileWrite me fuel off 1
    direntDealloc me
    pure 0

def rmfile : Nat → Act Int
  | 0 => stop
  | depth + 1 => do
    let refcnt ← word
    if 1 < refcnt then pure (-1) else rmUnusedFile me fuel (rmfile depth)

end Calls

/-! ## The fields of a lock and its depth -/

/-- The depth is not the counter alone: that has 32 bits, and at a multiple of `2 ^ 32` it is 0,
with which no further `lock_release` passes its `ASSERT`. -/
structure Counts (me : Nat) (l : Lock) (depth : Nat) : Prop where
  held : depth % 2 ^ 32 ≠ 0 → l.holder = some me ∧ l.acquireNr = depth % 2 ^ 32
  wrapped : depth % 2 ^ 32 = 0 → l.acquireNr = 0 ∨ l.holder ≠ some me
  free : depth = 0 → l.holder ≠ some me

section Counts

variable {me depth : Nat} {l : Lock}

theorem Counts.acquired (h : Counts me l depth) : Counts me (lockAcquired me l) (depth + 1) := by
  have hheld : (lockAcquired me l).holder = some me := by
    rw [lockAcquired]
    split
    next hme => exact hme
    next => rfl
  have hnr : (lockAcquired me l).acquireNr = (depth + 1) % 2 ^ 32 := by
    by_cases hzero : depth % 2 ^ 32 = 0
    · rw [lockAcquired]
      split
      next hme =>
        have hnone : l.acquireNr = 0 := (h.wrapped hzero).resolve_right fun hne => hne hme
        dsimp only
        omega
      next =>
        dsimp only
        omega
    · obtain ⟨hme, hnr⟩ := h.held hzero
      rw [lockAcquired, if_pos hme]
      dsimp only
      omega
  exact ⟨fun _ => ⟨hheld, hnr⟩, fun hzero => .inl (hnr.trans hzero), fun hzero => by omega⟩

theorem Counts.released (h : Counts me l depth) (hnr : l.acquireNr ≠ 0) (hme : l.holder = some me) :
    depth ≠ 0 ∧ Counts me (lockReleased l) (depth - 1) := by
  have hdepth : depth % 2 ^ 32 ≠ 0 := by
    intro hzero
    rcases h.wrapped hzero with hnone | hother
    · exact hnr hnone
    · exact hother hme
  have hcount : l.acquireNr = depth % 2 ^ 32 := (h.held hdepth).2
  refine ⟨fun hzero => by omega, ?_⟩
  by_cases hlast : l.acquireNr = 1
  · rw [lockReleased, if_pos hlast]
    exact ⟨fun hne => by omega, fun _ => .inl rfl, fun _ => nofun⟩
  · rw [lockReleased, if_neg hlast]
    refine ⟨fun _ => ⟨hme, ?_⟩, fun hzero => ?_, fun hzero => ?_⟩
    · dsimp only
      omega
    · omega
    · omega

end Counts

/-- The nesting depth of a thread on a lock. -/
def Lock.nesting (l : Lock) (me : Nat) : Nat := if l.holder = some me then l.acquireNr else 0

/-- The holder has taken the lock at least once, and the counter has 32 bits. -/
def Lock.Sound (l : Lock) (me : Nat) : Prop :=
  l.holder = some me → 0 < l.acquireNr ∧ l.acquireNr < 2 ^ 32

theorem Lock.Sound.counts {l : Lock} {me : Nat} (h : l.Sound me) : Counts me l (l.nesting me) := by
  rw [nesting]
  split
  next hme =>
    obtain ⟨hpos, hlt⟩ := h hme
    exact ⟨fun _ => ⟨hme, (Nat.mod_eq_of_lt hlt).symm⟩, fun hzero => by omega,
      fun hzero => by omega⟩
  next hother => exact ⟨fun hne => absurd rfl hne, fun _ => .inr hother, fun _ => hother⟩

theorem Counts.nesting {l : Lock} {me depth : Nat} (h : Counts me l depth) (hlt : depth < 2 ^ 32) :
    l.nesting me = depth := by
  rw [Lock.nesting]
  by_cases hzero : depth = 0
  · rw [if_neg (h.free hzero), hzero]
  · obtain ⟨hme, hnr⟩ := h.held (by omega)
    rw [if_pos hme, hnr, Nat.mod_eq_of_lt hlt]

/-! ## What a function does to the depths -/

/-- The depth on one lock, with a factor, so that both bounds come from one proof. -/
def depthOn (me : Nat) (m : Mtx) (factor : Int) : Account Kernel where
  inv k := ∀ m, Counts me (k.lock m) (k.depth m)
  rel _ _ := True
  weight k := factor * k.depth m
  refl _ := trivial
  trans _ _ := trivial

/-- A completed run of `f` has raised the depth on each lock by `c`. -/
def Changes {α : Type} (me : Nat) (c : Mtx → Int) (f : Act α) : Prop :=
  ∀ m factor, (depthOn me m factor).Gains f fun _ => factor * c m

section Changes

variable {α β : Type} {me : Nat} {c d : Mtx → Int} {f : Act α} {g : α → Act β}

theorem Changes.depth (h : Changes me c f) {k k' : Kernel} {a : α}
    (inv : ∀ m, Counts me (k.lock m) (k.depth m)) (run : f k = some (a, k')) :
    (∀ m, Counts me (k'.lock m) (k'.depth m)) ∧ ∀ m, (k'.depth m : Int) = k.depth m + c m := by
  refine ⟨(h .mtxFile 0 k a k' inv run).1, fun m => ?_⟩
  have hlower : (1 : Int) * k.depth m + 1 * c m ≤ 1 * k'.depth m := (h m 1 k a k' inv run).2.2
  have hupper : (-1 : Int) * k.depth m + -1 * c m ≤ -1 * k'.depth m := (h m (-1) k a k' inv run).2.2
  omega

theorem Changes.pure {a : α} : Changes me 0 (pure a : Act α) := fun _ _ =>
  .pure (by rw [Pi.zero_apply, Int.mul_zero])

theorem Changes.stop : Changes me c (Account.stop : Act α) := fun _ _ => .stop

theorem Changes.bind (hf : Changes me d f) (hg : ∀ a, Changes me (c - d) (g a)) :
    Changes me c (f >>= g) :=
  fun m factor => (hf m factor).bind fun a => (hg a m factor).mono fun _ => by
    rw [Pi.sub_apply, Int.mul_sub]

/-- A first program that leaves the depths as they are. -/
theorem Changes.next (hf : Changes me 0 f) (hg : ∀ a, Changes me c (g a)) :
    Changes me c (f >>= g) :=
  hf.bind fun a => by
    rw [sub_zero]
    exact hg a

theorem Changes.ite {p : Prop} [Decidable p] {f f' : Act α} (ht : p → Changes me c f)
    (he : ¬p → Changes me c f') : Changes me c (if p then f else f') := fun m factor =>
  .ite (fun h => ht h m factor) fun h => he h m factor

theorem Changes.when {p : Prop} [Decidable p] {f : Act Unit} (h : p → Changes me 0 f) :
    Changes me 0 (Account.when p f) := .ite h fun _ => .pure

theorem Changes.forM {γ : Type} {f : γ → Act Unit} (h : ∀ a, Changes me 0 (f a)) (as : List γ) :
    Changes me 0 (as.forM f) := by
  induction as with
  | nil => exact .pure
  | cons a as ih => exact (h a).next fun _ => ih

theorem word_changes : Changes me 0 word := by
  intro m factor k w k' inv run
  rw [word] at run
  split at run
  next => cases run
  next =>
    cases run
    exact ⟨inv, trivial, by rw [Pi.zero_apply, Int.mul_zero, Int.add_zero]; exact le_refl _⟩

theorem lockAcquire_changes (m : Mtx) : Changes me (Pi.single m 1) (lockAcquire me m) := by
  intro m' factor k a k' inv run
  cases run
  refine ⟨fun n => ?_, trivial, ?_⟩
  · dsimp only
    by_cases hn : n = m
    · rw [hn, update_self, update_self]
      exact (inv m).acquired
    · rw [update_of_ne hn, update_of_ne hn]
      exact inv n
  · change factor * (k.depth m' : Int) + _ ≤
      factor * ((update k.depth m (k.depth m + 1) m' : Nat) : Int)
    rw [← Int.mul_add]
    by_cases hm : m' = m
    · rw [hm, update_self, Pi.single_eq_same, Int.natCast_add]
      exact le_refl _
    · rw [update_of_ne hm, Pi.single_eq_of_ne hm, Int.add_zero]

theorem lockRelease_changes (m : Mtx) : Changes me (-Pi.single m 1) (lockRelease me m) := by
  intro m' factor k a k' inv run
  rw [lockRelease] at run
  split at run
  next => cases run
  next hheld =>
    cases run
    rw [not_or, not_not] at hheld
    obtain ⟨hpos, hcounts⟩ := (inv m).released hheld.1 hheld.2
    refine ⟨fun n => ?_, trivial, ?_⟩
    · dsimp only
      by_cases hn : n = m
      · rw [hn, update_self, update_self]
        exact hcounts
      · rw [update_of_ne hn, update_of_ne hn]
        exact inv n
    · change factor * (k.depth m' : Int) + _ ≤
        factor * ((update k.depth m (k.depth m - 1) m' : Nat) : Int)
      rw [← Int.mul_add, Pi.neg_apply]
      by_cases hm : m' = m
      · rw [hm, update_self, Pi.single_eq_same, Int.natCast_sub (Nat.one_le_iff_ne_zero.mpr hpos)]
        exact le_refl _
      · rw [update_of_ne hm, Pi.single_eq_of_ne hm, neg_zero, Int.add_zero]

/-- A function that takes `mtx_file` first and then gives it back on every way to its end. -/
theorem Changes.locked (h : Changes me (-Pi.single .mtxFile 1) f) :
    Changes me 0 (lockAcquire me .mtxFile >>= fun _ => f) :=
  (lockAcquire_changes .mtxFile).bind fun _ => by
    rw [zero_sub]
    exact h

theorem releaseAnd_changes (r : Int) : Changes me (-Pi.single .mtxFile 1) (releaseAnd me r) :=
  (lockRelease_changes .mtxFile).bind fun _ => by
    rw [sub_self]
    exact .pure

end Changes

section Functions

variable {me : Nat} (fuel : Nat)

theorem direntAlloc_changes : Changes me 0 (direntAlloc me) := by
  refine (lockAcquire_changes .mtxDirent).bind fun _ => word_changes.next fun free => ?_
  rw [zero_sub]
  exact .ite (fun _ => .next .stop fun _ => lockRelease_changes .mtxDirent) fun _ =>
    lockRelease_changes .mtxDirent

theorem direntDealloc_changes : Changes me 0 (direntDealloc me) :=
  (lockAcquire_changes .mtxDirent).bind fun _ => by
    rw [zero_sub]
    exact lockRelease_changes .mtxDirent

theorem fatfileRead_changes (off n : Nat) : Changes me 0 (fatfileRead me off n) := by
  refine .locked
    (word_changes.next fun fileSize => .ite (fun _ => releaseAnd_changes 0) fun _ => ?_)
  exact .ite (fun _ => releaseAnd_changes 0) fun _ => releaseAnd_changes _

theorem syncWith_changes {write : Nat → Nat → Act Int} (h : ∀ off n, Changes me 0 (write off n)) :
    Changes me 0 (syncWith write) :=
  word_changes.next fun _ => .when fun _ => word_changes.next fun _ => (h _ _).next fun _ => .pure

theorem fileExtend_changes {write : Nat → Nat → Act Int} (h : ∀ off n, Changes me 0 (write off n))
    (newSize : Nat) : Changes me 0 (fileExtend write newSize) :=
  word_changes.next fun _ => .ite (fun _ => syncWith_changes h) fun _ => .stop

/-- A write to a directory above is made while the lock is held. -/
theorem fatfileWrite_changes (off n : Nat) : Changes me 0 (fatfileWrite me fuel off n) := by
  induction fuel generalizing off n with
  | zero => exact .stop
  | succ fuel ih =>
    refine .locked (.ite (fun _ => .stop) fun _ => word_changes.next fun fileSize => ?_)
    exact Changes.next (.when fun _ => fileExtend_changes ih _) fun _ => releaseAnd_changes _

theorem syncDirentRawdataBack_changes : Changes me 0 (syncDirentRawdataBack me fuel) :=
  syncWith_changes (fatfileWrite_changes fuel)

theorem zeroLoop_changes (upto rounds i : Nat) : Changes me 0 (zeroLoop me fuel upto rounds i) := by
  induction rounds generalizing i with
  | zero => exact .stop
  | succ rounds ih =>
    exact .ite (fun _ => (fatfileWrite_changes fuel _ _).next fun _ => ih _) fun _ => .pure

theorem fileShrink_changes (newsize : Nat) : Changes me 0 (fileShrink me fuel newsize) := by
  refine .locked (word_changes.next fun fileSize => .ite (fun _ => .stop) fun _ => ?_)
  refine Changes.next (.when fun _ => zeroLoop_changes fuel _ _ _) fun _ => ?_
  exact (syncDirentRawdataBack_changes fuel).next fun _ => releaseAnd_changes 0

theorem scanLoop_changes (rounds j : Nat) :
    Changes me (-Pi.single .mtxFile 1) (scanLoop me rounds j) := by
  induction rounds generalizing j with
  | zero => exact .stop
  | succ rounds ih =>
    refine word_changes.next fun fileSize => .ite (fun _ => ?_) fun _ => releaseAnd_changes 0
    refine (fatfileRead_changes _ _).next fun _ => word_changes.next fun passed =>
      .ite (fun _ => ih _) fun _ => ?_
    exact direntAlloc_changes.next fun _ => releaseAnd_changes _

theorem dirGetDentFrom_changes (offset : Nat) : Changes me 0 (dirGetDentFrom me fuel offset) :=
  .locked (.ite (fun _ => .stop) fun _ => scanLoop_changes fuel offset)

theorem freeLoop_changes (cnt prevSize rounds offset curN : Nat) :
    Changes me 0 (freeLoop me cnt prevSize rounds offset curN) := by
  induction rounds generalizing offset curN with
  | zero => exact .stop
  | succ rounds ih =>
    refine .ite (fun _ => (fatfileRead_changes _ _).next fun _ => word_changes.next fun _ => ?_)
      fun _ => .pure
    exact .ite (fun _ => .ite (fun _ => .pure) fun _ => ih _ _) fun _ => ih _ _

theorem markLoop_changes (endOff rounds offset : Nat) :
    Changes me 0 (markLoop me fuel endOff rounds offset) := by
  induction rounds generalizing offset with
  | zero => exact .stop
  | succ rounds ih =>
    exact .ite (fun _ => (fatfileWrite_changes fuel _ _).next fun _ => ih _) fun _ => .pure

theorem dirAllocEntry_changes (cnt : Nat) : Changes me 0 (dirAllocEntry me fuel cnt) := by
  refine .ite (fun _ => .stop) fun _ => .locked (word_changes.next fun prevSize => ?_)
  refine (freeLoop_changes _ _ _ _ _).next fun _ => .ite (fun _ => .stop) fun _ => ?_
  refine word_changes.next fun startOff => word_changes.next fun endOff => ?_
  refine (markLoop_changes fuel _ _ _).next fun _ => direntAlloc_changes.next fun _ => ?_
  exact releaseAnd_changes 0

theorem longLoop_changes (left : Nat) : Changes me 0 (longLoop me fuel left) := by
  induction left with
  | zero => exact .pure
  | succ left ih =>
    refine word_changes.next fun _ => (fatfileWrite_changes fuel _ _).next fun _ => ?_
    exact word_changes.next fun _ => .ite (fun _ => .pure) fun _ => ih

theorem dirAllocFile_changes : Changes me 0 (dirAllocFile me fuel) := by
  refine direntAlloc_changes.next fun _ => word_changes.next fun cnt => ?_
  refine (dirAllocEntry_changes fuel cnt).next fun _ => .ite (fun _ => .stop) fun _ => ?_
  exact (longLoop_changes fuel _).next fun _ => .pure

theorem rmUnusedFile_changes {rm : Act Int} (h : Changes me 0 rm) :
    Changes me 0 (rmUnusedFile me fuel rm) := by
  refine word_changes.next fun _ => word_changes.next fun _ => .ite (fun _ => .stop) fun _ => ?_
  refine word_changes.next fun _ => Changes.next (.forM (fun _ => h.next fun _ => .pure) _) fun _ =>
    ?_
  refine (fileShrink_changes fuel 0).next fun _ => word_changes.next fun _ => ?_
  refine Changes.next (.forM (fun _ => ?_) _) fun _ => direntDealloc_changes.next fun _ => .pure
  exact word_changes.next fun _ => (fatfileWrite_changes fuel _ _).next fun _ => .pure

theorem rmfile_changes (depth : Nat) : Changes me 0 (rmfile me fuel depth) := by
  induction depth with
  | zero => exact .stop
  | succ depth ih =>
    exact word_changes.next fun _ => .ite (fun _ => .pure) fun _ => rmUnusedFile_changes fuel ih

/-- The path names an entry that is not of the type to be created. -/
def Mismatched (tree : DirTree) (path : List Byte) (isDir : Int) : Prop :=
  ∃ dir record, tree.searchFile path = some (some dir, record) ∧
    pathDepthCnt path = pathDepthCnt record.searchedPath ∧
    ¬(isDir = 1 ∧ tree.type dir = .dir) ∧ ¬(isDir = 0 ∧ tree.type dir = .file)

theorem createItemAt_changes {tree : DirTree} {path : List Byte} {isDir : Int}
    (h : ¬Mismatched tree path isDir) : Changes me 0 (createItemAt me fuel tree path isDir) := by
  refine .locked ?_
  cases hsearch : tree.searchFile path with
  | none => exact .stop
  | some answer =>
    obtain ⟨found, record⟩ := answer
    refine .ite (fun _ => releaseAnd_changes (-1)) fun hdepth => ?_
    cases found with
    | some dir =>
      refine .ite (fun _ => releaseAnd_changes (-1)) fun hdir => ?_
      refine .ite (fun _ => releaseAnd_changes (-1)) fun hfile => ?_
      exact absurd ⟨dir, record, hsearch, not_not.mp hdepth, hdir, hfile⟩ h
    | none =>
      refine (dirAllocFile_changes fuel).next fun r =>
        .ite (fun _ => releaseAnd_changes r) fun _ => ?_
      exact (syncDirentRawdataBack_changes fuel).next fun _ => releaseAnd_changes 0

theorem createItemAt_keeps {tree : DirTree} {path : List Byte} {isDir : Int}
    (h : Mismatched tree path isDir) :
    Changes me (Pi.single .mtxFile 1) (createItemAt me fuel tree path isDir) := by
  obtain ⟨dir, record, hsearch, hdepth, hdir, hfile⟩ := h
  refine (lockAcquire_changes .mtxFile).bind fun _ => ?_
  rw [hsearch, sub_self]
  refine .ite (fun hne => absurd hdepth hne) fun _ => ?_
  exact .ite (fun h => absurd h hdir) fun _ => .ite (fun h => absurd h hfile) fun _ => .pure

end Functions

/-! ## Calls -/

inductive FatCall where
  | createItemAt (tree : DirTree) (path : List Byte) (isDir : Int)
  | dirGetDentFrom (offset : Nat)
  | dirAllocEntry (cnt : Nat)
  | fatfileRead (off n : Nat)
  | fatfileWrite (off n : Nat)
  | fileShrink (newsize : Nat)
  | rmfile

def FatCall.run (me fuel : Nat) : FatCall → Act Int
  | .createItemAt tree path isDir => LockDepth.createItemAt me fuel tree path isDir
  | .dirGetDentFrom offset => LockDepth.dirGetDentFrom me fuel offset
  | .dirAllocEntry cnt => LockDepth.dirAllocEntry me fuel cnt
  | .fatfileRead off n => LockDepth.fatfileRead me off n
  | .fatfileWrite off n => LockDepth.fatfileWrite me fuel off n
  | .fileShrink newsize => LockDepth.fileShrink me fuel newsize
  | .rmfile => LockDepth.rmfile me fuel fuel

/-- The calls that do not create over an entry of another type. -/
def FatCall.Releases : FatCall → Prop
  | .createItemAt tree path isDir => ¬Mismatched tree path isDir
  | .dirGetDentFrom _ | .dirAllocEntry _ | .fatfileRead _ _ | .fatfileWrite _ _ | .fileShrink _
  | .rmfile => True

theorem FatCall.changes {me : Nat} (fuel : Nat) {call : FatCall} (h : call.Releases) :
    Changes me 0 (call.run me fuel) := by
  cases call with
  | createItemAt tree path isDir => exact createItemAt_changes fuel h
  | dirGetDentFrom offset => exact dirGetDentFrom_changes fuel offset
  | dirAllocEntry cnt => exact dirAllocEntry_changes fuel cnt
  | fatfileRead off n => exact fatfileRead_changes off n
  | fatfileWrite off n => exact fatfileWrite_changes fuel off n
  | fileShrink newsize => exact fileShrink_changes fuel newsize
  | rmfile => exact rmfile_changes fuel fuel

/-- The kernel when a thread makes a call. -/
def Kernel.start (me : Nat) (lock : Mtx → Lock) (words : List Nat) : Kernel :=
  ⟨lock, words, fun m => (lock m).nesting me⟩

theorem Lock.nesting_lt {l : Lock} {me : Nat} (h : l.Sound me) : l.nesting me < 2 ^ 32 := by
  rw [nesting]
  split
  next hme => exact (h hme).2
  next => decide

/-- One more level is never the level before, also when the counter wraps around. -/
theorem Counts.nesting_succ_ne {l : Lock} {me depth : Nat} (h : Counts me l (depth + 1))
    (hlt : depth < 2 ^ 32) : l.nesting me ≠ depth := by
  by_cases hwrap : depth + 1 = 2 ^ 32
  · have hnone : l.nesting me = 0 := by
      rw [Lock.nesting]
      split
      next hme => exact (h.wrapped (by omega)).resolve_right fun hne => hne hme
      next => rfl
    omega
  · rw [h.nesting (by omega)]
    omega

/-- A call that returns leaves the nesting depths as it has found them, unless it is to create what
exists with another type. -/
theorem nesting_kept_iff (me fuel : Nat) (call : FatCall) (lock : Mtx → Lock) (words : List Nat)
    (sound : ∀ m, (lock m).Sound me) (r : Int) (k : Kernel)
    (run : call.run me fuel (.start me lock words) = some (r, k)) :
    (∀ m, (k.lock m).nesting me = (lock m).nesting me) ↔ call.Releases := by
  have hcounts : ∀ m, Counts me (lock m) ((lock m).nesting me) := fun m => (sound m).counts
  constructor
  · intro hkept
    by_contra hbad
    cases call with
    | createItemAt tree path isDir =>
      obtain ⟨hafter, hdepth⟩ := (createItemAt_keeps fuel (not_not.mp hbad)).depth hcounts run
      have hone : (k.depth .mtxFile : Int) = (lock .mtxFile).nesting me + 1 := hdepth .mtxFile
      have hone : k.depth .mtxFile = (lock .mtxFile).nesting me + 1 := by omega
      have hmore := hafter .mtxFile
      rw [hone] at hmore
      exact hmore.nesting_succ_ne (Lock.nesting_lt (sound _)) (hkept .mtxFile)
    | dirGetDentFrom | dirAllocEntry | fatfileRead | fatfileWrite | fileShrink | rmfile =>
      exact hbad trivial
  · intro hreleases m
    obtain ⟨hafter, hdepth⟩ := (FatCall.changes fuel hreleases).depth hcounts run
    have hsame : (k.depth m : Int) = (lock m).nesting me + 0 := hdepth m
    have hsame : k.depth m = (lock m).nesting me := by omega
    have hend := hafter m
    rw [hsame] at hend
    exact hend.nesting (Lock.nesting_lt (sound m))

/-- A root directory with the file `A`. -/
def fileA : DirTree :=
  ⟨0, fun f => if f = 1 then [0x41] else [], fun f => if f = 1 then .file else .dir,
    fun f => if f = 0 then [1] else [], fun _ => none⟩

/-- Nobody holds a lock. -/
def unlocked : Mtx → Lock := fun _ => ⟨none, 0⟩

/-- The first of two slots is passed over, and the second one is found. -/
theorem nesting_kept_iff_found :
    ∃ r k, (FatCall.dirGetDentFrom 0).run 7 3 (.start 7 unlocked [64, 64, 1, 64, 64, 0, 1]) =
    some (r, k) ∧
      ∀ m, (k.lock m).nesting 7 = (unlocked m).nesting 7 := by
  have hreturns : ∃ answer,
      (FatCall.dirGetDentFrom 0).run 7 3 (.start 7 unlocked [64, 64, 1, 64, 64, 0, 1]) =
      some answer := ⟨_, rfl⟩
  obtain ⟨⟨r, k⟩, run⟩ := hreturns
  exact ⟨r, k, run, (nesting_kept_iff 7 3 _ unlocked _ (fun _ => nofun) r k run).mpr trivial⟩

/-- `mkdir` of `/A`, which is a file: the answer is -1, and the lock is held. -/
theorem mkdir_keeps_lock :
    ∃ k, (FatCall.createItemAt fileA [0x2F, 0x41] 1).run 7 0 (.start 7 unlocked []) = some (-1, k) ∧
      (unlocked .mtxFile).nesting 7 = 0 ∧ (k.lock .mtxFile).holder = some 7 ∧
      (k.lock .mtxFile).nesting 7 = 1 :=
  ⟨_, rfl, rfl, rfl, rfl⟩

end KernelTravel.Fat32.LockDepth

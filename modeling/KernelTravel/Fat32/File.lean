import KernelTravel.Fat32.Volume

/-!
# Files of a FAT32 volume

`fs/fat32/file.c`. Offsets, lengths and sizes are 32-bit, and the sums and products that
the code forms of them are taken modulo `2 ^ 32` here. Directory entries are numbered;
the entry of a file names its parent directory, into which `sync_dirent_rawdata_back`
writes the 32 bytes of the raw entry with `Fatfile_write`, so the functions call each
other. The mutex may be taken again by its holder and does not show.

An operation answers `none` where an assertion fails, a transfer leaves the data area or
the pointer pages are overrun.
-/

namespace KernelTravel.Fat32

def direntSize : Nat := 32
def pageSize : Nat := 4096
def pgroundup (x : Nat) : Nat := (x + pageSize - 1) / pageSize * pageSize

/-- One less, as an unsigned int. -/
def pred32 (x : Nat) : Nat := if x = 0 then 2 ^ 32 - 1 else x - 1

structure Dirent where
  firstClus : Nat
  fileSize : Nat
  pointer : DirentPointer
  parentDirOff : Nat
  parentDirent : Option Nat
  rawDirent : Nat → Byte

/-- `count` directory entries are open. -/
structure Fs where
  vol : Volume
  count : Nat
  dirent : Nat → Dirent

/-- Store the low `n` bytes of a number at `a`. -/
def storeLe (m : Nat → Byte) (a n x : Nat) : Nat → Byte :=
  Mem.blit m a n fun k => BitVec.ofNat 8 (x / 256 ^ k)

/-- The raw entry with `DIR_FstClusHI`, `DIR_FstClusLO` and `DIR_FileSize` brought up to date. -/
def Dirent.syncRaw (d : Dirent) : Dirent :=
  let raw := storeLe d.rawDirent 20 2 (d.firstClus / 65536)
  let raw := storeLe raw 26 2 (d.firstClus % 65536)
  { d with rawDirent := storeLe raw 28 4 d.fileSize }

namespace Fs

def setDirent (fs : Fs) (f : Nat) (d : Dirent) : Fs :=
  { fs with dirent := Function.update fs.dirent f d }

section Read

/-- The loop of `Fatfile_read`. The number of the next cluster is counted up. -/
def readLoop (v : Volume) (dst n last : Nat) :
    Nat → Nat → Nat → Nat → (Nat → Byte) → Option (Nat → Byte)
  | 0, _, _, _, _ => none
  | fuel + 1, clusIndex, clus, len, mem =>
    if clusIndex * v.clusSize % 2 ^ 32 ≤ last then do
      let mem ← v.clusterRead (clus + 1) 0 mem (dst + len) (min v.clusSize (n - len))
      readLoop v dst n last fuel (clusIndex + 1) (clus + 1) (len + min v.clusSize (n - len)) mem
    else some mem

/-- Each round but the last moves on to a further cluster of the volume. -/
def readClusters (v : Volume) (pointer : DirentPointer) (mem : Nat → Byte) (dst off n : Nat) :
    Option (Nat → Byte) := do
  let offset := off % v.clusSize
  let first := min n (v.clusSize - offset)
  let clus ← pointer.getclusbyno (off / v.clusSize)
  let mem ← v.clusterRead clus offset mem dst first
  readLoop v dst n ((off + n - 1) % 2 ^ 32) (v.dataClusCnt + 2) (off / v.clusSize + 1)
    clus first mem

/-- `Fatfile_read`: the returned length and the memory afterwards. -/
def fatfileRead (fs : Fs) (f : Nat) (mem : Nat → Byte) (dst off n : Nat) :
    Option (Nat × (Nat → Byte)) :=
  let size := (fs.dirent f).fileSize
  if size ≤ off then some (0, mem)
  else
    let n := if size < (off + n) % 2 ^ 32 then size - off else n
    if n = 0 then some (0, mem)
    else (readClusters fs.vol (fs.dirent f).pointer mem dst off n).map fun mem => (n, mem)

end Read

/-- The loop of `file_extend`. A failed allocation gives the cluster number 0. -/
def extendLoop (newSize : Nat) : Nat → Nat → Nat → Volume → DirentPointer →
    Option (Volume × DirentPointer)
  | 0, _, _, _, _ => none
  | fuel + 1, clusIndex, clus, v, pointer =>
    if (clusIndex + 1) * v.clusSize % 2 ^ 32 < newSize then do
      let (clus, v) := v.clusterAlloc clus
      let pointer ← pointer.setval (clusIndex + 1) clus
      extendLoop newSize fuel (clusIndex + 1) clus v pointer
    else some (v, pointer)

/-- An empty file is given its first cluster; the third part is the size from which the
last cluster is computed. -/
def takeFirst (v : Volume) (d : Dirent) : Option (Volume × Dirent × Nat) :=
  if d.firstClus ≠ 0 then some (v, d, d.fileSize)
  else do
    let (clus, v) := v.clusterAlloc 0
    let pointer ← d.pointer.setval 0 clus
    return (v, { d with firstClus := clus, pointer }, 1)

/-- The part of `file_extend` before the entry is written back. Each round of its loop sets
a further entry of the pointer pages. -/
def growClusters (v : Volume) (d : Dirent) (newSize : Nat) : Option (Volume × Dirent) := do
  let (v, d, oldSize) ← takeFirst v d
  let oldClusters := (oldSize + v.clusSize - 1) % 2 ^ 32 / v.clusSize
  let clus ← d.pointer.getclusbyno (pred32 oldClusters)
  let (v, pointer) ← extendLoop newSize (pointerLimit + 1) (oldClusters - 1) clus v d.pointer
  return (v, { d with fileSize := newSize, pointer })

/-- `file_extend`, given how an entry is written back. -/
def extendWith (sync : Fs → Nat → Option Fs) (fs : Fs) (f newSize : Nat) : Option Fs :=
  if (fs.dirent f).fileSize < newSize then do
    let (vol, d) ← growClusters fs.vol (fs.dirent f) newSize
    sync ({ fs with vol }.setDirent f d) f
  else none

section Write

/-- The loop of `Fatfile_write`. -/
def writeLoop (pointer : DirentPointer) (src : Nat → Byte) (n last : Nat) :
    Nat → Nat → Nat → Volume → Option Volume
  | 0, _, _, _ => none
  | fuel + 1, clusIndex, len, v =>
    if clusIndex * v.clusSize % 2 ^ 32 ≤ last then do
      let clus ← pointer.getclusbyno clusIndex
      let m := min v.clusSize (n - len)
      let v ← v.clusterWrite clus 0 (fun k => src (len + k)) m
      writeLoop pointer src n last fuel (clusIndex + 1) (len + m) v
    else some v

def writeClusters (v : Volume) (pointer : DirentPointer) (src : Nat → Byte) (off n : Nat) :
    Option Volume := do
  let offset := off % v.clusSize
  let first := min n (v.clusSize - offset)
  let clus ← pointer.getclusbyno (off / v.clusSize)
  let v ← v.clusterWrite clus offset src first
  writeLoop pointer src n ((off + n - 1) % 2 ^ 32) (pointerLimit + 1) (off / v.clusSize + 1) first v

/-- `sync_dirent_rawdata_back`, given the write to the parent. -/
def syncWith (write : Fs → Nat → (Nat → Byte) → Nat → Nat → Option Fs) (fs : Fs) (f : Nat) :
    Option Fs :=
  let d := (fs.dirent f).syncRaw
  let fs := fs.setDirent f d
  match d.parentDirent with
  | none => some fs
  | some parent => write fs parent d.rawDirent d.parentDirOff direntSize

/-- A write beyond the end extends the file first. -/
def reachWith (extend : Fs → Nat → Nat → Option Fs) (fs : Fs) (f upto : Nat) : Option Fs :=
  if (fs.dirent f).fileSize < upto then extend fs f upto else some fs

/-- `Fatfile_write`; the fuel bounds how many directories above the file are extended. -/
def writeWith : Nat → Fs → Nat → (Nat → Byte) → Nat → Nat → Option Fs
  | 0, _, _, _, _, _ => none
  | fuel + 1, fs, f, src, off, n =>
    if n = 0 then none
    else do
      let fs ← fs.reachWith (extendWith (syncWith (writeWith fuel))) f ((off + n) % 2 ^ 32)
      let vol ← writeClusters fs.vol (fs.dirent f).pointer src off n
      return { fs with vol }

/-- No directory is above itself, so the open entries bound the depth. -/
def fatfileWrite (fs : Fs) (f : Nat) (src : Nat → Byte) (off n : Nat) : Option Fs :=
  writeWith (fs.count + 1) fs f src off n

def syncDirentRawdataBack (fs : Fs) (f : Nat) : Option Fs := syncWith fatfileWrite fs f

def fileExtend (fs : Fs) (f newSize : Nat) : Option Fs :=
  extendWith syncDirentRawdataBack fs f newSize

end Write

section Shrink

/-- The first loop of `file_shrink`, which counts in an `int` and compares it as an
unsigned long. -/
def zeroLoop (f upto : Nat) : Nat → Nat → Fs → Option Fs
  | 0, _, _ => none
  | fuel + 1, i, fs =>
    if i < 2 ^ 31 ∧ i < upto then do
      let fs ← fs.fatfileWrite f (fun _ => 0) i (min 1024 (upto - i))
      zeroLoop f upto fuel (i + 1024) fs
    else some fs

/-- A page holds at most four buffers of 1024 bytes. -/
def zeroTail (fs : Fs) (f newsize : Nat) : Option Fs :=
  if (fs.dirent f).fileSize % pageSize ≠ 0 then zeroLoop f (pgroundup newsize) 5 newsize fs
  else some fs

/-- Mark the cluster before the index `newClusters` as the last one. -/
def markEnd (v : Volume) (pointer : DirentPointer) (newClusters : Nat) : Option Volume :=
  if newClusters ≠ 0 then
    (pointer.getclusbyno (newClusters - 1)).map fun prevClus => v.fatWrite prevClus fat32Eof
  else some v

/-- Free the clusters from the index `newClusters` on and clear their entries. -/
def dropClusters (v : Volume) (pointer : DirentPointer) (newClusters oldClusters : Nat) :
    Option (Volume × DirentPointer) :=
  if newClusters < oldClusters then do
    let lastClus ← pointer.getclusbyno newClusters
    let v ← markEnd v pointer newClusters
    let v ← v.clusSequenceFree lastClus
    let pointer ← (List.range' newClusters (oldClusters - newClusters)).foldlM
      (fun pointer i => pointer.setval i 0) pointer
    return (v, pointer)
  else some (v, pointer)

def fileShrink (fs : Fs) (f newsize : Nat) : Option Fs :=
  let oldsize := (fs.dirent f).fileSize
  let clusSize := fs.vol.clusSize
  if newsize ≤ oldsize then do
    let fs ← fs.zeroTail f newsize
    let d := fs.dirent f
    let (vol, pointer) ← dropClusters fs.vol d.pointer ((newsize + clusSize - 1) / clusSize)
      ((oldsize + clusSize - 1) % 2 ^ 32 / clusSize)
    let firstClus := if newsize = 0 then 0 else d.firstClus
    syncDirentRawdataBack
      ({ fs with vol }.setDirent f { d with fileSize := newsize, firstClus, pointer }) f
  else none

end Shrink

end Fs

end KernelTravel.Fat32

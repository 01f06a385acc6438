import KernelTravel.Fat32.Content
import KernelTravel.Fat32.Walk
import KernelTravel.Mm.Brk
import KernelTravel.Userprog.UserSpace

/-!
# `sys_mmap`

`do_mmap_pgoff` chooses an address, links an area for it and then gives each page of the area a page
of memory. It does not look at the address: what `get_unmapped_area` answers is used also when it is
an error number, and an address that the caller fixes is used as it is.

For a file `fd_mapping` reads the file into the sector cache and stores where the sectors are, and
every page is entered at the first address of the area.

The stop `fault` also stands for a search that does not end, for variables that are used but not
initialised and for writes behind the end of a buffer.
-/

namespace KernelTravel.Userprog

open Mm Outcome

/-- The arguments of `sys_mmap`, without the file. -/
structure MmapArgs where
  addr : BitVec 64
  len : BitVec 64
  prot : BitVec 32
  flags : BitVec 32
  offset : BitVec 64

namespace MmapArgs

/-- `flags` is an `int` that `do_mmap` takes as an `unsigned long`. -/
def longFlags (c : MmapArgs) : Nat := (c.flags.signExtend 64).toNat

/-- The length in whole pages. -/
def size (c : MmapArgs) : Nat := pageAlign c.len.toNat

end MmapArgs

/-- An open file of a FAT32 volume. `data` has the address of the buffer of each sector that is in
the cache once the file has been read, and `vAddr` the words at `VADDR_FOR_FD_MAPP`. -/
structure OpenFile where
  fs : Fat32.Fs
  dirent : Nat
  valid : Bool
  firstDataSec : Nat
  secPerClus : Nat
  data : Nat → Option Nat
  vAddr : Int → Nat

namespace OpenFile

def fileSize (file : OpenFile) : Nat := (file.fs.dirent file.dirent).fileSize

/-- The length of the buffer on the stack of the kernel. -/
def bufLen : Nat := 512

/-- `filepnt_init`, with the bound that holds for every chain that ends. -/
def filepntInit (file : OpenFile) : Except Stop OpenFile :=
  let d := file.fs.dirent file.dirent
  match file.fs.vol.filepntInit (file.fs.vol.dataClusCnt + 2) d.firstClus file.valid d.pointer with
  | some (valid, pointer) =>
    .ok { file with valid, fs := file.fs.setDirent file.dirent { d with pointer } }
  | none => .error .fault

/-- `file_read` of the whole file into the buffer. -/
def readAll (file : OpenFile) : Except Stop Unit :=
  match file.fs.fatfileRead file.dirent (fun _ => 0) 0 0 file.fileSize with
  | some (n, _) => if n ≤ bufLen then .ok () else .error .fault
  | none => .error .fault

def clusterSec (file : OpenFile) (clus : Nat) : Nat :=
  (file.firstDataSec + (clus + 2 ^ 64 - 2) * file.secPerClus) % 2 ^ 64

/-- The eight sectors of a page. A sector that is not in the cache leaves its word as it was. -/
def storePage (file : OpenFile) (indx : Nat) (vAddr : Int → Nat) : Except Stop (Int → Nat) :=
  match (file.fs.dirent file.dirent).pointer.getclusbyno indx with
  | some clus =>
    .ok ((List.range 8).foldl (fun vAddr i =>
      match file.data ((file.clusterSec clus + i) % 2 ^ 64) with
      | some data => Function.update vAddr (indx * 8 + i) data
      | none => vAddr) vAddr)
  | none => .error .bug

/-- The loop over the pages, which counts them by an `int`; `endPage` is included. -/
def storePages (file : OpenFile) (startPage endPage : Int) : Except Stop (Int → Nat) :=
  if startPage < 0 then .error .fault
  else loop (fun k vAddr => file.storePage (startPage.toNat + k) vAddr)
    (endPage - startPage + 1).toNat 0 file.vAddr

def fdMapping (file : OpenFile) (startPage endPage : Int) : Except Stop (Int → Nat) := do
  let file ← file.filepntInit
  file.readAll
  file.storePages startPage endPage

end OpenFile

/-- An `int` made of an unsigned long. -/
def toInt (x : Nat) : Int := (BitVec.ofNat 32 x).toInt

namespace UserSpace

def getPage (u : UserSpace) : Except Stop UserSpace := do
  let (_, phys) ← u.phys.getPage
  .ok { u with phys }

/-- The address of page `i` of a range. -/
def pageAt (addr i : Nat) : Nat := (addr + i * pageSize) % 2 ^ 64

/-- The loop at the end of `do_mmap_pgoff`. -/
def mallocPages (u : UserSpace) (addr cnt : Nat) : Except Stop UserSpace :=
  loop (fun i u => u.mallocUsrpage (pageAt addr i)) cnt 0 u

/-- The loop over the pages of a file. The address is the same in every round. -/
def addFilePages (u : UserSpace) (addr : Nat) (vAddr : Int → Nat) : Nat → Except Stop UserSpace
  | 0 => .ok u
  | i + 1 => do
    let phys ← u.phys.pageTableAdd u.proc.pgdir addr (vAddr i) pteAttr
    { u with phys }.addFilePages addr vAddr i

/-- The address that is answered for a file, and the pages that are entered. -/
def mapFile (u : UserSpace) (file : OpenFile) (addr len pgoff : Nat) :
    Except Stop (Nat × UserSpace) := do
  let vAddr ← file.fdMapping (toInt pgoff) (toInt (pgoff + len >>> 12))
  let u ← u.addFilePages addr vAddr (len >>> 12 % 2 ^ 32)
  .ok (addr ||| vAddr 0 % pageSize, u)

section Areas

variable (rbInsertColor : SearchTree Nat → SearchTree Nat)

def linkArea (u : UserSpace) (addr len : Nat) (place : Option MmStruct.Place) :
    Except Stop UserSpace :=
  match u.mm.addArea rbInsertColor addr len place with
  | some mm => .ok { u with mm }
  | none => .error .fault

def chooseAddr (u : UserSpace) (addr len flags : Nat) : Except Stop (Nat × UserSpace) :=
  match u.mm.chooseAddr addr len flags with
  | some (a, mm) => .ok (a, { u with mm })
  | none => .error .fault

/-- The area at the chosen address. -/
def makeArea (u : UserSpace) (file : Option OpenFile) (addr len pgoff : Nat) :
    Except Stop (Nat × UserSpace) := do
  let place := u.mm.findVmaPrepare addr
  let u ← u.getPage
  let (ret, u) ← match file with
    | some file => u.mapFile file addr len pgoff
    | none => .ok (addr, u)
  let u ← u.linkArea rbInsertColor addr len place
  .ok (ret, u)

/-- `do_mmap_pgoff` before its last loop: the answer, and the number of pages the loop is to map. -/
def placeArea (u : UserSpace) (file : Option OpenFile) (addr len flags pgoff : Nat) :
    Except Stop (Nat × Nat × UserSpace) :=
  let len := pageAlign len
  if len = 0 then .ok (err enomem, 0, u)
  else if (pgoff + len >>> 12) % 2 ^ 64 < pgoff then .ok (err eoverflow, 0, u)
  else if sysctlMaxMapCount < u.mm.mapCount then .ok (err enomem, 0, u)
  else do
    let (a, u) ← u.chooseAddr addr len flags
    if file.isSome ∧ ¬MmStruct.fileMmapOk pgoff len then .ok (err eoverflow, 0, u)
    else
      let (ret, u) ← u.makeArea rbInsertColor file a len pgoff
      .ok (ret, if flags &&& mapForInitFile = 0 then len >>> 12 else 0, u)

/-- `do_mmap`, up to the same point. -/
def placeMmap (u : UserSpace) (file : Option OpenFile) (c : MmapArgs) :
    Except Stop (Nat × Nat × UserSpace) :=
  let offset := c.offset.toNat
  if (offset + c.size) % 2 ^ 64 < offset then .ok (err 1, 0, u)
  else if offset % pageSize = 0 then
    u.placeArea rbInsertColor file c.addr.toNat c.len.toNat c.longFlags (offset >>> 12)
  else .ok (err 1, 0, u)

def doMmap (u : UserSpace) (file : Option OpenFile) (c : MmapArgs) :
    Except Stop (Nat × UserSpace) := do
  let (ret, cnt, u) ← u.placeMmap rbInsertColor file c
  let u ← u.mallocPages ret cnt
  .ok (ret, u)

/-- There is a file for the descriptors above 2. It is given a page. -/
def sysMmap (u : UserSpace) (file : Option OpenFile) (c : MmapArgs) :
    Except Stop (Nat × UserSpace) := do
  let u ← if file.isSome then u.getPage else .ok u
  u.doMmap rbInsertColor file c

/-- Without a file the areas are those of `do_mmap` on the `mm_struct` alone. -/
theorem placeMmap_mm (u : UserSpace) (c : MmapArgs) : Ends (u.placeMmap rbInsertColor none c)
    (fun r => u.mm.doMmap rbInsertColor none c.addr.toNat c.len.toNat c.longFlags c.offset.toNat =
      some (r.1, r.2.2.mm)) fun _ => True := by
  unfold placeMmap placeArea MmStruct.doMmap MmStruct.doMmapPgoff MmapArgs.size pageSize
  simp only [Option.isSome_none, Bool.false_eq_true, false_and, if_false]
  split_ifs
  all_goals try exact rfl
  all_goals
    cases hchoose : u.mm.chooseAddr c.addr.toNat (pageAlign c.len.toNat) c.longFlags with
    | none => simp [chooseAddr, hchoose, bind, Except.bind, Ends]
    | some out =>
      cases hadd : out.2.addArea rbInsertColor out.1 (pageAlign c.len.toNat)
          (out.2.findVmaPrepare out.1) <;>
        cases hpage : u.phys.getPage <;>
        simp [chooseAddr, makeArea, getPage, linkArea, hchoose, hadd, hpage, bind,
          Except.bind, Ends]

end Areas

end UserSpace

end KernelTravel.Userprog

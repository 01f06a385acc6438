import KernelTravel.Lib.SearchTree
import Mathlib.Algebra.Group.Nat.Defs

/-!
# The memory areas of a process

`mm/mmap.c` keeps the areas of an address space in a list linked by `vm_next` and in a
red-black tree, and counts them. An area is the page that `get_page` returned for it;
`rb_insert_color` is a parameter of which only the in-order sequence matters.

`find_vma_prepare` returns early when an area covers the address, without storing the
place for a new one. Its callers go on with the variables they did not initialise, and
nothing unmaps what a new area overlaps. An operation answers `none` where it uses such
a variable. Page tables, file contents, flags and locks do not enter these structures.
-/

namespace KernelTravel.Mm

def taskSize : Nat := 0x7fffffffffff
def mmapMinAddr : Nat := taskSize / 3
def taskUnmappedBase : Nat := 0x800000000
def maxAddressSpaceSize : Nat := 2 ^ 64 - 1
def sysctlMaxMapCount : Nat := 1024
def maxLfsFilesize : Nat := 0x7fffffffffffffff
def mapFixed : Nat := 0x10
def mapForInitFile : Nat := 0x04

/-- A negative error number as an unsigned long. -/
def err (e : Nat) : Nat := 2 ^ 64 - e

def enomem : Nat := 12
def eoverflow : Nat := 75

def pageAlign (x : Nat) : Nat := (x + 4095) % 2 ^ 64 / 4096 * 4096

structure VmArea where
  vmStart : Nat
  vmEnd : Nat
  vmNext : Option Nat

/-- Areas are numbered in the order of their allocation; `fresh` is the next one. -/
structure MmStruct where
  area : Nat → VmArea
  fresh : Nat
  mmap : Option Nat
  mmRb : SearchTree Nat
  mmapCache : Option Nat
  freeAreaCache : Nat
  mapCount : Nat

namespace MmStruct

/-- `mm_struct_init`, with the `free_area_cache` that `exec` chooses. -/
def initial (freeAreaCache : Nat) : MmStruct where
  area _ := ⟨0, 0, none⟩
  fresh := 0
  mmap := none
  mmRb := .leaf
  mmapCache := none
  freeAreaCache := freeAreaCache
  mapCount := 0

/-- The loop of `find_vma`, with the best area so far. -/
def findVmaIn (mm : MmStruct) (addr : Nat) : SearchTree Nat → Option Nat → Option Nat
  | .leaf, vma => vma
  | .node left v right, vma =>
    if addr < (mm.area v).vmEnd then
      if (mm.area v).vmStart ≤ addr then some v else mm.findVmaIn addr left (some v)
    else mm.findVmaIn addr right vma

def findVma (mm : MmStruct) (addr : Nat) : Option Nat × MmStruct :=
  let search :=
    let vma := mm.findVmaIn addr mm.mmRb none
    (vma, if vma.isSome then { mm with mmapCache := vma } else mm)
  match mm.mmapCache with
  | some v =>
    if addr < (mm.area v).vmEnd ∧ (mm.area v).vmStart ≤ addr then (some v, mm) else search
  | none => search

/-- No area begins before `addr + len`. -/
def endsBefore (mm : MmStruct) (vma : Option Nat) (addr len : Nat) : Bool :=
  vma.all fun v => (addr + len) % 2 ^ 64 ≤ (mm.area v).vmStart

/-- The loop of `get_unmapped_area`. The inner `none` says that the addresses have run
out, the outer one that the list did not end. -/
def searchGap (mm : MmStruct) (len : Nat) : Nat → Option Nat → Nat → Option (Option Nat)
  | 0, _, _ => none
  | fuel + 1, vma, addr =>
    if maxAddressSpaceSize - len < addr then some none
    else match vma with
      | none => some (some addr)
      | some v =>
        if mm.endsBefore vma addr len then some (some addr)
        else mm.searchGap len fuel (mm.area v).vmNext (mm.area v).vmEnd

def fullSearch (mm : MmStruct) (start len : Nat) : Option (Option Nat × MmStruct) := do
  let (vma, mm) := mm.findVma start
  let found ← mm.searchGap len (mm.fresh + 1) vma start
  return (found, mm)

/-- The search of `get_unmapped_area`: from `free_area_cache`, then once from the base. -/
def searchArea (mm : MmStruct) (len : Nat) : Option (Nat × MmStruct) := do
  let start := mm.freeAreaCache
  let (found, mm) ← mm.fullSearch start len
  let (found, mm) ←
    if found.isNone ∧ start ≠ taskUnmappedBase then mm.fullSearch taskUnmappedBase len
    else some (found, mm)
  match found with
  | some a => some (a, { mm with freeAreaCache := (a + len) % 2 ^ 64 })
  | none => some (err 1, mm)

def getUnmappedArea (mm : MmStruct) (addr len flags : Nat) : Option (Nat × MmStruct) :=
  if taskSize - mmapMinAddr < len then some (err enomem, mm)
  else if flags &&& mapFixed ≠ 0 then some (addr, mm)
  else
    let hint := pageAlign addr
    let (vma, mm') := if addr ≠ 0 then mm.findVma hint else (none, mm)
    if addr ≠ 0 ∧ hint ≤ maxAddressSpaceSize - len ∧ mm'.endsBefore vma hint len then
      some (hint, mm')
    else mm'.searchArea len

/-- What `find_vma_prepare` stores: the area before the new one, the parent and the
empty place below it, as a path. -/
structure Place where
  prev : Option Nat
  parent : Option Nat
  link : List Bool

/-- `none` is the early return, which stores nothing. -/
def findVmaPrepareIn (mm : MmStruct) (addr : Nat) :
    SearchTree Nat → Option Nat → Option Nat → Option Place
  | .leaf, prev, parent => some ⟨prev, parent, []⟩
  | .node left v right, prev, _ =>
    if addr < (mm.area v).vmEnd then
      if (mm.area v).vmStart ≤ addr then none
      else (mm.findVmaPrepareIn addr left prev (some v)).map fun place =>
        { place with link := false :: place.link }
    else (mm.findVmaPrepareIn addr right (some v) (some v)).map fun place =>
      { place with link := true :: place.link }

def findVmaPrepare (mm : MmStruct) (addr : Nat) : Option Place :=
  mm.findVmaPrepareIn addr mm.mmRb none none

section Link

variable (rbInsertColor : SearchTree Nat → SearchTree Nat)

/-- `vma_link`. The new area is the page `mm.fresh`. -/
def vmaLink (mm : MmStruct) (vma : Nat) (place : Place) : Option MmStruct := do
  let next := match place.prev with
    | some prev => (mm.area prev).vmNext
    | none => place.parent
  let area := Function.update mm.area vma { mm.area vma with vmNext := next }
  let area := match place.prev with
    | some prev => Function.update area prev { area prev with vmNext := some vma }
    | none => area
  let mmRb ← mm.mmRb.insertAt place.link vma
  return { mm with area, mmRb := rbInsertColor mmRb, mapCount := mm.mapCount + 1
                   mmap := if place.prev.isSome then mm.mmap else some vma }

/-- The common end of `do_mmap_pgoff` and `do_brk`: take a page for the new area, fill
it in and link it. The place is used uninitialised after an early return. -/
def addArea (mm : MmStruct) (addr len : Nat) (place : Option Place) : Option MmStruct := do
  let place ← place
  let vma := mm.fresh
  let area := Function.update mm.area vma ⟨addr, (addr + len) % 2 ^ 64, none⟩
  { mm with area, fresh := vma + 1 }.vmaLink rbInsertColor vma place

def fileMmapOk (pgoff len : Nat) : Bool :=
  len ≤ maxLfsFilesize ∧ pgoff ≤ (maxLfsFilesize - len) >>> 12

/-- The address at which `do_mmap_pgoff` places the area. It is used as it is, also when
it is an error number. -/
def chooseAddr (mm : MmStruct) (addr len flags : Nat) : Option (Nat × MmStruct) :=
  if flags &&& mapForInitFile = 0 then
    mm.getUnmappedArea ((addr + taskUnmappedBase) % 2 ^ 64) len flags
  else some (addr, mm)

/-- `file` is the offset in its page at which `fd_mapping` places the file. -/
def doMmapPgoff (mm : MmStruct) (file : Option Nat) (addr len flags pgoff : Nat) :
    Option (Nat × MmStruct) :=
  let len := pageAlign len
  if len = 0 then some (err enomem, mm)
  else if (pgoff + len >>> 12) % 2 ^ 64 < pgoff then some (err eoverflow, mm)
  else if sysctlMaxMapCount < mm.mapCount then some (err enomem, mm)
  else do
    let (addr, mm) ← mm.chooseAddr addr len flags
    if file.isSome ∧ ¬fileMmapOk pgoff len then return (err eoverflow, mm)
    else
      let mm ← mm.addArea rbInsertColor addr len (mm.findVmaPrepare addr)
      return (addr ||| file.getD 0, mm)

def doMmap (mm : MmStruct) (file : Option Nat) (addr len flags offset : Nat) :
    Option (Nat × MmStruct) :=
  if (offset + pageAlign len) % 2 ^ 64 < offset then some (err 1, mm)
  else if offset % 4096 = 0 then mm.doMmapPgoff rbInsertColor file addr len flags (offset >>> 12)
  else some (err 1, mm)

/-- `error` is an `int`; only its low twelve bits are tested before it is returned. -/
def doBrk (mm : MmStruct) (addr len : Nat) : Option (Nat × MmStruct) :=
  let len := pageAlign len
  if len = 0 then some (addr, mm)
  else do
    let (error, mm) ← mm.getUnmappedArea addr len mapFixed
    if error % 4096 ≠ 0 then return ((BitVec.ofNat 32 error).signExtend 64 |>.toNat, mm)
    else
      let place := mm.findVmaPrepare addr
      if sysctlMaxMapCount < mm.mapCount then return (err enomem, mm)
      else
        let mm ← mm.addArea rbInsertColor addr len place
        return (addr, mm)

end Link

end MmStruct

end KernelTravel.Mm

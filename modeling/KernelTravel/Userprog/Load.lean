import KernelTravel.Lib.Patch
import KernelTravel.Mm.Vma
import KernelTravel.Userprog.Fork

/-!
# Loading a program

`load` goes through the program headers of a file. For each segment `load_phdr` gives every page of
the segment a new page of memory, also where the address space has one already, and then reads the
bytes of the segment to their addresses. Bytes that an earlier segment had on such a page are lost.

The memory is what the process sees at its addresses. The page table looks at 39 bits of an
address, and `bitmap_set` asserts that the page is not above `USER_STACK`, for the number of the
page modulo 2 ^ 32. The file is a function from offsets to bytes. `none` stands for a failed
`ASSERT`, for an access to an address that is not mapped, and for an area that is linked with
variables that are not initialised.
-/

namespace KernelTravel.Userprog

open Function

open Mm (pageSize MmStruct taskUnmappedBase)

def heapStart : Nat := 0x7f0000000

def heapLength : Nat := 0x40000

structure Phdr where
  type : Nat
  offset : Nat
  vaddr : Nat
  filesz : Nat
  memsz : Nat
  deriving DecidableEq

/-- The program header at an offset of the file. -/
def phdrAt (file : Nat → Byte) (phoff : Nat) : Phdr where
  type := Mem.leNum file phoff 4
  offset := Mem.leNum file (phoff + 8) 8
  vaddr := Mem.leNum file (phoff + 16) 8
  filesz := Mem.leNum file (phoff + 32) 8
  memsz := Mem.leNum file (phoff + 40) 8

/-- The program headers from an offset on. -/
def phdrsFrom (file : Nat → Byte) (phentsize : Nat) : Nat → Nat → List Phdr
  | _, 0 => []
  | phoff, cnt + 1 =>
    phdrAt file phoff :: phdrsFrom file phentsize ((phoff + phentsize) % 2 ^ 64) cnt

/-- The file starts with the magic number of a 64-bit little-endian ELF file. -/
def IsElf (file : Nat → Byte) : Prop :=
  (List.range 7).map file = [0x7f, 0x45, 0x4c, 0x46, 2, 1, 1]

instance (file : Nat → Byte) : Decidable (IsElf file) :=
  inferInstanceAs (Decidable ((List.range 7).map file = [0x7f, 0x45, 0x4c, 0x46, 2, 1, 1]))

/-- The segments that are to be loaded, in the order of their headers. -/
def segments (file : Nat → Byte) : List Phdr :=
  (phdrsFrom file (Mem.leNum file 54 2) (Mem.leNum file 32 8) (Mem.leNum file 56 2)).filter
    fun phdr => phdr.type = 1

/-- A request for an area. -/
structure AreaReq where
  addr : Nat
  len : Nat
  offset : Nat

namespace Phdr

/-- The area that `elf_map` asks for. -/
def area (phdr : Phdr) : AreaReq :=
  ⟨phdr.vaddr - phdr.vaddr % pageSize, (phdr.filesz + phdr.vaddr % pageSize) % 2 ^ 64,
    (phdr.offset + 2 ^ 64 - phdr.vaddr % pageSize) % 2 ^ 64⟩

/-- Where the process sees the segment. -/
def low (phdr : Phdr) : Nat := phdr.vaddr % 2 ^ 44

/-- `remain_size` is an `int64_t`. -/
def pageCnt (phdr : Phdr) : Nat :=
  let remainSize := (phdr.memsz + 2 ^ 64 - (pageSize - phdr.vaddr % pageSize)) % 2 ^ 64
  if 0 < remainSize ∧ remainSize < 2 ^ 63 then (remainSize + pageSize - 1) / pageSize + 1 else 1

/-- The bytes that are read from the file. -/
def filePatch (file : Nat → Byte) (phdr : Phdr) : Patch :=
  ⟨phdr.low, (List.range phdr.filesz).map fun k => file (phdr.offset + k)⟩

end Phdr

/-- A new page is cleared. -/
def zeroPage (n : Nat) : Patch := ⟨n * pageSize, List.replicate pageSize 0⟩

/-- The address space of a process: its bytes, the pages that are mapped, the tables that exist on
the two lower levels of the page table, the number of free pages of the machine, and the areas. -/
structure Loader where
  bytes : Nat → Byte
  page : Nat → Bool
  pmd : Nat → Bool
  pt : Nat → Bool
  frames : Nat
  mm : MmStruct
  phaddr : Option Nat

namespace Loader

def space (l : Loader) : Space := ⟨l.bytes, fun a => decide (a < userTop) && l.page (a / pageSize)⟩

/-- `bit_scan` asserts that there is a free page. -/
def takePages (l : Loader) (k : Nat) : Option Loader :=
  if k ≤ l.frames then some { l with frames := l.frames - k } else none

def needPmd (l : Loader) (n : Nat) : Option Loader :=
  if l.pmd (n / 2 ^ 18) then some l
  else (l.takePages 1).map fun l => { l with pmd := update l.pmd (n / 2 ^ 18) true }

def needPt (l : Loader) (n : Nat) : Option Loader :=
  if l.pt (n / 2 ^ 9) then some l
  else (l.takePages 1).map fun l => { l with pt := update l.pt (n / 2 ^ 9) true }

def ptePtr (l : Loader) (n : Nat) : Option Loader := (l.needPmd n).bind fun l => l.needPt n

/-- One round of the loop of `load_phdr`. An entry that is in use is cleared, so that
`malloc_usrpage` always finds it free. -/
def loadPage (l : Loader) (n : Nat) : Option Loader := do
  let l ← l.ptePtr n
  let l ← l.takePages 1
  if n ≤ btmpBytesLen * 8 then
    some { l with bytes := (zeroPage n).write l.bytes, page := update l.page n true }
  else none

def loadPages (l : Loader) : Nat → Nat → Option Loader
  | _, 0 => some l
  | n, cnt + 1 => (l.loadPage n).bind fun l => l.loadPages ((n + 1) % 2 ^ 32) cnt

def sysRead (l : Loader) (p : Patch) : Option Loader :=
  (l.space.put p).map fun u => { l with bytes := u.bytes }

section Areas

variable (rbInsertColor : SearchTree Nat → SearchTree Nat)

/-- `do_mmap` takes a page for each new area. -/
def doMmap (l : Loader) (addr len flags offset : Nat) : Option Loader :=
  (l.mm.doMmap rbInsertColor none addr len flags offset).bind fun (_, mm) =>
    (l.takePages (mm.fresh - l.mm.fresh)).map fun l => { l with mm := mm }

def elfMap (l : Loader) (phdr : Phdr) : Option Loader :=
  l.doMmap rbInsertColor phdr.area.addr phdr.area.len
    (0x02 ||| 0x0800 ||| 0x1000 ||| Mm.mapForInitFile) phdr.area.offset

/-- The address of the program headers, if the segment contains them. -/
def notePhaddr (l : Loader) (phdr : Phdr) (phoff : Nat) : Loader :=
  if phdr.offset ≤ phoff ∧ phoff < (phdr.offset + phdr.filesz) % 2 ^ 64 then
    { l with phaddr := some ((phdr.vaddr + (phoff - phdr.offset)) % 2 ^ 64) }
  else l

def loadPhdr (l : Loader) (file : Nat → Byte) (phdr : Phdr) : Option Loader := do
  let l ← l.loadPages (phdr.vaddr / pageSize % 2 ^ 32) phdr.pageCnt
  let l ← l.sysRead (phdr.filePatch file)
  l.elfMap rbInsertColor phdr

/-- The loop over the program headers. -/
def loadPhdrs (l : Loader) (file : Nat → Byte) (phentsize : Nat) : Nat → Nat → Option Loader
  | _, 0 => some l
  | phoff, cnt + 1 =>
    let phdr := phdrAt file phoff
    (if phdr.type = 1 then (l.notePhaddr phdr phoff).loadPhdr rbInsertColor file phdr
      else some l).bind fun l =>
      l.loadPhdrs file phentsize ((phoff + phentsize) % 2 ^ 64) cnt

/-- `free_usrpage` asserts that there is a table for the page. -/
def freeUsrpage (l : Loader) (n : Nat) : Option Loader :=
  if l.pmd (n / 2 ^ 18) ∧ l.pt (n / 2 ^ 9) then some { l with page := update l.page n false }
    else none

/-- Only the areas that `mmap` chose are given up. -/
def freeArea (l : Loader) (vma : Nat) : Option Loader :=
  let area := l.mm.area vma
  if area.vmStart < 0x7f00000000 ∧ taskUnmappedBase ≤ area.vmStart then
    (List.range ((area.vmEnd - area.vmStart + pageSize - 1) / pageSize)).foldlM
      (fun (l : Loader) i => l.freeUsrpage ((area.vmStart / pageSize + i) % 2 ^ 27)) l
  else some l

def freeMappedArea (l : Loader) : Option Loader := l.mm.mmRb.inorder.foldlM freeArea l

/-- The three areas of the stack, of the heap and of the arguments. -/
def mapStack (l : Loader) : Option Loader := do
  let flags := 0x02 ||| Mm.mapFixed ||| 0x20 ||| Mm.mapForInitFile
  let l ← l.doMmap rbInsertColor (userStack - pageSize) pageSize flags 0
  let l ← l.doMmap rbInsertColor heapStart heapLength flags 0
  l.doMmap rbInsertColor (userTop - 0x8000) 0x8000 flags 0

/-- The entry point of the program, or -1. -/
def load (l : Loader) (file : Nat → Byte) : Option (Loader × Int) :=
  if IsElf file then do
    let l ← l.freeMappedArea
    let l ← l.takePages 1
    let l ← { l with mm := .initial taskUnmappedBase }.loadPhdrs rbInsertColor file
      (Mem.leNum file 54 2) (Mem.leNum file 32 8) (Mem.leNum file 56 2)
    let l ← l.mapStack rbInsertColor
    return (l, Mem.leNum file 24 8)
  else some (l, -1)

end Areas

end Loader

/-! ## What the program finds -/

/-- The bytes of the segment are those of the file, and zeros behind them. -/
def Loader.Holds (l : Loader) (file : Nat → Byte) (phdr : Phdr) : Prop :=
  ∀ k, k < phdr.filesz ∨ k < phdr.memsz → l.space.mapped (phdr.low + k) = true ∧
    l.bytes (phdr.low + k) = if k < phdr.filesz then file (phdr.offset + k) else 0

/-- What loading a segment writes: new pages, and the bytes of the file. -/
def Phdr.writes (file : Nat → Byte) (phdr : Phdr) : List Patch :=
  (List.range' (phdr.low / pageSize) phdr.pageCnt).map zeroPage ++ [phdr.filePatch file]

/-- The wanted bytes of a segment. -/
def Phdr.content (file : Nat → Byte) (phdr : Phdr) : Patch :=
  ⟨phdr.low, (phdr.filePatch file).bytes ++ List.replicate (phdr.memsz - phdr.filesz) 0⟩

/-- What the later segments write leaves the bytes of the earlier ones. -/
def Survives (file : Nat → Byte) : List Phdr → Prop
  | [] => True
  | phdr :: later =>
    (∀ x b, (phdr.content file).get? x = some b →
      Patch.writeAll (fun _ => b) (later.flatMap fun phdr => phdr.writes file) x = b) ∧
      Survives file later

/-! ## The effect of each step -/

namespace Loader

variable {l l' l'' : Loader} {ps qs : List Patch} {n k : Nat} {file : Nat → Byte} {phdr : Phdr}
variable {rbInsertColor : SearchTree Nat → SearchTree Nat}

/-- The patches are written, and no page is given up. -/
structure Effect (ps : List Patch) (l l' : Loader) : Prop where
  bytes : l'.bytes = Patch.writeAll l.bytes ps
  page : ∀ n, l.page n = true → l'.page n = true

theorem Effect.none (hbytes : l'.bytes = l.bytes) (hpage : l'.page = l.page) : Effect [] l l' :=
  ⟨hbytes, fun _ h => hpage ▸ h⟩

theorem Effect.trans (h : Effect ps l l') (h' : Effect qs l' l'') : Effect (ps ++ qs) l l'' where
  bytes := by rw [h'.bytes, h.bytes, Patch.writeAll_append]
  page n hn := h'.page n (h.page n hn)

theorem Effect.covers {p : Patch} (h : Effect ps l l') (hp : l.space.Covers p) :
    l'.space.Covers p := by
  intro i hi
  have hmapped := hp i hi
  simp only [space, Bool.and_eq_true] at hmapped ⊢
  exact ⟨hmapped.1, h.page _ hmapped.2⟩

theorem takePages_effect (h : l.takePages k = some l') : Effect [] l l' := by
  rw [takePages, Option.ite_none_right_eq_some] at h
  obtain ⟨-, heq⟩ := h
  cases heq
  exact .none rfl rfl

theorem needPmd_effect (h : l.needPmd n = some l') : Effect [] l l' := by
  rw [needPmd] at h
  split at h
  · cases h
    exact .none rfl rfl
  · obtain ⟨l₁, htake, rfl⟩ := Option.map_eq_some_iff.mp h
    have effect := takePages_effect htake
    exact ⟨effect.bytes, effect.page⟩

theorem needPt_effect (h : l.needPt n = some l') : Effect [] l l' := by
  rw [needPt] at h
  split at h
  · cases h
    exact .none rfl rfl
  · obtain ⟨l₁, htake, rfl⟩ := Option.map_eq_some_iff.mp h
    have effect := takePages_effect htake
    exact ⟨effect.bytes, effect.page⟩

theorem loadPage_effect (h : l.loadPage n = some l') :
    Effect [zeroPage n] l l' ∧ l'.page n = true ∧ n ≤ btmpBytesLen * 8 := by
  obtain ⟨l₁, hpte, h⟩ := Option.bind_eq_some_iff.mp h
  obtain ⟨l₂, htake, h⟩ := Option.bind_eq_some_iff.mp h
  obtain ⟨l₀, hpmd, hpt⟩ := Option.bind_eq_some_iff.mp hpte
  rw [Option.ite_none_right_eq_some] at h
  obtain ⟨hn, heq⟩ := h
  cases heq
  have before := (needPmd_effect hpmd).trans ((needPt_effect hpt).trans (takePages_effect htake))
  refine ⟨⟨?_, fun m hm => ?_⟩, update_self .., hn⟩
  · change (zeroPage n).write l₂.bytes = _
    rw [before.bytes]
    rfl
  · change update l₂.page n true m = true
    by_cases heq : m = n
    · rw [heq, update_self]
    · rw [update_of_ne heq]
      exact before.page m hm

/-- The pages that a completed loop has mapped. No number of a page has wrapped around. -/
theorem loadPages_effect {cnt : Nat} (h : l.loadPages n cnt = some l') :
    Effect ((List.range' n cnt).map zeroPage) l l' ∧
      ∀ i < cnt, l'.page (n + i) = true ∧ n + i ≤ btmpBytesLen * 8 := by
  induction cnt generalizing l n with
  | zero =>
    cases h
    exact ⟨.none rfl rfl, fun i hi => absurd hi (Nat.not_lt_zero i)⟩
  | succ cnt ih =>
    obtain ⟨l₁, hpage, hrest⟩ := Option.bind_eq_some_iff.mp h
    obtain ⟨effect, hmapped, hn⟩ := loadPage_effect hpage
    have hsmall : btmpBytesLen * 8 < 2 ^ 27 := by decide
    rw [Nat.mod_eq_of_lt (show n + 1 < 2 ^ 32 by omega)] at hrest
    obtain ⟨effect', hmapped'⟩ := ih hrest
    refine ⟨?_, fun i hi => ?_⟩
    · rw [List.range'_succ, List.map_cons]
      exact effect.trans effect'
    · cases i with
      | zero => exact ⟨effect'.page n hmapped, hn⟩
      | succ i =>
        rw [show n + (i + 1) = n + 1 + i by omega]
        exact hmapped' i (by omega)

theorem low_div (phdr : Phdr) : phdr.vaddr / pageSize % 2 ^ 32 = phdr.low / pageSize := by
  rw [Phdr.low, show (2 : Nat) ^ 44 = pageSize * 2 ^ 32 by rfl, Nat.mod_mul_right_div_self]

end Loader

/-! ## The bytes of the segments -/

section Contents

variable {l : Loader} {file : Nat → Byte} {phdr : Phdr} {m : Nat → Byte} {x : Nat} {b : Byte}

theorem content_length : (phdr.content file).bytes.length = max phdr.filesz phdr.memsz := by
  simp only [Phdr.content, Phdr.filePatch, List.length_append, List.length_map, List.length_range,
    List.length_replicate]
  omega

/-- The pages of a segment reach to its end. -/
theorem le_pages (hsize : phdr.memsz < 2 ^ 63) :
    phdr.low + phdr.memsz ≤ (phdr.low / pageSize + phdr.pageCnt) * pageSize := by
  have hpage : pageSize = 4096 := rfl
  have hoff : phdr.vaddr % 4096 = phdr.low % 4096 := by
    rw [Phdr.low]
    omega
  simp only [Phdr.pageCnt, hpage]
  split <;> omega

/-- A segment whose pages are mapped is mapped. -/
theorem mapped_of_pages (hsize : phdr.memsz < 2 ^ 63)
    (pages : ∀ i < phdr.pageCnt, l.page (phdr.low / pageSize + i) = true ∧
      phdr.low / pageSize + i ≤ btmpBytesLen * 8) {i : Nat} (hi : i < phdr.memsz) :
    l.space.mapped (phdr.low + i) = true := by
  have hpages := le_pages hsize
  have hpage : pageSize = 4096 := rfl
  have htop : (btmpBytesLen * 8 + 1) * pageSize ≤ userTop := by decide
  rw [hpage] at hpages htop
  obtain ⟨hmapped, hlow⟩ := pages ((phdr.low + i) / 4096 - phdr.low / 4096) (by omega)
  have hnumber : phdr.low / 4096 + ((phdr.low + i) / 4096 - phdr.low / 4096) =
      (phdr.low + i) / 4096 := by
    omega
  rw [hpage, hnumber] at hmapped hlow
  have hlt : phdr.low + i < userTop := by omega
  change (decide (phdr.low + i < userTop) && l.page ((phdr.low + i) / 4096)) = true
  rw [hmapped, decide_eq_true hlt, Bool.and_true]

theorem zeroPage_get? {n : Nat} (h : (zeroPage n).get? x = some b) : b = 0 := by
  obtain ⟨i, -, hi⟩ := Patch.get?_eq_some_iff.mp h
  obtain ⟨-, rfl⟩ := List.getElem?_eq_some_iff.mp hi
  exact List.getElem_replicate ..

/-- The address is on a page of the segment. -/
def Phdr.OnPages (phdr : Phdr) (x : Nat) : Prop :=
  phdr.low / pageSize ≤ x / pageSize ∧ x / pageSize < phdr.low / pageSize + phdr.pageCnt

instance (phdr : Phdr) (x : Nat) : Decidable (phdr.OnPages x) := inferInstanceAs (Decidable (_ ∧ _))

/-- What segments write at an address that none of them wants: only their new pages are there. -/
theorem get?_writes {segs : List Phdr} (hapart : ∀ q ∈ segs, x < q.low ∨ q.low + q.filesz ≤ x)
    {p : Patch} (hp : p ∈ segs.flatMap fun phdr => phdr.writes file) (hb : p.get? x = some b) :
    b = 0 ∧ ∃ q ∈ segs, q.OnPages x := by
  obtain ⟨q, hq, hmem⟩ := List.mem_flatMap.mp hp
  rcases List.mem_append.mp hmem with hzero | hfile
  · obtain ⟨n, hn, rfl⟩ := List.mem_map.mp hzero
    have hx := Patch.bounds_of_get? hb
    have hrange := List.mem_range'_1.mp hn
    have hpage : pageSize = 4096 := rfl
    simp only [zeroPage, List.length_replicate, hpage] at hx
    have hnumber : x / pageSize = n := by
      rw [hpage]
      omega
    exact ⟨zeroPage_get? hb, q, hq, hnumber ▸ hrange.1, hnumber ▸ hrange.2⟩
  · rw [List.mem_singleton.mp hfile] at hb
    have hx := Patch.bounds_of_get? hb
    simp only [Phdr.filePatch, List.length_map, List.length_range] at hx
    have := hapart q hq
    omega

theorem exists_of_onPages {segs : List Phdr} {q : Phdr} (hq : q ∈ segs) (hx : q.OnPages x) :
    ∃ p ∈ segs.flatMap fun phdr => phdr.writes file, p.get? x ≠ none := by
  have hpage : pageSize = 4096 := rfl
  refine ⟨zeroPage (x / pageSize), List.mem_flatMap.mpr ⟨q, hq, List.mem_append_left _ ?_⟩, ?_⟩
  · exact List.mem_map.mpr ⟨_, List.mem_range'_1.mpr hx, rfl⟩
  · rw [ne_eq, Patch.get?_eq_none_iff]
    simp only [zeroPage, List.length_replicate, hpage]
    omega

/-- Disjoint segments survive exactly if no byte other than 0 is on a page of a later segment. -/
theorem survives_iff {segs : List Phdr} (hfile : ∀ phdr ∈ segs, phdr.filesz ≤ phdr.memsz)
    (disjoint : segs.Pairwise fun p q => p.low + p.memsz ≤ q.low ∨ q.low + q.memsz ≤ p.low) :
    Survives file segs ↔ segs.Pairwise fun earlier later =>
      ∀ x b, (earlier.content file).get? x = some b → b ≠ 0 → ¬later.OnPages x := by
  induction segs with
  | nil => exact iff_of_true trivial .nil
  | cons phdr later ih =>
    obtain ⟨hfirst, hlater⟩ := List.forall_mem_cons.mp hfile
    obtain ⟨hapart, hrest⟩ := List.pairwise_cons.mp disjoint
    rw [Survives, List.pairwise_cons, ih hlater hrest]
    refine and_congr_left fun _ => ?_
    have hnone : ∀ {x b}, (phdr.content file).get? x = some b → ∀ q ∈ later, x < q.low ∨
        q.low + q.filesz ≤ x := by
      intro x b hb q hq
      have hx := Patch.bounds_of_get? hb
      rw [content_length] at hx
      have hposition : (phdr.content file).pos = phdr.low := rfl
      have := hapart q hq
      have := hlater q hq
      omega
    constructor
    · intro h q hq x b hb hne hx
      obtain ⟨p, hp, hseen⟩ :=
        Patch.exists_get?_writeAll (m := fun _ => b) (exists_of_onPages hq hx)
      rw [h x b hb] at hseen
      exact hne (get?_writes (hnone hb) hp hseen).1
    · intro h x b hb
      by_cases hcovered : ∃ p ∈ later.flatMap fun phdr => phdr.writes file, p.get? x ≠ none
      · obtain ⟨p, hp, hseen⟩ := Patch.exists_get?_writeAll (m := fun _ => b) hcovered
        obtain ⟨hzero, q, hq, hx⟩ := get?_writes (hnone hb) hp hseen
        rw [hzero]
        by_contra hne
        exact h q hq x b hb (Ne.symm hne) hx
      · push Not at hcovered
        exact Patch.writeAll_of_uncovered hcovered

end Contents

/-! ## Examples -/

/-- A file with two segments of one byte, at 0x10000 and at 0x10010. -/
def sharedElf (i : Nat) : Byte :=
  (([(0, 0x7f), (1, 0x45), (2, 0x4c), (3, 0x46), (4, 2), (5, 1), (6, 1), (32, 64),
    (54, 56), (56, 2), (64, 1), (82, 1), (96, 1), (104, 1),
    (120, 1), (128, 1), (136, 0x10), (138, 1), (152, 1), (160, 1)] :
    List (Nat × Byte)).lookup i).getD 0

/-- The byte of the first segment is not 0 and lies on the page of the second one. -/
theorem survives_iff_shared : ¬Survives sharedElf (segments sharedElf) := by
  intro survives
  have hpairs := (survives_iff (by decide +kernel) (by decide +kernel)).mp survives
  have hsegs : segments sharedElf = [⟨1, 0, 0x10000, 1, 1⟩, ⟨1, 1, 0x10010, 1, 1⟩] := by
    decide +kernel
  rw [hsegs] at hpairs
  exact (List.pairwise_cons.mp hpairs).1 _ List.mem_cons_self 0x10000 0x7f
    (by decide +kernel) (by decide) (by decide)

end KernelTravel.Userprog

import KernelTravel.Fat32.Walk
import KernelTravel.Lib.CString

/-!
# Looking for the next entry of a directory

`dirGetDentFrom` of `fs/fat32/directory.c` with the string functions it uses. Long entries
are put before the name that is collected in `fullName`, thirteen characters at a time and
without a look at its length. The name is not emptied by the entry with the flag
`LAST_LONG_ENTRY`, only by the return with a short entry. A short name is copied with
`strcpy`, which runs on behind its eleven bytes until it finds a zero.

The buffers are local arrays: what they hold at the start, and what lies behind `direntBuf`,
is whatever the stack holds. A write outside an array is the trap `overrun`; a failing
assertion and a loop without an end are the trap `stuck`.

`IsDirOf.call_ok` describes a call by the texts of the slots, and `NamesFit` says for which
slots no array is left.
-/

namespace KernelTravel.Fat32

open Function

abbrev Wchar := BitVec 16

def maxNameLen : Nat := 128

def fat32InvalidEntry : Byte := 0xE5
def attrDirectory : Byte := 0x10
def attrLongNameMask : Byte := 0x0F
def lastLongEntry : Byte := 0x40

inductive Trap where
  | overrun
  | stuck
  deriving DecidableEq

section Strings

/-- Put `len` characters before the string in `buf`, an array of `maxNameLen` elements. -/
def wstrnins (buf str : Nat → Wchar) (len : Nat) : Except Trap (Nat → Wchar) :=
  match CStr.strlen maxNameLen buf with
  | none => .error .overrun
  | some lbuf =>
    if lbuf + len < maxNameLen then
      .ok (CStr.putFront (CStr.shiftUp buf (lbuf + 1) len) str len)
    else .error .overrun

/-- The low bytes of the characters. Both arrays have `maxNameLen` elements. -/
def wstr2str (dst : Nat → Byte) (src : Nat → Wchar) : Except Trap (Nat → Byte) :=
  match CStr.strlen maxNameLen src with
  | none => .error .overrun
  | some n => .ok (update (Mem.blit dst 0 n fun i => (src i).setWidth 8) n 0)

/-- `strcpy` into an array of `maxNameLen` bytes. -/
def strcpyName (dst src : Nat → Byte) : Except Trap (Nat → Byte) :=
  match CStr.strlen maxNameLen src with
  | none => .error .overrun
  | some n => .ok (Mem.blit dst 0 (n + 1) src)

end Strings

section Slots

/-- `strncmp(name, pattern, 11) == 0` for a pattern without zeros. -/
def nameIs (name : Nat → Byte) (pattern : List Byte) : Bool := (List.range 11).map name = pattern

/-- A dot and ten blanks. -/
def dotName : List Byte := 0x2E :: List.replicate 10 0x20

def dotDotName : List Byte := 0x2E :: 0x2E :: List.replicate 9 0x20

/-- Slots that are passed over: free ones, deleted ones, and the entries of the directory
itself and of its parent. -/
def isSkipped (f : Nat → Byte) : Bool :=
  f 0 = 0 || f 0 = fat32InvalidEntry || nameIs f dotName || nameIs f dotDotName

def isDirectory (f : Nat → Byte) : Bool := f 11 &&& attrDirectory ≠ 0

/-- `DIR_FstClusHI` and `DIR_FstClusLO`. -/
def slotClus (f : Nat → Byte) : Nat := Mem.leNum f 20 2 * 65536 + Mem.leNum f 26 2

/-- `tmpBuf`: the three pieces of the name in a long entry, one behind the other. -/
def tmpBuf (f : Nat → Byte) : Nat → Byte :=
  let buf := Mem.blit (fun _ => 0) 0 10 fun k => f (1 + k)
  let buf := Mem.blit buf 10 12 fun k => f (14 + k)
  Mem.blit buf 22 4 fun k => f (28 + k)

def longChar (f : Nat → Byte) (i : Nat) : Wchar := BitVec.ofNat 16 (Mem.leNum (tmpBuf f) (2 * i) 2)

def bytesLongent : Nat := 13

end Slots

/-- The local arrays of `dirGetDentFrom`. -/
structure ScanBufs where
  direntBuf : Nat → Byte
  tmpName : Nat → Byte
  fullName : Nat → Wchar

namespace ScanBufs

def insertLong (b : ScanBufs) : Except Trap ScanBufs := do
  -- the flag empties the other buffer
  let tmpName := if b.direntBuf 0 &&& lastLongEntry ≠ 0 then update b.tmpName 0 0 else b.tmpName
  let fullName ← wstrnins b.fullName (longChar b.direntBuf) bytesLongent
  return { b with tmpName, fullName }

def takeName (b : ScanBufs) : Except Trap (Nat → Byte) := do
  match CStr.strlen maxNameLen b.fullName with
  | none => .error .overrun
  | some 0 =>
    let tmpName ← strcpyName b.tmpName b.direntBuf
    return update tmpName 11 0
  | some _ => wstr2str b.tmpName b.fullName

end ScanBufs

/-- What `dirGetDentFrom` fills in of a `Dirent`. -/
structure Entry where
  name : List Byte
  rawDirent : Fin direntSize → Byte
  firstClus : Nat
  fileSize : Nat
  parentDirOff : Nat
  isDir : Bool

/-- What the scan uses of the directory and of its file system: the read of 32 bytes at an
offset into a buffer, the size, and `countClusters`. -/
structure Directory where
  read : (Nat → Byte) → Nat → Option (Nat → Byte)
  fileSize : Nat
  clusSize : Nat
  count : Nat → Option Nat

namespace Directory

/-- The size of a directory is that of its clusters. -/
def sizeOf (dir : Directory) (f : Nat → Byte) : Except Trap Nat :=
  if isDirectory f then
    match dir.count (slotClus f) with
    | none => .error .stuck
    | some n => .ok (n * dir.clusSize % 2 ^ 32)
  else .ok (Mem.leNum f 28 4)

def entryAt (dir : Directory) (f : Nat → Byte) (name : List Byte) (j : Nat) : Except Trap Entry :=
  (dir.sizeOf f).map fun fileSize =>
    { name, rawDirent := Mem.window f 0 direntSize, firstClus := slotClus f, fileSize,
      parentDirOff := j, isDir := isDirectory f }

/-- A short entry: its name is decoded, and an entry of the pool is filled in. -/
def found (dir : Directory) (pool j : Nat) (b : ScanBufs) : Except Trap (Entry × Nat) := do
  let tmpName ← b.takeName
  -- `dirent_alloc` asserts that the pool has an entry left
  if pool = 0 then .error .stuck
  else
    match CStr.strlen maxNameLen tmpName with
    | none => .error .overrun
    | some n =>
      let entry ← dir.entryAt b.direntBuf ((List.range n).map tmpName) j
      return (entry, j + direntSize)

/-- The loop over the slots at the offsets `js`; the answer is the entry with the offset
behind it. -/
def scanLoop (dir : Directory) (pool : Nat) :
    List Nat → ScanBufs → Except Trap (Option (Entry × Nat))
  | [], _ => .ok none
  | j :: js, b =>
    match dir.read b.direntBuf j with
    | none => .error .stuck
    | some direntBuf => do
      let b := { b with direntBuf }
      if isSkipped direntBuf then scanLoop dir pool js b
      else if direntBuf 11 = attrLongNameMask then
        let b ← b.insertLong
        scanLoop dir pool js b
      else
        let answer ← dir.found pool j b
        return some answer

/-- The offsets of the slots from `offset` on. -/
def slotOffsets (offset size : Nat) : List Nat :=
  (List.range ((size - offset + direntSize - 1) / direntSize)).map fun i => offset + direntSize * i

/-- `pool` entries are free, and the stack holds `stack`. -/
def dirGetDentFrom (dir : Directory) (pool : Nat) (stack : ScanBufs) (offset : Nat) :
    Except Trap (Option (Entry × Nat)) :=
  if offset % direntSize ≠ 0 then .error .stuck
  else
    dir.scanLoop pool (slotOffsets offset dir.fileSize)
      { stack with fullName := update stack.fullName 0 0 }

end Directory

section Texts

/-- The thirteen characters of a long entry. -/
def longText (f : Nat → Byte) : List Wchar := (List.range bytesLongent).map (longChar f)

/-- The collected name after a long entry. -/
def collect (p : List Wchar) (f : Nat → Byte) : List Wchar := CStr.cut (longText f ++ p)

def lowBytes (p : List Wchar) : List Byte := CStr.cut (p.map (·.setWidth 8))

def shortText (f : Nat → Byte) : List Byte := CStr.cut ((List.range 11).map f)

/-- The name of a short entry behind long entries with the text `p`. -/
def entryName (p : List Wchar) (f : Nat → Byte) : List Byte :=
  if p = [] then shortText f else lowBytes p

/-- `strcpy` finds a zero in time. -/
def EndsInTime (f : Nat → Byte) : Prop := ∃ k < maxNameLen, f k = 0

instance (f : Nat → Byte) : Decidable (EndsInTime f) :=
  inferInstanceAs (Decidable (∃ k < maxNameLen, f k = 0))

variable {b : ScanBufs} {p : List Wchar}

theorem wstrnins_ok {buf : Nat → Wchar} (h : CStr.Holds buf p) (f : Nat → Byte)
    (hfit : p.length + bytesLongent < maxNameLen) :
    ∃ buf', wstrnins buf (longChar f) bytesLongent = .ok buf' ∧ CStr.Holds buf' (collect p f) := by
  refine ⟨_, ?_, h.insert (longChar f) bytesLongent⟩
  rw [wstrnins, h.strlen (Nat.lt_of_le_of_lt (Nat.le_add_right _ _) hfit)]
  exact if_pos hfit

theorem wstrnins_overrun {buf : Nat → Wchar} (h : CStr.Holds buf p) (hp : p.length < maxNameLen)
    (f : Nat → Byte) (hfull : ¬p.length + bytesLongent < maxNameLen) :
    wstrnins buf (longChar f) bytesLongent = .error .overrun := by
  rw [wstrnins, h.strlen hp]
  exact if_neg hfull

theorem length_collect (p : List Wchar) (f : Nat → Byte) :
    (collect p f).length ≤ p.length + bytesLongent := by
  refine (CStr.length_cut_le _).trans (Nat.le_of_eq ?_)
  rw [List.length_append, longText, List.length_map, List.length_range, Nat.add_comm]

/-- The array that `wstr2str` leaves. -/
theorem wstr2str_holds {src : Nat → Wchar} (h : CStr.Holds src p) (hp : p.length < maxNameLen)
    (dst : Nat → Byte) : ∃ buf, wstr2str dst src = .ok buf ∧ CStr.Holds buf (lowBytes p) := by
  refine ⟨_, by rw [wstr2str, h.strlen hp], ?_⟩
  rw [lowBytes, ← CStr.cut_append_zero]
  refine CStr.holds_cut (fun i hi => ?_) (by simp)
  simp only [List.length_append, List.length_map, List.length_cons, List.length_nil] at hi
  rcases Nat.lt_or_ge i p.length with hchar | hstop
  · rw [update_of_ne (by omega), Mem.blit_apply, if_pos (by omega), Nat.sub_zero,
      List.getElem_append_left (by simpa using hchar), List.getElem_map, h.chars i hchar]
  · obtain rfl : i = p.length := by omega
    rw [update_self, List.getElem_append_right (by simp), List.getElem_singleton]

/-- The array that `strcpy` of a short name leaves, with a zero behind the eleven bytes. -/
theorem strcpyName_holds {f : Nat → Byte} (h : EndsInTime f) (dst : Nat → Byte) :
    ∃ buf, strcpyName dst f = .ok buf ∧ CStr.Holds (update buf 11 0) (shortText f) := by
  obtain ⟨n, hn⟩ : ∃ n, CStr.strlen maxNameLen f = some n := by
    rw [← Option.isSome_iff_exists, Option.isSome_iff_ne_none, Ne, CStr.strlen_eq_none_iff]
    obtain ⟨k, hk, hzero⟩ := h
    exact fun hall => hall k hk hzero
  obtain ⟨-, holds⟩ := CStr.holds_of_strlen hn
  have hzero : f n = 0 := by simpa using holds.stop
  refine ⟨_, by rw [strcpyName, hn], ?_⟩
  have hcopy : ∀ i, i ≤ n → i ≠ 11 → update (Mem.blit dst 0 (n + 1) f) 11 0 i = f i := by
    intro i hi hne
    rw [update_of_ne hne, Mem.blit_apply, if_pos (by omega), Nat.sub_zero]
  rcases Nat.lt_or_ge n 11 with hearly | hlate
  · have hsplit : (List.range 11).map f =
        (List.range (n + 1)).map f ++ ((List.range (10 - n)).map fun i => f (n + 1 + i)) := by
      rw [show 11 = n + 1 + (10 - n) by omega, List.range_add, List.map_append, List.map_map]
      rfl
    have hmem : (0 : Byte) ∈ (List.range (n + 1)).map f :=
      List.mem_map.mpr ⟨n, List.mem_range.mpr (Nat.lt_succ_self n), hzero⟩
    rw [shortText, hsplit, CStr.cut_append_of_mem hmem]
    refine CStr.holds_cut (fun i hi => ?_) hmem
    rw [List.length_map, List.length_range] at hi
    rw [List.getElem_map, List.getElem_range]
    exact hcopy i (by omega) (by omega)
  · rw [shortText, ← CStr.cut_append_zero]
    refine CStr.holds_cut (fun i hi => ?_) (by simp)
    simp only [List.length_append, List.length_map, List.length_range, List.length_cons,
      List.length_nil] at hi
    rcases Nat.lt_or_ge i 11 with hlow | hhigh
    · rw [List.getElem_append_left (by simpa using hlow), List.getElem_map, List.getElem_range]
      exact hcopy i (by omega) (by omega)
    · obtain rfl : i = 11 := by omega
      rw [update_self, List.getElem_append_right (by simp), List.getElem_singleton]

theorem lowBytes_length_le (p : List Wchar) : (lowBytes p).length ≤ p.length := by
  refine (CStr.length_cut_le _).trans (Nat.le_of_eq (List.length_map ..))

theorem length_shortText_le (f : Nat → Byte) : (shortText f).length ≤ 11 := by
  refine (CStr.length_cut_le _).trans (Nat.le_of_eq ?_)
  rw [List.length_map, List.length_range]

theorem length_entryName_lt (hp : p.length < maxNameLen) (f : Nat → Byte) :
    (entryName p f).length < maxNameLen := by
  rw [entryName]
  split
  · exact (length_shortText_le f).trans_lt (by decide)
  · exact (lowBytes_length_le p).trans_lt hp

/-- A name of long entries fits. A short name has to have an end. -/
def NameFits (ends : (Nat → Byte) → Prop) (p : List Wchar) (f : Nat → Byte) : Prop :=
  p = [] → ends f

theorem takeName_ok (h : CStr.Holds b.fullName p) (hp : p.length < maxNameLen)
    (hfits : NameFits EndsInTime p b.direntBuf) :
    ∃ buf, b.takeName = .ok buf ∧ CStr.Holds buf (entryName p b.direntBuf) := by
  cases p with
  | nil =>
    have hzero : CStr.strlen maxNameLen b.fullName = some 0 := h.strlen hp
    obtain ⟨buf, hcopy, holds⟩ := strcpyName_holds (hfits rfl) b.tmpName
    refine ⟨_, ?_, holds⟩
    rw [ScanBufs.takeName, hzero, hcopy]
    rfl
  | cons c p =>
    have hsome : CStr.strlen maxNameLen b.fullName = some (p.length + 1) := h.strlen hp
    obtain ⟨buf, hcopy, holds⟩ := wstr2str_holds h hp b.tmpName
    refine ⟨buf, ?_, holds⟩
    rw [ScanBufs.takeName, hsome, hcopy]
    rfl

theorem takeName_overrun (h : CStr.Holds b.fullName p) (hp : p.length < maxNameLen)
    (hfits : ¬NameFits EndsInTime p b.direntBuf) : b.takeName = .error .overrun := by
  obtain ⟨rfl, hlate⟩ : p = [] ∧ ¬EndsInTime b.direntBuf := Classical.not_imp.mp hfits
  have hzero : CStr.strlen maxNameLen b.fullName = some 0 := h.strlen hp
  have hnone : CStr.strlen maxNameLen b.direntBuf = none :=
    CStr.strlen_eq_none_iff.mpr fun n hn hzero => hlate ⟨n, hn, hzero⟩
  rw [ScanBufs.takeName, hzero, strcpyName, hnone]
  rfl

end Texts

section Call

/-- No array is left on the way to the first short entry: every long entry still fits
before the name collected so far, and the short name has an end. -/
def NamesFit (ends : (Nat → Byte) → Prop) : List Wchar → List (Nat → Byte) → Prop
  | _, [] => True
  | p, f :: fs =>
    if isSkipped f then NamesFit ends p fs
    else if f 11 = attrLongNameMask then
      p.length + bytesLongent < maxNameLen ∧ NamesFit ends (collect p f) fs
    else NameFits ends p f

/-- The first short entry, with the text of the long entries before it. -/
def firstShort : List Wchar → List (Nat × (Nat → Byte)) → Option (List Wchar × Nat × (Nat → Byte))
  | _, [] => none
  | p, (j, f) :: rest =>
    if isSkipped f then firstShort p rest
    else if f 11 = attrLongNameMask then firstShort (collect p f) rest
    else some (p, j, f)

/-- What is left to do for a short entry whose name fits. -/
def Directory.fillEntry (dir : Directory) (pool : Nat) (p : List Wchar) (j : Nat) (f : Nat → Byte) :
    Except Trap (Entry × Nat) :=
  if pool = 0 then .error .stuck
  else (dir.entryAt f (entryName p f) j).map fun entry => (entry, j + direntSize)

/-- The buffer holds `f` after a read at `j`; the bytes behind it are those of `behind`. -/
def ReadsAs (dir : Directory) (behind : Nat → Byte) (j : Nat) (f : Nat → Byte) : Prop :=
  (∀ buf : Nat → Byte, (∀ k, direntSize ≤ k → buf k = behind k) → dir.read buf j = some f) ∧
    ∀ k, direntSize ≤ k → f k = behind k

variable {dir : Directory} {pool : Nat} {behind : Nat → Byte} {b : ScanBufs} {p : List Wchar}
  {slots : List (Nat × (Nat → Byte))}

theorem found_ok (h : CStr.Holds b.fullName p) (hp : p.length < maxNameLen) (j : Nat)
    (hfits : NameFits EndsInTime p b.direntBuf) :
    dir.found pool j b = dir.fillEntry pool p j b.direntBuf := by
  obtain ⟨buf, hname, holds⟩ := takeName_ok h hp hfits
  have hlen := length_entryName_lt hp b.direntBuf
  rw [Directory.found, hname, Directory.fillEntry]
  change (if pool = 0 then _ else _) = _
  rw [holds.strlen hlen]
  simp only [holds.map_range]
  cases dir.entryAt b.direntBuf (entryName p b.direntBuf) j <;> rfl

theorem found_overrun (h : CStr.Holds b.fullName p) (hp : p.length < maxNameLen) (j : Nat)
    (hfits : ¬NameFits EndsInTime p b.direntBuf) : dir.found pool j b = .error .overrun := by
  rw [Directory.found, takeName_overrun h hp hfits]
  rfl

theorem insertLong_ok (h : CStr.Holds b.fullName p) (hfit : p.length + bytesLongent < maxNameLen) :
    ∃ b', b.insertLong = .ok b' ∧ b'.direntBuf = b.direntBuf ∧
      CStr.Holds b'.fullName (collect p b.direntBuf) := by
  obtain ⟨buf', hins, holds⟩ := wstrnins_ok h b.direntBuf hfit
  have hrun : b.insertLong = .ok { b with
      tmpName := if b.direntBuf 0 &&& lastLongEntry ≠ 0 then update b.tmpName 0 0 else b.tmpName
      fullName := buf' } := by
    rw [ScanBufs.insertLong, hins]
    rfl
  exact ⟨_, hrun, rfl, holds⟩

theorem insertLong_overrun (h : CStr.Holds b.fullName p) (hp : p.length < maxNameLen)
    (hfull : ¬p.length + bytesLongent < maxNameLen) : b.insertLong = .error .overrun := by
  rw [ScanBufs.insertLong, wstrnins_overrun h hp b.direntBuf hfull]
  rfl

/-- A call in which every name fits answers with the first short entry, and any other one writes
behind a buffer. -/
theorem scanLoop_eq (hreads : ∀ slot ∈ slots, ReadsAs dir behind slot.1 slot.2)
    (hbuf : ∀ k, direntSize ≤ k → b.direntBuf k = behind k) (h : CStr.Holds b.fullName p)
    (hp : p.length < maxNameLen) :
    (NamesFit EndsInTime p (slots.map Prod.snd) → dir.scanLoop pool (slots.map Prod.fst) b =
      match firstShort p slots with
      | none => .ok none
      | some (q, j, f) => (dir.fillEntry pool q j f).map some) ∧
    (¬NamesFit EndsInTime p (slots.map Prod.snd) →
      dir.scanLoop pool (slots.map Prod.fst) b = .error .overrun) := by
  induction slots generalizing b p with
  | nil => exact ⟨fun _ => rfl, fun hfit => absurd trivial hfit⟩
  | cons slot slots ih =>
    obtain ⟨j, f⟩ := slot
    obtain ⟨hread, hreads⟩ := List.forall_mem_cons.mp hreads
    have hget := hread.1 b.direntBuf hbuf
    simp only [List.map_cons, Directory.scanLoop, hget, firstShort, NamesFit]
    split_ifs
    · exact ih hreads hread.2 h hp
    · by_cases hroom : p.length + bytesLongent < maxNameLen
      · obtain ⟨b', hins, hsame, holds⟩ := @insertLong_ok { b with direntBuf := f } p h hroom
        rw [hins, and_iff_right hroom]
        refine ih hreads (fun k hk => ?_) holds ((length_collect p f).trans_lt hroom)
        rw [hsame]
        exact hread.2 k hk
      · rw [@insertLong_overrun { b with direntBuf := f } p h hp hroom]
        exact ⟨fun hfit => absurd hfit.1 hroom, fun _ => rfl⟩
    · constructor
      · intro hfit
        rw [@found_ok dir pool { b with direntBuf := f } p h hp j hfit]
        simp only
        cases dir.fillEntry pool p j f <;> rfl
      · intro hfit
        rw [@found_overrun dir pool { b with direntBuf := f } p h hp j hfit]
        rfl

theorem fillEntry_ne_overrun (j : Nat) (f : Nat → Byte) :
    dir.fillEntry pool p j f ≠ .error .overrun := by
  rw [Directory.fillEntry, Directory.entryAt, Directory.sizeOf]
  split
  · exact nofun
  · split
    · cases dir.count _ with
      | none => exact nofun
      | some n => exact nofun
    · exact nofun

/-- A call leaves an array exactly when a name does not fit. -/
theorem scanLoop_ne_overrun_iff (hreads : ∀ slot ∈ slots, ReadsAs dir behind slot.1 slot.2)
    (hbuf : ∀ k, direntSize ≤ k → b.direntBuf k = behind k) (h : CStr.Holds b.fullName p)
    (hp : p.length < maxNameLen) : dir.scanLoop pool (slots.map Prod.fst) b ≠ .error .overrun ↔
      NamesFit EndsInTime p (slots.map Prod.snd) := by
  constructor
  · intro hsafe
    by_contra hfit
    exact hsafe ((scanLoop_eq hreads hbuf h hp).2 hfit)
  · intro hfit
    rw [(scanLoop_eq hreads hbuf h hp).1 hfit]
    split
    · exact nofun
    · next q j f _ =>
      have hsafe := @fillEntry_ne_overrun dir pool q j f
      cases hfill : dir.fillEntry pool q j f with
      | error e =>
        intro h
        rw [hfill] at hsafe
        exact hsafe (by cases h; rfl)
      | ok a => exact nofun

end Call

section Content

/-- The directory file consists of the slots. -/
structure IsDirOf (dir : Directory) (slots : List (Nat → Byte)) : Prop where
  size : dir.fileSize = direntSize * slots.length
  read : ∀ i (h : i < slots.length) (buf : Nat → Byte),
    dir.read buf (direntSize * i) = some (Mem.blit buf 0 direntSize slots[i])

/-- The slots from index `i` on with their offsets, as the buffer holds them. -/
def slotBufs (behind : Nat → Byte) (slots : List (Nat → Byte)) (i : Nat) :
    List (Nat × (Nat → Byte)) :=
  ((slots.drop i).map (Mem.blit behind 0 direntSize)).mapIdx fun k f => (direntSize * (i + k), f)

variable {dir : Directory} {pool : Nat} {slots : List (Nat → Byte)} {stack : ScanBufs}

theorem slotBufs_offsets (behind : Nat → Byte) (slots : List (Nat → Byte)) (i : Nat) :
    (slotBufs behind slots i).map Prod.fst =
      Directory.slotOffsets (direntSize * i) (direntSize * slots.length) := by
  have hcount : (direntSize * slots.length - direntSize * i + direntSize - 1) / direntSize =
      slots.length - i := by
    rw [direntSize]
    omega
  rw [Directory.slotOffsets, hcount]
  refine List.ext_getElem (by simp [slotBufs]) fun k _ _ => ?_
  simp only [slotBufs, List.getElem_map, List.getElem_mapIdx, List.getElem_range, Nat.mul_add]

theorem slotBufs_bufs (behind : Nat → Byte) (slots : List (Nat → Byte)) (i : Nat) :
    (slotBufs behind slots i).map Prod.snd = (slots.drop i).map (Mem.blit behind 0 direntSize) := by
  refine List.ext_getElem (by simp [slotBufs]) fun k _ _ => ?_
  simp only [slotBufs, List.getElem_map, List.getElem_mapIdx]

theorem IsDirOf.readsAs (h : IsDirOf dir slots) (behind : Nat → Byte) (i : Nat) :
    ∀ slot ∈ slotBufs behind slots i, ReadsAs dir behind slot.1 slot.2 := by
  intro slot hslot
  obtain ⟨k, hk, rfl⟩ := List.getElem_of_mem hslot
  simp only [slotBufs, List.length_mapIdx, List.length_map, List.length_drop] at hk
  simp only [slotBufs, List.getElem_mapIdx, List.getElem_map, List.getElem_drop]
  refine ⟨fun buf hbuf => ?_, fun m hm => ?_⟩
  · rw [h.read _ (by omega), Option.some.injEq]
    funext m
    rw [Mem.blit_apply, Mem.blit_apply]
    split
    · rfl
    · exact hbuf m (by omega)
  · rw [Mem.blit_apply, if_neg (by omega)]

/-- A call at a slot, in terms of the slots from there on. -/
theorem IsDirOf.call (h : IsDirOf dir slots) (stack : ScanBufs) (pool i : Nat) :
    dir.dirGetDentFrom pool stack (direntSize * i) =
      dir.scanLoop pool ((slotBufs stack.direntBuf slots i).map Prod.fst)
        { stack with fullName := update stack.fullName 0 0 } := by
  rw [Directory.dirGetDentFrom, if_neg (by simp), h.size, slotBufs_offsets]

theorem holds_empty (stack : ScanBufs) : CStr.Holds (update stack.fullName 0 0) [] :=
  ⟨fun i hi => absurd hi (Nat.not_lt_zero i), fun _ hc => absurd hc List.not_mem_nil,
    update_self ..⟩

theorem IsDirOf.call_ok (h : IsDirOf dir slots) (stack : ScanBufs) (pool i : Nat)
    (hfit : NamesFit EndsInTime [] ((slots.drop i).map (Mem.blit stack.direntBuf 0 direntSize))) :
    dir.dirGetDentFrom pool stack (direntSize * i) =
      match firstShort [] (slotBufs stack.direntBuf slots i) with
      | none => .ok none
      | some (q, j, f) => (dir.fillEntry pool q j f).map some := by
  rw [h.call]
  have hp : ([] : List Wchar).length < maxNameLen := by decide
  refine (scanLoop_eq (b := { stack with fullName := _ }) (h.readsAs _ _) (fun _ _ => rfl)
    (holds_empty stack) hp).1 ?_
  rwa [slotBufs_bufs]

/-- A call writes inside the arrays exactly when the names from there on fit. -/
theorem IsDirOf.call_inside_iff (h : IsDirOf dir slots) (stack : ScanBufs) (pool i : Nat) :
    dir.dirGetDentFrom pool stack (direntSize * i) ≠ .error .overrun ↔
      NamesFit EndsInTime [] ((slots.drop i).map (Mem.blit stack.direntBuf 0 direntSize)) := by
  rw [h.call, ← slotBufs_bufs]
  exact scanLoop_ne_overrun_iff (h.readsAs _ _) (fun _ _ => rfl) (holds_empty stack) (by decide)

end Content

end KernelTravel.Fat32

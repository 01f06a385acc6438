import KernelTravel.Fat32.Content

/-!
# The position of an open file

`sys_read`, `sys_write` and `sys_lseek` on a descriptor of a regular file, which lies on FAT32
or on ext4, against a file with a position as in POSIX.

`sys_read` does not move the offset and answers with `count`, so a read of anything but 0 bytes
goes wrong, at the end of the file too. `sys_write` adds what the file system answers, which is
`n` on FAT32. The flags `O_RDONLY`, `O_WRONLY` and `O_RDWR` are 1, 2 and 3, and a file that has
been opened for reading can be written.

Of `ext4_fread` and `ext4_fwrite` only the test for 0 bytes at their start is used. What follows it
is a parameter: `ext4_fwrite` answers with an error number and not with `n`, and both keep the
buffers of all sectors that they touch.
-/

namespace KernelTravel.Fs

open Fat32 (Content Holds WriteSafe)

def oWronly : BitVec 32 := 2
def oRdwr : BitVec 32 := 3

/-- The other values of `whence` stop the kernel. -/
inductive Whence where
  | set
  | cur
  | fin
deriving DecidableEq, Repr

inductive Call where
  | read (count : BitVec 32)
  | write (src : Nat → Byte) (count : BitVec 32)
  | lseek (offset : BitVec 32) (whence : Whence)

/-- What a call returns, and the bytes that it stores in the buffer. -/
structure Out where
  ret : Int
  bytes : List Byte
deriving DecidableEq, Repr

/-! ## The file of POSIX -/

structure Posix where
  content : Content
  pos : Nat

namespace Posix

/-- The bytes between the position and the end of the file, at most `n`. -/
def next (p : Posix) (n : Nat) : List Byte :=
  (List.range (p.content.span p.pos n)).map fun k => p.content.byte (p.pos + k)

def base (p : Posix) : Whence → Int
  | .set => 0
  | .cur => p.pos
  | .fin => p.content.size

def step (writable : Prop) [Decidable writable] (p : Posix) : Call → Out × Posix
  | .read count =>
    let bytes := p.next count.toNat
    (⟨bytes.length, bytes⟩, { p with pos := p.pos + bytes.length })
  | .write src count =>
    if ¬writable then (⟨-1, []⟩, p)
    else if count = 0 then (⟨0, []⟩, p)
    else (⟨count.toNat, []⟩,
      ⟨p.content.write src p.pos count.toNat, p.pos + count.toNat⟩)
  | .lseek offset whence =>
    let new := p.base whence + offset.toInt
    if new < 0 then (⟨-1, []⟩, p) else (⟨new, []⟩, { p with pos := new.toNat })

end Posix

/-! ## The descriptor -/

/-- `ext4_fread` and `ext4_fwrite` after their first test, with the state `σ` of the file system.
`none` is a run that does not return. -/
structure Ext4Calls (σ : Type) where
  /-- `dirent->file_size`. -/
  fileSize : σ → Nat
  /-- The size in the inode. -/
  size : σ → Nat
  fread : σ → Nat → Nat → Option (List Byte × σ)
  fwrite : σ → (Nat → Byte) → Nat → Nat → Option (Int × σ)

inductive RegularFile (σ : Type) where
  | fat (fs : Fat32.Fs) (f : Nat)
  | ext4 (file : σ)

structure Descriptor (σ : Type) where
  file : RegularFile σ
  offset : BitVec 32
  flags : BitVec 32

section

variable {σ : Type} (ops : Ext4Calls σ)

namespace RegularFile

/-- `dirent->file_size`. -/
def fileSize : RegularFile σ → Nat
  | fat fs f => (fs.dirent f).fileSize
  | ext4 file => ops.fileSize file

/-- The size that the file system keeps. -/
def size : RegularFile σ → Nat
  | fat fs f => (fs.dirent f).fileSize
  | ext4 file => ops.size file

/-- `op->file_read`: the bytes stored. -/
def fileRead (off n : Nat) : RegularFile σ → Option (List Byte × RegularFile σ)
  | fat fs f => (fs.fatfileRead f (fun _ => 0) 0 off n).map fun (r, mem) =>
    ((List.range r).map mem, fat fs f)
  | ext4 file =>
    if n = 0 then some ([], ext4 file)
    else (ops.fread file off n).map fun (out, file) => (out, ext4 file)

/-- `op->file_write`. -/
def fileWrite (src : Nat → Byte) (off n : Nat) : RegularFile σ → Option (Int × RegularFile σ)
  | fat fs f => (fs.fatfileWrite f src off n).map fun fs => (n, fat fs f)
  | ext4 file =>
    if n = 0 then some (0, ext4 file)
    else (ops.fwrite file src off n).map fun (r, file) => (r, ext4 file)

end RegularFile

namespace Descriptor

def sysRead (fd : Descriptor σ) (count : BitVec 32) : Option (Out × Descriptor σ) :=
  (fd.file.fileRead ops fd.offset.toNat count.toNat).map fun (out, file) =>
    (⟨count.toInt, out⟩, { fd with file })

def sysWrite (fd : Descriptor σ) (src : Nat → Byte) (count : BitVec 32) :
    Option (Out × Descriptor σ) :=
  if fd.flags &&& oWronly ≠ 0 ∨ fd.flags &&& oRdwr ≠ 0 then
    (fd.file.fileWrite ops src fd.offset.toNat count.toNat).map fun (r, file) =>
      let bytesWritten := BitVec.ofInt 32 r
      (⟨bytesWritten.toInt, []⟩, { fd with file, offset := fd.offset + bytesWritten })
  else some (⟨-1, []⟩, fd)

/-- `new_pos`. -/
def newPos (fd : Descriptor σ) (offset : BitVec 32) : Whence → BitVec 32
  | .set => offset
  | .cur => fd.offset + offset
  | .fin => BitVec.ofNat 32 (fd.file.fileSize ops) + offset

/-- The test of the new position. -/
def InFile (fd : Descriptor σ) (new : BitVec 32) : Prop :=
  0 ≤ new.toInt ∧ new.toInt ≤ (BitVec.ofNat 32 (fd.file.fileSize ops)).toInt - 1

instance (fd : Descriptor σ) (new : BitVec 32) : Decidable (fd.InFile ops new) :=
  inferInstanceAs (Decidable (_ ∧ _))

def sysLseek (fd : Descriptor σ) (offset : BitVec 32) (whence : Whence) : Out × Descriptor σ :=
  let new := fd.newPos ops offset whence
  if fd.InFile ops new then (⟨new.toInt, []⟩, { fd with offset := new }) else (⟨-1, []⟩, fd)

def step (fd : Descriptor σ) : Call → Option (Out × Descriptor σ)
  | .read count => fd.sysRead ops count
  | .write src count => fd.sysWrite ops src count
  | .lseek offset whence => some (fd.sysLseek ops offset whence)

/-- The file has been opened for writing. -/
def Writable (fd : Descriptor σ) : Prop := 2 ≤ fd.flags.toNat % 4

instance (fd : Descriptor σ) : Decidable fd.Writable := inferInstanceAs (Decidable (_ ≤ _))

/-- The calls have the outcome of POSIX: before and after each of them the offset is the
position, and a read returns and stores what it should. -/
def Agrees : Descriptor σ → Posix → List Call → Prop
  | fd, p, [] => fd.offset.toNat = p.pos
  | fd, p, call :: calls => fd.offset.toNat = p.pos ∧ ∃ out fd',
      fd.step ops call = some (out, fd') ∧
      (∀ count, call = .read count → out = (p.step fd.Writable call).1) ∧
      Agrees fd' (p.step fd.Writable call).2 calls

end Descriptor

/-! ## Conditions -/

/-- The file system writes `n` bytes and says so. -/
def WriteOk (src : Nat → Byte) (off n : Nat) : RegularFile σ → Prop
  | .fat fs f => WriteSafe fs ⟨f, src, off, n⟩
  | .ext4 _ => n = 0

instance (src : Nat → Byte) (off n : Nat) (file : RegularFile σ) :
    Decidable (WriteOk src off n file) :=
  match file with
  | .fat fs f => inferInstanceAs (Decidable (WriteSafe fs ⟨f, src, off, n⟩))
  | .ext4 _ => inferInstanceAs (Decidable (n = 0))

/-- A call that does what it should. Of `sys_lseek` only the successful calls are asked for. -/
def StepOk (fd : Descriptor σ) : Call → Prop
  | .read count => count = 0
  | .write src count => fd.flags.toNat % 4 = 0 ∨
      fd.Writable ∧ WriteOk src fd.offset.toNat count.toNat fd.file
  | .lseek offset whence => fd.InFile ops (fd.newPos ops offset whence) ∧
      (whence = .cur → fd.offset.toNat < 2 ^ 31) ∧
      (whence = .fin → fd.file.fileSize ops = fd.file.size ops ∧ fd.file.fileSize ops < 2 ^ 32)

instance (fd : Descriptor σ) (call : Call) : Decidable (StepOk ops fd call) :=
  match call with
  | .read count => inferInstanceAs (Decidable (count = 0))
  | .write _ _ => inferInstanceAs (Decidable (_ ∨ _))
  | .lseek _ _ => inferInstanceAs (Decidable (_ ∧ _ ∧ _))

/-- The descriptor stands in the file of POSIX. -/
structure Stands (fd : Descriptor σ) (p : Posix) : Prop where
  offset : fd.offset.toNat = p.pos
  file : match fd.file with
    | .fat fs f => Holds fs f p.content
    | .ext4 file => ops.size file = p.content.size

end

/-! ## One call -/

section

variable {σ : Type} {ops : Ext4Calls σ} {fd : Descriptor σ} {p : Posix}

/-- All three flags let a write through. -/
theorem allows_write_iff (flags : BitVec 32) :
    flags &&& oWronly ≠ 0 ∨ flags &&& oRdwr ≠ 0 ↔ flags.toNat % 4 ≠ 0 := by
  have hlow : (flags &&& oRdwr).toNat = flags.toNat % 4 := by
    rw [BitVec.toNat_and]
    exact Nat.and_two_pow_sub_one_eq_mod _ 2
  have hbit : flags &&& oWronly = flags &&& oRdwr &&& oWronly := by
    rw [BitVec.and_assoc]
    rfl
  have hzero : flags &&& oRdwr = 0 ↔ flags.toNat % 4 = 0 := by
    rw [← hlow, ← BitVec.toNat_inj]
    rfl
  constructor
  · rintro h hmod
    have hboth := hzero.mpr hmod
    rw [hbit, hboth] at h
    simp at h
  · intro h
    exact .inr (mt hzero.mp h)

theorem Stands.size (stands : Stands ops fd p) : fd.file.size ops = p.content.size := by
  obtain ⟨-, hfile⟩ := stands
  cases hcase : fd.file with
  | fat fs f =>
    rw [hcase] at hfile
    obtain ⟨_, _, hsize, _⟩ := hfile.chains
    exact hsize
  | ext4 file =>
    rw [hcase] at hfile
    exact hfile

/-- To read nothing stores nothing and leaves the file as it is. -/
theorem fileRead_zero (file : RegularFile σ) (off : Nat) :
    file.fileRead ops off 0 = some ([], file) := by
  cases file with
  | fat fs f =>
    have hread : fs.fatfileRead f (fun _ => 0) 0 off 0 = some (0, fun _ => 0) := by
      have hle := Nat.mod_le off (2 ^ 32)
      rw [Fat32.Fs.fatfileRead]
      dsimp only
      split_ifs with hend hlong hzero hzero
      · rfl
      · omega
      · omega
      · rfl
      · exact absurd rfl hzero
    rw [RegularFile.fileRead, hread]
    rfl
  | ext4 file => rfl

theorem sysRead_zero : fd.sysRead ops 0 = some (⟨0, []⟩, fd) := by
  have hread := @fileRead_zero σ ops fd.file fd.offset.toNat
  rw [Descriptor.sysRead, show (0 : BitVec 32).toNat = 0 from rfl, hread]
  rfl

/-- A signed sum that is not negative has not wrapped around. -/
theorem toInt_add_of_nonneg {a b : BitVec 32} (ha : a.toNat < 2 ^ 31) (h : 0 ≤ (a + b).toInt) :
    (a + b).toInt = a.toNat + b.toInt := by
  have hb := b.isLt
  rw [BitVec.toInt_eq_toNat_cond, BitVec.toNat_add] at h ⊢
  rw [BitVec.toInt_eq_toNat_cond]
  split_ifs at h ⊢ <;> omega

theorem Posix.step_read_zero (writable : Prop) [Decidable writable] :
    p.step writable (.read 0) = (⟨0, []⟩, p) := by
  have hnext : p.next 0 = [] := by simp [next, Content.span]
  rw [step, show (0 : BitVec 32).toNat = 0 from rfl, hnext]
  rfl

/-- A successful `sys_lseek` goes where the one of POSIX goes. -/
theorem lseek_agrees (stands : Stands ops fd p) {offset : BitVec 32} {whence : Whence}
    (ok : StepOk ops fd (.lseek offset whence)) (writable : Prop) [Decidable writable] :
    ((p.step writable (.lseek offset whence)).2) =
      { p with pos := (fd.newPos ops offset whence).toNat } := by
  obtain ⟨⟨hnonneg, hle⟩, hcur, hfin⟩ := ok
  have hnat : ∀ new : BitVec 32, 0 ≤ new.toInt → new.toInt.toNat = new.toNat := by
    intro new h
    rw [BitVec.toInt_eq_toNat_cond] at h ⊢
    split_ifs at h ⊢ <;> omega
  have hpos := hnat _ hnonneg
  have hnew : (fd.newPos ops offset whence).toInt = p.base whence + offset.toInt := by
    cases whence with
    | set => exact (Int.zero_add _).symm
    | cur =>
      rw [Posix.base, ← stands.offset]
      exact toInt_add_of_nonneg (hcur rfl) hnonneg
    | fin =>
      obtain ⟨hsize, hsmall⟩ := hfin rfl
      have hnat' : (BitVec.ofNat 32 (fd.file.fileSize ops)).toNat = fd.file.fileSize ops := by
        rw [BitVec.toNat_ofNat, Nat.mod_eq_of_lt hsmall]
      have hlow : (BitVec.ofNat 32 (fd.file.fileSize ops)).toNat < 2 ^ 31 := by
        rw [BitVec.toInt_eq_toNat_cond (BitVec.ofNat 32 (fd.file.fileSize ops))] at hle
        split_ifs at hle <;> omega
      have hadd := @toInt_add_of_nonneg (BitVec.ofNat 32 (fd.file.fileSize ops)) offset hlow hnonneg
      rw [hnat', hsize, stands.size] at hadd
      rw [Descriptor.newPos, hsize, stands.size]
      exact hadd
  simp only [Posix.step, ← hnew, if_neg (not_lt.mpr hnonneg), hpos]

/-- Nothing is written without one of the flags. -/
theorem write_refused {src : Nat → Byte} {count : BitVec 32} (hflags : fd.flags.toNat % 4 = 0) :
    fd.sysWrite ops src count = some (⟨-1, []⟩, fd) ∧
      (p.step fd.Writable (.write src count)).2 = p := by
  have hwritable : ¬fd.Writable := by
    rw [Descriptor.Writable, hflags]
    decide
  constructor
  · rw [Descriptor.sysWrite, if_neg]
    rw [allows_write_iff]
    exact not_not.mpr hflags
  · rw [Posix.step, if_pos hwritable]

theorem sysWrite_of_writable {src : Nat → Byte} {count : BitVec 32} (writable : fd.Writable)
    {r : Int} {file : RegularFile σ}
    (h : fd.file.fileWrite ops src fd.offset.toNat count.toNat = some (r, file)) :
    fd.sysWrite ops src count = some (⟨(BitVec.ofInt 32 r).toInt, []⟩,
      { fd with file, offset := fd.offset + BitVec.ofInt 32 r }) := by
  have hflags : fd.flags.toNat % 4 ≠ 0 := by
    rw [Descriptor.Writable] at writable
    omega
  rw [Descriptor.sysWrite, if_pos ((allows_write_iff _).mpr hflags), h]
  rfl

theorem fatWrite_agrees (stands : Stands ops fd p) {src : Nat → Byte} {count : BitVec 32}
    (writable : fd.Writable) {fs : Fat32.Fs} {f : Nat} (hcase : fd.file = .fat fs f)
    (ok : WriteSafe fs ⟨f, src, fd.offset.toNat, count.toNat⟩) :
    ∃ out fd', fd.sysWrite ops src count = some (out, fd') ∧
      Stands ops fd' (p.step fd.Writable (.write src count)).2 := by
  obtain ⟨hoffset, hfile⟩ := stands
  rw [hcase] at hfile
  obtain ⟨fs', hwrite, holds⟩ := Fat32.writeStep_holds hfile _ ok
  rw [if_pos rfl] at holds
  have hsmall : fd.offset.toNat + count.toNat < 2 ^ 32 := by
    obtain ⟨_, inv, -⟩ := hfile.chains
    exact (fs.vol.le_clusters_mul inv.geometry _).trans_lt ok.2.1.arith
  have hadd : (fd.offset + BitVec.ofInt 32 count.toNat).toNat = p.pos + count.toNat := by
    rw [BitVec.ofInt_natCast, BitVec.ofNat_toNat, BitVec.setWidth_eq, BitVec.toNat_add,
      Nat.mod_eq_of_lt hsmall, hoffset]
  have hcount : count ≠ 0 := by
    rintro rfl
    exact Nat.lt_irrefl 0 ok.2.1.nonempty
  have hfat : fd.file.fileWrite ops src fd.offset.toNat count.toNat =
      some ((count.toNat : Int), .fat fs' f) := by
    have hwrite' : fs.fatfileWrite f src fd.offset.toNat count.toNat = some fs' := hwrite
    rw [hcase, RegularFile.fileWrite, hwrite']
    rfl
  refine ⟨_, _, sysWrite_of_writable writable hfat, ?_⟩
  rw [Posix.step, if_neg (not_not.mpr writable), if_neg hcount]
  refine ⟨hadd, ?_⟩
  rw [← hoffset]
  exact holds

theorem ext4Write_agrees (stands : Stands ops fd p) (src : Nat → Byte) (writable : fd.Writable)
    {file : σ} (hcase : fd.file = .ext4 file) :
    ∃ out fd', fd.sysWrite ops src 0 = some (out, fd') ∧
      Stands ops fd' (p.step fd.Writable (.write src 0)).2 := by
  obtain ⟨hoffset, hfile⟩ := stands
  rw [hcase] at hfile
  have hext4 : fd.file.fileWrite ops src fd.offset.toNat (0 : BitVec 32).toNat =
      some (0, .ext4 file) := by
    rw [hcase]
    rfl
  refine ⟨_, _, sysWrite_of_writable writable hext4, ?_⟩
  rw [Posix.step, if_neg (not_not.mpr writable), if_pos rfl]
  refine ⟨?_, hfile⟩
  rw [← hoffset]
  exact congrArg BitVec.toNat (BitVec.add_zero fd.offset)

/-- A write moves the offset as the position. -/
theorem write_agrees (stands : Stands ops fd p) {src : Nat → Byte} {count : BitVec 32}
    (writable : fd.Writable) (ok : WriteOk src fd.offset.toNat count.toNat fd.file) :
    ∃ out fd', fd.sysWrite ops src count = some (out, fd') ∧
      Stands ops fd' (p.step fd.Writable (.write src count)).2 := by
  cases hcase : fd.file with
  | fat fs f =>
    rw [hcase] at ok
    exact fatWrite_agrees stands writable hcase ok
  | ext4 file =>
    rw [hcase] at ok
    obtain rfl : count = 0 := BitVec.eq_of_toNat_eq ok
    exact ext4Write_agrees stands src writable hcase

theorem step_agrees (stands : Stands ops fd p) {call : Call} (ok : StepOk ops fd call) :
    ∃ out fd', fd.step ops call = some (out, fd') ∧
      (∀ count, call = .read count → out = (p.step fd.Writable call).1) ∧
      Stands ops fd' (p.step fd.Writable call).2 := by
  cases call with
  | read count =>
    obtain rfl : count = 0 := ok
    rw [Posix.step_read_zero]
    exact ⟨_, fd, sysRead_zero, fun _ _ => rfl, stands⟩
  | write src count =>
    rcases ok with hflags | ⟨writable, ok⟩
    · obtain ⟨hwrite, hposix⟩ := @write_refused σ ops fd p src count hflags
      rw [hposix]
      exact ⟨_, fd, hwrite, fun _ h => (by cases h), stands⟩
    · obtain ⟨out, fd', hwrite, hstands⟩ := write_agrees stands writable ok
      exact ⟨out, fd', hwrite, fun _ h => (by cases h), hstands⟩
  | lseek offset whence =>
    have hposix := lseek_agrees stands ok fd.Writable
    have hseek : fd.step ops (.lseek offset whence) =
        some (⟨(fd.newPos ops offset whence).toInt, []⟩,
          { fd with offset := fd.newPos ops offset whence }) := by
      rw [Descriptor.step, Descriptor.sysLseek, if_pos ok.1]
    refine ⟨_, _, hseek, fun _ h => (by cases h), ?_⟩
    rw [hposix]
    exact ⟨rfl, stands.file⟩

/-! ## Whole runs -/

/-- The state after a call. -/
def Descriptor.next (ops : Ext4Calls σ) (fd : Descriptor σ) (call : Call) :
    Option (Descriptor σ) :=
  (fd.step ops call).map Prod.snd

theorem agrees_of_meets (stands : Stands ops fd p) {calls : List Call}
    (ok : Run.Meets (Descriptor.next ops) (StepOk ops) fd calls) :
    fd.Agrees ops p calls := by
  induction calls generalizing fd p with
  | nil => exact stands.offset
  | cons call calls ih =>
    obtain ⟨out, fd', hstep, hout, stands'⟩ := step_agrees stands ok.1
    refine ⟨stands.offset, out, fd', hstep, hout, ih stands' (ok.2 fd' ?_)⟩
    rw [Descriptor.next, hstep]
    rfl

/-- A read of more than 0 bytes leaves the offset behind the position, or it returns bytes that
the file does not have. -/
theorem count_eq_zero {count : BitVec 32} {calls : List Call}
    (h : fd.Agrees ops p (.read count :: calls)) : count = 0 := by
  obtain ⟨hoffset, out, fd', hstep, hout, hrest⟩ := h
  obtain ⟨a, hread, heq⟩ := Option.map_eq_some_iff.mp hstep
  cases heq
  have hpos : fd.offset.toNat = p.pos + (p.next count.toNat).length := by
    cases calls with
    | nil => exact hrest
    | cons call calls => exact hrest.1
  have hret : count.toInt = ((p.next count.toNat).length : Int) := congrArg Out.ret (hout count rfl)
  have hzero : count.toInt = 0 := by omega
  exact BitVec.toInt_inj.mp hzero

theorem reads_agree_iff (stands : Stands ops fd p) {calls : List Call}
    (reads : ∀ call ∈ calls, ∃ n, call = .read n) :
    fd.Agrees ops p calls ↔ ∀ call ∈ calls, call = .read 0 := by
  constructor
  · intro h
    induction calls with
    | nil => intro call hcall; cases hcall
    | cons call calls ih =>
      obtain ⟨count, rfl⟩ := reads call List.mem_cons_self
      obtain rfl := count_eq_zero h
      obtain ⟨-, out, fd', hstep, -, hrest⟩ := h
      cases hstep.symm.trans sysRead_zero
      rw [Posix.step_read_zero] at hrest
      rintro call (_ | ⟨_, hcall⟩)
      · rfl
      · exact ih (fun call hcall => reads call (List.mem_cons_of_mem _ hcall)) hrest call hcall
  · intro h
    refine agrees_of_meets stands ?_
    clear stands reads
    induction calls generalizing fd with
    | nil => trivial
    | cons call calls ih =>
      obtain rfl := h call List.mem_cons_self
      exact ⟨rfl, fun fd' _ => ih fun call hcall => h call (List.mem_cons_of_mem _ hcall)⟩

/-- A run of calls that meet their conditions has the outcome of POSIX. A run of reads has it
only if nothing is read at all. -/
theorem sequential_access (stands : Stands ops fd p) (calls : List Call) :
    (Run.Meets (Descriptor.next ops) (StepOk ops) fd calls →
      fd.Agrees ops p calls) ∧ ((∀ call ∈ calls, ∃ n, call = .read n) →
      (fd.Agrees ops p calls ↔ ∀ call ∈ calls, call = .read 0)) :=
  ⟨agrees_of_meets stands, reads_agree_iff stands⟩

end

/-! ## A file on FAT32 -/

/-- Files on ext4 that have a size only, and calls that do not return. -/
def sizeOps : Ext4Calls Nat where
  fileSize s := s
  size s := s
  fread _ _ _ := none
  fwrite _ _ _ _ := none

/-- A file of 100 zeros, opened for reading and writing. -/
def zerosFile : Descriptor Nat := ⟨.fat Fat32.threeEntries 1, 0, oRdwr⟩

def zerosPosix : Posix := ⟨⟨100, fun _ => 0⟩, 0⟩

theorem zerosFile_stands : Stands sizeOps zerosFile zerosPosix :=
  ⟨rfl, Fat32.threeEntries_holds⟩

def writeAndSeek : List Call :=
  [.write (fun k => BitVec.ofNat 8 (k + 1)) 20, .lseek (-15) .cur, .read 0, .lseek (-1) .fin]

theorem sequential_access_writeAndSeek : zerosFile.Agrees sizeOps zerosPosix writeAndSeek :=
  (sequential_access zerosFile_stands writeAndSeek).1 (by decide +kernel)

/-- What a run returns and stores, with the offset at its end. -/
def Descriptor.outs {σ : Type} (ops : Ext4Calls σ) :
    Descriptor σ → List Call → Option (List Out × Nat)
  | fd, [] => some ([], fd.offset.toNat)
  | fd, call :: calls => do
    let (out, fd) ← fd.step ops call
    let (outs, offset) ← outs ops fd calls
    some (out :: outs, offset)

def Posix.outs (writable : Prop) [Decidable writable] : Posix → List Call → List Out × Nat
  | p, [] => ([], p.pos)
  | p, call :: calls =>
    let (out, p) := p.step writable call
    let (outs, pos) := outs writable p calls
    (out :: outs, pos)

def readTwice : List Call :=
  [.write (fun k => BitVec.ofNat 8 (k + 1)) 2, .lseek 0 .set, .read 1, .read 1]

/-- The second read gives the first byte again. -/
theorem second_read_repeats : Stands sizeOps zerosFile zerosPosix ∧
    zerosFile.outs sizeOps readTwice = some ([⟨2, []⟩, ⟨0, []⟩, ⟨1, [1]⟩, ⟨1, [1]⟩], 0) ∧
    zerosPosix.outs zerosFile.Writable readTwice = ([⟨2, []⟩, ⟨0, []⟩, ⟨1, [1]⟩, ⟨1, [2]⟩], 2) :=
  ⟨zerosFile_stands, by decide +kernel, by decide +kernel⟩

end KernelTravel.Fs

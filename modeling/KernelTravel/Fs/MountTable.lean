import KernelTravel.Fs.Lookup
import KernelTravel.Lib.Links
import KernelTravel.Lib.Run

/-!
# The mount table

`fs/mount.c` keeps ten mount structures in the table `mount` and links each of them into the
child list of the one above it. `alloc_vfsmount` looks for a structure that is not marked and
then answers with the first one of the table, whichever it has marked. None of this is reached:
`mount_fs` asks for the directory bit of `DIR_Attr`, a field of FAT32 entries that lies behind
the eight bytes that ext4 stores there, and the root is an ext4 file system, so that every
directory is refused as no directory.

`umount_fs` asks nothing. It takes the mount structure of the directory, which is `mnt_root` as
long as nothing is mounted, and computes the place of a `FileSystem` from the address of the root
entry, which is not a field of one. An operation answers `none` where it follows a null pointer
and where it clears memory that is not what it takes it for.
-/

namespace KernelTravel.Fs

def mntNum : Nat := 10

def maxFsCount : Nat := 16

def enotdir : Int := 20

def attrDirectory : Byte := 0x10

/-- `/dev/vda2`. -/
def vda2 : List Byte := [0x2F, 0x64, 0x65, 0x76, 0x2F, 0x76, 0x64, 0x61, 0x32]

structure VfsMount where
  mntParent : Option Nat
  mntMountpoint : Option Nat
  mntRootdir : Option Nat
  mntDevname : Option (List Byte)
  mntCount : Int
  mntExpiryMark : Bool

/-- The list fields of the mount structures. -/
inductive MntLink where
  | mounts (m : Nat)
  | childHead (m : Nat)
  | childTail (m : Nat)
  deriving DecidableEq

structure FileSystem where
  valid : Bool
  op : Option Nat
  root : Option Nat

/-- The entries with the attributes of `raw_dirent`, the mount structures and the file systems.
The structures below `mntNum` are those of the table. -/
structure Mounts where
  root : Nat
  name : Nat → Name
  type : Nat → DirentType
  children : Nat → List Nat
  parentDirent : Nat → Option Nat
  dirAttr : Nat → Byte
  head : Nat → Option Nat
  mnt : Nat → VfsMount
  links : Links MntLink
  fs : Nat → FileSystem

namespace Mounts

def dentries (s : Mounts) : Dentries where
  root := s.root
  name := s.name
  type := s.type
  children := s.children
  head := s.head
  parentDirent := s.parentDirent
  mntRootdir m := (s.mnt m).mntRootdir

def isDirectory (s : Mounts) (e : Nat) : Bool := s.dirAttr e &&& attrDirectory ≠ 0

def setHead (s : Mounts) (dir : Nat) (m : Option Nat) : Mounts :=
  { s with head := Function.update s.head dir m }

def setMnt (s : Mounts) (m : Nat) (mount : VfsMount) : Mounts :=
  { s with mnt := Function.update s.mnt m mount }

def allocVfsmount (s : Mounts) : Option Nat × Mounts :=
  match (List.range mntNum).find? fun i => (s.mnt i).mntExpiryMark = false with
  | some i =>
    (some 0, s.setMnt i { s.mnt i with mntCount := (s.mnt i).mntCount + 1, mntExpiryMark := true })
  | none => (none, s)

def freeVfsmount (s : Mounts) (m : Nat) : Option (Int × Mounts) :=
  let s := s.setMnt m { s.mnt m with mntCount := (s.mnt m).mntCount - 1 }
  if (s.mnt m).mntCount ≠ 0 then some (-1, s)
  else do
    let s :=
      s.setMnt m { s.mnt m with mntDevname := none, mntRootdir := none, mntExpiryMark := false }
    let links ← s.links.unlink (.mounts m)
    return (0, { s with links })

/-- `allocFs` clears the structure, with it the pointer `op`. Without a free one the pointer of
the caller stays unset. -/
def allocFs (s : Mounts) : Option (Nat × Mounts) := do
  let i ← (List.range maxFsCount).find? fun i => (s.fs i).valid = false
  return (i, { s with fs := Function.update s.fs i ⟨true, none, none⟩ })

def locate (s : Mounts) (dirE : Option Nat) (path : List Byte) : Option (Option (Option Nat)) :=
  s.dentries.locate dirE path

/-- The mount structure of `dir`, linked below that of its parent. -/
def link (s : Mounts) (dir : Nat) : Option (Nat × Mounts) := do
  let (found, s) := s.allocVfsmount
  let s := s.setHead dir found
  let m ← found
  let s := s.setMnt m { s.mnt m with mntMountpoint := some dir }
  let p ← s.parentDirent dir
  let s := s.setMnt m { s.mnt m with mntParent := s.head p }
  let above ← s.head p
  let links ← s.links.insertBefore (.childTail above) (.mounts m)
  return (m, { s with links })

/-- `fsInit` stands for the functions that the pointers `op` lead to. -/
def mountFs (fsInit : Nat → Nat → Mounts → Option Mounts) (s : Mounts) (dirE : Option Nat)
    (special path : List Byte) : Option (Int × Mounts) := do
  match ← s.locate dirE path with
  | none => return (-1, s)
  | some found =>
    let dir ← found
    if s.isDirectory dir = false then return (-enotdir, s)
    else
      let (m, s) ← s.link dir
      if special = vda2 then
        return (0, s.setMnt m { s.mnt m with mntRootdir := none, mntDevname := some special })
      else
        let (i, s) ← s.allocFs
        let op ← (s.fs i).op
        let s ← fsInit op i s
        return (0, s.setMnt m { s.mnt m with mntRootdir := (s.fs i).root })

/-- What is cleared for a file system is not its structure. -/
def umountFs (s : Mounts) (dirE : Option Nat) (path : List Byte) : Option (Int × Mounts) := do
  match ← s.locate dirE path with
  | none => return (-1, s)
  | some found =>
    let dir ← found
    let m ← s.head dir
    if (s.mnt m).mntRootdir ≠ none then none
    else
      let (ret, s) ← s.freeVfsmount m
      let p ← s.parentDirent dir
      return (ret, s.setHead dir (s.head p))

inductive Call where
  | mount (dirE : Option Nat) (special path : List Byte)
  | umount (dirE : Option Nat) (path : List Byte)

def call (fsInit : Nat → Nat → Mounts → Option Mounts) (s : Mounts) : Call → Option (Int × Mounts)
  | .mount dirE special path => s.mountFs fsInit dirE special path
  | .umount dirE path => s.umountFs dirE path

def step (fsInit : Nat → Nat → Mounts → Option Mounts) (s : Mounts) (c : Call) : Option Mounts :=
  (s.call fsInit c).map Prod.snd

/-! ## What the table is for -/

/-- A directory with a mount structure other than its parent's. -/
def MountPoint (s : Mounts) (dir : Nat) : Prop :=
  ∃ m p, s.head dir = some m ∧ s.parentDirent dir = some p ∧ s.head p ≠ some m

/-- Mount points have structures of their own. -/
def Distinct (s : Mounts) : Prop :=
  ∀ dir dir', s.MountPoint dir → s.MountPoint dir' → s.head dir = s.head dir' → dir = dir'

/-- Every structure of the table is in use. -/
def Full (s : Mounts) : Prop := ∀ i < mntNum, (s.mnt i).mntExpiryMark = true

/-- The entry `dir` is a plain directory again, and its structure and file system are free. -/
structure Restores (s s' : Mounts) (dir : Nat) : Prop where
  lookups : ∀ p, s.parentDirent dir = some p → ∀ dirE path,
    s'.dentries.searchFile dirE path = (s.setHead dir (s.head p)).dentries.searchFile dirE path
  slot : ∀ i, (s'.mnt i).mntExpiryMark = if s.head dir = some i then false
    else (s.mnt i).mntExpiryMark
  fs : ∀ i, (s'.fs i).valid =
    if (s.head dir).bind (fun m => (s.mnt m).mntRootdir) = (s.fs i).root then false
      else (s.fs i).valid

/-- A call returns, and the table is as it should be. -/
def CallRight (fsInit : Nat → Nat → Mounts → Option Mounts) (s : Mounts) (c : Call) : Prop :=
  ∃ ret s', s.call fsInit c = some (ret, s') ∧ s'.Distinct ∧
    match c with
    | .mount _ _ _ => s.Full → ret < 0
    | .umount dirE path =>
      ∀ dir, s.locate dirE path = some (some (some dir)) → s.MountPoint dir → ret = 0 ∧
        s.Restores s' dir

/-- The call gives up before it does anything. -/
def Refused (s : Mounts) : Call → Prop
  | .mount dirE _ path => s.locate dirE path = some none ∨
      ∃ dir, s.locate dirE path = some (some (some dir)) ∧ s.isDirectory dir = false
  | .umount dirE path => s.locate dirE path = some none

/-- The state after the start of the system: no entry has attributes of FAT32, every directory
has the structure of its parent, and a structure that an entry has leads to a root. -/
structure Booted (s : Mounts) : Prop where
  attr : ∀ e, s.dirAttr e = 0
  plain : ∀ dir, ¬s.MountPoint dir
  rootdir : ∀ e m, s.head e = some m → (s.mnt m).mntRootdir ≠ none

variable {fsInit : Nat → Nat → Mounts → Option Mounts} {s s' : Mounts} {c : Call} {dir : Nat}

theorem Booted.isDirectory (booted : s.Booted) (e : Nat) : s.isDirectory e = false := by
  simp [Mounts.isDirectory, booted.attr e]

theorem call_of_refused (h : s.Refused c) : ∃ ret, s.call fsInit c = some (ret, s) ∧ ret < 0 := by
  cases c with
  | mount dirE special path =>
    simp only [call, mountFs]
    rcases h with hpath | ⟨dir, hfound, hdir⟩
    · exact ⟨-1, by simp [hpath], by decide⟩
    · exact ⟨-enotdir, by simp [hfound, hdir], by decide⟩
  | umount dirE path =>
    have hpath : s.locate dirE path = some none := h
    exact ⟨-1, by simp [call, umountFs, hpath], by decide⟩

/-- In the state after the start only the calls that are refused return. -/
theorem Booted.refused (booted : s.Booted) {answer : Int × Mounts}
    (h : s.call fsInit c = some answer) : s.Refused c := by
  cases c with
  | mount dirE special path =>
    simp only [call, mountFs, Option.bind_eq_bind, Option.bind_eq_some_iff] at h
    obtain ⟨located, hlocate, h⟩ := h
    cases located with
    | none => exact .inl hlocate
    | some found =>
      obtain ⟨dir, rfl, -⟩ := Option.bind_eq_some_iff.mp h
      exact .inr ⟨dir, hlocate, booted.isDirectory dir⟩
  | umount dirE path =>
    simp only [call, umountFs, Option.bind_eq_bind, Option.bind_eq_some_iff] at h
    obtain ⟨located, hlocate, h⟩ := h
    cases located with
    | none => exact hlocate
    | some found =>
      obtain ⟨dir, rfl, hrest⟩ := Option.bind_eq_some_iff.mp h
      obtain ⟨m, hm, hrest⟩ := Option.bind_eq_some_iff.mp hrest
      rw [if_pos (booted.rootdir dir m hm)] at hrest
      cases hrest

theorem Booted.callRight_iff (booted : s.Booted) : s.CallRight fsInit c ↔ s.Refused c := by
  constructor
  · rintro ⟨ret, s', hcall, -⟩
    exact booted.refused hcall
  · intro hrefused
    obtain ⟨ret, hcall, hneg⟩ := @call_of_refused fsInit s c hrefused
    refine ⟨ret, s, hcall, fun dir _ hpoint => absurd hpoint (booted.plain dir), ?_⟩
    cases c with
    | mount dirE special path => exact fun _ => hneg
    | umount dirE path => exact fun dir _ hpoint => absurd hpoint (booted.plain dir)

/-- A run of calls keeps the table as it should be if and only if all of them are refused. -/
theorem mountRun_right_iff (booted : s.Booted) (calls : List Call) :
    Run.Meets (step fsInit) (CallRight fsInit) s calls ↔
      Run.Meets (step fsInit) Refused s calls := by
  induction calls with
  | nil => exact Iff.rfl
  | cons c calls ih =>
    rw [Run.Meets, Run.Meets, booted.callRight_iff]
    refine and_congr_right fun hrefused => forall₂_congr fun s' hstep => ?_
    obtain ⟨ret, hcall, -⟩ := @call_of_refused fsInit s c hrefused
    rw [step, hcall] at hstep
    obtain rfl := Option.some.inj hstep
    exact ih

/-! ## An example -/

/-- Two directories `a` and `b` in the root, all below the structure 10, which stands for
`mnt_root`. -/
def twoDirectories : Mounts where
  root := 0
  name e := if e = 1 then [0x61] else [0x62]
  type _ := .dir
  children e := if e = 0 then [1, 2] else []
  parentDirent e := if e = 0 then none else some 0
  dirAttr _ := 0
  head _ := some mntNum
  mnt m := ⟨none, none, if m = mntNum then some 0 else none, none, 0, false⟩
  links := ⟨fun _ => none, fun _ => none⟩
  fs _ := ⟨false, none, none⟩

theorem twoDirectories_booted : twoDirectories.Booted where
  attr _ := rfl
  plain dir := by
    rintro ⟨m, p, hm, -, hne⟩
    exact hne hm
  rootdir e m hm := by
    obtain rfl := Option.some.inj hm
    decide

/-- Mounts alone keep the table as it should be: both are refused. -/
theorem mountRun_right_twoMounts :
    Run.Meets (step fun _ _ _ => none) (CallRight fun _ _ _ => none) twoDirectories
      [.mount none vda2 [slash, 0x61], .mount none [0x66] [slash, 0x62]] := by
  refine (mountRun_right_iff twoDirectories_booted _).mpr
    ⟨.inr ⟨1, by decide, rfl⟩, fun s' hstep => ⟨?_, fun _ _ => trivial⟩⟩
  obtain rfl : twoDirectories = s' := Option.some.inj hstep
  exact .inr ⟨2, by decide, rfl⟩

/-- Nothing is mounted on `a`, and `umount_fs` of it clears memory that is no file system. -/
theorem twoDirectories_umount : twoDirectories.Booted ∧ ¬twoDirectories.MountPoint 1 ∧
    twoDirectories.locate none [slash, 0x61] = some (some (some 1)) ∧
    twoDirectories.umountFs none [slash, 0x61] = none ∧
    ¬Run.Meets (step fun _ _ _ => none) (CallRight fun _ _ _ => none) twoDirectories
      [.umount none [slash, 0x61]] := by
  have hnone : twoDirectories.umountFs none [slash, 0x61] = none := rfl
  refine ⟨twoDirectories_booted, twoDirectories_booted.plain 1, by decide, hnone, ?_⟩
  rintro ⟨⟨ret, s', hcall, -⟩, -⟩
  cases hnone.symm.trans hcall

end Mounts

end KernelTravel.Fs

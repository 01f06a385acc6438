import KernelTravel.Fs.FdRuns
import KernelTravel.Fs.Lookup

/-!
# Opening a file

`sys_open` with its return value and with the flags and the mode of the slots. `file_open` gives
a file that is open already the slot it has, so that the two descriptors share their offset, and
`sys_open` then sets that offset to 0 unless `O_CREATE` is given. A process whose descriptor
table is full is given the descriptor 0, after the slot has been filled.

The path is the one that `path_resolution` has left. The entry `file` is what `file_create` of
the file system makes.
-/

namespace KernelTravel.Fd

open Function

open KernelTravel.Fs (Dentries)

def oCreate : Nat := 4

/-- The tables, with the flags and the mode of the slots. -/
structure OpenTable where
  fds : FdSys
  flags : Nat → Nat
  mode : Nat → Nat

namespace OpenTable

/-- The flags and the mode of a slot that has been filled. -/
def fill (s : OpenTable) (fds : FdSys) (i flag mode : Nat) : OpenTable :=
  ⟨fds, update s.flags i flag, update s.mode i mode⟩

def fileOpen (s : OpenTable) (p file flag mode : Nat) : Int × OpenTable :=
  match s.fds.slotOf file with
  | some i =>
    let r := (s.fds.setSlot i { s.fds.fileTable i with
      refcnt := inc (s.fds.fileTable i).refcnt }).pcbFdInstall p i
    (r.1, { s with fds := r.2 })
  | none =>
    match s.fds.getFreeSlotInGlobal with
    | none => (-1, s)
    | some i =>
      let r := (s.fds.setSlot i ⟨some file, devFile, 0, 1⟩).pcbFdInstall p i
      (r.1, s.fill r.2 i flag mode)

/-- A full table is only reported, and the slot -1 is written. As in `FdSys.fileCreate`, the answer
of `op->file_create` is not looked at. -/
def fileCreate (s : OpenTable) (p file flag mode : Nat) : Option (Int × OpenTable) :=
  s.fds.getFreeSlotInGlobal.map fun i =>
    let r := (s.fds.setSlot i ⟨some file, devFile, 0, (s.fds.fileTable i).refcnt⟩).pcbFdInstall p i
    (r.1, s.fill r.2 i flag mode)

/-- The rest of `sys_open` after the search has found `found`. -/
def openFound (s : OpenTable) (p : Nat) (found : Option Nat) (flags mode file : Nat) :
    Option (Int × OpenTable) :=
  match found with
  | none => if flags &&& oCreate = 0 then some (-1, s) else s.fileCreate p file flags mode
  | some f =>
    let r := s.fileOpen p f flags mode
    if flags &&& oCreate = 0 then
      -- `fd_local2global` of the answer, which is outside the table if it is -1
      (if 0 ≤ r.1 then r.2.fds.fdTable p r.1.toNat else none).map fun i =>
        (r.1, { r.2 with fds := r.2.fds.setSlot i { r.2.fds.fileTable i with offset := 0 } })
    else some r

/-- `O_WRONLY | O_CREAT` of the C library. -/
def openFlags (flags : Nat) : Nat := if flags = 65 then 6 else flags

def sysOpen (s : OpenTable) (d : Dentries) (dirE : Option Nat) (p : Nat) (path : List Byte)
    (flags mode file : Nat) : Option (Int × OpenTable) := do
  match ← d.locate dirE path with
  | none => return (-1, s)
  | some found => s.openFound p found (openFlags flags) mode file

variable {s s' : OpenTable} {p i file flag mode : Nat} {found : Option Nat} {slot : Slot}

/-- The flags and the mode apart, this is the call on the tables alone. -/
theorem openFound_fds : (s.openFound p found flag mode file).map (fun r => r.2.fds) =
    s.fds.sysOpen p found (decide (flag &&& oCreate ≠ 0)) file := by
  cases found with
  | none =>
    by_cases hcreate : flag &&& oCreate = 0
    · simp [openFound, FdSys.sysOpen, hcreate]
    · simp [openFound, FdSys.sysOpen, hcreate, fileCreate, FdSys.fileCreate, fill,
        Function.comp_def]
  | some f =>
    have hfds : (s.fileOpen p f flag mode).2.fds = (s.fds.fileOpen p f).2 ∧
        (s.fileOpen p f flag mode).1 = (s.fds.fileOpen p f).1.elim (-1) Int.ofNat := by
      rw [fileOpen, FdSys.fileOpen]
      cases s.fds.slotOf f with
      | some i => exact ⟨rfl, rfl⟩
      | none => cases s.fds.getFreeSlotInGlobal <;> exact ⟨rfl, rfl⟩
    by_cases hcreate : flag &&& oCreate = 0
    · cases hfd : (s.fds.fileOpen p f).1 <;>
        simp [openFound, FdSys.sysOpen, hcreate, hfds, hfd, Function.comp_def]
    · simp [openFound, FdSys.sysOpen, hcreate, hfds]

/-! ## What a descriptor shows -/

/-- The target, the offset and the flags of a slot. -/
def slotView (s : OpenTable) (i : Nat) : Option Nat × Int × Nat × Nat :=
  ((s.fds.fileTable i).dirent, (s.fds.fileTable i).type, (s.fds.fileTable i).offset, s.flags i)

/-- What a descriptor shows. -/
def fdView (s : OpenTable) (q fd : Nat) : Option (Nat × Option Nat × Int × Nat × Nat) :=
  (s.fds.fdTable q fd).map fun i => (i, s.slotView i)

/-- The descriptors that were open show what they showed. -/
def Undisturbed (s s' : OpenTable) : Prop :=
  ∀ q ∈ s.fds.live, ∀ fd < maxFilesOpenPerProc, s.fds.fdTable q fd ≠ none →
    s'.fdView q fd = s.fdView q fd

def SameTable (s s' : OpenTable) : Prop :=
  s'.fds.fileTable = s.fds.fileTable ∧ s'.flags = s.flags ∧ s'.mode = s.mode

/-- The call returns, disturbs no descriptor, and leaves the table as it was unless its answer
is a new descriptor. -/
def OpenRight (s : OpenTable) (result : Option (Int × OpenTable)) : Prop :=
  ∃ ret s', result = some (ret, s') ∧ s.Undisturbed s' ∧ (ret < 3 → s.SameTable s')

/-- No descriptor holds the slot. -/
def Unheld (s : OpenTable) (i : Nat) : Prop :=
  ∀ q ∈ s.fds.live, ∀ fd < maxFilesOpenPerProc, s.fds.fdTable q fd ≠ some i

/-- There is a slot and a descriptor for a new file, and no descriptor holds the slot. -/
def RoomForNew (s : OpenTable) (p : Nat) : Prop :=
  s.fds.freeFd p ≠ none ∧ ∃ i, s.fds.getFreeSlotInGlobal = some i ∧ s.Unheld i

/-- When opening what the search has found is right. -/
def OpenKeeps (s : OpenTable) (p : Nat) (create : Bool) : Option Nat → Prop
  | none => create = true → s.RoomForNew p
  | some f =>
    match s.fds.slotOf f with
    | some i =>
      s.fds.freeFd p ≠ none ∧ (create = true ∨ (s.fds.fileTable i).offset = 0 ∨ s.Unheld i)
    | none => create = true ∧ s.fds.getFreeSlotInGlobal = none ∨ s.RoomForNew p

/-- Where the descriptors stay and only the slot `i` changes, the descriptors of that slot are
the ones that can be disturbed. -/
theorem undisturbed_iff (hfds : ∀ q fd, s.fds.fdTable q fd ≠ none →
    s'.fds.fdTable q fd = s.fds.fdTable q fd) (hslots : ∀ j ≠ i, s'.slotView j = s.slotView j) :
    s.Undisturbed s' ↔ s'.slotView i = s.slotView i ∨ s.Unheld i := by
  constructor
  · intro h
    rw [or_iff_not_imp_right]
    intro hheld
    simp only [Unheld, not_forall, not_not] at hheld
    obtain ⟨q, hq, fd, hfd, hi⟩ := hheld
    have hne : s.fds.fdTable q fd ≠ none := by rw [hi]; exact Option.some_ne_none i
    have hview := h q hq fd hfd hne
    rw [fdView, fdView, hfds q fd hne, hi, Option.map_some, Option.map_some] at hview
    exact (Prod.mk.inj (Option.some.inj hview)).2
  · intro h q hq fd hfd hne
    rw [fdView, fdView, hfds q fd hne]
    obtain ⟨j, hj⟩ := Option.ne_none_iff_exists'.mp hne
    have hview : s'.slotView j = s.slotView j := by
      by_cases hji : j = i
      · subst hji
        exact h.resolve_right fun hunheld => hunheld q hq fd hfd hj
      · exact hslots j hji
    rw [hj, Option.map_some, Option.map_some, hview]

/-- Installing a slot in a table that is full. -/
theorem install_full (hfull : s.fds.freeFd p = none) :
    (s.fds.setSlot i slot).pcbFdInstall p i = (0, s.fds.setSlot i slot) := by
  have hfull' : (s.fds.setSlot i slot).freeFd p = none := hfull
  rw [FdSys.pcbFdInstall, hfull']

/-- Installing a slot in a descriptor that is free. -/
theorem install_free {fd : Nat} (hfree : s.fds.freeFd p = some fd) :
    (s.fds.setSlot i slot).pcbFdInstall p i =
      (fd, (s.fds.setFd p fd (some i)).setSlot i { slot with refcnt := inc slot.refcnt }) := by
  have hfree' : (s.fds.setSlot i slot).freeFd p = some fd := hfree
  rw [FdSys.pcbFdInstall, hfree']
  simp only [FdSys.setSlot, FdSys.setFd, update_self, update_idem]

/-- The open descriptors do not include the one that is given. -/
theorem setFd_kept {fd : Nat} (hfree : s.fds.freeFd p = some fd) {q e : Nat}
    (hne : s.fds.fdTable q e ≠ none) :
    (s.fds.setFd p fd (some i)).fdTable q e = s.fds.fdTable q e := by
  by_cases hsame : q = p ∧ e = fd
  · obtain ⟨rfl, rfl⟩ := hsame
    exact absurd (freeFd_eq_some hfree).2 hne
  · simp only [FdSys.setFd]
    by_cases hq : q = p
    · subst hq
      rw [update_self, update_of_ne fun he => hsame ⟨rfl, he⟩]
    · rw [update_of_ne hq]

theorem not_lt_three {fd : Nat} (hfree : s.fds.freeFd p = some fd) : ¬(fd : Int) < 3 := by
  have hlow := (mem_localFds.mp (freeFd_eq_some hfree).1).1
  omega

/-- A file that gets a slot of its own. The slot is filled in one way or the other. -/
theorem openRight_new (hget : s.fds.getFreeSlotInGlobal = some i) (refcnt : Nat) :
    s.OpenRight (some (let r := (s.fds.setSlot i ⟨some file, devFile, 0, refcnt⟩).pcbFdInstall p i
      ((r.1 : Int), s.fill r.2 i flag mode))) ↔ s.RoomForNew p := by
  have hdirent := (getFree_eq_some hget).2.2
  cases hfree : s.fds.freeFd p with
  | none =>
    refine ⟨?_, fun hroom => absurd hfree hroom.1⟩
    rintro ⟨ret, s', hret, -, hsame⟩
    rw [install_full hfree] at hret
    obtain ⟨rfl, rfl⟩ := Prod.mk.inj (Option.some.inj hret)
    have hslot := congrFun (hsame (show (0 : Int) < 3 by decide)).1 i
    rw [fill, fileTable_setSlot_self] at hslot
    rw [← hslot] at hdirent
    cases hdirent
  | some fd =>
    simp only [OpenRight, install_free hfree, Option.some.injEq, Prod.mk.injEq, RoomForNew,
      hfree, ne_eq, reduceCtorEq, not_false_eq_true, true_and, hget, exists_eq_left']
    have hview : s.Undisturbed (s.fill ((s.fds.setFd p fd (some i)).setSlot i
        ⟨some file, devFile, 0, inc refcnt⟩) i flag mode) ↔ s.Unheld i := by
      rw [@undisturbed_iff s _ i (fun q e hne => setFd_kept hfree hne) fun j hj => ?_]
      · refine or_iff_right fun hview => ?_
        have hnew := congrArg Prod.fst hview
        simp only [slotView, fill, fileTable_setSlot_self, hdirent] at hnew
        cases hnew
      · simp only [slotView, fill, fileTable_setSlot_of_ne hj, update_of_ne hj]
        rfl
    rw [← hview]
    constructor
    · rintro ⟨ret, s', ⟨rfl, rfl⟩, hkept, -⟩
      exact hkept
    · intro hkept
      exact ⟨_, _, ⟨rfl, rfl⟩, hkept, fun hlow => absurd hlow (not_lt_three hfree)⟩

/-- A file that keeps its slot, with another offset. -/
theorem openRight_again {fd : Nat} (hfree : s.fds.freeFd p = some fd)
    (hdirent : slot.dirent = (s.fds.fileTable i).dirent)
    (htype : slot.type = (s.fds.fileTable i).type) :
    s.OpenRight (some ((fd : Int), { s with fds := (s.fds.setFd p fd (some i)).setSlot i slot })) ↔
      slot.offset = (s.fds.fileTable i).offset ∨ s.Unheld i := by
  have hview : s.Undisturbed { s with fds := (s.fds.setFd p fd (some i)).setSlot i slot } ↔
      slot.offset = (s.fds.fileTable i).offset ∨ s.Unheld i := by
    rw [@undisturbed_iff s _ i (fun q e hne => setFd_kept hfree hne) fun j hj => ?_]
    · simp only [slotView, fileTable_setSlot_self, hdirent, htype, Prod.mk.injEq,
        true_and, and_true]
    · simp only [slotView, fileTable_setSlot_of_ne hj]
      rfl
  rw [← hview]
  constructor
  · rintro ⟨ret, s', hret, hkept, -⟩
    obtain ⟨rfl, rfl⟩ := Prod.mk.inj (Option.some.inj hret)
    exact hkept
  · intro hkept
    exact ⟨_, _, rfl, hkept, fun hlow => absurd hlow (not_lt_three hfree)⟩

theorem inc_ne (x : Nat) : inc x ≠ x := by
  rw [inc]
  omega

/-- The entry and the count of a slot. -/
def slotUse (s : OpenTable) (i : Nat) : Option Nat × Nat :=
  ((s.fds.fileTable i).dirent, (s.fds.fileTable i).refcnt)

/-- A call that uses a slot and gives no descriptor. -/
theorem not_openRight {ret : Int} (hret : ret < 3) (huse : s'.slotUse i ≠ s.slotUse i) :
    ¬s.OpenRight (some (ret, s')) := by
  rintro ⟨ret', s'', hresult, -, hsame⟩
  obtain ⟨rfl, rfl⟩ := Prod.mk.inj (Option.some.inj hresult)
  refine huse ?_
  rw [slotUse, slotUse, congrFun (hsame hret).1 i]

/-- The answer 0 is taken for a descriptor, whose offset is set. -/
theorem not_openRight_zero (huse : s'.slotUse i ≠ s.slotUse i) :
    ¬s.OpenRight ((s'.fds.fdTable p 0).map fun j =>
      (0, { s' with fds := s'.fds.setSlot j { s'.fds.fileTable j with offset := 0 } })) := by
  cases s'.fds.fdTable p 0 with
  | none =>
    rintro ⟨ret, t, hresult, -⟩
    cases hresult
  | some j =>
    refine @not_openRight s _ i _ (by decide) ?_
    have hoffset : ({ s' with fds := s'.fds.setSlot j { s'.fds.fileTable j with offset := 0 } } :
        OpenTable).slotUse i = s'.slotUse i := by
      by_cases hij : i = j
      · subst hij
        simp only [slotUse, fileTable_setSlot_self]
      · simp only [slotUse, fileTable_setSlot_of_ne hij]
    rw [hoffset]
    exact huse

/-- Opening a file that is open in the slot `i`. -/
theorem openFound_open (hslot : s.fds.slotOf file = some i) (flags mode created : Nat) :
    s.OpenRight (s.openFound p (some file) flags mode created) ↔ s.fds.freeFd p ≠ none ∧
        (flags &&& oCreate ≠ 0 ∨ (s.fds.fileTable i).offset = 0 ∨ s.Unheld i) := by
  simp only [openFound, fileOpen, hslot]
  cases hfree : s.fds.freeFd p with
  | none =>
    -- the file is counted once more, and the answer is 0
    have huse : ({ s with fds := s.fds.setSlot i { s.fds.fileTable i with
        refcnt := inc (s.fds.fileTable i).refcnt } } : OpenTable).slotUse i ≠ s.slotUse i := by
      simp only [slotUse, fileTable_setSlot_self, ne_eq, Prod.mk.injEq, true_and]
      exact inc_ne _
    refine iff_of_false ?_ fun hright => hright.1 rfl
    simp only [install_full hfree]
    split
    · exact not_openRight_zero huse
    · exact not_openRight (by decide) huse
  | some fd =>
    simp only [install_free hfree, Int.natCast_nonneg, if_true, Int.toNat_natCast, ne_eq,
      reduceCtorEq, not_false_eq_true, true_and]
    have hnew : ((s.fds.setFd p fd (some i)).setSlot i { s.fds.fileTable i with
        refcnt := inc (inc (s.fds.fileTable i).refcnt) }).fdTable p fd =
          some i := fdTable_setFd_self
    by_cases hcreate : flags &&& oCreate = 0
    · have hagain := @openRight_again s p i
        { s.fds.fileTable i with offset := 0, refcnt := inc (inc (s.fds.fileTable i).refcnt) } fd
          hfree rfl rfl
      rw [if_pos hcreate, hnew, Option.map_some, fileTable_setSlot_self]
      simp only [FdSys.setSlot, update_idem] at hagain ⊢
      rw [hagain, hcreate, eq_comm]
      exact (or_iff_right fun hne => hne rfl).symm
    · have hagain := @openRight_again s p i
        { s.fds.fileTable i with refcnt := inc (inc (s.fds.fileTable i).refcnt) } fd hfree rfl rfl
      rw [if_neg hcreate, hagain]
      exact iff_of_true (.inl rfl) (.inl hcreate)

/-- Opening a file that gets the slot `i`. -/
theorem openFound_new (hslot : s.fds.slotOf file = none) (hget : s.fds.getFreeSlotInGlobal = some i)
    (flags mode created : Nat) :
    s.OpenRight (s.openFound p (some file) flags mode created) ↔ s.RoomForNew p := by
  have hnew := @openRight_new s p i file flags mode hget 1
  rw [← hnew]
  simp only [openFound, fileOpen, hslot, hget]
  by_cases hcreate : flags &&& oCreate = 0
  · rw [if_pos hcreate]
    cases hfree : s.fds.freeFd p with
    | none =>
      have huse : (s.fill (s.fds.setSlot i ⟨some file, devFile, 0, 1⟩) i flags mode).slotUse i ≠
          s.slotUse i := by
        simp only [slotUse, fill, fileTable_setSlot_self, (getFree_eq_some hget).2.2, ne_eq,
          Prod.mk.injEq, reduceCtorEq, false_and, not_false_eq_true]
      refine iff_of_false ?_ fun hright => (hnew.mp hright).1 hfree
      simp only [install_full hfree]
      exact not_openRight_zero huse
    | some fd =>
      -- the offset of the new slot is 0 already
      have hfd : ((s.fds.setFd p fd (some i)).setSlot i ⟨some file, devFile, 0, inc 1⟩).fdTable p
          fd = some i :=
        fdTable_setFd_self
      simp only [install_free hfree, Int.natCast_nonneg, if_true, Int.toNat_natCast, fill, hfd,
        Option.map_some, fileTable_setSlot_self]
      simp only [FdSys.setSlot, update_idem]
  · rw [if_neg hcreate]

/-- Opening what the search has found. -/
theorem openFound_right_iff (s : OpenTable) (p : Nat) (found : Option Nat)
    (flags mode created : Nat) :
    s.OpenRight (s.openFound p found flags mode created) ↔
    s.OpenKeeps p (flags &&& oCreate ≠ 0) found := by
  have hidle : s.OpenRight (some (-1, s)) :=
    ⟨-1, s, rfl, fun _ _ _ _ _ => rfl, fun _ => ⟨rfl, rfl, rfl⟩⟩
  have hstop : ¬s.OpenRight none := by
    rintro ⟨ret, s', hresult, -⟩
    cases hresult
  cases found with
  | none =>
    simp only [openFound, OpenKeeps, decide_eq_true_eq]
    by_cases hcreate : flags &&& oCreate = 0
    · rw [if_pos hcreate]
      exact iff_of_true hidle fun hne => absurd hcreate hne
    · rw [if_neg hcreate, fileCreate, forall_prop_of_true hcreate]
      cases hget : s.fds.getFreeSlotInGlobal with
      | none => exact iff_of_false hstop fun ⟨_, i, hi, _⟩ => absurd (hget.symm.trans hi) (by simp)
      | some i => exact openRight_new hget _
  | some file =>
    simp only [OpenKeeps, decide_eq_true_eq]
    cases hslot : s.fds.slotOf file with
    | some i => exact openFound_open hslot flags mode created
    | none =>
      cases hget : s.fds.getFreeSlotInGlobal with
      | none =>
        -- the answer -1 is taken for a descriptor unless the file may be created
        have hroom : ¬s.RoomForNew p := fun ⟨_, i, hi, _⟩ => absurd (hget.symm.trans hi) (by simp)
        rw [or_iff_left hroom, and_iff_left rfl]
        simp only [openFound, fileOpen, hslot, hget]
        by_cases hcreate : flags &&& oCreate = 0
        · rw [if_pos hcreate]
          exact iff_of_false hstop fun hne => hne hcreate
        · rw [if_neg hcreate]
          exact iff_of_true hidle hcreate
      | some i =>
        rw [openFound_new hslot hget]
        exact (or_iff_right fun h => absurd h.2 (Option.some_ne_none i)).symm

/-- When `sys_open` leaves the open descriptors alone, and the table too if it fails. -/
theorem sysOpen_right_iff (s : OpenTable) (d : Dentries) (dirE : Option Nat) (p : Nat)
    (path : List Byte)
    (flags mode file : Nat) : s.OpenRight (s.sysOpen d dirE p path flags mode file) ↔
      ∃ located, d.locate dirE path = some located ∧
        ∀ found ∈ located, s.OpenKeeps p (openFlags flags &&& oCreate ≠ 0) found := by
  rw [sysOpen]
  cases hlocate : d.locate dirE path with
  | none =>
    refine iff_of_false ?_ fun ⟨_, h, _⟩ => absurd h (by simp)
    rintro ⟨ret, s', hresult, -⟩
    cases hresult
  | some located =>
    simp only [Option.some.injEq, exists_eq_left']
    cases located with
    | none =>
      refine iff_of_true ⟨-1, s, rfl, fun _ _ _ _ _ => rfl, fun _ => ⟨rfl, rfl, rfl⟩⟩ ?_
      exact fun found h => absurd h (by simp)
    | some found =>
      have hright := openFound_right_iff s p found (openFlags flags) mode file
      refine hright.trans ⟨fun h f hf => ?_, fun h => h found rfl⟩
      obtain rfl : found = f := Option.some.inj hf
      exact h

/-! ## An example -/

/-- A file that is entry 1, in a root that is entry 0. -/
def oneFile : Dentries where
  root := 0
  name _ := [0x66]
  type e := if e = 1 then .file else .dir
  children e := if e = 0 then [1] else []
  head _ := none
  parentDirent _ := some 0
  mntRootdir _ := none

/-- Process 1 has moved its offset to 5 with `sys_lseek`. -/
def readFive : OpenTable where
  fds :=
    { fileTable := fun i => if i = 3 then ⟨some 1, devFile, 5, 2⟩ else ⟨none, 0, 0, 0⟩
      fdTable := fun p fd => if fd < 3 then some fd else if p = 1 ∧ fd = 3 then some 3 else none
      live := {1, 2} }
  flags _ := 1
  mode _ := 0

/-- When process 2 opens the file for reading, the offset of process 1 is 0. -/
theorem readFive_disturbed : (readFive.fdView 1 3 = some (3, some 1, devFile, 5, 1)) ∧
      (readFive.sysOpen oneFile none 2 [0x2F, 0x66] 1 0 9).map (fun r => r.2.fdView 1 3) =
        some (some (3, some 1, devFile, 0, 1)) := by
  decide

end OpenTable

end KernelTravel.Fd

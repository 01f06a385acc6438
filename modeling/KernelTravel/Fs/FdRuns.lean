import KernelTravel.Fs.FdTable
import KernelTravel.Lib.Run
import Mathlib.Algebra.Ring.Nat

/-!
# Runs of the open-file calls

The counter of a slot is the number of descriptors that hold it, and a slot is in use exactly if
some descriptor holds it, as long as every call meets `FdSafe`.
-/

namespace KernelTravel.Fd

open Function

open KernelTravel.Pipe (pipeTableRows)

/-- The slot is right for `n` descriptors. -/
structure SlotOk (slot : Slot) (n : Nat) : Prop where
  pipe : slot.type = devPipe → 0 < n ∧ slot.offset = n
  file : slot.type ≠ devPipe → slot.refcnt = n ∧ (slot.dirent = none ↔ n = 0)

/-- The pids that `allocate_pid` gives. -/
def maxPid : Nat := 1024

structure FdInv (s : FdSys) : Prop where
  pids : ∀ p ∈ s.live, p ≤ maxPid
  low : ∀ p ∈ s.live, ∀ fd < 3, ∃ i < 3, s.fdTable p fd = some i
  std : ∀ i < 3, s.isPipe i = false
  slots : ∀ i, 3 ≤ i → SlotOk (s.fileTable i) (s.holders i)

section Tables

variable {s : FdSys} {p fd i j : Nat} {v : Option Nat} {slot : Slot}

theorem mem_localFds : fd ∈ localFds ↔ 3 ≤ fd ∧ fd < maxFilesOpenPerProc := by
  rw [localFds, List.mem_range'_1]
  exact Iff.rfl

theorem freeFd_eq_some (h : s.freeFd p = some fd) : fd ∈ localFds ∧ s.fdTable p fd = none := by
  have hfound := List.find?_some h
  exact ⟨List.mem_of_find?_eq_some h, Option.isNone_iff_eq_none.mp hfound⟩

theorem freeFd_ne_none (hfd : fd ∈ localFds) (hnone : s.fdTable p fd = none) :
    s.freeFd p ≠ none := by
  intro h
  have := List.find?_eq_none.mp h fd hfd
  rw [hnone] at this
  exact this rfl

theorem isPipe_iff : s.isPipe i = true ↔ (s.fileTable i).type = devPipe := by
  rw [FdSys.isPipe, decide_eq_true_iff]

theorem getFree_eq_some (h : s.getFreeSlotInGlobal = some i) :
    3 ≤ i ∧ s.isPipe i = false ∧ (s.fileTable i).dirent = none := by
  have hfound := List.find?_some h
  have hmem := List.mem_of_find?_eq_some h
  rw [List.mem_range'_1] at hmem
  rw [Bool.and_eq_true, Bool.not_eq_true', Option.isNone_iff_eq_none] at hfound
  exact ⟨hmem.1, hfound⟩

theorem fileTable_setSlot_self : (s.setSlot i slot).fileTable i = slot := by
  simp only [FdSys.setSlot, update_self]

theorem fileTable_setSlot_of_ne (h : j ≠ i) : (s.setSlot i slot).fileTable j = s.fileTable j := by
  simp only [FdSys.setSlot, update_of_ne h]

theorem fdTable_setFd_self : (s.setFd p fd v).fdTable p fd = v := by
  simp only [FdSys.setFd, update_self]

theorem fdTable_setFd_of_ne {q e : Nat} (h : e ≠ fd) :
    (s.setFd p fd v).fdTable q e = s.fdTable q e := by
  simp only [FdSys.setFd]
  by_cases hq : q = p
  · subst hq
    rw [update_self, update_of_ne h]
  · rw [update_of_ne hq]

theorem holders_setFd (hp : p ∈ s.live) (hfd : fd < maxFilesOpenPerProc) (i : Nat) :
    (s.setFd p fd v).holders i + Tally.one (s.fdTable p fd) i = s.holders i + Tally.one v i :=
  Tally.total_update hp (Finset.mem_range.mpr hfd) v

theorem held_setFd (hfd : fd < maxFilesOpenPerProc) (i : Nat) :
    (s.setFd p fd v).held p i + Tally.one (s.fdTable p fd) i = s.held p i + Tally.one v i := by
  simp only [FdSys.held, FdSys.setFd, update_self]
  exact Tally.row_update (Finset.mem_range.mpr hfd) v

end Tables

section Invariant

variable {s : FdSys} {p fd i : Nat} {v : Option Nat} {slot : Slot}

theorem FdInv.holders_lt (inv : FdInv s) (i : Nat) :
    s.holders i + maxFilesOpenPerProc < 2 ^ 32 := by
  have hsub : s.live ⊆ Finset.range (maxPid + 1) := fun p hp =>
    Finset.mem_range.mpr (Nat.lt_succ_of_le (inv.pids p hp))
  have hcard := Finset.card_le_card hsub
  rw [Finset.card_range] at hcard
  have hle : s.holders i ≤ s.live.card * (Finset.range maxFilesOpenPerProc).card := Tally.total_le
  rw [Finset.card_range] at hle
  have hmul := Nat.mul_le_mul_right maxFilesOpenPerProc hcard
  have hval : (maxPid + 1) * maxFilesOpenPerProc + maxFilesOpenPerProc < 2 ^ 32 := by decide
  omega

theorem inc_eq {x : Nat} (h : x + 1 < 2 ^ 32) : inc x = x + 1 := Nat.mod_eq_of_lt h

theorem dec_eq {x : Nat} (h : 0 < x) : dec x = x - 1 := if_neg (Nat.ne_of_gt h)

/-- A free slot counts nothing. -/
theorem FdInv.free (inv : FdInv s) (hfree : s.getFreeSlotInGlobal = some i) :
    3 ≤ i ∧ s.isPipe i = false ∧ (s.fileTable i).refcnt = 0 ∧ s.holders i = 0 := by
  obtain ⟨hi, hpipe, hdirent⟩ := getFree_eq_some hfree
  have htype : (s.fileTable i).type ≠ devPipe := by
    rw [ne_eq, ← isPipe_iff, hpipe]
    exact Bool.false_ne_true
  obtain ⟨hrefcnt, hnone⟩ := (inv.slots i hi).file htype
  have hzero := hnone.mp hdirent
  exact ⟨hi, hpipe, hrefcnt.trans hzero, hzero⟩

theorem held_pos (hfd : fd < maxFilesOpenPerProc) (hsome : s.fdTable p fd = some i) :
    0 < s.held p i :=
  Tally.row_pos (Finset.mem_range.mpr hfd) hsome

theorem held_le_holders (hp : p ∈ s.live) : s.held p i ≤ s.holders i := Tally.row_le_total hp

/-- A slot after the standard ones is held by a descriptor after the standard ones. -/
theorem FdInv.exists_of_held (inv : FdInv s) (hp : p ∈ s.live) (hi : 3 ≤ i)
    (hheld : 0 < s.held p i) : ∃ fd ∈ localFds, s.fdTable p fd = some i := by
  by_contra hnone
  refine Nat.ne_of_gt hheld (Tally.row_eq_zero fun fd hfd hcell => ?_)
  rcases Nat.lt_or_ge fd 3 with hlow | hge
  · obtain ⟨j, hj, hstd⟩ := inv.low p hp fd hlow
    rw [hcell] at hstd
    exact Nat.not_lt.mpr hi (Option.some.inj hstd ▸ hj)
  · exact hnone ⟨fd, mem_localFds.mpr ⟨hge, Finset.mem_range.mp hfd⟩, hcell⟩

/-- A descriptor is written together with the slot that it leaves or gets. -/
theorem FdInv.write (inv : FdInv s) (hlow : fd < 3 → ∃ i < 3, v = some i)
    (hstd : i < 3 → slot.type ≠ devPipe) (hself : 3 ≤ i → SlotOk slot ((s.setFd p fd v).holders i))
    (hrest : ∀ j, 3 ≤ j → j ≠ i → (s.setFd p fd v).holders j = s.holders j) :
    FdInv ((s.setFd p fd v).setSlot i slot) where
  pids := inv.pids
  low q hq e he := by
    change ∃ i < 3, (s.setFd p fd v).fdTable q e = some i
    by_cases hcell : q = p ∧ e = fd
    · obtain ⟨rfl, rfl⟩ := hcell
      rw [fdTable_setFd_self]
      exact hlow he
    · have hsame : (s.setFd p fd v).fdTable q e = s.fdTable q e := by
        by_cases hqp : q = p
        · exact fdTable_setFd_of_ne fun hefd => hcell ⟨hqp, hefd⟩
        · simp only [FdSys.setFd, update_of_ne hqp]
      rw [hsame]
      exact inv.low q hq e he
  std j hj := by
    rw [Bool.eq_false_iff, ne_eq, isPipe_iff]
    by_cases hji : j = i
    · subst hji
      rw [fileTable_setSlot_self]
      exact hstd hj
    · rw [fileTable_setSlot_of_ne hji, ← isPipe_iff]
      exact Bool.eq_false_iff.mp (inv.std j hj)
  slots j hj := by
    change SlotOk _ ((s.setFd p fd v).holders j)
    by_cases hji : j = i
    · subst hji
      rw [fileTable_setSlot_self]
      exact hself hj
    · rw [fileTable_setSlot_of_ne hji, hrest j hj hji]
      exact inv.slots j hj

/-- An unused descriptor gets slot `i`. -/
theorem FdInv.install (inv : FdInv s) (hp : p ∈ s.live) (hfd : fd ∈ localFds)
    (hnone : s.fdTable p fd = none) (hstd : i < 3 → slot.type ≠ devPipe)
    (hself : 3 ≤ i → SlotOk slot (s.holders i + 1)) :
    FdInv ((s.setFd p fd (some i)).setSlot i slot) := by
  obtain ⟨hlow, hlt⟩ := mem_localFds.mp hfd
  have hcount := fun j => holders_setFd (v := some i) hp hlt j
  simp only [hnone, Tally.one_none, Nat.add_zero] at hcount
  refine inv.write (fun h => absurd h (Nat.not_lt.mpr hlow)) hstd (fun h => ?_) fun j _ hji => ?_
  · rw [hcount i, Tally.one_self]
    exact hself h
  · rw [hcount j, Tally.one_of_ne fun h => hji (Option.some.inj h).symm, Nat.add_zero]

/-- A descriptor that holds slot `i` is given up. -/
theorem FdInv.remove (inv : FdInv s) (hp : p ∈ s.live) (hfd : fd ∈ localFds)
    (hsome : s.fdTable p fd = some i) (hstd : i < 3 → slot.type ≠ devPipe)
    (hself : 3 ≤ i → SlotOk slot (s.holders i - 1)) :
    FdInv ((s.setFd p fd none).setSlot i slot) := by
  obtain ⟨hlow, hlt⟩ := mem_localFds.mp hfd
  have hcount := fun j => holders_setFd (v := none) hp hlt j
  simp only [hsome, Tally.one_none, Nat.add_zero] at hcount
  refine inv.write (fun h => absurd h (Nat.not_lt.mpr hlow)) hstd (fun h => ?_) fun j _ hji => ?_
  · have hi := hcount i
    rw [Tally.one_self] at hi
    rw [show (s.setFd p fd none).holders i = s.holders i - 1 by omega]
    exact hself h
  · have hj := hcount j
    rw [Tally.one_of_ne fun h => hji (Option.some.inj h).symm, Nat.add_zero] at hj
    exact hj

end Invariant

theorem init_fdInv (live : Finset Nat) (hlive : ∀ p ∈ live, p ≤ maxPid) :
    FdInv (FdSys.init live) where
  pids := hlive
  low p _ fd hfd := ⟨fd, hfd, if_pos hfd⟩
  std i _ := rfl
  slots i hi := by
    have hzero : (FdSys.init live).holders i = 0 := by
      refine Finset.sum_eq_zero fun p _ => Tally.row_eq_zero fun fd _ => ?_
      simp only [FdSys.init]
      split
      · exact fun h => absurd (Option.some.inj h) (by omega)
      · exact (Option.some_ne_none i).symm
    rw [hzero]
    exact ⟨fun h => absurd h (by decide : (0 : Int) ≠ devPipe), fun _ => ⟨rfl, iff_of_true rfl rfl⟩⟩

section Slots

variable {slot : Slot} {n : Nat}

theorem SlotOk.incRefcnt (h : SlotOk slot n) (hfile : slot.type ≠ devPipe) (hpos : 0 < n)
    (hfit : n + 1 < 2 ^ 32) : SlotOk { slot with refcnt := inc slot.refcnt } (n + 1) := by
  obtain ⟨hrefcnt, hdirent⟩ := h.file hfile
  refine ⟨fun htype => absurd htype hfile, fun _ => ⟨?_, ?_⟩⟩
  · rw [← hrefcnt] at hfit ⊢
    exact inc_eq hfit
  · exact iff_of_false (fun hnone => Nat.ne_of_gt hpos (hdirent.mp hnone)) (Nat.succ_ne_zero n)

theorem SlotOk.incOffset (h : SlotOk slot n) (hpipe : slot.type = devPipe) (k : Nat) :
    SlotOk { slot with offset := slot.offset + k } (n + k) := by
  obtain ⟨hpos, hoffset⟩ := h.pipe hpipe
  refine ⟨fun _ => ⟨Nat.add_pos_left hpos k, ?_⟩, fun htype => absurd hpipe htype⟩
  rw [← hoffset]

theorem SlotOk.decOffset (h : SlotOk slot n) (hpipe : slot.type = devPipe)
    (hlast : 1 < slot.offset) : SlotOk { slot with offset := dec slot.offset } (n - 1) := by
  obtain ⟨-, hoffset⟩ := h.pipe hpipe
  refine ⟨fun _ => ⟨by omega, ?_⟩, fun htype => absurd hpipe htype⟩
  rw [← hoffset]
  exact dec_eq (by omega)

theorem SlotOk.fileClose (h : SlotOk slot n) (hfile : slot.type ≠ devPipe) (hpos : 0 < n) :
    SlotOk (fileClose slot) (n - 1) := by
  obtain ⟨hrefcnt, hdirent⟩ := h.file hfile
  have hsome : slot.dirent ≠ none := fun hnone => Nat.ne_of_gt hpos (hdirent.mp hnone)
  have hdec : dec slot.refcnt = n - 1 := by
    rw [hrefcnt]
    exact dec_eq hpos
  rw [Fd.fileClose, if_neg hsome, hdec]
  split
  case isTrue hlast =>
    rw [hlast]
    exact ⟨fun htype => absurd htype (by decide : (-1 : Int) ≠ devPipe),
      fun _ => ⟨rfl, iff_of_true rfl rfl⟩⟩
  case isFalse hmore =>
    exact ⟨fun htype => absurd htype hfile, fun _ => ⟨rfl, iff_of_false hsome hmore⟩⟩

theorem fileClose_type (hfile : slot.type ≠ devPipe) : (fileClose slot).type ≠ devPipe := by
  rw [fileClose]
  split
  · exact hfile
  · split
    · decide
    · exact hfile

end Slots

section Calls

variable {s s' : FdSys} {p fd i : Nat}

theorem type_ne_of_std (inv : FdInv s) (hi : i < 3) : (s.fileTable i).type ≠ devPipe := by
  rw [ne_eq, ← isPipe_iff, inv.std i hi]
  exact Bool.false_ne_true

theorem pcbFdInstall_of_free (h : s.freeFd p = some fd) :
    s.pcbFdInstall p i = (fd, (s.setFd p fd (some i)).setSlot i
      { s.fileTable i with refcnt := inc (s.fileTable i).refcnt }) := by
  rw [FdSys.pcbFdInstall, h]

/-- The slot that is installed was written just before. -/
theorem pcbFdInstall_setSlot {slot : Slot} (h : s.freeFd p = some fd) :
    ((s.setSlot i slot).pcbFdInstall p i).2 =
      (s.setFd p fd (some i)).setSlot i { slot with refcnt := inc slot.refcnt } := by
  rw [pcbFdInstall_of_free (s := s.setSlot i slot) h, fileTable_setSlot_self]
  simp only [FdSys.setSlot, FdSys.setFd, update_idem]

theorem pcbFdInstall_of_full (h : s.freeFd p = none) : s.pcbFdInstall p i = (0, s) := by
  rw [FdSys.pcbFdInstall, h]

theorem fileCreate_inv (inv : FdInv s) (hp : p ∈ s.live) {file : Nat} (safe : CreateSafe s p)
    (hcall : s.fileCreate p file = some s') : FdInv s' := by
  obtain ⟨i, hfree, rfl⟩ := Option.map_eq_some_iff.mp hcall
  obtain ⟨hi, -, hrefcnt, hzero⟩ := inv.free hfree
  obtain ⟨fd, hfd⟩ := Option.ne_none_iff_exists'.mp safe.2
  obtain ⟨hmem, hnone⟩ := freeFd_eq_some hfd
  rw [pcbFdInstall_setSlot hfd, hrefcnt]
  refine inv.install hp hmem hnone (fun h => absurd hi (Nat.not_le.mpr h)) fun _ => ?_
  rw [hzero]
  exact ⟨fun h => absurd h (by decide : devFile ≠ devPipe),
    fun _ => ⟨rfl, iff_of_false (Option.some_ne_none file) Nat.one_ne_zero⟩⟩

/-- With no slot for it, an existing file is not opened. -/
theorem fileOpen_of_full {file : Nat} (hslot : s.slotOf file = none)
    (hfull : s.getFreeSlotInGlobal = none) : s.fileOpen p file = (none, s) := by
  rw [FdSys.fileOpen, hslot, hfull]

theorem sysOpen_inv (inv : FdInv s) (hp : p ∈ s.live) {found : Option Nat} {create : Bool}
    {file : Nat} (safe : OpenSafe s p found create)
    (hcall : s.sysOpen p found create file = some s') : FdInv s' := by
  match found, create with
  | none, false =>
    cases hcall
    exact inv
  | none, true => exact fileCreate_inv inv hp safe hcall
  | some f, true =>
    rw [FdSys.sysOpen, fileOpen_of_full safe.1 safe.2] at hcall
    cases hcall
    exact inv
  | some f, false => exact safe.elim

theorem sysDup_inv (inv : FdInv s) (hp : p ∈ s.live) {oldfd : Nat}
    (hold : oldfd < maxFilesOpenPerProc) (safe : DupSafe s p (s.fdTable p oldfd))
    (hcall : s.sysDup p oldfd = some s') : FdInv s' := by
  rw [FdSys.sysDup, if_neg (Nat.not_le.mpr hold)] at hcall
  cases hcell : s.fdTable p oldfd with
  | none =>
    rw [hcell] at hcall safe
    have hfull : s.freeFd p = none := safe
    simp only [if_pos hfull] at hcall
    cases hcall
    exact inv
  | some i =>
    rw [hcell] at hcall safe
    cases hcall
    cases hfree : s.freeFd p with
    | none =>
      rw [pcbFdInstall_of_full hfree]
      exact inv
    | some fd =>
      obtain ⟨hmem, hnone⟩ := freeFd_eq_some hfree
      have hfile : (s.fileTable i).type ≠ devPipe := by
        intro htype
        have hfull := safe (isPipe_iff.mpr htype)
        rw [hfree] at hfull
        cases hfull
      rw [pcbFdInstall_of_free hfree]
      refine inv.install hp hmem hnone (fun _ => hfile) fun hi => ?_
      have hpos : 0 < s.holders i := Nat.lt_of_lt_of_le (held_pos hold hcell) (held_le_holders hp)
      have hfit := inv.holders_lt i
      exact (inv.slots i hi).incRefcnt hfile hpos (by
        rw [maxFilesOpenPerProc] at hfit
        omega)

theorem setSlot_eq_self : s.setSlot i (s.fileTable i) = s := by
  rw [FdSys.setSlot, update_eq_self]

/-- A standard descriptor goes in the place of a standard or an unused one. -/
theorem FdInv.setStd (inv : FdInv s) (hp : p ∈ s.live) (hfd : fd < maxFilesOpenPerProc)
    (hi : i < 3) (hcell : ∀ j ∈ s.fdTable p fd, j < 3) : FdInv (s.setFd p fd (some i)) := by
  have hsame : (s.setFd p fd (some i)).setSlot i (s.fileTable i) = s.setFd p fd (some i) :=
    setSlot_eq_self (s := s.setFd p fd (some i))
  rw [← hsame]
  refine inv.write (fun _ => ⟨i, hi, rfl⟩) (fun _ => type_ne_of_std inv hi)
    (fun h => absurd hi (Nat.not_lt.mpr h)) fun j hj _ => ?_
  have hcount := holders_setFd (v := some i) hp hfd j
  have hold : s.fdTable p fd ≠ some j := fun h => Nat.not_lt.mpr hj (hcell j h)
  have hnew : some i ≠ some j := fun h => Nat.not_lt.mpr hj (Option.some.inj h ▸ hi)
  rw [Tally.one_of_ne hold, Tally.one_of_ne hnew] at hcount
  exact hcount

theorem FdInv.mem_localFds_of_none (inv : FdInv s) (hp : p ∈ s.live)
    (hfd : fd < maxFilesOpenPerProc) (hnone : s.fdTable p fd = none) : fd ∈ localFds := by
  refine mem_localFds.mpr ⟨Nat.le_of_not_lt fun hlow => ?_, hfd⟩
  obtain ⟨i, -, hsome⟩ := inv.low p hp fd hlow
  rw [hnone] at hsome
  cases hsome

theorem sysDup2_inv (inv : FdInv s) (hp : p ∈ s.live) {old new : Nat}
    (safe : FdSafe s (.dup2 p old new)) (hcall : s.sysDup2 p old new = some s') : FdInv s' := by
  obtain ⟨hnew, safe⟩ := safe
  rw [FdSys.sysDup2, if_neg (Nat.not_le.mpr hnew)] at hcall
  by_cases hstd : old < 3
  · rw [if_pos hstd] at hcall safe
    cases hcall
    exact inv.setStd hp hnew hstd safe
  · rw [if_neg hstd] at hcall safe
    obtain ⟨hold, hnone, hpipe⟩ := safe
    rw [if_neg (by rw [not_or, not_not]; exact ⟨Nat.not_le.mpr hold, hnone⟩)] at hcall
    obtain ⟨i, hcell, rfl⟩ := Option.map_eq_some_iff.mp hcall
    rw [hcell] at hpipe
    split
    case isTrue htrue =>
      have htype := isPipe_iff.mp htrue
      refine inv.install hp (inv.mem_localFds_of_none hp hnew hnone) hnone
        (fun hi => absurd htype (type_ne_of_std inv hi)) fun hi => ?_
      have hok := inv.slots i hi
      have hfit := inv.holders_lt i
      rw [maxFilesOpenPerProc] at hfit
      rw [inc_eq (by rw [(hok.pipe htype).2]; omega)]
      exact hok.incOffset htype 1
    case isFalse hfalse =>
      have hi : i < 3 := Nat.lt_of_not_le fun h => hfalse (hpipe h)
      refine inv.setStd hp hnew hi fun j hj => ?_
      rw [hnone] at hj
      cases hj

theorem sysPipe_inv (inv : FdInv s) (hp : p ∈ s.live) (htwo : TwoFree s p)
    (hcall : s.sysPipe p = some s') : FdInv s' := by
  simp only [FdSys.sysPipe, Option.ite_none_right_eq_some] at hcall
  obtain ⟨i, hfree, rfl⟩ := Option.map_eq_some_iff.mp hcall.2
  obtain ⟨hi, -, -, hzero⟩ := inv.free hfree
  obtain ⟨a, ha, b, hb, hab, hanone, hbnone⟩ := htwo
  obtain ⟨fd, hfd⟩ := Option.ne_none_iff_exists'.mp (freeFd_ne_none ha hanone)
  obtain ⟨hmem, hnone⟩ := freeFd_eq_some hfd
  have hnext : (s.setFd p fd (some i)).freeFd p ≠ none := by
    by_cases hafd : a = fd
    · refine freeFd_ne_none hb ?_
      rw [fdTable_setFd_of_ne fun h => hab (hafd.trans h.symm)]
      exact hbnone
    · refine freeFd_ne_none ha ?_
      rw [fdTable_setFd_of_ne hafd]
      exact hanone
  obtain ⟨fd', hfd'⟩ := Option.ne_none_iff_exists'.mp hnext
  obtain ⟨hmem', hnone'⟩ := freeFd_eq_some hfd'
  rw [pcbFdInstall_setSlot hfd, pcbFdInstall_setSlot hfd']
  -- after the first descriptor the slot would be right with the count 1
  have hfirst : FdInv ((s.setFd p fd (some i)).setSlot i ⟨none, devPipe, 1, 0⟩) := by
    refine inv.install hp hmem hnone (fun h => absurd hi (Nat.not_le.mpr h)) fun _ => ?_
    rw [hzero]
    exact ⟨fun _ => ⟨Nat.one_pos, rfl⟩, fun h => absurd rfl h⟩
  have hone := (hfirst.slots i hi).pipe (by rw [fileTable_setSlot_self])
  rw [fileTable_setSlot_self] at hone
  have hsecond : FdInv ((((s.setFd p fd (some i)).setSlot i ⟨none, devPipe, 1, 0⟩).setFd p fd'
      (some i)).setSlot i ⟨(s.fileTable i).dirent, devPipe, 2,
        inc (inc (s.fileTable i).refcnt)⟩) := by
    refine hfirst.install hp hmem' hnone' (fun h => absurd hi (Nat.not_le.mpr h)) fun _ => ?_
    rw [← hone.2]
    exact ⟨fun _ => ⟨Nat.two_pos, rfl⟩, fun h => absurd rfl h⟩
  simp only [FdSys.setSlot, FdSys.setFd, update_idem] at hsecond ⊢
  exact hsecond

theorem sysClose_inv (inv : FdInv s) (hp : p ∈ s.live) (hfd : fd ∈ localFds)
    (hcell : s.fdTable p fd = some i) (safe : CloseSafe s p (some i)) :
    ∃ table, s.sysClose p fd = some { s.setFd p fd none with fileTable := table } ∧
      FdInv { s.setFd p fd none with fileTable := table } ∧
      ∀ j, (table j).type = devPipe ↔ (s.fileTable j).type = devPipe := by
  obtain ⟨hlow, hlt⟩ := mem_localFds.mp hfd
  have hpos : 0 < s.holders i := Nat.lt_of_lt_of_le (held_pos hlt hcell) (held_le_holders hp)
  have htypes : ∀ slot : Slot, (slot.type = devPipe ↔ (s.fileTable i).type = devPipe) →
      ∀ j, (update s.fileTable i slot j).type = devPipe ↔
        (s.fileTable j).type = devPipe := by
    intro slot hslot j
    by_cases hj : j = i
    · subst hj
      rw [update_self]
      exact hslot
    · rw [update_of_ne hj]
  cases hpipe : s.isPipe i with
  | true =>
    have htype := isPipe_iff.mp hpipe
    obtain ⟨hrow, hlast⟩ := safe hpipe
    refine ⟨_, ?_, ?_, htypes { s.fileTable i with offset := dec (s.fileTable i).offset } Iff.rfl⟩
    · rw [FdSys.sysClose, if_neg (Nat.not_lt.mpr hlow), if_neg (Nat.not_le.mpr hlt), hcell]
      simp only [hpipe, if_true, if_pos hrow]
      rfl
    · exact inv.remove hp hfd hcell (fun hi => absurd htype (type_ne_of_std inv hi))
        fun hi => (inv.slots i hi).decOffset htype hlast
  | false =>
    have htype : (s.fileTable i).type ≠ devPipe := by
      rw [ne_eq, ← isPipe_iff, hpipe]
      exact Bool.false_ne_true
    refine ⟨_, ?_, ?_, htypes (fileClose (s.fileTable i))
      (iff_of_false (fileClose_type htype) htype)⟩
    · rw [FdSys.sysClose, if_neg (Nat.not_lt.mpr hlow), if_neg (Nat.not_le.mpr hlt), hcell]
      simp only [hpipe, Bool.false_eq_true, if_false]
      rfl
    · exact inv.remove hp hfd hcell (fun _ => fileClose_type htype)
        fun hi => (inv.slots i hi).fileClose htype hpos

end Calls

section Fork

variable {s : FdSys} {p : Nat}

/-- What the loop of `update_inode_open_cnts` adds to the counter of slot `i`. -/
def openCnt (s : FdSys) (p : Nat) (fds : List Nat) (i : Nat) : Nat :=
  (fds.map fun fd => Tally.one (s.fdTable p fd) i).sum

/-- The loop over descriptors that hold pipes. -/
theorem updateOpenCnts_spec (fds : List Nat)
    (hpipes : ∀ fd ∈ fds, ∀ i ∈ s.fdTable p fd, s.isPipe i = true)
    (hfit : ∀ i, s.isPipe i = true → (s.fileTable i).offset + openCnt s p fds i < 2 ^ 32) :
    fds.foldlM (fun (t : FdSys) fd => t.updateOpenCnt p fd) s =
      some { s with fileTable := fun i =>
        { s.fileTable i with offset := (s.fileTable i).offset + openCnt s p fds i } } := by
  induction fds generalizing s with
  | nil => rfl
  | cons fd fds ih =>
    have hrest : ∀ e ∈ fds, ∀ i ∈ s.fdTable p e, s.isPipe i = true :=
      fun e he => hpipes e (List.mem_cons_of_mem fd he)
    cases hcell : s.fdTable p fd with
    | none =>
      have hcnt : ∀ i, openCnt s p (fd :: fds) i = openCnt s p fds i := by
        intro i
        rw [openCnt, List.map_cons, List.sum_cons, hcell, Tally.one_none, Nat.zero_add]
        rfl
      have hround : s.updateOpenCnt p fd = some s := by rw [FdSys.updateOpenCnt, hcell]
      simp only [hcnt] at hfit ⊢
      rw [List.foldlM_cons, hround]
      exact ih hrest hfit
    | some i =>
      have hcnt : ∀ j, openCnt s p (fd :: fds) j = Tally.one (some i) j + openCnt s p fds j := by
        intro j
        rw [openCnt, List.map_cons, List.sum_cons, hcell]
        rfl
      have hpipe := hpipes fd List.mem_cons_self i hcell
      have hinc : inc (s.fileTable i).offset = (s.fileTable i).offset + 1 := by
        have := hfit i hpipe
        rw [hcnt i, Tally.one_self] at this
        exact inc_eq (by omega)
      have hround : s.updateOpenCnt p fd = some (s.setSlot i
          { s.fileTable i with offset := (s.fileTable i).offset + 1 }) := by
        simp only [FdSys.updateOpenCnt, hcell, hpipe, if_true, hinc]
      -- the slots after this round
      have hslot : ∀ j, (s.setSlot i { s.fileTable i with
          offset := (s.fileTable i).offset + 1 }).fileTable j =
            { s.fileTable j with offset := (s.fileTable j).offset + Tally.one (some i) j } := by
        intro j
        by_cases hj : j = i
        · subst hj
          rw [fileTable_setSlot_self, Tally.one_self]
        · rw [fileTable_setSlot_of_ne hj, Tally.one_of_ne fun h => hj (Option.some.inj h).symm,
            Nat.add_zero]
      have hloop := ih (s := s.setSlot i { s.fileTable i with
        offset := (s.fileTable i).offset + 1 }) ?_ ?_
      · rw [List.foldlM_cons, hround]
        refine hloop.trans ?_
        simp only [hslot, hcnt, Nat.add_assoc]
        rfl
      · intro e he j hj
        rw [isPipe_iff, hslot j, ← isPipe_iff]
        exact hrest e he j hj
      · intro j hj
        rw [isPipe_iff, hslot j, ← isPipe_iff] at hj
        have := hfit j hj
        rw [hcnt j] at this
        rw [hslot j, Nat.add_assoc]
        exact this

/-- The loop sees every descriptor that holds a slot after the standard ones. -/
theorem FdInv.openCnt_eq (inv : FdInv s) (hp : p ∈ s.live) {i : Nat} (hi : 3 ≤ i) :
    openCnt s p localFds i = s.held p i := by
  have hnodup : localFds.Nodup := List.nodup_range'
  rw [openCnt, ← List.sum_toFinset _ hnodup, FdSys.held, Tally.row]
  refine Finset.sum_subset (fun fd hfd => ?_) fun fd hfd hnot => Tally.one_of_ne fun hcell => ?_
  · exact Finset.mem_range.mpr (mem_localFds.mp (List.mem_toFinset.mp hfd)).2
  · rw [List.mem_toFinset, mem_localFds, not_and] at hnot
    have hlow : fd < 3 := Nat.lt_of_not_le fun h => hnot h (Finset.mem_range.mp hfd)
    obtain ⟨j, hj, hstd⟩ := inv.low p hp fd hlow
    rw [hcell] at hstd
    exact Nat.not_lt.mpr hi (Option.some.inj hstd ▸ hj)

theorem sysFork_inv {s' : FdSys} (inv : FdInv s) (hp : p ∈ s.live) {child : Nat}
    (hchild : child ∉ s.live) (safe : FdSafe s (.fork p child))
    (hcall : s.sysFork p child = some s') : FdInv s' := by
  obtain ⟨hrow, hrow', hpipes⟩ := safe
  have hfit : ∀ i, s.isPipe i = true →
      (s.fileTable i).offset + openCnt s p localFds i < 2 ^ 32 := by
    intro i hpipe
    have hi : 3 ≤ i := Nat.le_of_not_lt fun hi => type_ne_of_std inv hi (isPipe_iff.mp hpipe)
    have hheld : s.held p i ≤ (Finset.range maxFilesOpenPerProc).card := Tally.row_le_card
    rw [Finset.card_range] at hheld
    have hlt := inv.holders_lt i
    rw [((inv.slots i hi).pipe (isPipe_iff.mp hpipe)).2, inv.openCnt_eq hp hi]
    omega
  rw [FdSys.sysFork, if_pos ⟨hrow, hrow'⟩, FdSys.updateInodeOpenCnts,
    updateOpenCnts_spec localFds hpipes hfit] at hcall
  cases hcall
  refine ⟨fun q hq => ?_, fun q hq fd hfd => ?_, fun i hi => ?_, fun i hi => ?_⟩
  · rcases Finset.mem_insert.mp hq with rfl | hq
    · rw [pipeTableRows] at hrow'
      rw [maxPid]
      omega
    · exact inv.pids q hq
  · change ∃ i < 3, update s.fdTable child (s.fdTable p) q fd = some i
    by_cases hqc : q = child
    · rw [hqc, update_self]
      exact inv.low p hp fd hfd
    · rw [update_of_ne hqc]
      exact inv.low q ((Finset.mem_insert.mp hq).resolve_left hqc) fd hfd
  · have htype : (s.fileTable i).type ≠ devPipe := type_ne_of_std inv hi
    exact decide_eq_false htype
  · have hholders : Tally.total (insert child s.live) (Finset.range maxFilesOpenPerProc)
        (update s.fdTable child (s.fdTable p)) i = s.holders i + s.held p i :=
      Tally.total_insert hchild (s.fdTable p)
    change SlotOk { s.fileTable i with
      offset := (s.fileTable i).offset + openCnt s p localFds i } (Tally.total _ _ _ i)
    rw [hholders, inv.openCnt_eq hp hi]
    by_cases htype : (s.fileTable i).type = devPipe
    · exact (inv.slots i hi).incOffset htype _
    · -- no descriptor of the process holds the file
      have hzero : s.held p i = 0 := by
        by_contra hne
        obtain ⟨fd, hfd, hcell⟩ := inv.exists_of_held hp hi (Nat.pos_of_ne_zero hne)
        exact htype (isPipe_iff.mp (hpipes fd hfd i hcell))
      rw [hzero]
      exact inv.slots i hi

end Fork

/-- The processes that are left hold what they held. -/
structure ExitReady (s : FdSys) (p : Nat) : Prop where
  inv : FdInv s
  mem : p ∈ s.live
  rest : ∀ i, s.isPipe i = true → 0 < s.held p i → p < pipeTableRows ∧ s.held p i < s.holders i

section Exit

variable {s s' : FdSys} {p : Nat}

/-- One round of the loop of `sys_exit`. -/
theorem exitRound_spec (ready : ExitReady s p) {fd : Nat} (hfd : fd ∈ localFds) :
    ∃ s', s.exitRound p fd = some s' ∧ ExitReady s' p ∧ s'.live = s.live ∧
      s'.fdTable p fd = none ∧ ∀ e, s.fdTable p e = none → s'.fdTable p e = none := by
  obtain ⟨-, hlt⟩ := mem_localFds.mp hfd
  cases hcell : s.fdTable p fd with
  | none =>
    refine ⟨s, ?_, ready, rfl, hcell, fun _ => id⟩
    rw [FdSys.exitRound, if_pos hcell]
  | some i =>
    have hsafe : CloseSafe s p (some i) := by
      intro hpipe
      have hheld := held_pos hlt hcell
      obtain ⟨hrow, hless⟩ := ready.rest i hpipe hheld
      have hi : 3 ≤ i := Nat.le_of_not_lt fun hi => by
        rw [ready.inv.std i hi] at hpipe
        cases hpipe
      refine ⟨hrow, ?_⟩
      rw [((ready.inv.slots i hi).pipe (isPipe_iff.mp hpipe)).2]
      omega
    obtain ⟨table, hclose, hinv, htypes⟩ := sysClose_inv ready.inv ready.mem hfd hcell hsafe
    refine ⟨_, ?_, ⟨hinv, ready.mem, fun j hpipe hheld => ?_⟩, rfl, fdTable_setFd_self,
      fun e he => ?_⟩
    · rw [FdSys.exitRound, if_neg (by rw [hcell]; exact Option.some_ne_none i), hclose]
    · have hpipe' : s.isPipe j = true := isPipe_iff.mpr ((htypes j).mp (isPipe_iff.mp hpipe))
      have hheld' := held_setFd (s := s) (p := p) (v := none) hlt j
      have hholders := holders_setFd (v := none) ready.mem hlt j
      rw [Tally.one_none, Nat.add_zero] at hheld' hholders
      change 0 < (s.setFd p fd none).held p j at hheld
      obtain ⟨hrow, hless⟩ := ready.rest j hpipe' (by omega)
      refine ⟨hrow, ?_⟩
      change (s.setFd p fd none).held p j < (s.setFd p fd none).holders j
      omega
    · change (s.setFd p fd none).fdTable p e = none
      by_cases hefd : e = fd
      · rw [hefd, fdTable_setFd_self]
      · rw [fdTable_setFd_of_ne hefd]
        exact he

/-- The loop of `sys_exit`. -/
theorem exitLoop_spec (fds : List Nat) (hfds : ∀ fd ∈ fds, fd ∈ localFds) (ready : ExitReady s p) :
    ∃ s', fds.foldlM (fun (t : FdSys) fd => t.exitRound p fd) s = some s' ∧ ExitReady s' p ∧
      s'.live = s.live ∧ (∀ fd ∈ fds, s'.fdTable p fd = none) ∧
      ∀ e, s.fdTable p e = none → s'.fdTable p e = none := by
  induction fds generalizing s with
  | nil => exact ⟨s, rfl, ready, rfl, fun fd hfd => absurd hfd List.not_mem_nil, fun _ => id⟩
  | cons fd fds ih =>
    obtain ⟨s₁, hround, hready₁, hlive₁, hnone₁, hkeep₁⟩ :=
      exitRound_spec ready (hfds fd List.mem_cons_self)
    obtain ⟨s₂, hloop, hready₂, hlive₂, hnone₂, hkeep₂⟩ :=
      ih (fun e he => hfds e (List.mem_cons_of_mem fd he)) hready₁
    refine ⟨s₂, ?_, hready₂, hlive₂.trans hlive₁, fun e he => ?_,
      fun e he => hkeep₂ e (hkeep₁ e he)⟩
    · rw [List.foldlM_cons, hround]
      exact hloop
    · rcases List.mem_cons.mp he with rfl | he
      · exact hkeep₂ e hnone₁
      · exact hnone₂ e he

theorem sysExit_inv (inv : FdInv s) (hp : p ∈ s.live) (safe : FdSafe s (.exit p))
    (hcall : s.sysExit p = some s') : FdInv s' := by
  have hready : ExitReady s p := by
    refine ⟨inv, hp, fun i hpipe hheld => ?_⟩
    have hi : 3 ≤ i := Nat.le_of_not_lt fun hi => type_ne_of_std inv hi (isPipe_iff.mp hpipe)
    obtain ⟨fd, hfd, hcell⟩ := inv.exists_of_held hp hi hheld
    rw [← ((inv.slots i hi).pipe (isPipe_iff.mp hpipe)).2]
    exact safe fd hfd i hcell hpipe
  obtain ⟨s₁, hloop, hready₁, hlive, hnone, -⟩ := exitLoop_spec localFds (fun _ => id) hready
  rw [FdSys.sysExit, hloop] at hcall
  cases hcall
  have inv₁ := hready₁.inv
  refine ⟨fun q hq => inv₁.pids q (Finset.mem_of_mem_erase hq),
    fun q hq => inv₁.low q (Finset.mem_of_mem_erase hq), inv₁.std, fun i hi => ?_⟩
  have hheld : s₁.held p i = 0 := by
    by_contra hne
    obtain ⟨fd, hfd, hcell⟩ := inv₁.exists_of_held hready₁.mem hi (Nat.pos_of_ne_zero hne)
    rw [hnone fd hfd] at hcell
    cases hcell
  have hholders : Tally.total (s₁.live.erase p) (Finset.range maxFilesOpenPerProc) s₁.fdTable i +
      s₁.held p i = s₁.holders i := Tally.total_erase hready₁.mem
  rw [hheld, Nat.add_zero] at hholders
  change SlotOk _ (Tally.total _ _ _ i)
  rw [hholders]
  exact inv₁.slots i hi

end Exit

theorem fdStep_inv {s s' : FdSys} (inv : FdInv s) (op : FdOp) (safe : FdSafe s op)
    (hstep : fdStep s op = some s') : FdInv s' := by
  simp only [fdStep, Option.ite_none_right_eq_some] at hstep
  obtain ⟨hp, hcall⟩ := hstep
  cases op with
  | openFile p found create file => exact sysOpen_inv inv hp safe hcall
  | create p file => exact fileCreate_inv inv hp safe hcall
  | dup p oldfd => exact sysDup_inv inv hp safe.1 safe.2 hcall
  | dup2 p old new => exact sysDup2_inv inv hp safe hcall
  | pipe p => exact sysPipe_inv inv hp safe.2.2 hcall
  | fork p child =>
    simp only [FdSys.call, Option.ite_none_left_eq_some] at hcall
    exact sysFork_inv inv hp hcall.1 safe hcall.2
  | close p fd =>
    have hclose : s.sysClose p fd = some s' := hcall
    rcases Nat.lt_or_ge fd 3 with hlow | hge
    · rw [FdSys.sysClose, if_pos hlow] at hclose
      cases hclose
      exact inv
    · obtain ⟨hlt, hsafe⟩ := safe hge
      cases hcell : s.fdTable p fd with
      | none =>
        rw [hcell] at hsafe
        exact hsafe.elim
      | some i =>
        rw [hcell] at hsafe
        obtain ⟨table, hrun, hinv, -⟩ :=
          sysClose_inv inv hp (mem_localFds.mpr ⟨hge, hlt⟩) hcell hsafe
        cases hrun.symm.trans hclose
        exact hinv
  | exit p => exact sysExit_inv inv hp safe hcall

/-- A slot is in use exactly if a descriptor holds it, and then it counts its descriptors. -/
def CountsOk (s : FdSys) : Prop :=
  ∀ i, 3 ≤ i → i < maxFileOpen →
    (s.inUse i = true ↔ 0 < s.holders i) ∧ (s.inUse i = true → s.holders i = s.refCount i)

theorem FdInv.countsOk {s : FdSys} (inv : FdInv s) : CountsOk s := by
  intro i hi _
  have hok := inv.slots i hi
  rw [FdSys.inUse, FdSys.refCount]
  cases hpipe : s.isPipe i with
  | true =>
    obtain ⟨hpos, hoffset⟩ := hok.pipe (isPipe_iff.mp hpipe)
    exact ⟨iff_of_true rfl hpos, fun _ => hoffset.symm⟩
  | false =>
    have htype : (s.fileTable i).type ≠ devPipe := by
      rw [ne_eq, ← isPipe_iff, hpipe]
      exact Bool.false_ne_true
    obtain ⟨hrefcnt, hdirent⟩ := hok.file htype
    refine ⟨?_, fun _ => hrefcnt.symm⟩
    rw [Bool.false_or, Option.isSome_iff_ne_none, ne_eq, hdirent]
    exact Nat.pos_iff_ne_zero.symm

theorem fd_runs (live : Finset Nat) (hlive : ∀ p ∈ live, p ≤ maxPid) (ops : List FdOp)
    (safe : Run.Meets fdStep FdSafe (FdSys.init live) ops) (s : FdSys)
    (run : Run.exec fdStep (FdSys.init live) ops = some s) : CountsOk s :=
  (Run.invariant (init_fdInv live hlive) safe (fun _ op _ inv hsafe => fdStep_inv inv op hsafe)
    run).countsOk

/-- A process makes a pipe and forks twice, creates and duplicates a file, closes one of its
descriptors, and a child ends. -/
def pipeAndFile : List FdOp :=
  [.pipe 1, .fork 1 2, .fork 2 3, .create 1 7, .dup 1 5, .dup2 2 3 6, .close 1 5, .close 2 4,
    .exit 2]

theorem fd_runs_pipeAndFile :
    ∃ s, Run.exec fdStep (FdSys.init {1}) pipeAndFile = some s ∧ CountsOk s := by
  have hrun : (Run.exec fdStep (FdSys.init {1}) pipeAndFile).isSome = true := by decide +kernel
  obtain ⟨s, hs⟩ := Option.isSome_iff_exists.mp hrun
  exact ⟨s, hs, fd_runs {1} (by decide) pipeAndFile (by decide +kernel) s hs⟩

/-- An existing file is opened once, and its slot counts two. A file is open when a process
forks: the slot counts one descriptor of two. Both ends of a pipe are closed, and its slot is not
free. -/
theorem counts_differ : (Run.exec fdStep (FdSys.init {1}) [.openFile 1 (some 7) false 0]).map
        (fun s => (s.holders 3, s.refCount 3)) = some (1, 2) ∧
      (Run.exec fdStep (FdSys.init {1}) [.create 1 7, .fork 1 2]).map
        (fun s => (s.holders 3, s.refCount 3)) = some (2, 1) ∧
      (Run.exec fdStep (FdSys.init {1}) [.pipe 1, .close 1 3, .close 1 4]).map
        (fun s => (s.holders 3, s.inUse 3)) = some (0, true) := by
  refine ⟨?_, ?_, ?_⟩
  · decide +kernel
  · decide +kernel
  · decide +kernel

end KernelTravel.Fd

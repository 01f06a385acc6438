import KernelTravel.Mm.Brk
import KernelTravel.Mm.VmaRuns
import KernelTravel.Userprog.Load
import Mathlib.Data.Finset.Card

/-!
# When loading a program comes to its end

`load` stops on the way if it runs out of pages, if a segment lies above `USER_STACK`, if bytes
are read to an address that is not mapped, and if an area is to begin inside another one. `Ready`
says what is still to be done and that there are pages and room for it; each step of `load` takes
its part of that.
-/

namespace KernelTravel.Userprog

open Function

open Mm (pageSize pageAlign MmStruct taskUnmappedBase)

namespace AreaReq

def size (r : AreaReq) : Nat := pageAlign r.len

/-- `do_mmap` makes no area, whatever areas there are. -/
def Refused (r : AreaReq) : Prop :=
  (r.offset + r.size) % 2 ^ 64 < r.offset ∨ r.offset % 4096 ≠ 0 ∨ r.size = 0 ∨
    (r.offset >>> 12 + r.size >>> 12) % 2 ^ 64 < r.offset >>> 12

instance (r : AreaReq) : Decidable r.Refused := inferInstanceAs (Decidable (_ ∨ _ ∨ _ ∨ _))

/-- The page for the area. -/
def pages (r : AreaReq) : Nat := if r.Refused then 0 else 1

/-- The two areas do not meet. -/
def Apart (r q : AreaReq) : Prop :=
  r.Refused ∨ q.Refused ∨ q.addr + q.size ≤ r.addr ∨ r.addr + r.size ≤ q.addr

instance (r q : AreaReq) : Decidable (r.Apart q) := inferInstanceAs (Decidable (_ ∨ _ ∨ _ ∨ _))

/-- The area can be made. -/
def Fits (r : AreaReq) (mm : MmStruct) : Prop :=
  r.Refused ∨ r.addr + r.size < 2 ^ 64 ∧ mm.Free r.addr r.size

end AreaReq

def Phdr.pages (phdr : Phdr) : List Nat := List.range' (phdr.low / pageSize) phdr.pageCnt

/-- The areas of the stack, of the heap and of the arguments. -/
def stackAreas : List AreaReq :=
  [⟨userStack - pageSize, pageSize, 0⟩, ⟨heapStart, heapLength, 0⟩, ⟨userTop - 0x8000, 0x8000, 0⟩]

/-- The tables among `is` that do not exist. -/
def missing (table : Nat → Bool) (is : List Nat) : Nat :=
  (is.toFinset.filter fun i => table i = false).card

namespace Loader

/-- The pages that are taken for the pages `ns` of the program, with their tables. -/
def need (l : Loader) (ns : List Nat) : Nat :=
  ns.length + missing l.pmd (ns.map (· / 2 ^ 18)) + missing l.pt (ns.map (· / 2 ^ 9))

/-- The pages `ns` and the areas `rs` can still be made. -/
structure Ready (l : Loader) (ns : List Nat) (rs : List AreaReq) : Prop where
  inv : l.mm.Inv
  frames : l.need ns + (rs.map AreaReq.pages).sum ≤ l.frames
  below : ∀ n ∈ ns, n ≤ btmpBytesLen * 8
  fits : ∀ r ∈ rs, r.Fits l.mm
  apart : rs.Pairwise AreaReq.Apart

end Loader

section Areas

variable {rbInsertColor : SearchTree Nat → SearchTree Nat} {mm mm' : MmStruct} {r q : AreaReq}
  {flags : Nat}

theorem doMmap_refused (refused : r.Refused) :
    ∃ e, mm.doMmap rbInsertColor none r.addr r.len flags r.offset = some (e, mm) := by
  rw [AreaReq.Refused, AreaReq.size] at refused
  rw [MmStruct.doMmap]
  split
  next => exact ⟨_, rfl⟩
  next hwrap =>
  split
  next haligned =>
    rw [MmStruct.doMmapPgoff]
    dsimp only
    split
    next => exact ⟨_, rfl⟩
    next hzero =>
    split
    next => exact ⟨_, rfl⟩
    next hpgoff =>
      rcases refused with h | h | h | h
      · exact absurd h hwrap
      · exact absurd haligned h
      · exact absurd h hzero
      · exact absurd h hpgoff
  next => exact ⟨_, rfl⟩

/-- A request at its own address takes at most its page and its range. -/
theorem doMmap_init (color : ∀ t, (rbInsertColor t).inorder = t.inorder) (inv : mm.Inv)
    (hinit : flags &&& Mm.mapForInitFile ≠ 0) (fits : r.Fits mm) :
    ∃ e mm', mm.doMmap rbInsertColor none r.addr r.len flags r.offset = some (e, mm') ∧ mm'.Inv ∧
      mm'.fresh - mm.fresh ≤ r.pages ∧ ∀ q : AreaReq, q.Fits mm → r.Apart q → q.Fits mm' := by
  by_cases refused : r.Refused
  · obtain ⟨e, h⟩ := @doMmap_refused rbInsertColor mm r flags refused
    exact ⟨e, mm, h, inv, by simp, fun q fits _ => fits⟩
  obtain ⟨hfit, hfree⟩ := fits.resolve_left refused
  obtain ⟨e, mm', h, inv'⟩ := MmStruct.doMmap_spec color inv
    (.inr ⟨fun _ => ⟨hfit, hfree⟩, fun h => absurd h hinit⟩ :
      mm.MmapSafe none r.addr r.len flags r.offset)
  refine ⟨e, mm', h, inv', ?_⟩
  rcases MmStruct.doMmap_cases h with rfl | ⟨a, mm₁, hchoose, hrest⟩
  · exact ⟨by simp, fun q fits _ => fits⟩
  rw [MmStruct.chooseAddr, if_neg hinit] at hchoose
  cases hchoose
  rcases hrest with rfl | hadd
  · exact ⟨by simp, fun q fits _ => fits⟩
  refine ⟨?_, fun q fits apart => ?_⟩
  · obtain ⟨place, -, h⟩ := Option.bind_eq_some_iff.mp hadd
    obtain ⟨t, -, h⟩ := Option.bind_eq_some_iff.mp h
    cases h
    simp [AreaReq.pages, refused]
  · rcases apart with h | h | h
    · exact absurd h refused
    · exact .inl h
    · refine fits.imp_right fun hq => ?_
      obtain ⟨hq, free⟩ := hq
      exact ⟨hq, free.addArea color hfit hadd h⟩

end Areas

/-! ## Steps -/

theorem missing_cons (table : Nat → Bool) (i : Nat) (is : List Nat) : missing table (i :: is) =
    (if table i = true then 0 else 1) + missing (update table i true) is := by
  cases htable : table i with
  | true =>
    have hsame : update table i true = table := by rw [← htable, update_eq_self]
    rw [hsame, if_pos rfl, Nat.zero_add, missing, missing, List.toFinset_cons, Finset.filter_insert,
      if_neg (by simp [htable])]
  | false =>
    have hrest : insert i (is.toFinset.filter fun j => table j = false) =
        insert i (is.toFinset.filter fun j => update table i true j = false) := by
      ext j
      by_cases hj : j = i
      · simp [hj]
      · simp [hj]
    rw [missing, missing, List.toFinset_cons, Finset.filter_insert, if_pos htable,
      if_neg (by decide), hrest, Finset.card_insert_of_notMem (by simp), Nat.add_comm]

namespace Loader

variable {l l' : Loader} {ns : List Nat} {rs : List AreaReq} {n k : Nat} {file : Nat → Byte}
  {phdr : Phdr}
  {rbInsertColor : SearchTree Nat → SearchTree Nat}

theorem needPmd_eq (h : (if l.pmd (n / 2 ^ 18) = true then 0 else 1) ≤ l.frames) :
    l.needPmd n = some { l with
      pmd := update l.pmd (n / 2 ^ 18) true
      frames := l.frames - if l.pmd (n / 2 ^ 18) = true then 0 else 1 } := by
  rw [needPmd]
  cases hpmd : l.pmd (n / 2 ^ 18) with
  | true => simp [← hpmd]
  | false =>
    rw [hpmd] at h
    simp [takePages, show 1 ≤ l.frames from h]

theorem needPt_eq (h : (if l.pt (n / 2 ^ 9) = true then 0 else 1) ≤ l.frames) :
    l.needPt n = some { l with
      pt := update l.pt (n / 2 ^ 9) true
      frames := l.frames - if l.pt (n / 2 ^ 9) = true then 0 else 1 } := by
  rw [needPt]
  cases hpt : l.pt (n / 2 ^ 9) with
  | true => simp [← hpt]
  | false =>
    rw [hpt] at h
    simp [takePages, show 1 ≤ l.frames from h]

theorem Ready.loadPage (ready : l.Ready (n :: ns) rs) :
    ∃ l', l.loadPage n = some l' ∧ l'.Ready ns rs := by
  obtain ⟨hn, hrest⟩ := List.forall_mem_cons.mp ready.below
  have hframes := ready.frames
  rw [need, List.map_cons, List.map_cons, missing_cons, missing_cons, List.length_cons] at hframes
  set a := if l.pmd (n / 2 ^ 18) = true then 0 else 1 with ha
  set b := if l.pt (n / 2 ^ 9) = true then 0 else 1 with hb
  have hpmd := @needPmd_eq l n (by omega)
  have hpt := @needPt_eq { l with pmd := update l.pmd (n / 2 ^ 18) true, frames := l.frames - a } n
    (show b ≤ l.frames - a by omega)
  refine ⟨{ l with
    bytes := (zeroPage n).write l.bytes, page := update l.page n true
    pmd := update l.pmd (n / 2 ^ 18) true, pt := update l.pt (n / 2 ^ 9) true
    frames := l.frames - a - b - 1 }, ?_, ready.inv, ?_, hrest, ready.fits, ready.apart⟩
  · rw [Loader.loadPage, ptePtr, hpmd]
    simp only [Option.bind_some, Option.bind_eq_bind, ← ha, hpt, ← hb, takePages]
    rw [if_pos (show 1 ≤ l.frames - a - b by omega)]
    simp only [Option.bind_some, if_pos hn]
  · change ns.length + missing (update l.pmd (n / 2 ^ 18) true) _ + missing
      (update l.pt (n / 2 ^ 9) true) _ + _ ≤ l.frames - a - b - 1
    omega

theorem Ready.loadPages {cnt : Nat} (ready : l.Ready (List.range' n cnt ++ ns) rs) :
    ∃ l', l.loadPages n cnt = some l' ∧ l'.Ready ns rs := by
  induction cnt generalizing l n with
  | zero => exact ⟨l, rfl, ready⟩
  | succ cnt ih =>
    rw [List.range'_succ, List.cons_append] at ready
    have hn : n ≤ btmpBytesLen * 8 := ready.below n List.mem_cons_self
    have hsmall : btmpBytesLen * 8 < 2 ^ 27 := by decide
    obtain ⟨l₁, hpage, ready₁⟩ := ready.loadPage
    obtain ⟨l', hrest, ready'⟩ := ih ready₁
    refine ⟨l', ?_, ready'⟩
    rw [Loader.loadPages, hpage, Option.bind_some, Nat.mod_eq_of_lt (by omega)]
    exact hrest

theorem Ready.doMmap (color : ∀ t, (rbInsertColor t).inorder = t.inorder) {r : AreaReq}
    {flags : Nat} (hinit : flags &&& Mm.mapForInitFile ≠ 0) (ready : l.Ready ns (r :: rs)) :
    ∃ l', l.doMmap rbInsertColor r.addr r.len flags r.offset = some l' ∧ l'.Ready ns rs := by
  obtain ⟨hfits, hrest⟩ := List.forall_mem_cons.mp ready.fits
  obtain ⟨hapart, hpairs⟩ := List.pairwise_cons.mp ready.apart
  obtain ⟨e, mm, hmmap, inv, hfresh, hkept⟩ := doMmap_init color ready.inv hinit hfits
  have hframes := ready.frames
  rw [List.map_cons, List.sum_cons] at hframes
  refine ⟨{ l with frames := l.frames - (mm.fresh - l.mm.fresh), mm }, ?_, inv, ?_, ready.below,
    fun q hq => hkept q (hrest q hq) (hapart q hq), hpairs⟩
  · simp only [Loader.doMmap, hmmap, Option.bind_some, takePages]
    rw [if_pos (by omega)]
    rfl
  · change l.need ns + _ ≤ l.frames - _
    omega

theorem Ready.notePhaddr (ready : l.Ready ns rs) (phoff : Nat) :
    (l.notePhaddr phdr phoff).Ready ns rs := by
  rw [Loader.notePhaddr]
  split
  · exact ⟨ready.inv, ready.frames, ready.below, ready.fits, ready.apart⟩
  · exact ready

theorem Ready.loadPhdr (file : Nat → Byte) (color : ∀ t, (rbInsertColor t).inorder = t.inorder)
    (ready : l.Ready (phdr.pages ++ ns) (phdr.area :: rs)) (hsize : phdr.memsz < 2 ^ 63)
    (hfile : phdr.filesz ≤ phdr.memsz) :
    ∃ l', l.loadPhdr rbInsertColor file phdr = some l' ∧ l'.Ready ns rs := by
  obtain ⟨l₁, hpages, ready₁⟩ := ready.loadPages
  have hcovers : l₁.space.Covers (phdr.filePatch file) := by
    intro i hi
    simp only [Phdr.filePatch, List.length_map, List.length_range] at hi
    exact mapped_of_pages hsize (loadPages_effect hpages).2 (hi.trans_le hfile)
  have hread : l₁.sysRead (phdr.filePatch file) =
      some { l₁ with bytes := (phdr.filePatch file).write l₁.bytes } := by
    rw [sysRead, Space.put, if_pos hcovers]
    rfl
  have ready₂ : Ready { l₁ with bytes := (phdr.filePatch file).write l₁.bytes } ns
      (phdr.area :: rs) :=
    ⟨ready₁.inv, ready₁.frames, ready₁.below, ready₁.fits, ready₁.apart⟩
  obtain ⟨l', hmap, ready'⟩ := ready₂.doMmap color
    (show (0x02 ||| 0x0800 ||| 0x1000 ||| Mm.mapForInitFile) &&& Mm.mapForInitFile ≠ 0 by decide)
  have hstart : l.loadPages (phdr.vaddr / pageSize % 2 ^ 32) phdr.pageCnt = some l₁ := by
    rw [low_div]
    exact hpages
  exact ⟨l', Option.bind_eq_some_iff.mpr ⟨l₁, hstart, Option.bind_eq_some_iff.mpr ⟨_, hread, hmap⟩⟩,
    ready'⟩

theorem Ready.loadPhdrs (color : ∀ t, (rbInsertColor t).inorder = t.inorder)
    {phentsize phoff cnt : Nat} {segs : List Phdr}
    (hsegs : segs = (phdrsFrom file phentsize phoff cnt).filter fun phdr => phdr.type = 1)
    (ready : l.Ready (segs.flatMap Phdr.pages ++ ns) (segs.map Phdr.area ++ rs))
    (hsize : ∀ phdr ∈ segs, phdr.memsz < 2 ^ 63) (hfile : ∀ phdr ∈ segs, phdr.filesz ≤ phdr.memsz) :
    ∃ l', l.loadPhdrs rbInsertColor file phentsize phoff cnt = some l' ∧ l'.Ready ns rs := by
  induction cnt generalizing l phoff segs with
  | zero =>
    cases hsegs
    exact ⟨l, rfl, ready⟩
  | succ cnt ih =>
    rw [phdrsFrom, List.filter_cons] at hsegs
    rw [Loader.loadPhdrs]
    by_cases htype : (phdrAt file phoff).type = 1
    · rw [if_pos (decide_eq_true htype)] at hsegs
      subst hsegs
      rw [List.flatMap_cons, List.append_assoc, List.map_cons, List.cons_append] at ready
      obtain ⟨hsizeFirst, hsizeRest⟩ := List.forall_mem_cons.mp hsize
      obtain ⟨hfileFirst, hfileRest⟩ := List.forall_mem_cons.mp hfile
      obtain ⟨l₁, hfirst, ready₁⟩ :=
        (ready.notePhaddr phoff).loadPhdr file color hsizeFirst hfileFirst
      obtain ⟨l', hrest, ready'⟩ := ih rfl ready₁ hsizeRest hfileRest
      refine ⟨l', ?_, ready'⟩
      rw [if_pos htype, hfirst, Option.bind_some]
      exact hrest
    · rw [if_neg (by simpa using htype)] at hsegs
      obtain ⟨l', hrest, ready'⟩ := ih hsegs ready hsize hfile
      refine ⟨l', ?_, ready'⟩
      rw [if_neg htype, Option.bind_some]
      exact hrest

theorem Ready.mapStack (color : ∀ t, (rbInsertColor t).inorder = t.inorder)
    (ready : l.Ready ns stackAreas) : ∃ l', l.mapStack rbInsertColor = some l' := by
  have hinit : (0x02 ||| Mm.mapFixed ||| 0x20 ||| Mm.mapForInitFile) &&& Mm.mapForInitFile ≠ 0 := by
    decide
  obtain ⟨l₁, hstack, ready₁⟩ := ready.doMmap color hinit
  obtain ⟨l₂, hheap, ready₂⟩ := ready₁.doMmap color hinit
  obtain ⟨l', harg, -⟩ := ready₂.doMmap color hinit
  exact ⟨l',
    Option.bind_eq_some_iff.mpr ⟨l₁, hstack, Option.bind_eq_some_iff.mpr ⟨l₂, hheap, harg⟩⟩⟩

/-! ## The whole load -/

end Loader

end KernelTravel.Userprog

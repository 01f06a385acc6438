import KernelTravel.Mm.Brk
import KernelTravel.Userprog.Load

/-!
# The heap of a loaded program

`load` sets `start_brk` and `brk` to `HEAP_START`, which lies above 2^31, and makes an area for
the start of the heap. `sys_brk` returns `mm->brk` as an `int`. It takes the place for a new
area from `find_vma_prepare`, which stores none for an address that an area covers.
-/

namespace KernelTravel.Userprog

open Mm (MmStruct pageAlign taskSize mmapMinAddr)

/-- An `unsigned long` that is returned as an `int`, as it stands in the register. -/
def intResult (x : Nat) : Nat :=
  if x % 2 ^ 32 < 2 ^ 31 then x % 2 ^ 32 else x % 2 ^ 32 + (2 ^ 64 - 2 ^ 32)

/-- The address space that `load` leaves, with whatever areas the program has. -/
def loadedSpace (mm : MmStruct) : Mm.Space := ⟨mm, heapStart, heapStart⟩

@[simp] theorem loadedSpace_startBrk (mm : MmStruct) : (loadedSpace mm).startBrk = heapStart := rfl

@[simp] theorem loadedSpace_brk (mm : MmStruct) : (loadedSpace mm).brk = heapStart := rfl

@[simp] theorem loadedSpace_areas (mm : MmStruct) : (loadedSpace mm).areas = mm := rfl

/-- What a call with the address `brk` has to do. -/
structure BrkCallRight (mm mm' : Mm.Space) (brk : Nat) : Prop where
  result : intResult mm'.brk = mm'.brk
  below : brk < mm.startBrk → mm'.brk = mm.brk
  growth : mm.brk < brk →
    (mm'.brk = brk ∧ (pageAlign mm.brk < pageAlign brk → ∃ v ∈ mm'.areas.mmRb.inorder,
      (mm'.areas.area v).vmStart ≤ pageAlign mm.brk ∧ pageAlign brk ≤ (mm'.areas.area v).vmEnd)) ∨
    (mm'.brk = mm.brk ∧ mm'.areas.vmaTree = mm.areas.vmaTree)

section Calls

variable (rbInsertColor : SearchTree Nat → SearchTree Nat)

/-- Every call of a sequence returns and is right. -/
def BrkCallsRight : Mm.Space → List (BitVec 64) → Prop
  | _, [] => True
  | mm, brk :: calls => ∃ mm', mm.sysBrk rbInsertColor brk.toNat = some mm' ∧
      BrkCallRight mm mm' brk.toNat ∧ BrkCallsRight mm' calls

variable {rbInsertColor}

/-- `brk` stays where `load` put it or moves up by at most the size of the address space. -/
theorem sysBrk_loaded_bounds {mm : MmStruct} {mm' : Mm.Space} {brk : Nat} (hlt : brk < 2 ^ 64)
    (h : (loadedSpace mm).sysBrk rbInsertColor brk = some mm') :
    heapStart ≤ mm'.brk ∧ mm'.brk < 2 ^ 63 := by
  have halign : pageAlign heapStart = heapStart := by decide
  have kept : heapStart ≤ heapStart ∧ heapStart < 2 ^ 63 := by decide
  rw [Mm.Space.sysBrk] at h
  simp only [loadedSpace_startBrk, loadedSpace_brk, loadedSpace_areas, halign] at h
  split at h
  next =>
    cases h
    exact kept
  next hstart =>
  split at h
  next hpage =>
    cases h
    unfold pageAlign heapStart at hpage
    unfold heapStart at hstart ⊢
    dsimp only
    omega
  next hpage =>
  split at h
  next =>
    cases h
    exact kept
  next hgrow =>
  obtain ⟨⟨addr, areas⟩, hdo, h⟩ := Option.bind_eq_some_iff.mp h
  obtain ⟨hgap, hpos⟩ :=
    Mm.Space.pageAlign_gap (Mm.Space.pageAlign_lt brk) (by decide : heapStart < 2 ^ 64)
    (Mm.Space.pageAlign_mod brk) (by decide) hpage
  dsimp only at h
  split at h
  next =>
    cases h
    exact kept
  next haddr =>
  cases h
  rcases @Mm.Space.doBrk_cases rbInsertColor mm heapStart _ (by decide) hgap hpos with
    ⟨-, hrefused⟩ | ⟨hgranted, -⟩
  · rw [hrefused] at hdo
    cases hdo
    exact absurd (Mm.Space.err_enomem_ne (by decide)) haddr
  · have hlen := Nat.not_lt.mp fun hlong => hgranted (.inl hlong)
    unfold pageAlign taskSize mmapMinAddr taskSize heapStart at hlen
    unfold heapStart at hgrow ⊢
    dsimp only
    omega

theorem intResult_ne {x : Nat} (hlow : 2 ^ 31 ≤ x) (hhigh : x < 2 ^ 63) : intResult x ≠ x := by
  unfold intResult
  split <;> omega

/-- After `load` no call of `sys_brk` returns the value of `brk`. -/
theorem brkCallsRight_iff_nil (mm : MmStruct) (calls : List (BitVec 64)) :
    BrkCallsRight rbInsertColor (loadedSpace mm) calls ↔ calls = [] := by
  cases calls with
  | nil => exact iff_of_true trivial rfl
  | cons brk calls =>
    refine iff_of_false ?_ (List.cons_ne_nil brk calls)
    rintro ⟨mm', hsys, right, -⟩
    obtain ⟨hlow, hhigh⟩ := sysBrk_loaded_bounds brk.isLt hsys
    exact intResult_ne (Nat.le_trans (by decide) hlow) hhigh right.result

end Calls

/-- The areas that `load` makes for a program without segments. -/
def bareAreas : Option MmStruct := do
  let flags := 0x02 ||| Mm.mapFixed ||| 0x20 ||| Mm.mapForInitFile
  let (_, mm) ← (MmStruct.initial Mm.taskUnmappedBase).doMmap id none (userStack - 4096)
    4096 flags 0
  let (_, mm) ← mm.doMmap id none heapStart heapLength flags 0
  let (_, mm) ← mm.doMmap id none (userTop - 0x8000) 0x8000 flags 0
  return mm

/-- A request below the heap leaves `brk` at 0x7f0000000 and returns 0xfffffffff0000000, and a
request for one more page meets the area of the heap and has no place for its own. -/
theorem bareAreas_brk : ∃ mm, bareAreas = some mm ∧
    (loadedSpace mm).sysBrk id 0 = some (loadedSpace mm) ∧
    intResult heapStart = 0xfffffffff0000000 ∧
    (loadedSpace mm).sysBrk id (heapStart + 4096) = none ∧ ¬BrkCallsRight id (loadedSpace mm) [0] ∧
    ¬BrkCallsRight id (loadedSpace mm) [.ofNat 64 (heapStart + 4096)] := by
  have hsome : bareAreas.isSome = true := by decide +kernel
  obtain ⟨mm, hmm⟩ := Option.isSome_iff_exists.mp hsome
  have hgrow : (loadedSpace mm).sysBrk id (heapStart + 4096) = none := by
    have hnone : (bareAreas.bind fun mm => (loadedSpace mm).sysBrk id (heapStart + 4096)).isNone =
        true := by
      decide +kernel
    rw [hmm] at hnone
    exact Option.isNone_iff_eq_none.mp hnone
  have hbelow : 0 < heapStart := by decide
  have hzero : (loadedSpace mm).sysBrk id 0 = some (loadedSpace mm) := if_pos hbelow
  refine ⟨mm, hmm, hzero, by decide, hgrow, ?_, ?_⟩
  · rintro ⟨mm', hsys, right, -⟩
    cases hzero.symm.trans hsys
    have hlow : 2 ^ 31 ≤ heapStart := by decide
    have hhigh : heapStart < 2 ^ 63 := by decide
    exact intResult_ne hlow hhigh right.result
  · rintro ⟨mm', hsys, -⟩
    cases hgrow.symm.trans hsys

end KernelTravel.Userprog

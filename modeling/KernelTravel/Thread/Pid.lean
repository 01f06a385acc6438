import KernelTravel.Mm.PoolPages

/-!
# Process numbers

`thread/thread.c` keeps the process numbers in a bitmap of 1024 bits and the tasks that have one
in `thread_all_list`. A task is given its number before it is put on the list, and
`thread_exit` takes it off the list before the number is given back.

`bit_scan` asserts that a byte of the bitmap is not full. With all numbers in use the kernel
therefore halts in `allocate_pid`, which has no answer for a failure.
-/

namespace KernelTravel.Pid

open Function

open Mm (Bitmap)

def pidBytes : Nat := 128

def pidCount : Nat := 1024

def pidStart : Int := 1

def allocatePid (b : Bitmap) : Option (Int × Bitmap) := do
  let bitIdx ← b.bitScan 1
  let b ← b.bitmapSet (bitIdx % 2 ^ 32).toNat true
  return (bitIdx + pidStart, b)

def releasePid (b : Bitmap) (pid : Int) : Option Bitmap :=
  b.bitmapSet ((pid - pidStart) % 2 ^ 32).toNat false

/-- The number that is given is the lowest one that is free. -/
theorem allocatePid_spec {b : Bitmap} (hbytes : b.btmpBytesLen = pidBytes) {i : Nat}
    (hi : i < pidCount) (hclear : ¬b.Marked i) :
    ∃ k ≤ i, ∃ b', allocatePid b = some ((k : Int) + 1, b') ∧ ¬b.Marked k ∧ (∀ j < k, b.Marked j) ∧
      b'.btmpBytesLen = pidBytes ∧ ∀ j, b'.Marked j ↔ j = k ∨ b.Marked j := by
  have hone : ∀ {j}, ¬b.Marked j → b.ClearRun j 1 := by
    intro j hj l hl
    rw [Nat.lt_one_iff.mp hl, Nat.add_zero]
    exact hj
  have hlen : b.btmpBytesLen < 2 ^ 28 := hbytes ▸ by decide
  have hbits : b.btmpBytesLen * 8 = pidCount := hbytes ▸ by decide
  obtain ⟨k, hscan, hk, hrun⟩ := Bitmap.bitScan_spec Nat.one_pos hlen (by omega) (hone hclear)
  have hkclear : ¬b.Marked k := by simpa using hrun 0 Nat.one_pos
  have hk32 : k < 2 ^ 32 := by
    have hcount : pidCount < 2 ^ 32 := by decide
    omega
  obtain ⟨b', hset, hlen', hmarked⟩ := Bitmap.bitmapSet_spec (b := b) (i := k) (by omega) hk32 true
  have hidx : ((k : Int) % 2 ^ 32).toNat = k := by omega
  refine ⟨k, hk, b', ?_, hkclear, ?_, hlen'.trans hbytes, ?_⟩
  · rw [allocatePid, hscan]
    simp only [Option.bind_eq_bind, Option.bind_some, hidx, hset, Option.pure_def, pidStart]
  · intro j hj
    by_contra hjclear
    obtain ⟨k', hscan', hk', -⟩ := Bitmap.bitScan_spec Nat.one_pos hlen (by omega) (hone hjclear)
    have hsame := Option.some.inj (hscan.symm.trans hscan')
    omega
  · intro j
    rw [hmarked]
    by_cases hj : j = k
    · simp [hj]
    · simp [hj]

theorem allocatePid_full {b : Bitmap} (hbytes : b.btmpBytesLen = pidBytes)
    (hfull : ∀ i < pidCount, b.Marked i) : allocatePid b = none := by
  have hscan : b.bitScan 1 = none := by
    cases h : b.bitScan 1 with
    | none => rfl
    | some off =>
      obtain ⟨-, hneg | ⟨i, -, hi, hrun⟩⟩ := Bitmap.bitScan_sound Nat.one_pos (by decide) h
      · exact absurd hneg (Bitmap.bitScan_one h)
      · have hbits : b.btmpBytesLen * 8 = pidCount := hbytes ▸ by decide
        have hclear : ¬b.Marked i := by simpa using hrun 0 Nat.one_pos
        exact absurd (hfull i (by omega)) hclear
  simp [allocatePid, hscan]

theorem releasePid_spec {b : Bitmap} {p : Int} (hbytes : b.btmpBytesLen = pidBytes) (hlow : 1 ≤ p)
    (hhigh : p ≤ pidCount) : ∃ b', releasePid b p = some b' ∧ b'.btmpBytesLen = pidBytes ∧
      ∀ j : Nat, b'.Marked j ↔ (j : Int) + 1 ≠ p ∧ b.Marked j := by
  have hbits : b.btmpBytesLen * 8 = pidCount := hbytes ▸ by decide
  have hcount : pidCount < 2 ^ 32 := by decide
  obtain ⟨k, rfl⟩ : ∃ k : Nat, p = k + 1 := ⟨(p - 1).toNat, by omega⟩
  have hidx : (((k : Int) + 1 - pidStart) % 2 ^ 32).toNat = k := by
    rw [pidStart]
    omega
  obtain ⟨b', hset, hlen', hmarked⟩ :=
    Bitmap.bitmapSet_spec (b := b) (i := k) (by omega) (by omega) false
  refine ⟨b', by rw [releasePid, hidx, hset], hlen'.trans hbytes, ?_⟩
  intro j
  rw [hmarked]
  by_cases hj : j = k
  · simp [hj]
  · have hne : (j : Int) + 1 ≠ k + 1 := by omega
    simp [hj, hne]

/-! ## Tasks and their numbers -/

/-- The bitmap, the numbers of the tasks, and the list of the tasks. -/
structure PidSys where
  pidBitmap : Bitmap
  pid : Nat → Option Int
  threadAllList : List Nat

/-- No task has a number. -/
def PidSys.init : PidSys := ⟨⟨pidBytes, fun _ => 0⟩, fun _ => none, []⟩

inductive PidOp where
  | create (t : Nat)
  | append (t : Nat)
  | exit (t : Nat)

namespace PidSys

def pid2thread (s : PidSys) (p : Int) : Option Nat :=
  s.threadAllList.find? fun t => s.pid t = some p

/-- The first part of the answer is the number that a new task is given, if there is one. -/
def call (s : PidSys) : PidOp → Option (Option Int × PidSys)
  | .create t =>
    (allocatePid s.pidBitmap).map fun (p, b) =>
      (some p, { s with pidBitmap := b, pid := update s.pid t (some p) })
  | .append t => some (none, { s with threadAllList := s.threadAllList ++ [t] })
  | .exit t =>
    (s.pid t).bind fun p => (releasePid s.pidBitmap p).map fun b =>
      (none, ⟨b, update s.pid t none, s.threadAllList.erase t⟩)

def step (s : PidSys) (op : PidOp) : Option PidSys := (s.call op).map Prod.snd

/-- A new task has no number, a task is put on the list once, and only a task with a number
exits. -/
def Allowed (s : PidSys) : PidOp → Prop
  | .create t => s.pid t = none
  | .append t => s.pid t ≠ none ∧ t ∉ s.threadAllList
  | .exit t => s.pid t ≠ none

def Live (s : PidSys) (p : Int) : Prop := ∃ t, s.pid t = some p

def AllLive (s : PidSys) : Prop := ∀ p : Int, 1 ≤ p → p ≤ pidCount → s.Live p

/-- The numbers are distinct and in range, and each of them leads to its task. -/
structure Right (s : PidSys) : Prop where
  range : ∀ t p, s.pid t = some p → 1 ≤ p ∧ p ≤ pidCount
  distinct : ∀ t t' p, s.pid t = some p → s.pid t' = some p → t = t'
  lookup : ∀ t ∈ s.threadAllList, ∀ p, s.pid t = some p → s.pid2thread p = some t

/-- The call comes to an end and leaves the numbers right, and it fails if it is to give a number
and there is none. -/
def CallRight (s : PidSys) (op : PidOp) : Prop :=
  ∃ answer s', s.call op = some (answer, s') ∧ s'.Right ∧
    match op with
    | .create _ => s.AllLive → answer = none
    | _ => True

/-- A task is created only while a number is free. -/
def NumberFree (s : PidSys) : PidOp → Prop
  | .create _ => ¬s.AllLive
  | _ => True

/-- The bitmap holds the numbers that are in use. -/
structure Inv (s : PidSys) : Prop where
  bytes : s.pidBitmap.btmpBytesLen = pidBytes
  marked : ∀ i < pidCount, s.pidBitmap.Marked i ↔ s.Live (i + 1)
  range : ∀ t p, s.pid t = some p → 1 ≤ p ∧ p ≤ pidCount
  distinct : ∀ t t' p, s.pid t = some p → s.pid t' = some p → t = t'
  listed : ∀ t ∈ s.threadAllList, s.pid t ≠ none
  nodup : s.threadAllList.Nodup

variable {s s' : PidSys} {op : PidOp} {t : Nat} {p : Int}

theorem Inv.initial : init.Inv where
  bytes := rfl
  marked i _ := by
    refine iff_of_false ?_ fun ⟨_, h⟩ => nomatch h
    simp [Bitmap.Marked, init]
  range _ _ h := nomatch h
  distinct _ _ _ h := nomatch h
  listed _ h := nomatch h
  nodup := List.nodup_nil

theorem Inv.right (inv : s.Inv) : s.Right where
  range := inv.range
  distinct := inv.distinct
  lookup t ht p hp := by
    cases hfind : s.pid2thread p with
    | none =>
      have hmiss := List.find?_eq_none.mp hfind t ht
      exact absurd (decide_eq_true hp) hmiss
    | some t' =>
      rw [pid2thread] at hfind
      have hfound := List.find?_some hfind
      simp only [decide_eq_true_eq] at hfound
      rw [inv.distinct t t' p hp hfound]

/-! ## One call -/

theorem Inv.exists_clear (inv : s.Inv) (h : ¬s.AllLive) :
    ∃ i < pidCount, ¬s.pidBitmap.Marked i := by
  simp only [AllLive, not_forall] at h
  obtain ⟨p, hlow, hhigh, hp⟩ := h
  obtain ⟨i, rfl⟩ : ∃ i : Nat, p = i + 1 := ⟨(p - 1).toNat, by omega⟩
  have hi : i < pidCount := by omega
  exact ⟨i, hi, mt (inv.marked i hi).mp hp⟩

/-- A new task is given the lowest number that is free. -/
theorem Inv.create (inv : s.Inv) (hnew : s.pid t = none) (hfree : ¬s.AllLive) :
    ∃ (k : Nat) (b : Bitmap), k < pidCount ∧ ¬s.pidBitmap.Marked k ∧
    (∀ j < k, s.pidBitmap.Marked j) ∧
      (∀ j, b.Marked j ↔ j = k ∨ s.pidBitmap.Marked j) ∧
      s.call (.create t) = some (some ((k : Int) + 1),
        { s with pidBitmap := b, pid := update s.pid t (some ((k : Int) + 1)) }) ∧
      Inv { s with pidBitmap := b, pid := update s.pid t (some ((k : Int) + 1)) } := by
  obtain ⟨i, hi, hclear⟩ := inv.exists_clear hfree
  obtain ⟨k, hk, b', halloc, hkclear, hlow, hbytes, hmarked⟩ := allocatePid_spec inv.bytes hi hclear
  have hunused : ∀ t', s.pid t' ≠ some ((k : Int) + 1) := fun t' ht' =>
    hkclear ((inv.marked k (by omega)).mpr ⟨t', ht'⟩)
  have hcase : ∀ {t' q}, update s.pid t (some ((k : Int) + 1)) t' = some q →
      t' = t ∧ q = k + 1 ∨ t' ≠ t ∧ s.pid t' = some q := by
    intro t' q h
    by_cases ht' : t' = t
    · subst ht'
      rw [update_self] at h
      exact .inl ⟨rfl, (Option.some.inj h).symm⟩
    · rw [update_of_ne ht'] at h
      exact .inr ⟨ht', h⟩
  refine ⟨k, b', by omega, hkclear, hlow, hmarked, by rw [call, halloc, Option.map_some], hbytes,
    ?_, ?_, ?_, ?_, inv.nodup⟩
  · intro j hj
    rw [hmarked, inv.marked j hj]
    constructor
    · rintro (rfl | ⟨t', ht'⟩)
      · exact ⟨t, update_self ..⟩
      · refine ⟨t', ?_⟩
        have hne : t' ≠ t := by
          rintro rfl
          cases hnew.symm.trans ht'
        exact (update_of_ne hne _ _).trans ht'
    · rintro ⟨t', ht'⟩
      rcases hcase ht' with ⟨-, hq⟩ | ⟨-, hq⟩
      · exact .inl (by omega)
      · exact .inr ⟨t', hq⟩
  · intro t' q hq
    rcases hcase hq with ⟨-, rfl⟩ | ⟨-, hold⟩
    · omega
    · exact inv.range t' q hold
  · intro t₁ t₂ q h₁ h₂
    rcases hcase h₁ with ⟨rfl, rfl⟩ | ⟨-, hold₁⟩ <;> rcases hcase h₂ with ⟨rfl, hq⟩ | ⟨-, hold₂⟩
    · rfl
    · exact absurd hold₂ (hunused t₂)
    · exact absurd (hq ▸ hold₁) (hunused t₁)
    · exact inv.distinct t₁ t₂ q hold₁ hold₂
  · intro t' ht'
    by_cases h : t' = t
    · subst h
      simp
    · simpa [update_of_ne h] using inv.listed t' ht'

theorem Inv.exit (inv : s.Inv) (hp : s.pid t = some p) :
    ∃ answer s', s.call (.exit t) = some (answer, s') ∧ s'.Inv := by
  obtain ⟨hlow, hhigh⟩ := inv.range t p hp
  obtain ⟨b', hrelease, hbytes, hmarked⟩ := releasePid_spec inv.bytes hlow hhigh
  have hcase : ∀ {t' q}, update s.pid t none t' = some q → t' ≠ t ∧ s.pid t' = some q := by
    intro t' q h
    by_cases ht' : t' = t
    · subst ht'
      rw [update_self] at h
      cases h
    · rw [update_of_ne ht'] at h
      exact ⟨ht', h⟩
  refine ⟨_, _, by rw [call, hp, Option.bind_some, hrelease, Option.map_some], hbytes,
    ?_, ?_, ?_, ?_, inv.nodup.erase t⟩
  · intro j hj
    rw [hmarked, inv.marked j hj]
    constructor
    · rintro ⟨hne, t', ht'⟩
      have htt : t' ≠ t := by
        rintro rfl
        exact hne (Option.some.inj (ht'.symm.trans hp))
      exact ⟨t', (update_of_ne htt _ _).trans ht'⟩
    · rintro ⟨t', ht'⟩
      obtain ⟨hne, hold⟩ := hcase ht'
      refine ⟨?_, t', hold⟩
      rintro rfl
      exact hne (inv.distinct t' t _ hold hp)
  · exact fun t' q hq => inv.range t' q (hcase hq).2
  · exact fun t₁ t₂ q h₁ h₂ => inv.distinct t₁ t₂ q (hcase h₁).2 (hcase h₂).2
  · intro t' ht'
    have hmem := (List.Nodup.mem_erase_iff inv.nodup).mp ht'
    simpa [update_of_ne hmem.1] using inv.listed t' hmem.2

/-- Every call but a creation without a free number comes to an end and keeps the bitmap. -/
theorem Inv.call (inv : s.Inv) (allowed : s.Allowed op) (hfree : s.NumberFree op) :
    ∃ answer s', s.call op = some (answer, s') ∧ s'.Inv := by
  cases op with
  | create t =>
    obtain ⟨k, b, -, -, -, -, hcall, inv'⟩ := inv.create allowed hfree
    exact ⟨_, _, hcall, inv'⟩
  | append t =>
    refine ⟨_, _, rfl, inv.bytes, inv.marked, inv.range, inv.distinct, ?_, ?_⟩
    · intro t' ht'
      rcases List.mem_append.mp ht' with h | h
      · exact inv.listed t' h
      · exact List.mem_singleton.mp h ▸ allowed.1
    · exact inv.nodup.append (List.nodup_singleton t) (by simpa using allowed.2)
  | exit t =>
    obtain ⟨p, hp⟩ := Option.ne_none_iff_exists'.mp allowed
    exact inv.exit hp

theorem Inv.callRight_iff (inv : s.Inv) (allowed : s.Allowed op) :
    s.CallRight op ↔ s.NumberFree op := by
  constructor
  · rintro ⟨answer, s', hcall, -, hanswer⟩
    cases op with
    | create t =>
      intro hall
      rw [PidSys.call,
        allocatePid_full inv.bytes fun i hi => (inv.marked i hi).mpr (hall _ (by omega) (by omega))]
        at hcall
      cases hcall
    | append t => trivial
    | exit t => trivial
  · intro hfree
    obtain ⟨answer, s', hcall, inv'⟩ := inv.call allowed hfree
    refine ⟨answer, s', hcall, inv'.right, ?_⟩
    cases op with
    | create t => exact fun hall => absurd hall hfree
    | append t => trivial
    | exit t => trivial

/-- In a run the numbers stay right and run out with an error exactly if no task is created while
all of them are in use. -/
theorem pidRun_right_iff (inv : s.Inv) {ops : List PidOp} (allowed : Run.Meets step Allowed s ops) :
    Run.Meets step CallRight s ops ↔ Run.Meets step NumberFree s ops := by
  induction ops generalizing s with
  | nil => exact Iff.rfl
  | cons op ops ih =>
    rw [Run.Meets, Run.Meets, inv.callRight_iff allowed.1]
    refine and_congr_right fun hfree => forall₂_congr fun s' hstep => ?_
    obtain ⟨answer, s'', hcall, inv'⟩ := inv.call allowed.1 hfree
    have hsame : s'' = s' := by
      rw [step, hcall] at hstep
      exact Option.some.inj hstep
    exact ih (hsame ▸ inv') (allowed.2 s' hstep)

instance decidableAllowed (s : PidSys) : ∀ op, Decidable (s.Allowed op)
  | .create t => inferInstanceAs (Decidable (s.pid t = none))
  | .append t => inferInstanceAs (Decidable (s.pid t ≠ none ∧ t ∉ s.threadAllList))
  | .exit t => inferInstanceAs (Decidable (s.pid t ≠ none))

theorem pidRun_right_iff_exit : Run.Meets step CallRight init [.create 7, .append 7, .exit 7] := by
  refine (pidRun_right_iff Inv.initial (by decide +kernel)).mpr
    ⟨fun hall => ?_, fun _ _ => ⟨trivial, fun _ _ => ⟨trivial, fun _ _ => trivial⟩⟩⟩
  obtain ⟨t, ht⟩ := hall 1 le_rfl (by decide)
  cases ht

/-! ## Running out of numbers -/

/-- With the lowest `n` numbers in use, `m` further tasks are given the next `m` numbers. -/
theorem Inv.exec_creates (inv : s.Inv) {n : Nat}
    (hmarked : ∀ i < pidCount, s.pidBitmap.Marked i ↔ i < n)
    (hnew : ∀ t, n ≤ t → s.pid t = none) (m : Nat) (hm : n + m ≤ pidCount) :
    ∃ s', Run.exec step s ((List.range' n m).map .create) = some s' ∧ s'.Inv ∧
      ∀ i < pidCount, s'.pidBitmap.Marked i ↔ i < n + m := by
  induction m generalizing s n with
  | zero => exact ⟨s, rfl, inv, hmarked⟩
  | succ m ih =>
    have hn : n < pidCount := by omega
    have hfree : ¬s.AllLive := by
      intro hall
      have hlive := hall (n + 1) (by omega) (by omega)
      exact absurd ((hmarked n hn).mp ((inv.marked n hn).mpr hlive)) (lt_irrefl n)
    obtain ⟨k, b, hk, hkclear, hlow, hset, hcall, inv'⟩ := inv.create (hnew n le_rfl) hfree
    have hkn : k = n := by
      refine le_antisymm ?_ (not_lt.mp (mt (hmarked k hk).mpr hkclear))
      by_contra hlt
      exact lt_irrefl n ((hmarked n hn).mp (hlow n (by omega)))
    subst hkn
    have hmarked' : ∀ i < pidCount, b.Marked i ↔ i < k + 1 := by
      intro i hi
      rw [hset, hmarked i hi]
      omega
    have hnew' : ∀ t, k + 1 ≤ t → update s.pid k (some ((k : Int) + 1)) t = none := by
      intro t ht
      exact (update_of_ne (by omega) _ _).trans (hnew t (by omega))
    obtain ⟨s', hrun, hend, hall⟩ := ih inv' hmarked' hnew' (by omega)
    refine ⟨s', ?_, hend, ?_⟩
    · rw [List.range'_succ, List.map_cons]
      exact Run.exec_cons_eq_some.mpr ⟨_, by rw [step, hcall, Option.map_some], hrun⟩
    · intro i hi
      rw [hall i hi, Nat.add_right_comm, Nat.add_assoc]

/-- After 1024 creations all numbers are in use, and the kernel halts in the next one. -/
theorem creations_halt : ∃ s, Run.exec step init ((List.range' 0 1024).map .create) = some s ∧
    s.AllLive ∧ s.call (.create 1024) = none := by
  obtain ⟨s, hrun, inv, hmarked⟩ := Inv.initial.exec_creates (n := 0)
    (fun i hi => (Inv.initial.marked i hi).trans
      (iff_of_false (fun ⟨_, h⟩ => nomatch h) (Nat.not_lt_zero i)))
    (fun _ _ => rfl) 1024 le_rfl
  have hfull : ∀ i < pidCount, s.pidBitmap.Marked i := fun i hi =>
    (hmarked i hi).mpr (Nat.zero_add pidCount ▸ hi)
  refine ⟨s, hrun, ?_, by rw [call, allocatePid_full inv.bytes hfull, Option.map_none]⟩
  intro p hlow hhigh
  obtain ⟨i, rfl⟩ : ∃ i : Nat, p = i + 1 := ⟨(p - 1).toNat, by omega⟩
  exact (inv.marked i (by omega)).mp (hfull i (by omega))

end PidSys

end KernelTravel.Pid

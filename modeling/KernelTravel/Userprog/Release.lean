import KernelTravel.Userprog.LifeCycle

/-!
# Which pages `release_usrmemory` frees

The three loops of `release_usrmemory` keep an index, a pointer and an address. In an upper
table the address moves on at an empty entry only, so after the first table of the lowest level
it is one table behind. The second table is then looked up at the entry before its own: if that
is the first table, the pages of the first are freed again and its own are not, and otherwise the
pointer is null. The pages of the bitmap are counted rounded down, and were taken rounded up and
one more.
-/

namespace KernelTravel.Userprog

open Mm Outcome

/-! ## The calls of `free_page` -/

section Calls

variable (s : Phys) (pdir : Nat)

/-- The page in an entry of the lowest level. -/
def entryPage (pte : Slot) (i : Nat) : Option Nat :=
  let entry := s.mem pte.page (pte.idx + i)
  if entry = 0 then none else some (frame entry)

def tablePages (pte : Slot) : List Nat := (List.range' 0 512).filterMap (entryPage s pte)

/-- The calls that `releasePmd` makes, after those of the earlier steps. -/
def callsPmd (pmd : Slot) (i : Nat) (st : Nat × List Nat) : Except Stop (Nat × List Nat) :=
  let entry := s.mem pmd.page (pmd.idx + i)
  if entry = 0 then .ok (st.1 + 0x200000, st.2)
  else match reversePtePtr s pdir st.1 with
    | none => .error .fault
    | some pte => .ok (st.1, st.2 ++ (tablePages s pte ++ [frame entry]))

def callsPgd (i : Nat) (st : Nat × List Nat) : Except Stop (Nat × List Nat) :=
  let entry := s.mem pdir i
  if entry = 0 then .ok (st.1 + 0x40000000, st.2)
  else match reversePmdPtr s pdir st.1 with
    | none => .error .fault
    | some pmd => do
      let st ← loop (callsPmd s pdir pmd) 512 0 st
      .ok ((st.1 &&& 0xffc0000000) + 0x40000000, st.2 ++ [frame entry])

/-- The arguments of the calls of `free_page`, or a null pointer that is followed. -/
def releaseCalls : Except Stop (List Nat) := (loop (callsPgd s pdir) 512 0 (0, [])).map Prod.snd

end Calls

def freeAll (s : Phys) (calls : List Nat) : Except Stop Phys := calls.foldlM freePage s

section Follows

variable {s s' : Phys} {pdir i : Nat} {calls : List Nat}

theorem freeAll_nil (s : Phys) : freeAll s [] = .ok s := rfl

theorem freeAll_singleton (s : Phys) (page : Nat) : freeAll s [page] = freePage s page :=
  bind_pure _

theorem freeAll_append (s : Phys) (calls more : List Nat) :
    freeAll s (calls ++ more) = freeAll s calls >>= fun s => freeAll s more :=
  List.foldlM_append

theorem freePage_mem {vaddr : Nat} (h : freePage s vaddr = .ok s') : s'.mem = s.mem := by
  rw [freePage] at h
  split at h
  next => cases h; rfl
  next => cases h

theorem freeAll_mem (h : freeAll s calls = .ok s') : s'.mem = s.mem := by
  have kept : Ends (freeAll s calls) (fun s' => s'.mem = s.mem) fun _ => True :=
    Ends.foldlM (fun _ _ _ hmem => ends_of_ok fun _ h => (freePage_mem h).trans hmem) rfl
  exact kept.of_eq_ok h

theorem reversePtrs_congr (hmem : s'.mem = s.mem) (vaddr : Nat) :
    reversePmdPtr s' pdir vaddr = reversePmdPtr s pdir vaddr ∧
      reversePtePtr s' pdir vaddr = reversePtePtr s pdir vaddr := by
  obtain ⟨pool, mem⟩ := s
  obtain ⟨pool', mem'⟩ := s'
  subst hmem
  exact ⟨rfl, rfl⟩

theorem loop_releasePte {pte : Slot} {n : Nat} (hmem : s'.mem = s.mem) :
    loop (releasePte pte) n i s' = freeAll s' ((List.range' i n).filterMap (entryPage s pte)) := by
  induction n generalizing i s' with
  | zero => rfl
  | succ n ih =>
    rw [loop, releasePte, List.range'_succ, hmem]
    by_cases hentry : s.mem pte.page (pte.idx + i) = 0
    · rw [if_pos hentry, List.filterMap_cons_none (by simp [entryPage, hentry])]
      exact ih hmem
    · have hpage : entryPage s pte i = some (frame (s.mem pte.page (pte.idx + i))) := by
        simp [entryPage, hentry]
      rw [if_neg hentry, List.filterMap_cons_some hpage, freeAll, List.foldlM_cons]
      cases hfree : freePage s' (frame (s.mem pte.page (pte.idx + i))) with
      | error e => rfl
      | ok s₁ => exact ih ((freePage_mem hfree).trans hmem)

/-- The state of a loop of `release_usrmemory` after its calls. -/
def after (s : Phys) (st : Nat × List Nat) : Except Stop (Nat × Phys) :=
  (freeAll s st.2).map fun s => (st.1, s)

/-- Further calls are made on the state that the earlier ones leave. -/
theorem after_append (s : Phys) (vaddr : Nat) (calls more : List Nat) (vaddr' : Nat) :
    after s (vaddr', calls ++ more) =
      after s (vaddr, calls) >>= fun st => (freeAll st.2 more).map fun s => (vaddr', s) := by
  rw [after, after, freeAll_append]
  cases freeAll s calls with
  | error e => rfl
  | ok s' => rfl

theorem after_bind {st st' : Nat × List Nat} {f : Nat × Phys → Except Stop (Nat × Phys)}
    {more : List Nat} (hcalls : st'.2 = st.2 ++ more)
    (h : ∀ s', s'.mem = s.mem → f (st.1, s') = (freeAll s' more).map fun s => (st'.1, s)) :
    (after s st >>= f) = after s st' := by
  obtain ⟨vaddr', calls'⟩ := st'
  obtain ⟨vaddr, calls⟩ := st
  subst hcalls
  rw [after_append s vaddr]
  rw [after]
  cases hfree : freeAll s calls with
  | error e => rfl
  | ok s' => exact h s' (freeAll_mem hfree)

theorem callsPmd_follows {pmd : Slot} (i : Nat) (st st' : Nat × List Nat)
    (h : callsPmd s pdir pmd i st = .ok st') : (after s st >>= releasePmd pdir pmd i) =
    after s st' := by
  rw [callsPmd] at h
  split at h
  next hentry =>
    cases h
    refine after_bind (List.append_nil _).symm fun s' hmem => ?_
    simp only [releasePmd, hmem, hentry, if_true, freeAll_nil, Except.map]
  next hentry =>
    split at h
    next => cases h
    next pte hpte =>
      cases h
      refine after_bind rfl fun s' hmem => ?_
      have hpte' := (reversePtrs_congr hmem st.1).2.trans hpte
      simp only [releasePmd, hmem, hentry, if_false, hpte', loop_releasePte hmem]
      rw [freeAll_append, tablePages]
      cases freeAll s' ((List.range' 0 512).filterMap (entryPage s pte)) with
      | error e => rfl
      | ok s₁ =>
        simp only [ok_bind, freeAll_singleton]
        cases freePage s₁ (frame (s.mem pmd.page (pmd.idx + i))) with
        | error e => rfl
        | ok s₂ => rfl

theorem callsPgd_follows (i : Nat) (st st' : Nat × List Nat)
    (h : callsPgd s pdir i st = .ok st') : (after s st >>= releasePgd pdir i) = after s st' := by
  rw [callsPgd] at h
  split at h
  next hentry =>
    cases h
    refine after_bind (List.append_nil _).symm fun s' hmem => ?_
    simp only [releasePgd, hmem, hentry, if_true, freeAll_nil, Except.map]
  next hentry =>
    split at h
    next => cases h
    next pmd hpmd =>
      obtain ⟨st₁, hloop, h⟩ := bind_eq_ok.mp h
      cases h
      have inner := loop_follows callsPmd_follows hloop
      rw [after_append s st₁.1]
      cases hfree : freeAll s st.2 with
      | error e =>
        have hafter : after s st = .error e := by rw [after, hfree]; rfl
        rw [← inner, hafter, error_bind, error_bind, error_bind]
      | ok s' =>
        have hafter : after s st = .ok (st.1, s') := by rw [after, hfree]; rfl
        have hmem := freeAll_mem hfree
        have hpmd' := (reversePtrs_congr hmem st.1).1.trans hpmd
        rw [hafter, ok_bind] at inner
        rw [hafter, ok_bind]
        simp only [releasePgd, hmem, hentry, if_false, hpmd', inner]
        clear inner hloop hafter hfree hpmd hpmd'
        rw [after]
        cases freeAll s st₁.2 with
        -- comparing the two sums of addresses takes too long, so the stop is passed on by name
        | error e => simp only [Except.map, error_bind]
        | ok s₁ =>
          simp only [Except.map, ok_bind, freeAll_singleton]
          cases freePage s₁ (frame (s.mem pdir i)) with
          | error e => simp only [error_bind]
          | ok s₂ => simp only [ok_bind]

/-- `release_usrmemory` makes the calls of `free_page` and then frees pages of the bitmap. -/
theorem releaseUsrmemory_eq {btmp : Nat} (h : releaseCalls s pdir = .ok calls) :
    releaseUsrmemory pdir btmp s =
      freeAll s calls >>= fun s => freePages s btmp (btmpBytesLen / pageSize) := by
  obtain ⟨st, hloop, rfl⟩ := map_eq_ok.mp h
  have follows := loop_follows callsPgd_follows hloop
  have start : after s (0, []) = .ok (0, s) := rfl
  rw [start, ok_bind] at follows
  rw [releaseUsrmemory, follows, after]
  cases freeAll s st.2 with
  | error e => rfl
  | ok s' => rfl

end Follows

/-! ## The pages of a tree -/

section Tree

variable (s : Phys) (pdir : Nat)

/-- The pages below an entry of an upper table, and the table itself. -/
def pmdPages (pmd j : Nat) : List Nat :=
  if s.mem pmd j = 0 then [] else tablePages s ⟨s.mem pmd j, 0⟩ ++ [frame (s.mem pmd j)]

def pgdPages (i : Nat) : List Nat :=
  if s.mem pdir i = 0 then []
  else (List.range' 0 512).flatMap (pmdPages s (s.mem pdir i)) ++ [frame (s.mem pdir i)]

/-- All pages of the tree but the root. -/
def treePages : List Nat := (List.range' 0 512).flatMap (pgdPages s pdir)

/-- The page table of a set of mapped pages: its pages are distinct, and no table is empty. -/
structure Tree : Prop where
  distinct : (treePages s pdir).Nodup
  pmdUsed : ∀ i < 512, s.mem pdir i ≠ 0 → ∃ j < 512, s.mem (s.mem pdir i) j ≠ 0
  tableUsed : ∀ i < 512, s.mem pdir i ≠ 0 → ∀ j < 512, s.mem (s.mem pdir i) j ≠ 0 →
    tablePages s ⟨s.mem (s.mem pdir i) j, 0⟩ ≠ []

/-- Every page of the tree is freed once, and no null pointer is followed. -/
def TablesRight : Prop := ∃ calls, releaseCalls s pdir = .ok calls ∧ calls.Perm (treePages s pdir)

/-- The pages that are freed for the bitmap are those that were taken for it. -/
def BitmapRight (btmp : Nat) : Prop :=
  ∀ page, (∃ i < btmpBytesLen / pageSize, page = btmp + i * pageSize) ↔
    ∃ i < btmpPages, page = btmp + i * pageSize

/-- The upper table has one entry in use. -/
def OneTable (pmd : Nat) : Prop :=
  ∃ j < 512, s.mem pmd j ≠ 0 ∧ ∀ k < 512, s.mem pmd k ≠ 0 → k = j

end Tree

section Walk

variable {s : Phys} {pdir i j m : Nat}

theorem reversePmdPtr_at (hi : i < 512) (hm : m < 512) (hpgd : s.mem pdir i ≠ 0) :
    reversePmdPtr s pdir (i * 0x40000000 + m * 0x200000) = some ⟨s.mem pdir i, m⟩ := by
  have hpgdIdx : pgdIdx (i * 0x40000000 + m * 0x200000) = i := by
    rw [pgdIdx_eq]
    omega
  have hpmdIdx : pmdIdx (i * 0x40000000 + m * 0x200000) = m := by
    rw [pmdIdx_eq]
    omega
  simp only [reversePmdPtr, Phys.word, Phys.pgdPtr, hpgdIdx, hpmdIdx, hpgd, if_false]

theorem reversePtePtr_at (hi : i < 512) (hm : m < 512) (hpgd : s.mem pdir i ≠ 0) :
    reversePtePtr s pdir (i * 0x40000000 + m * 0x200000) =
      if s.mem (s.mem pdir i) m = 0 then none else some ⟨s.mem (s.mem pdir i) m, 0⟩ := by
  have hpteIdx : pteIdx (i * 0x40000000 + m * 0x200000) = 0 := by
    rw [pteIdx_eq]
    omega
  rw [reversePtePtr, reversePmdPtr_at hi hm hpgd, Option.bind_eq_bind, Option.bind_some, Phys.word,
    hpteIdx]

theorem reversePmdPtr_start (hi : i < 512) (hpgd : s.mem pdir i ≠ 0) :
    reversePmdPtr s pdir (i * 0x40000000) = some ⟨s.mem pdir i, 0⟩ := by
  have hptr := reversePmdPtr_at (m := 0) hi (by decide) hpgd
  rwa [Nat.zero_mul, Nat.add_zero] at hptr

/-- Over empty entries the address keeps up. -/
theorem loop_callsPmd_empty {pmd n vaddr : Nat} {calls : List Nat}
    (hempty : ∀ k, j ≤ k → k < j + n → s.mem pmd k = 0) :
    loop (callsPmd s pdir ⟨pmd, 0⟩) n j (vaddr, calls) = .ok (vaddr + n * 0x200000, calls) := by
  induction n generalizing j vaddr with
  | zero => rw [Nat.zero_mul, Nat.add_zero]; rfl
  | succ n ih =>
    have hfirst : s.mem pmd (0 + j) = 0 := by
      rw [Nat.zero_add]
      exact hempty j (Nat.le_refl j) (by omega)
    rw [loop, callsPmd, if_pos hfirst, ok_bind, ih fun k hk hlt => hempty k (by omega) (by omega)]
    rw [Nat.succ_mul, Nat.add_assoc, Nat.add_comm 0x200000]

/-- The first table in use is looked up at its own entry. -/
theorem callsPmd_table {calls : List Nat} (hi : i < 512) (hm : m < 512) (hpgd : s.mem pdir i ≠ 0)
    (hpmd : s.mem (s.mem pdir i) j ≠ 0) :
    callsPmd s pdir ⟨s.mem pdir i, 0⟩ j (i * 0x40000000 + m * 0x200000, calls) =
      if s.mem (s.mem pdir i) m = 0 then .error .fault
      else .ok (i * 0x40000000 + m * 0x200000, calls ++
        (tablePages s ⟨s.mem (s.mem pdir i) m, 0⟩ ++ [frame (s.mem (s.mem pdir i) j)])) := by
  have hentry : ¬s.mem (s.mem pdir i) (0 + j) = 0 := by rwa [Nat.zero_add]
  rw [callsPmd, if_neg hentry, reversePtePtr_at hi hm hpgd, Nat.zero_add]
  by_cases htable : s.mem (s.mem pdir i) m = 0
  · simp only [htable, if_true]
  · simp only [htable, if_false]

/-- The walk over an upper table up to and with its first table. -/
theorem loop_callsPmd_first {calls : List Nat} (hi : i < 512) (hj : j < 512)
    (hpgd : s.mem pdir i ≠ 0) (hpmd : s.mem (s.mem pdir i) j ≠ 0)
    (hbefore : ∀ k < j, s.mem (s.mem pdir i) k = 0) :
    loop (callsPmd s pdir ⟨s.mem pdir i, 0⟩) (j + 1) 0 (i * 0x40000000, calls) =
      .ok (i * 0x40000000 + j * 0x200000, calls ++ pmdPages s (s.mem pdir i) j) := by
  have hempty : ∀ k, 0 ≤ k → k < 0 + j → s.mem (s.mem pdir i) k = 0 :=
    fun k _ hk => hbefore k (by omega)
  rw [loop_add, loop_callsPmd_empty hempty, ok_bind, loop, Nat.zero_add,
    callsPmd_table hi hj hpgd hpmd, if_neg hpmd, ok_bind, pmdPages, if_neg hpmd]
  rfl

theorem entry_empty {pmd k n : Nat} (hother : ∀ k < n, s.mem pmd k ≠ 0 → k = j) (hk : k < n)
    (hne : k ≠ j) : s.mem pmd k = 0 := by
  by_contra hused
  exact hne (hother k hk hused)

theorem flatMap_pmdPages {pmd : Nat} (hj : j < 512) (hother : ∀ k < 512, s.mem pmd k ≠ 0 → k = j) :
    (List.range' 0 512).flatMap (pmdPages s pmd) = pmdPages s pmd j := by
  have hsplit : List.range' 0 512 = List.range' 0 j ++ j :: List.range' (j + 1) (511 - j) := by
    have happend := List.range'_append_1 (s := 0) (m := j) (n := 511 - j + 1)
    rw [List.range'_succ, Nat.zero_add, show j + (511 - j + 1) = 512 by omega] at happend
    exact happend.symm
  have hnil (a n : Nat) (hout : ∀ k, a ≤ k → k < a + n → k < 512 ∧ k ≠ j) :
      (List.range' a n).flatMap (pmdPages s pmd) = [] := by
    rw [List.flatMap_eq_nil_iff]
    intro k hk
    obtain ⟨hle, hlt⟩ := List.mem_range'_1.mp hk
    obtain ⟨hk512, hne⟩ := hout k hle hlt
    exact if_pos (entry_empty hother hk512 hne)
  rw [hsplit, List.flatMap_append, List.flatMap_cons, hnil 0 j (by omega),
    hnil (j + 1) (511 - j) (by omega), List.nil_append, List.append_nil]

theorem mask_pgd : ∀ i < 512, ((i * 0x40000000 + 511 * 0x200000) &&& 0xffc0000000) + 0x40000000 =
    (i + 1) * 0x40000000 := by
  decide +kernel

/-- An upper table with one table below it is freed as it should be. -/
theorem callsPgd_one {calls : List Nat} (hi : i < 512)
    (hone : s.mem pdir i ≠ 0 → OneTable s (s.mem pdir i)) :
    callsPgd s pdir i (i * 0x40000000, calls) =
      .ok ((i + 1) * 0x40000000, calls ++ pgdPages s pdir i) := by
  by_cases hpgd : s.mem pdir i = 0
  · rw [callsPgd, if_pos hpgd, pgdPages, if_pos hpgd, List.append_nil, Nat.succ_mul]
  · obtain ⟨j, hj, hpmd, hother⟩ := hone hpgd
    have hbefore : ∀ k < j, s.mem (s.mem pdir i) k = 0 :=
      fun k hk => entry_empty hother (by omega) (Nat.ne_of_lt hk)
    have hafter : ∀ k, 0 + (j + 1) ≤ k → k < 0 + (j + 1) + (511 - j) → s.mem (s.mem pdir i) k = 0 :=
      fun k hk hlt => entry_empty hother (by omega) (by omega)
    have hloop : loop (callsPmd s pdir ⟨s.mem pdir i, 0⟩) 512 0 (i * 0x40000000, calls) =
        .ok (i * 0x40000000 + 511 * 0x200000, calls ++ pmdPages s (s.mem pdir i) j) := by
      have hcount : 512 = (j + 1) + (511 - j) := by omega
      rw [hcount, loop_add, loop_callsPmd_first hi hj hpgd hpmd hbefore, ok_bind,
        loop_callsPmd_empty hafter, Nat.add_assoc, ← Nat.add_mul, Nat.add_sub_of_le (by omega)]
    rw [callsPgd, if_neg hpgd, reversePmdPtr_start hi hpgd]
    simp only [hloop, ok_bind, mask_pgd i hi]
    rw [pgdPages, if_neg hpgd, flatMap_pmdPages hj hother, List.append_assoc]

theorem loop_callsPgd_one {n : Nat} (hn : n ≤ 512)
    (hone : ∀ i < n, s.mem pdir i ≠ 0 → OneTable s (s.mem pdir i)) :
    loop (callsPgd s pdir) n 0 (0, []) =
      .ok (n * 0x40000000, (List.range' 0 n).flatMap (pgdPages s pdir)) := by
  induction n with
  | zero => rw [Nat.zero_mul]; rfl
  | succ n ih =>
    have hlast := @callsPgd_one s pdir n ((List.range' 0 n).flatMap (pgdPages s pdir))
      (by omega) (hone n (Nat.lt_succ_self n))
    rw [loop_add, ih (by omega) fun i hi => hone i (by omega), ok_bind, loop, Nat.zero_add, hlast,
      ok_bind, loop, List.range'_concat, List.flatMap_append, List.flatMap_singleton, Nat.one_mul,
      Nat.zero_add]

/-- A page that was freed twice stays so. -/
theorem callsPmd_twice {pmd : Slot} (i : Nat) (st : Nat × List Nat) (htwice : ¬st.2.Nodup) :
    Ends (callsPmd s pdir pmd i st) (fun st => ¬st.2.Nodup) fun _ => True := by
  rw [callsPmd]
  split
  next => exact htwice
  next =>
    split
    next => trivial
    next => exact fun hnodup => htwice hnodup.of_append_left

theorem loop_callsPmd_twice {pmd : Slot} (n i : Nat) {st : Nat × List Nat} (htwice : ¬st.2.Nodup) :
    Ends (loop (callsPmd s pdir pmd) n i st) (fun st => ¬st.2.Nodup) fun _ => True :=
  Ends.loop (fun _ st => ¬st.2.Nodup) (fun i st _ => callsPmd_twice i st) n i rfl htwice

theorem callsPgd_twice (i : Nat) (st : Nat × List Nat) (htwice : ¬st.2.Nodup) :
    Ends (callsPgd s pdir i st) (fun st => ¬st.2.Nodup) fun _ => True := by
  rw [callsPgd]
  split
  next => exact htwice
  next =>
    split
    next => trivial
    next =>
      refine (loop_callsPmd_twice 512 0 htwice).bind fun st htwice => ?_
      exact fun hnodup => htwice hnodup.of_append_left

/-- The first two tables below an upper table that has more than one. -/
theorem two_tables {pmd : Nat} (hused : ∃ j < 512, s.mem pmd j ≠ 0) (hmore : ¬OneTable s pmd) :
    ∃ j k, j < k ∧ k < 512 ∧ s.mem pmd j ≠ 0 ∧ s.mem pmd k ≠ 0 ∧
      ∀ l < k, s.mem pmd l ≠ 0 → l = j := by
  classical
  have hfirst := Nat.find_spec hused
  have hleast : ∀ l < 512, s.mem pmd l ≠ 0 → Nat.find hused ≤ l :=
    fun l hl hl0 => Nat.find_min' hused ⟨hl, hl0⟩
  generalize Nat.find hused = j at hfirst hleast
  have hnext : ∃ k, j < k ∧ k < 512 ∧ s.mem pmd k ≠ 0 := by
    by_contra hnone
    refine hmore ⟨j, hfirst.1, hfirst.2, fun l hl hl0 => ?_⟩
    by_contra hne
    exact hnone ⟨l, Nat.lt_of_le_of_ne (hleast l hl hl0) (Ne.symm hne), hl, hl0⟩
  obtain ⟨hjk, hk, hk0⟩ := Nat.find_spec hnext
  refine ⟨j, Nat.find hnext, hjk, hk, hfirst.2, hk0, fun l hl hl0 => ?_⟩
  by_contra hne
  have hjl := Nat.lt_of_le_of_ne (hleast l (by omega) hl0) (Ne.symm hne)
  exact Nat.find_min hnext hl ⟨hjl, by omega, hl0⟩

/-- With a second table below it, an upper table is not freed: either the second is next to the
first, whose pages are freed again, or the address is that of an empty entry. -/
theorem loop_callsPmd_two {calls : List Nat} (tree : Tree s pdir) (hi : i < 512)
    (hpgd : s.mem pdir i ≠ 0) (hmore : ¬OneTable s (s.mem pdir i)) :
    Ends (loop (callsPmd s pdir ⟨s.mem pdir i, 0⟩) 512 0 (i * 0x40000000, calls))
      (fun st => ¬st.2.Nodup) fun _ => True := by
  obtain ⟨j, k, hjk, hk, hj0, hk0, hother⟩ := two_tables (tree.pmdUsed i hi hpgd) hmore
  have hbefore : ∀ l < j, s.mem (s.mem pdir i) l = 0 :=
    fun l hl => entry_empty hother (by omega) (Nat.ne_of_lt hl)
  have hbetween : ∀ l, 0 + (j + 1) ≤ l → l < 0 + (j + 1) + (k - (j + 1)) →
      s.mem (s.mem pdir i) l = 0 :=
    fun l hle hlt => entry_empty hother (by omega) (by omega)
  have hcount : 512 = (j + 1) + ((k - (j + 1)) + (511 - k + 1)) := by omega
  have hbehind : i * 0x40000000 + j * 0x200000 + (k - (j + 1)) * 0x200000 =
      i * 0x40000000 + (k - 1) * 0x200000 := by
    omega
  have hnumber : 0 + (j + 1) + (k - (j + 1)) = k := by omega
  rw [hcount, loop_add, loop_callsPmd_first hi (by omega) hpgd hj0 hbefore, ok_bind, loop_add,
    loop_callsPmd_empty hbetween, ok_bind, loop, hnumber, hbehind,
    callsPmd_table hi (by omega) hpgd hk0]
  split
  next => trivial
  next hfound =>
    obtain rfl : k - 1 = j := hother (k - 1) (by omega) hfound
    rw [ok_bind]
    refine loop_callsPmd_twice _ _ fun hnodup => ?_
    obtain ⟨page, hpage⟩ :=
      List.exists_mem_of_ne_nil _ (tree.tableUsed i hi hpgd (k - 1) (by omega) hj0)
    have hagain : page ∈ pmdPages s (s.mem pdir i) (k - 1) := by
      rw [pmdPages, if_neg hj0]
      exact List.mem_append_left _ hpage
    exact List.disjoint_of_nodup_append hnodup (List.mem_append_right _ hagain)
      (List.mem_append_left _ hpage)

theorem loop_callsPgd_two (tree : Tree s pdir) (hi : i < 512) (hpgd : s.mem pdir i ≠ 0)
    (hmore : ¬OneTable s (s.mem pdir i))
    (hone : ∀ k < i, s.mem pdir k ≠ 0 → OneTable s (s.mem pdir k)) :
    Ends (loop (callsPgd s pdir) 512 0 (0, [])) (fun st => ¬st.2.Nodup) fun _ => True := by
  have hcount : 512 = i + (511 - i + 1) := by omega
  rw [hcount, loop_add, loop_callsPgd_one (by omega) hone, ok_bind, loop, Nat.zero_add, callsPgd,
    if_neg hpgd, reversePmdPtr_start hi hpgd]
  have hstep := @loop_callsPmd_two s pdir i ((List.range' 0 i).flatMap (pgdPages s pdir)) tree hi
    hpgd hmore
  refine Ends.bind (hstep.bind fun st htwice => ?_) fun st htwice =>
    Ends.loop (fun _ st => ¬st.2.Nodup) (fun i st _ => callsPgd_twice i st) _ _ rfl htwice
  exact fun hnodup => htwice hnodup.of_append_left

theorem tablesRight_of_one (hone : ∀ i < 512, s.mem pdir i ≠ 0 → OneTable s (s.mem pdir i)) :
    TablesRight s pdir := by
  refine ⟨treePages s pdir, ?_, List.Perm.refl _⟩
  rw [releaseCalls, loop_callsPgd_one (Nat.le_refl 512) hone, treePages]
  rfl

theorem not_tablesRight_of_two (tree : Tree s pdir) (hi : i < 512) (hpgd : s.mem pdir i ≠ 0)
    (hmore : ¬OneTable s (s.mem pdir i))
    (hone : ∀ k < i, s.mem pdir k ≠ 0 → OneTable s (s.mem pdir k)) : ¬TablesRight s pdir := by
  rintro ⟨calls, hcalls, hperm⟩
  obtain ⟨st, hloop, rfl⟩ := map_eq_ok.mp hcalls
  have htwice := (loop_callsPgd_two tree hi hpgd hmore hone).of_eq_ok hloop
  exact htwice (hperm.nodup_iff.mpr tree.distinct)

theorem not_bitmapRight (btmp : Nat) : ¬BitmapRight btmp := by
  intro h
  have hpages : btmpPages = 4097 ∧ btmpBytesLen / pageSize = 4095 ∧ pageSize = 4096 := by decide
  obtain ⟨htaken, hfreed, hsize⟩ := hpages
  obtain ⟨i, hi, heq⟩ := (h (btmp + 4096 * pageSize)).mpr ⟨4096, by omega, rfl⟩
  rw [hfreed] at hi
  rw [hsize] at heq
  omega

end Walk

/-- The address space is torn down as it was set up. -/
def ReleaseRight (s : Phys) (pdir btmp : Nat) : Prop := TablesRight s pdir ∧ BitmapRight btmp

/-- No address space is torn down right, because of the bitmap. The pages of the tree are freed once
each if and only if no upper table has two tables below it. -/
theorem releaseRight_never {s : Phys} {pdir : Nat} (tree : Tree s pdir) (btmp : Nat) :
    (∀ calls, releaseCalls s pdir = .ok calls → releaseUsrmemory pdir btmp s =
      freeAll s calls >>= fun s => freePages s btmp (btmpBytesLen / pageSize)) ∧
    ¬ReleaseRight s pdir btmp ∧
    (TablesRight s pdir ↔ ∀ i < 512, s.mem pdir i ≠ 0 → OneTable s (s.mem pdir i)) := by
  refine ⟨fun calls => releaseUsrmemory_eq, fun h => not_bitmapRight btmp h.2, fun hright => ?_,
    tablesRight_of_one⟩
  intro i
  induction i using Nat.strong_induction_on with
  | _ i ih =>
    intro hi hpgd
    by_contra hmore
    exact not_tablesRight_of_two tree hi hpgd hmore (fun k hk => ih k hk (by omega)) hright

/-- A page below the first entry of an upper table and, unless `second` is 0, one below `second`. -/
def sampleTree (second : Nat) : Phys where
  pool := lifePool
  mem page i :=
    if page = 0x1000 ∧ i = 0 then 0x2000
    else if page = 0x2000 ∧ i = 0 then 0x3000
    else if page = 0x2000 ∧ i = second then 0x5000
    else if page = 0x3000 ∧ i = 0 then 0x400f
    else if page = 0x5000 ∧ i = 0 then 0x600f
    else 0

theorem releaseRight_never_sample : Tree (sampleTree 0) 0x1000 ∧
    ¬ReleaseRight (sampleTree 0) 0x1000 0x100000 ∧ TablesRight (sampleTree 0) 0x1000 := by
  have tree : Tree (sampleTree 0) 0x1000 :=
    ⟨by decide +kernel, by decide +kernel, by decide +kernel⟩
  have never := releaseRight_never tree 0x100000
  refine ⟨tree, never.2.1, never.2.2.mpr ?_⟩
  simp only [OneTable]
  decide +kernel

/-- With tables at the entries 0 and 1 the page of the first is freed twice and that of the second
is not freed, and at the entries 0 and 2 a null pointer is followed. -/
theorem second_table_not_released :
    (Tree (sampleTree 1) 0x1000 ∧ 0x6000 ∈ treePages (sampleTree 1) 0x1000 ∧
      (releaseCalls (sampleTree 1) 0x1000).toOption =
        some [0x4000, 0x3000, 0x4000, 0x5000, 0x2000]) ∧
    (Tree (sampleTree 2) 0x1000 ∧ (releaseCalls (sampleTree 2) 0x1000).toOption = none) ∧
    ¬BitmapRight 0x100000 ∧ ¬ReleaseRight (sampleTree 1) 0x1000 0x100000 := by
  refine ⟨⟨⟨?_, ?_, ?_⟩, ?_, ?_⟩, ⟨⟨?_, ?_, ?_⟩, ?_⟩, not_bitmapRight _,
    fun h => not_bitmapRight _ h.2⟩ <;> decide +kernel

end KernelTravel.Userprog

import KernelTravel.Buf.Basic

/-!
# The cache after `bufInit`

`bufInit` runs on zeroed static storage. Its loops append the buffers of a group
one by one, so every intermediate state is described by how many buffers each
group has linked so far. `bufInit_zero` gives the final state in closed form.
-/

namespace KernelTravel.Buf

open Function

/-- Static storage before `bufInit`: zeroed control blocks and unset pointers. -/
def Cache.zero (disk : Nat → Block) : Cache where
  buf _ := { blockno := 0, dev := 0, valid := false, dirty := false, refcnt := 0, data := 0 }
  links := ⟨fun _ => none, fun _ => none⟩
  mem _ := 0
  disk := disk
  written := []

/-- The link fields when group `i` has linked its first `len i` buffers in order.
A group with `len i = none` has not been initialised. -/
def groupLinks (len : Nat → Option Nat) : Links Node where
  next
    | .head i => (len i).map fun m => if 0 < m then .elem i 0 else .tail i
    | .elem i j => (len i).bind fun m =>
      if j < m then some (if j + 1 < m then .elem i (j + 1) else .tail i) else none
    | .tail _ => none
  prev
    | .head _ => none
    | .elem i j => (len i).bind fun m =>
      if j < m then some (if 0 < j then .elem i (j - 1) else .head i) else none
    | .tail i => (len i).map fun m => if 0 < m then .elem i (m - 1) else .head i

theorem listInit_groupLinks {len : Nat → Option Nat} {i : Nat} (h : len i = none) :
    listInit (groupLinks len) i = groupLinks (update len i (some 0)) := by
  ext x y <;> rcases x with k | k | ⟨k, j⟩ <;> by_cases hk : k = i <;>
    simp [listInit, groupLinks, hk, h, update_apply]

theorem listAppend_groupLinks {len : Nat → Option Nat} {i m : Nat} (h : len i = some m) :
    listAppend (groupLinks len) i (.elem i m) =
      some (groupLinks (update len i (some (m + 1)))) := by
  have hprev : (groupLinks len).prev (.tail i) =
      some (if 0 < m then .elem i (m - 1) else .head i) := by simp [groupLinks, h]
  rw [listAppend, listInsertBefore, Links.insertBefore_eq _ hprev]
  congr 1
  refine Links.ext (funext fun x => ?_) (funext fun x => ?_)
  · rcases x with k | k | ⟨k, j⟩ <;> by_cases hk : k = i
    · cases m <;> simp [groupLinks, hk, h]
    · split_ifs <;> simp [groupLinks, hk]
    · split_ifs <;> simp_all [groupLinks]
    · split_ifs <;> simp_all [groupLinks]
    · by_cases hj : j = m
      · simp [groupLinks, hk, hj]
      · cases m with
        | zero => simp [groupLinks, hk, h, hj]
        | succ m =>
          simp only [groupLinks, hk, h]
          grind
    · split_ifs <;> simp_all [groupLinks]
  · rcases x with k | k | ⟨k, j⟩ <;> by_cases hk : k = i
    · simp [groupLinks]
    · simp [groupLinks]
    · simp [groupLinks, hk]
    · simp [groupLinks, hk]
    · by_cases hj : j = m
      · simp [groupLinks, hk, hj]
      · have hlt : (j < m) = (j < m + 1) := propext (by omega)
        simp [groupLinks, hk, h, hj, hlt]
    · simp [groupLinks, hk]

/-- The buffers of an initialised group, in order. -/
theorem between_groupLinks {len : Nat → Option Nat} {i m : Nat} (h : len i = some m) :
    (groupLinks len).Between (.head i) ((List.range m).map (Node.elem i)) (.tail i) := by
  induction m generalizing len with
  | zero =>
    refine ⟨?_, by simp, by simp⟩
    simp [Links.Linked, groupLinks, h]
  | succ m ih =>
    -- the last buffer was appended to the group that ends before it
    have shorter : update len i (some m) i = some m := by simp
    have before := ih shorter
    obtain ⟨l', happend, hbetween, -⟩ :=
      before.insertBefore_last (e := .elem i m) (by simp)
    have heq := listAppend_groupLinks shorter
    rw [update_idem, ← h, update_eq_self] at heq
    have hl : l' = groupLinks len := Option.some.inj (happend.symm.trans heq)
    rw [List.range_succ, List.map_append, ← hl]
    exact hbetween

/-- The state in which group `i` has initialised its first `len i` buffers. -/
def initUpto (disk : Nat → Block) (len : Nat → Option Nat) : Cache where
  buf p :=
    { blockno := 0, valid := false, dirty := false, refcnt := 0
      dev := if p.2 < (len p.1).getD 0 then -1 else 0
      data := if p.2 < (len p.1).getD 0 then dataAddr p else 0 }
  links := groupLinks len
  mem _ := 0
  disk := disk
  written := []

theorem initUpto_none (disk : Nat → Block) : initUpto disk (fun _ => none) = Cache.zero disk := by
  have hlinks : groupLinks (fun _ => none) = ⟨fun _ => none, fun _ => none⟩ := by
    ext x y <;> cases x <;> simp [groupLinks]
  simp [initUpto, Cache.zero, hlinks]

theorem bufInitBuffer_initUpto (disk : Nat → Block) {len : Nat → Option Nat} {i j : Nat}
    (h : len i = some j) : bufInitBuffer i (initUpto disk len) j =
      some (initUpto disk (update len i (some (j + 1)))) := by
  simp only [bufInitBuffer, Cache.setBuf_links, Option.bind_eq_bind]
  have happend : listAppend (initUpto disk len).links i (.elem i j) =
      some (groupLinks (update len i (some (j + 1)))) := listAppend_groupLinks h
  rw [happend]
  simp only [Option.bind_some, Option.pure_def, Option.some.injEq, initUpto, Cache.mk.injEq,
    and_true, Cache.setBuf]
  funext ⟨k, q⟩
  by_cases hk : k = i
  · subst hk
    by_cases hq : q = j <;> grind [update_apply]
  · have hne : ((k, q) : BufPtr) ≠ (i, j) := fun heq => hk (congrArg Prod.fst heq)
    simp [hk, hne]

theorem bufInitGroup_initUpto (disk : Nat → Block) {len : Nat → Option Nat} {i : Nat}
    (h : len i = none) : bufInitGroup (initUpto disk len) i =
      some (initUpto disk (update len i (some bgroupBufNum))) := by
  have start : ({ initUpto disk len with links := listInit (initUpto disk len).links i } : Cache) =
      initUpto disk (update len i (some 0)) := by
    simp only [initUpto, listInit_groupLinks h, Cache.mk.injEq, and_true]
    funext ⟨k, q⟩
    by_cases hk : k = i <;> simp [hk, h]
  have loop : ∀ m, (List.range m).foldlM (bufInitBuffer i)
      (initUpto disk (update len i (some 0))) =
        some (initUpto disk (update len i (some m))) := by
    intro m
    induction m with
    | zero => rfl
    | succ m ih =>
      rw [List.range_succ, List.foldlM_append, ih]
      have reached : update len i (some m) i = some m := by simp
      have last := bufInitBuffer_initUpto disk reached
      rw [update_idem] at last
      simpa using last
  rw [bufInitGroup, start, loop]

/-- Every group below `bgroupNum` holds its eight buffers, none of them assigned. -/
def Cache.initial (disk : Nat → Block) : Cache :=
  initUpto disk fun i => if i < bgroupNum then some bgroupBufNum else none

theorem bufInit_zero (disk : Nat → Block) :
    bufInit (Cache.zero disk) = some (Cache.initial disk) := by
  have loop : ∀ n, (List.range n).foldlM bufInitGroup (Cache.zero disk) =
      some (initUpto disk fun i => if i < n then some bgroupBufNum else none) := by
    intro n
    induction n with
    | zero => simp [initUpto_none]
    | succ n ih =>
      rw [List.range_succ, List.foldlM_append, ih]
      have last : bufInitGroup (initUpto disk fun i => if i < n then some bgroupBufNum else none)
          n = _ := bufInitGroup_initUpto disk (by simp)
      have hlen : update (fun i => if i < n then some bgroupBufNum else none) n
          (some bgroupBufNum) = fun i => if i < n + 1 then some bgroupBufNum else none := by
        funext i
        by_cases hi : i = n
        · simp [hi]
        · simp only [update_apply, hi, if_false]
          congr 1
          exact propext (by omega)
      rw [hlen] at last
      simpa using last
  exact loop bgroupNum

end KernelTravel.Buf

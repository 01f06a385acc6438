import KernelTravel.Buf.Alloc
import KernelTravel.Lib.Run
import Mathlib.Data.Nat.Bitwise

/-!
# The structural invariant of the sector cache

`Inv` collects what every operation keeps: the group lists, the place of every
assigned buffer, the uniqueness of `(dev, blockno)` and the ranges of the
counters. Each operation has one preservation lemma; `cache_runs` is their
consequence for whole runs. Uniqueness rests on the order of the two walks in
`bufAlloc`: a buffer is reassigned only after the hit search has failed.
-/

namespace KernelTravel.Buf

/-- A pointer to one of the `bgroupNum * bgroupBufNum` buffers. -/
def InRange (p : BufPtr) : Prop := p.1 < bgroupNum ∧ p.2 < bgroupBufNum

instance (p : BufPtr) : Decidable (InRange p) := inferInstanceAs (Decidable (_ ∧ _))

/-- `bufInit` marks unassigned buffers by the device number -1. -/
def Assigned (b : Buffer) : Prop := b.dev ≠ -1

/-- The identity of a buffer: what it caches. -/
def SameIdentity (b b' : Buffer) : Prop := b'.dev = b.dev ∧ b'.blockno = b.blockno

structure Inv (s : Cache) : Prop where
  lists : ∀ i < bgroupNum, ∃ xs, GroupList s i xs
  data : ∀ p, InRange p → (s.buf p).data = dataAddr p
  dev : ∀ p, InRange p → (s.buf p).dev = -1 ∨ 0 ≤ (s.buf p).dev ∧ (s.buf p).dev < 2 ^ 31
  refcnt : ∀ p, InRange p → (s.buf p).refcnt < 2 ^ 16
  referenced : ∀ p, InRange p → 0 < (s.buf p).refcnt → Assigned (s.buf p)
  placed : ∀ p, InRange p → Assigned (s.buf p) → (s.buf p).blockno &&& bgroupMask = p.1
  unique : ∀ p q, InRange p → InRange q → Assigned (s.buf p) →
    (s.buf p).dev = (s.buf q).dev → (s.buf p).blockno = (s.buf q).blockno → p = q

theorem group_lt (blockno : Nat) : blockno &&& bgroupMask < bgroupNum := by
  have : blockno &&& bgroupMask = blockno % 2 ^ 14 := Nat.and_two_pow_sub_one_eq_mod blockno 14
  rw [this]
  exact Nat.mod_lt _ (by decide)

theorem toUInt64_eq_iff {x : Int} {dev : Nat} (hdev : dev < 2 ^ 31)
    (hx : x = -1 ∨ 0 ≤ x ∧ x < 2 ^ 31) : toUInt64 x = dev ↔ x = dev := by
  unfold toUInt64
  omega

theorem toInt32_of_lt {dev : Nat} (hdev : dev < 2 ^ 31) : toInt32 dev = dev := by
  rw [toInt32, if_pos hdev]

namespace Inv

variable {s s' : Cache} {p : BufPtr} {dev blockno : Nat}

/-- The data area, the disk and the log of writes play no part in the invariant. -/
theorem congr (inv : Inv s) (hbuf : s'.buf = s.buf) (hlinks : s'.links = s.links) : Inv s' := by
  obtain ⟨lists, data, dev, refcnt, referenced, placed, unique⟩ := inv
  refine ⟨?_, ?_, ?_, ?_, ?_, ?_, ?_⟩
  · simpa only [GroupList, hlinks] using lists
  all_goals simpa only [hbuf]

/-- A buffer is changed. The block that it holds then is one of its group, and no other buffer
holds it. -/
theorem setBuf (inv : Inv s) {b : Buffer} (hdata : b.data = (s.buf p).data)
    (hdev : InRange p → b.dev = -1 ∨ 0 ≤ b.dev ∧ b.dev < 2 ^ 31) (hcnt : b.refcnt < 2 ^ 16)
    (href : InRange p → 0 < b.refcnt → Assigned b)
    (hplaced : InRange p → Assigned b → b.blockno &&& bgroupMask = p.1)
    (hother : ∀ q, InRange p → InRange q → Assigned b → SameIdentity b (s.buf q) → q = p) :
    Inv (s.setBuf p b) := by
  have all : ∀ {P : BufPtr → Buffer → Prop}, (InRange p → P p b) →
      (∀ q, InRange q → P q (s.buf q)) → ∀ q, InRange q → P q ((s.setBuf p b).buf q) := by
    intro P hp h q hq
    by_cases hqp : q = p
    · subst hqp
      simpa using hp hq
    · simpa [hqp] using h q hq
  refine ⟨inv.lists,
    all (P := fun q c => c.data = dataAddr q) (fun hp => hdata.trans (inv.data p hp)) inv.data,
    all (P := fun _ c => c.dev = -1 ∨ 0 ≤ c.dev ∧ c.dev < 2 ^ 31) hdev inv.dev,
    all (P := fun _ c => c.refcnt < 2 ^ 16) (fun _ => hcnt) inv.refcnt,
    all (P := fun _ c => 0 < c.refcnt → Assigned c) href inv.referenced,
    all (P := fun q c => Assigned c → c.blockno &&& bgroupMask = q.1) hplaced inv.placed, ?_⟩
  intro q r hq hr hassigned hd hb
  by_cases hqp : q = p <;> by_cases hrp : r = p
  · rw [hqp, hrp]
  · subst hqp
    simp only [Cache.setBuf_buf, Function.update_self, Function.update_of_ne hrp] at hassigned hd hb
    exact (hother r hq hr hassigned ⟨hd.symm, hb.symm⟩).symm
  · subst hrp
    simp only [Cache.setBuf_buf, Function.update_self, Function.update_of_ne hqp] at hassigned hd hb
    exact hother q hr hq (fun h => hassigned (hd.trans h)) ⟨hd, hb⟩
  · simp only [Cache.setBuf_buf, Function.update_of_ne hqp,
      Function.update_of_ne hrp] at hassigned hd hb
    exact inv.unique q r hq hr hassigned hd hb

/-- Changing the flags or the counter of a buffer keeps the invariant. -/
theorem setBuf_same (inv : Inv s) {b : Buffer} (hdata : b.data = (s.buf p).data)
    (hdev : b.dev = (s.buf p).dev) (hblock : b.blockno = (s.buf p).blockno)
    (hcnt : b.refcnt < 2 ^ 16) (href : InRange p → 0 < b.refcnt → Assigned (s.buf p)) :
    Inv (s.setBuf p b) := by
  have hassigned : Assigned b ↔ Assigned (s.buf p) := by rw [Assigned, Assigned, hdev]
  refine inv.setBuf hdata (fun hp => hdev ▸ inv.dev p hp) hcnt
    (fun hp h => hassigned.mpr (href hp h))
    (fun hp h => hblock ▸ inv.placed p hp (hassigned.mp h)) fun q hp hq h same => ?_
  exact (inv.unique p q hp hq (hassigned.mp h) (hdev.symm.trans same.1.symm)
    (hblock.symm.trans same.2.symm)).symm

/-- Giving a buffer a block of its own group that no buffer holds. -/
theorem setBuf_reassign (inv : Inv s) (hgroup : blockno &&& bgroupMask = p.1)
    (hdev : dev < 2 ^ 31) (miss : ∀ q, InRange q → q.1 = p.1 → ¬Holds s dev blockno q)
    {b : Buffer} (hdata : b.data = (s.buf p).data) (hbdev : b.dev = dev)
    (hblock : b.blockno = blockno) (hcnt : b.refcnt < 2 ^ 16) : Inv (s.setBuf p b) := by
  have hassigned : Assigned b := by
    unfold Assigned
    omega
  refine inv.setBuf hdata (fun _ => .inr (by omega)) hcnt (fun _ _ => hassigned)
    (fun _ _ => hblock ▸ hgroup) ?_
  -- a buffer with the new identity would be found by the hit search of its group
  rintro q - hq - ⟨hqdev, hqblock⟩
  have hqassigned : Assigned (s.buf q) := fun h => hassigned (hqdev.symm.trans h)
  have hqgroup : q.1 = p.1 := by
    rw [← inv.placed q hq hqassigned, hqblock, hblock, hgroup]
  have holds : Holds s dev blockno q :=
    ⟨(toUInt64_eq_iff hdev (inv.dev q hq)).mpr (hqdev.trans hbdev), hqblock.trans hblock⟩
  exact absurd holds (miss q hq hqgroup)

theorem takeRef (inv : Inv s) (hdev : dev < 2 ^ 31) (holds : Holds s dev blockno p) :
    Inv (takeRef s p) := by
  refine inv.setBuf_same rfl rfl rfl (Nat.mod_lt _ (by decide)) ?_
  intro hp _ hunassigned
  have := (toUInt64_eq_iff hdev (inv.dev p hp)).mp holds.1
  omega

theorem reassign (inv : Inv s) (hgroup : blockno &&& bgroupMask = p.1)
    (hdev : dev < 2 ^ 31) (miss : ∀ k < bgroupBufNum, ¬Holds s dev blockno (p.1, k)) :
    Inv (reassign s dev blockno p) := by
  have written : Inv (if NeedsWriteBack s p then blockWrite s blockno (s.buf p).data else s) := by
    split
    · exact inv.congr rfl rfl
    · exact inv
  have hbuf : (if NeedsWriteBack s p then blockWrite s blockno (s.buf p).data else s).buf =
      s.buf := by split <;> rfl
  refine written.setBuf_reassign hgroup hdev ?_ (by rw [hbuf]) (toInt32_of_lt hdev) rfl
    (by decide : 1 < 2 ^ 16)
  rintro ⟨i, k⟩ hq rfl
  simpa only [Holds, hbuf] using miss k hq.2

end Inv

/-! ## Reading -/

/-- The tail of `bufRead`, after a buffer has been obtained. -/
def fill (s : Cache) (blockno : Nat) (isRead : Bool) (p : BufPtr) : Cache :=
  if (s.buf p).valid then s
  else (if isRead then blockRead s blockno (s.buf p).data else s).setBuf p
    { s.buf p with valid := true }

theorem bufRead_eq (s : Cache) (dev blockno : Nat) (isRead : Bool) :
    bufRead s dev blockno isRead = (bufAlloc s dev blockno).bind fun x =>
      x.1.map fun p => (p, fill x.2 blockno isRead p) := by
  rw [bufRead, Option.bind_eq_bind]
  congr 1
  funext ⟨q, s₁⟩
  cases q with
  | none => rfl
  | some p =>
    have hbuf : (if isRead then blockRead s₁ blockno (s₁.buf p).data else s₁).buf = s₁.buf := by
      split <;> rfl
    by_cases hv : (s₁.buf p).valid = true <;> simp [fill, hbuf, hv]

theorem bufRead_eq_some {s s' : Cache} {dev blockno : Nat} {isRead : Bool} {p : BufPtr} :
    bufRead s dev blockno isRead = some (p, s') ↔
      ∃ s₁, bufAlloc s dev blockno = some (some p, s₁) ∧ s' = fill s₁ blockno isRead p := by
  rw [bufRead_eq, Option.bind_eq_some_iff]
  constructor
  · rintro ⟨⟨q, s₁⟩, halloc, h⟩
    obtain ⟨q, rfl, hq⟩ := Option.map_eq_some_iff.mp h
    obtain ⟨rfl, rfl⟩ := Prod.mk.inj hq
    exact ⟨s₁, halloc, rfl⟩
  · rintro ⟨s₁, halloc, rfl⟩
    exact ⟨_, halloc, rfl⟩

theorem Inv.fill {s : Cache} {blockno : Nat} {isRead : Bool} {p : BufPtr} (inv : Inv s)
    (hp : InRange p) : Inv (fill s blockno isRead p) := by
  unfold Buf.fill
  split
  · exact inv
  · have read : Inv (if isRead then blockRead s blockno (s.buf p).data else s) := by
      split
      · exact inv.congr rfl rfl
      · exact inv
    have hbuf : (if isRead then blockRead s blockno (s.buf p).data else s).buf = s.buf := by
      split <;> rfl
    refine read.setBuf_same (by rw [hbuf]) (by rw [hbuf]) (by rw [hbuf]) ?_ ?_
    · exact inv.refcnt p hp
    · intro _ hpos
      rw [hbuf]
      exact inv.referenced p hp hpos

/-- `bufAlloc` seen through the invariant: where it finds a buffer and which. -/
theorem Inv.bufAlloc_cases {s : Cache} (inv : Inv s) (dev blockno : Nat) :
    (∃ p, InRange p ∧ p.1 = blockno &&& bgroupMask ∧ Holds s dev blockno p ∧
      bufAlloc s dev blockno = some (some p, Buf.takeRef s p)) ∨
    (∃ p, InRange p ∧ p.1 = blockno &&& bgroupMask ∧
      (∀ k < bgroupBufNum, ¬Holds s dev blockno (p.1, k)) ∧ (s.buf p).refcnt = 0 ∧
      victim s p.1 = some p ∧
      bufAlloc s dev blockno = some (some p, Buf.reassign s dev blockno p)) ∨
    ((∀ k < bgroupBufNum, ¬Holds s dev blockno (blockno &&& bgroupMask, k)) ∧
      (∀ k < bgroupBufNum, (s.buf (blockno &&& bgroupMask, k)).refcnt ≠ 0) ∧
      bufAlloc s dev blockno = some (none, s)) := by
  obtain ⟨xs, hlist⟩ := inv.lists _ (group_lt blockno)
  rcases Buf.bufAlloc_cases dev rfl hlist with
    ⟨j, hj, holds, h⟩ | ⟨j, hj, miss, hzero, hvictim, h⟩ | full
  · exact .inl ⟨_, ⟨group_lt blockno, hj⟩, rfl, holds, h⟩
  · exact .inr (.inl ⟨_, ⟨group_lt blockno, hj⟩, rfl, miss, hzero, hvictim, h⟩)
  · exact .inr (.inr full)

/-- What a successful `bufRead` did. -/
theorem Inv.bufRead_cases {s s' : Cache} (inv : Inv s) {dev blockno : Nat} {isRead : Bool}
    {p : BufPtr} (h : bufRead s dev blockno isRead = some (p, s')) :
    InRange p ∧ p.1 = blockno &&& bgroupMask ∧
      ((Holds s dev blockno p ∧ s' = Buf.fill (Buf.takeRef s p) blockno isRead p) ∨
       ((∀ k < bgroupBufNum, ¬Holds s dev blockno (p.1, k)) ∧ (s.buf p).refcnt = 0 ∧
         victim s p.1 = some p ∧
         s' = Buf.fill (Buf.reassign s dev blockno p) blockno isRead p)) := by
  obtain ⟨s₁, halloc, rfl⟩ := bufRead_eq_some.mp h
  rcases inv.bufAlloc_cases dev blockno with
    ⟨q, hq, hgroup, holds, heq⟩ | ⟨q, hq, hgroup, miss, hzero, hvictim, heq⟩ | ⟨-, -, heq⟩
  all_goals
    rw [heq] at halloc
    simp only [Option.some.injEq, Prod.mk.injEq, reduceCtorEq, false_and] at halloc
  · obtain ⟨rfl, rfl⟩ := halloc
    exact ⟨hq, hgroup, .inl ⟨holds, rfl⟩⟩
  · obtain ⟨rfl, rfl⟩ := halloc
    exact ⟨hq, hgroup, .inr ⟨miss, hzero, hvictim, rfl⟩⟩

theorem Inv.bufRead {s s' : Cache} (inv : Inv s) {dev blockno : Nat} {isRead : Bool}
    {p : BufPtr} (hdev : dev < 2 ^ 31) (h : bufRead s dev blockno isRead = some (p, s')) :
    Inv s' := by
  obtain ⟨hp, hgroup, ⟨holds, rfl⟩ | ⟨miss, -, -, rfl⟩⟩ := inv.bufRead_cases h
  · exact (inv.takeRef hdev holds).fill hp
  · exact (inv.reassign hgroup.symm hdev miss).fill hp

/-! ## Writing, releasing and syncing -/

theorem Inv.bufWrite {s : Cache} {p : BufPtr} (inv : Inv s) (hp : InRange p) : Inv (bufWrite s p) :=
  inv.setBuf_same rfl rfl rfl (inv.refcnt p hp) (inv.referenced p)

def Node.group : Node → Nat
  | .head g | .tail g | .elem g _ => g

/-- Changes to the nodes of other groups leave the list of a group. -/
theorem GroupList.frame {s s' : Cache} {i : Nat} {xs : List Nat} {touched : List Node}
    (list : GroupList s i xs) (same : s.links.SameOutside s'.links touched)
    (other : ∀ n ∈ touched, n.group ≠ i) : GroupList s' i xs := by
  refine ⟨list.1, list.2.frame same (fun h => other _ h rfl) (fun h => other _ h rfl) ?_⟩
  intro n hn
  obtain ⟨j, -, rfl⟩ := List.mem_map.mp hn
  exact fun h => other _ h rfl

/-- The last release of a buffer moves it to the tail end of its own group's list. -/
theorem bufRelease_last {s : Cache} {p : BufPtr} {xs : List Nat} (list : GroupList s p.1 xs)
    (hp : p.2 < bgroupBufNum) (hgroup : (s.buf p).blockno &&& bgroupMask = p.1)
    (hone : (s.buf p).refcnt = 1) :
    ∃ links, bufRelease s p = some { s with
        buf := Function.update s.buf p { s.buf p with refcnt := (s.buf p).refcnt - 1 }
        links } ∧
      ∀ s' : Cache, s'.links = links → GroupList s' p.1 (xs.erase p.2 ++ [p.2]) ∧
        ∀ i ws, i ≠ p.1 → GroupList s i ws → GroupList s' i ws := by
  obtain ⟨perm, between⟩ := list
  have hmem : p.2 ∈ xs := perm.mem_iff.mpr (List.mem_range.mpr hp)
  have hnodup : xs.Nodup := perm.nodup_iff.mpr List.nodup_range
  have hperm : (xs.erase p.2 ++ [p.2]).Perm (List.range bgroupBufNum) :=
    ((List.perm_append_singleton ..).trans (List.perm_cons_erase hmem).symm).trans perm
  obtain ⟨ys, zs, hys, rfl, herase⟩ := List.exists_erase_eq hmem
  rw [List.map_append, List.map_cons] at between
  obtain ⟨l₁, hunlink, hgap, same₁⟩ := between.unlink_mem
  have hfresh : Node.elem p.1 p.2 ∉
      Node.head p.1 :: Node.tail p.1 :: (ys.map (Node.elem p.1) ++ zs.map (Node.elem p.1)) := by
    simpa [herase] using hnodup.not_mem_erase (a := p.2)
  obtain ⟨l₂, hinsert, hlast, same₂⟩ := hgap.insertBefore_last hfresh
  refine ⟨l₂, ?_, ?_⟩
  · have happend : listAppend l₁ p.1 (.elem p.1 p.2) = some l₂ := hinsert
    simp [bufRelease, hone, Cache.setBuf, hgroup, listRemove, hunlink, happend]
  · rintro s' rfl
    refine ⟨⟨hperm, by simpa [herase] using hlast⟩, fun i ws hip hother => ?_⟩
    -- both splices stay inside the group of `p`
    have own : ∀ n ∈ Node.elem p.1 p.2 :: Node.head p.1 :: Node.tail p.1 ::
        (ys.map (Node.elem p.1) ++ zs.map (Node.elem p.1)), n.group ≠ i := by
      simp [List.forall_mem_append, List.forall_mem_map, -List.mem_append,
        -List.mem_map, Node.group, hip.symm]
    have unlinked : GroupList { s with links := l₁ } i ws :=
      hother.frame same₁ fun n hn => own n (List.mem_cons_of_mem _ hn)
    exact unlinked.frame same₂ own

/-- Any other release leaves the lists as they are. -/
theorem bufRelease_shared {s : Cache} {p : BufPtr} (hcnt : (s.buf p).refcnt < 2 ^ 16)
    (hmore : 1 < (s.buf p).refcnt) :
    bufRelease s p = some (s.setBuf p { s.buf p with refcnt := (s.buf p).refcnt - 1 }) := by
  have hminus : ((s.buf p).refcnt + 65535) % 65536 = (s.buf p).refcnt - 1 := by omega
  have hne : (s.buf p).refcnt - 1 ≠ 0 := by omega
  simp [bufRelease, hminus, hne, Cache.setBuf]

/-- The lists after a release. -/
theorem Inv.release_list {s s' : Cache} {p : BufPtr} (inv : Inv s) (hp : InRange p)
    (hpos : 0 < (s.buf p).refcnt) (h : bufRelease s p = some s') {i : Nat} {xs : List Nat}
    (list : GroupList s i xs) :
    GroupList s' i (if i = p.1 ∧ (s.buf p).refcnt = 1 then xs.erase p.2 ++ [p.2] else xs) := by
  by_cases hone : (s.buf p).refcnt = 1
  · have hgroup := inv.placed p hp (inv.referenced p hp hpos)
    by_cases hip : i = p.1
    · subst hip
      obtain ⟨links, hlast, hlists⟩ := bufRelease_last list hp.2 hgroup hone
      cases hlast.symm.trans h
      rw [if_pos ⟨rfl, hone⟩]
      exact (hlists _ rfl).1
    · obtain ⟨ys, own⟩ := inv.lists p.1 hp.1
      obtain ⟨links, hlast, hlists⟩ := bufRelease_last own hp.2 hgroup hone
      cases hlast.symm.trans h
      rw [if_neg fun hmoved => hip hmoved.1]
      exact (hlists _ rfl).2 i xs hip list
  · cases (bufRelease_shared (inv.refcnt p hp) (by omega)).symm.trans h
    rwa [if_neg fun hmoved => hone hmoved.2]

/-- Releasing a referenced buffer always succeeds. -/
theorem Inv.bufRelease {s : Cache} {p : BufPtr} (inv : Inv s) (hp : InRange p)
    (hpos : 0 < (s.buf p).refcnt) :
    ∃ links, bufRelease s p = some { s with
        buf := Function.update s.buf p { s.buf p with refcnt := (s.buf p).refcnt - 1 }
        links } ∧
      Inv { s with
        buf := Function.update s.buf p { s.buf p with refcnt := (s.buf p).refcnt - 1 }
        links } := by
  have hcnt := inv.refcnt p hp
  have hassigned := inv.referenced p hp hpos
  have lowered : Inv (s.setBuf p { s.buf p with refcnt := (s.buf p).refcnt - 1 }) :=
    inv.setBuf_same rfl rfl rfl (Nat.lt_of_le_of_lt (Nat.sub_le _ _) hcnt)
      (fun _ _ => hassigned)
  by_cases hone : (s.buf p).refcnt = 1
  · obtain ⟨xs, list⟩ := inv.lists p.1 hp.1
    obtain ⟨links, hrelease, -⟩ := bufRelease_last list hp.2 (inv.placed p hp hassigned) hone
    refine ⟨links, hrelease, fun i hi => ?_, lowered.data, lowered.dev, lowered.refcnt,
      lowered.referenced, lowered.placed, lowered.unique⟩
    obtain ⟨ws, hws⟩ := inv.lists i hi
    exact ⟨_, inv.release_list hp hpos hrelease hws⟩
  · exact ⟨s.links, bufRelease_shared hcnt (by omega), lowered⟩

/-- `bufSync` runs through all buffers; what writing back one buffer keeps, it keeps. -/
theorem bufSync_induct {P : Cache → Prop} {s : Cache} (hs : P s)
    (step : ∀ s i j, i < bgroupNum → j < bgroupBufNum → P s → P (bufSyncBuffer i s j)) :
    P (bufSync s) := by
  refine List.foldlRecOn _ _ hs ?_
  intro s hs i hi
  refine List.foldlRecOn _ _ hs ?_
  intro s hs j hj
  exact step s i j (List.mem_range.mp hi) (List.mem_range.mp hj) hs

theorem bufSyncBuffer_eq (s : Cache) (i j : Nat) :
    bufSyncBuffer i s j =
      if NeedsWriteBack s (i, j) then
        (blockWrite s (s.buf (i, j)).blockno (s.buf (i, j)).data).setBuf (i, j)
          { s.buf (i, j) with dirty := false }
      else s := by
  simp only [bufSyncBuffer, NeedsWriteBack, Bool.and_eq_true]
  rfl

theorem Inv.bufSyncBuffer {s : Cache} {i j : Nat} (inv : Inv s) (hi : i < bgroupNum)
    (hj : j < bgroupBufNum) : Inv (bufSyncBuffer i s j) := by
  rw [bufSyncBuffer_eq]
  split
  · have wrote : Inv (blockWrite s (s.buf (i, j)).blockno (s.buf (i, j)).data) :=
      inv.congr rfl rfl
    exact wrote.setBuf_same rfl rfl rfl (inv.refcnt _ ⟨hi, hj⟩) (inv.referenced (i, j))
  · exact inv

theorem Inv.bufSync {s : Cache} (inv : Inv s) : Inv (bufSync s) :=
  bufSync_induct inv fun _ _ _ hi hj inv => inv.bufSyncBuffer hi hj

theorem initial_buf (disk : Nat → Block) {p : BufPtr} (hp : InRange p) :
    (Cache.initial disk).buf p =
      { blockno := 0, dev := -1, valid := false, dirty := false, refcnt := 0
        data := dataAddr p } := by
  simp [Cache.initial, initUpto, hp.1, hp.2]

theorem initial_unassigned (disk : Nat → Block) {p : BufPtr} (hp : InRange p) :
    ¬Assigned ((Cache.initial disk).buf p) := by
  simp [initial_buf disk hp, Assigned]

theorem Inv.initial (disk : Nat → Block) : Inv (Cache.initial disk) := by
  refine ⟨?_, ?_, ?_, ?_, ?_, ?_, ?_⟩
  · intro i hi
    exact ⟨List.range bgroupBufNum, List.Perm.refl _, between_groupLinks (by simp [hi])⟩
  · intro p hp
    rw [initial_buf disk hp]
  · intro p hp
    simp [initial_buf disk hp]
  · intro p hp
    simp [initial_buf disk hp]
  · intro p hp
    simp [initial_buf disk hp]
  · intro p hp hassigned
    exact absurd hassigned (initial_unassigned disk hp)
  · intro p q hp _ hassigned
    exact absurd hassigned (initial_unassigned disk hp)

/-! ## Runs -/

inductive Op where
  | read (dev blockno : Nat) (isRead : Bool)
  | write (p : BufPtr)
  | release (p : BufPtr)
  | sync

def step (s : Cache) : Op → Option Cache
  | .read dev blockno isRead => (bufRead s dev blockno isRead).map Prod.snd
  | .write p => some (bufWrite s p)
  | .release p => bufRelease s p
  | .sync => some (bufSync s)

/-- What the cache's clients promise: device numbers below 2^31, fewer than 65536
outstanding references to a buffer, and releases of referenced buffers only. -/
def Legal (s : Cache) : Op → Prop
  | .read dev blockno _ =>
    dev < 2 ^ 31 ∧ ∀ p, InRange p → Holds s dev blockno p → (s.buf p).refcnt + 1 < 65536
  | .write p => InRange p
  | .release p => InRange p ∧ 0 < (s.buf p).refcnt
  | .sync => True

theorem Inv.step {s s' : Cache} (inv : Inv s) {op : Op} (legal : Legal s op)
    (h : step s op = some s') : Inv s' := by
  cases op with
  | read dev blockno isRead =>
    obtain ⟨⟨p, t⟩, hread, rfl⟩ := Option.map_eq_some_iff.mp h
    exact inv.bufRead legal.1 hread
  | write p =>
    obtain rfl := Option.some.inj h
    exact inv.bufWrite legal
  | release p =>
    obtain ⟨links, hrelease, hinv⟩ := inv.bufRelease legal.1 legal.2
    obtain rfl := Option.some.inj (hrelease.symm.trans h)
    exact hinv
  | sync =>
    obtain rfl := Option.some.inj h
    exact inv.bufSync

theorem setBuf_identity {s : Cache} {p : BufPtr} {b : Buffer} (h : SameIdentity (s.buf p) b)
    (q : BufPtr) : SameIdentity (s.buf q) ((s.setBuf p b).buf q) := by
  by_cases hq : q = p
  · subst hq
    simpa using h
  · simp [SameIdentity, hq]

theorem fill_identity (s : Cache) (blockno : Nat) (isRead : Bool) (p q : BufPtr) :
    SameIdentity (s.buf q) ((fill s blockno isRead p).buf q) := by
  unfold fill
  split
  · exact ⟨rfl, rfl⟩
  · have same := @setBuf_identity s p { s.buf p with valid := true } ⟨rfl, rfl⟩ q
    split <;> exact same

theorem reassign_buf_of_ne (s : Cache) (dev blockno : Nat) {p q : BufPtr} (hq : q ≠ p) :
    (reassign s dev blockno p).buf q = s.buf q := by
  unfold reassign
  split <;> simp [hq, blockWrite]

theorem bufSyncBuffer_identity (s : Cache) (i j : Nat) (q : BufPtr) :
    SameIdentity (s.buf q) ((bufSyncBuffer i s j).buf q) := by
  rw [bufSyncBuffer_eq]
  split
  · exact @setBuf_identity s (i, j) { s.buf (i, j) with dirty := false } ⟨rfl, rfl⟩ q
  · exact ⟨rfl, rfl⟩

/-- No operation gives a referenced buffer to another block. -/
theorem Inv.step_identity {s s' : Cache} (inv : Inv s) {op : Op} (legal : Legal s op)
    (h : Buf.step s op = some s') {q : BufPtr} (hq : 0 < (s.buf q).refcnt) :
    SameIdentity (s.buf q) (s'.buf q) := by
  cases op with
  | read dev blockno isRead =>
    obtain ⟨⟨p, t⟩, hread, rfl⟩ := Option.map_eq_some_iff.mp h
    obtain ⟨-, -, ⟨-, rfl⟩ | ⟨-, hzero, -, rfl⟩⟩ := inv.bufRead_cases hread
    · have taken : SameIdentity (s.buf q) ((Buf.takeRef s p).buf q) := by
        refine setBuf_identity ?_ q
        exact ⟨rfl, rfl⟩
      have filled := fill_identity (Buf.takeRef s p) blockno isRead p q
      exact ⟨filled.1.trans taken.1, filled.2.trans taken.2⟩
    · have hne : q ≠ p := by
        rintro rfl
        omega
      have filled := fill_identity (Buf.reassign s dev blockno p) blockno isRead p q
      rwa [reassign_buf_of_ne s dev blockno hne] at filled
  | write p =>
    obtain rfl := Option.some.inj h
    refine setBuf_identity ?_ q
    exact ⟨rfl, rfl⟩
  | release p =>
    obtain ⟨links, hrelease, -⟩ := inv.bufRelease legal.1 legal.2
    obtain rfl := Option.some.inj (hrelease.symm.trans h)
    exact setBuf_identity (b := { s.buf p with refcnt := (s.buf p).refcnt - 1 }) ⟨rfl, rfl⟩ q
  | sync =>
    obtain rfl := Option.some.inj h
    refine bufSync_induct (P := fun t => SameIdentity (s.buf q) (t.buf q)) ⟨rfl, rfl⟩ ?_
    intro t i j _ _ ht
    have same := bufSyncBuffer_identity t i j q
    exact ⟨same.1.trans ht.1, same.2.trans ht.2⟩

/-- The only operation that can get stuck is a read whose group is exhausted. -/
theorem Inv.step_stuck {s : Cache} (inv : Inv s) {op : Op} (legal : Legal s op)
    (h : Buf.step s op = none) : ∃ dev blockno isRead, op = .read dev blockno isRead ∧
      ∀ k < bgroupBufNum, 0 < (s.buf (blockno &&& bgroupMask, k)).refcnt := by
  cases op with
  | read dev blockno isRead =>
    have hnone : Buf.bufRead s dev blockno isRead = none := Option.map_eq_none_iff.mp h
    refine ⟨dev, blockno, isRead, rfl, ?_⟩
    rcases inv.bufAlloc_cases dev blockno with
      ⟨p, -, -, -, heq⟩ | ⟨p, -, -, -, -, -, heq⟩ | ⟨-, full, -⟩
    · simp [bufRead_eq, heq] at hnone
    · simp [bufRead_eq, heq] at hnone
    · intro k hk
      exact Nat.pos_of_ne_zero (full k hk)
  | write p => simp [Buf.step] at h
  | release p =>
    obtain ⟨links, hrelease, -⟩ := inv.bufRelease legal.1 legal.2
    simp [Buf.step, hrelease] at h
  | sync => simp [Buf.step] at h

/-- Every state reached after `bufInit` by operations that respect `Legal`: the
group lists are permutations of the groups' own buffers, assigned buffers sit in
the group of their block and are distinct as blocks, referenced buffers keep their
block in the next operation, and `bufAlloc` returns, with a null pointer only when
the whole group is referenced. Only a read of such a group stops the run. -/
theorem cache_runs {disk : Nat → Block} {s₀ s : Cache} {ops : List Op}
    (init : bufInit (Cache.zero disk) = some s₀) (legal : Run.Meets Buf.step Legal s₀ ops)
    (run : Run.exec Buf.step s₀ ops = some s) : (∀ i < bgroupNum, ∃ xs, GroupList s i xs) ∧
    (∀ p, InRange p → Assigned (s.buf p) → (s.buf p).blockno &&& bgroupMask = p.1) ∧
    (∀ p q, InRange p → InRange q → Assigned (s.buf p) → Assigned (s.buf q) →
      (s.buf p).dev = (s.buf q).dev → (s.buf p).blockno = (s.buf q).blockno → p = q) ∧
    (∀ op s', Legal s op → Buf.step s op = some s' → ∀ p, 0 < (s.buf p).refcnt →
      (s'.buf p).dev = (s.buf p).dev ∧ (s'.buf p).blockno = (s.buf p).blockno) ∧
    (∀ dev blockno, ∃ buf s', bufAlloc s dev blockno = some (buf, s') ∧
      (buf = none → ∀ k < bgroupBufNum, 0 < (s.buf (blockno &&& bgroupMask, k)).refcnt)) ∧
    (∀ op, Legal s op → Buf.step s op = none → ∃ dev blockno isRead, op = .read dev blockno isRead ∧
        ∀ k < bgroupBufNum, 0 < (s.buf (blockno &&& bgroupMask, k)).refcnt) := by
  rw [bufInit_zero] at init
  obtain rfl := Option.some.inj init
  have inv : Inv s :=
    Run.invariant (Inv.initial disk) legal (fun _ _ _ inv legal h => inv.step legal h) run
  refine ⟨inv.lists, inv.placed, ?_, ?_, ?_, fun _ hlegal h => inv.step_stuck hlegal h⟩
  · intro p q hp hq hassigned _
    exact inv.unique p q hp hq hassigned
  · intro op s' hlegal h p hp
    exact inv.step_identity hlegal h hp
  · intro dev blockno
    rcases inv.bufAlloc_cases dev blockno with
      ⟨p, -, -, -, heq⟩ | ⟨p, -, -, -, -, -, heq⟩ | ⟨-, full, heq⟩
    · exact ⟨_, _, heq, fun h => by simp at h⟩
    · exact ⟨_, _, heq, fun h => by simp at h⟩
    · exact ⟨_, _, heq, fun _ k hk => Nat.pos_of_ne_zero (full k hk)⟩

/-- A client that reads a sector, marks it dirty and releases it. -/
def readWriteRelease : List Op := [.read 1 5 true, .write (5, 7), .release (5, 7)]

theorem cache_runs_readWriteRelease :
    ∃ s, Run.exec Buf.step (Cache.initial fun _ _ => 0) readWriteRelease = some s ∧
      ∃ xs, GroupList s 5 xs := by
  have runs : (Run.exec Buf.step (Cache.initial fun _ _ => 0) readWriteRelease).isSome := by
    decide
  obtain ⟨s, hs⟩ := Option.isSome_iff_exists.mp runs
  refine ⟨s, hs, (cache_runs (bufInit_zero _) ?_ hs).1 5 (by decide)⟩
  have inRange : InRange (5, 7) := by decide
  refine ⟨⟨by decide, ?_⟩, fun s₁ h₁ => ⟨inRange, fun s₂ h₂ => ⟨⟨inRange, ?_⟩, ?_⟩⟩⟩
  · intro p hp _
    simp [Cache.initial, initUpto]
  · have held : (Run.exec Buf.step (Cache.initial fun _ _ => 0)
        [.read 1 5 true, .write (5, 7)]).map (fun s => (s.buf (5, 7)).refcnt) = some 1 := by
      decide
    rw [Run.exec_cons, h₁, Option.bind_some, Run.exec_cons, h₂] at held
    have one : (s₂.buf (5, 7)).refcnt = 1 := Option.some.inj held
    omega
  · intro s₃ _
    trivial

end KernelTravel.Buf

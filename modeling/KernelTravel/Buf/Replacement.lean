import KernelTravel.Buf.Invariant

/-!
# Which buffer is reused

`bufRelease` moves a buffer that has lost its last reference to the tail of its group's list, and
`bufAlloc` looks for a buffer to reuse from the tail on. With the time of every buffer's last
release as a ghost, the buffers without references stand in the list in the order of their
releases. So a miss reuses the one that was released last.
-/

namespace KernelTravel.Buf

/-- A cache with the number of calls so far and the time of the last release of every buffer,
0 for one that was never released. -/
structure Timed where
  cache : Cache
  clock : Nat
  released : BufPtr → Nat

namespace Timed

variable {t t' : Timed} {op : Op} {p : BufPtr}

/-- No call has been made. -/
def start (s : Cache) : Timed := ⟨s, 0, fun _ => 0⟩

def step (t : Timed) (op : Op) : Option Timed :=
  (Buf.step t.cache op).map fun cache =>
    { cache, clock := t.clock + 1
      released := match op with
        | .release p => Function.update t.released p (t.clock + 1)
        | _ => t.released }

/-- A legal call of `bufRead` or `bufRelease`. -/
def Call (t : Timed) (op : Op) : Prop :=
  match op with
  | .read .. | .release _ => Legal t.cache op
  | .write _ | .sync => False

def Free (t : Timed) (p : BufPtr) : Prop := (t.cache.buf p).refcnt = 0

/-- No free buffer of the group was released earlier. -/
def Oldest (t : Timed) (p : BufPtr) : Prop :=
  ∀ k < bgroupBufNum, t.Free (p.1, k) → t.released p ≤ t.released (p.1, k)

/-- The free buffers of a group stand in its list in the order of their releases. -/
def Ordered (t : Timed) (i : Nat) (xs : List Nat) : Prop :=
  xs.Pairwise fun j k => t.Free (i, j) → t.Free (i, k) → t.released (i, j) ≤ t.released (i, k)

structure Inv (t : Timed) : Prop where
  cache : Buf.Inv t.cache
  past : ∀ p, t.released p ≤ t.clock
  ordered : ∀ i < bgroupNum, ∃ xs, GroupList t.cache i xs ∧ t.Ordered i xs

theorem Ordered.mono {i : Nat} {xs : List Nat} (order : t.Ordered i xs)
    (h : ∀ k ∈ xs, t'.Free (i, k) → t.Free (i, k) ∧ t'.released (i, k) = t.released (i, k)) :
    t'.Ordered i xs := by
  refine List.Pairwise.imp_of_mem (fun hj hk hjk freej freek => ?_) order
  rw [(h _ hj freej).2, (h _ hk freek).2]
  exact hjk (h _ hj freej).1 (h _ hk freek).1

theorem fill_refcnt {s : Cache} {blockno : Nat} {isRead : Bool} (q : BufPtr) :
    ((fill s blockno isRead p).buf q).refcnt = (s.buf q).refcnt ∧
      (fill s blockno isRead p).links = s.links := by
  unfold fill
  by_cases hq : q = p
  · subst hq
    split <;> cases isRead <;> simp [blockRead]
  · split <;> cases isRead <;> simp [hq, blockRead]

/-- A read leaves the lists as they are and frees no buffer. -/
theorem read_free {s s' : Cache} (inv : Buf.Inv s) {dev blockno : Nat} {isRead : Bool}
    (legal : Legal s (.read dev blockno isRead)) (h : bufRead s dev blockno isRead = some (p, s')) :
    s'.links = s.links ∧ ∀ q, (s'.buf q).refcnt = 0 → (s.buf q).refcnt = 0 := by
  obtain ⟨hp, -, ⟨holds, rfl⟩ | ⟨-, hzero, -, rfl⟩⟩ := inv.bufRead_cases h
  · refine ⟨(fill_refcnt p).2, fun q hq => ?_⟩
    rw [(fill_refcnt q).1] at hq
    have hbound := legal.2 p hp holds
    by_cases hqp : q = p
    · subst hqp
      simp only [takeRef, Cache.setBuf_buf, Function.update_self] at hq
      omega
    · simpa [takeRef, hqp] using hq
  · refine ⟨(fill_refcnt p).2.trans (by unfold reassign; split <;> rfl), fun q hq => ?_⟩
    rw [(fill_refcnt q).1] at hq
    by_cases hqp : q = p
    · rwa [hqp]
    · rwa [reassign_buf_of_ne s dev blockno hqp] at hq

/-- A release keeps the order: a buffer that loses its last reference goes behind all others of its
list, and no other one has a later time. -/
theorem Inv.release (inv : t.Inv) (hp : InRange p) (hpos : 0 < (t.cache.buf p).refcnt)
    (h : t.step (.release p) = some t') : t'.Inv := by
  obtain ⟨s', hrelease, rfl⟩ := Option.map_eq_some_iff.mp h
  obtain ⟨links, heq, inv'⟩ := inv.cache.bufRelease hp hpos
  have past : ∀ q, Function.update t.released p (t.clock + 1) q ≤ t.clock + 1 :=
    (Function.forall_update_iff t.released fun _ n => n ≤ t.clock + 1).mpr
      ⟨Nat.le_refl _, fun q _ => Nat.le_succ_of_le (inv.past q)⟩
  refine ⟨@Buf.Inv.step _ _ inv.cache (.release p) ⟨hp, hpos⟩ hrelease, past, fun i hi => ?_⟩
  obtain ⟨xs, list, order⟩ := inv.ordered i hi
  refine ⟨_, inv.cache.release_list hp hpos hrelease list, ?_⟩
  -- nothing changes for the other buffers, nor for one that is still referenced
  have kept : ∀ ys, ys.Sublist xs → (∀ k ∈ ys, (i, k) = p → (t.cache.buf p).refcnt ≠ 1) →
      Ordered ⟨s', t.clock + 1, Function.update t.released p (t.clock + 1)⟩ i ys := by
    cases heq.symm.trans hrelease
    intro ys hsub hys
    refine Ordered.mono (order.sublist hsub) fun k hk free => ?_
    have hne : (i, k) ≠ p := by
      intro hkp
      simp only [Free, hkp, Function.update_self] at free
      exact hys k hk hkp (by omega)
    simpa [Free, hne] using free
  by_cases hmoved : i = p.1 ∧ (t.cache.buf p).refcnt = 1
  · rw [if_pos hmoved]
    obtain ⟨rfl, -⟩ := hmoved
    have hnodup : xs.Nodup := list.1.nodup_iff.mpr List.nodup_range
    refine List.pairwise_append.mpr ⟨kept _ List.erase_sublist ?_, List.pairwise_singleton .., ?_⟩
    · intro k hk hkp
      exact absurd (congrArg Prod.snd hkp) (hnodup.mem_erase_iff.mp hk).1
    · intro j _ k hk _ _
      rw [List.mem_singleton.mp hk]
      exact (past _).trans (Function.update_self p (t.clock + 1) t.released).ge
  · rw [if_neg hmoved]
    exact kept xs (.refl xs) fun k _ hkp hone => hmoved ⟨congrArg Prod.fst hkp, hone⟩

theorem Inv.step (inv : t.Inv) (call : t.Call op) (h : t.step op = some t') : t'.Inv := by
  cases op with
  | read dev blockno isRead =>
    obtain ⟨s', hstep, rfl⟩ := Option.map_eq_some_iff.mp h
    refine ⟨@Buf.Inv.step _ _ inv.cache (.read ..) call hstep,
      fun p => Nat.le_succ_of_le (inv.past p), fun i hi => ?_⟩
    obtain ⟨⟨p, s''⟩, hread, rfl⟩ := Option.map_eq_some_iff.mp hstep
    obtain ⟨hlinks, hfree⟩ := read_free inv.cache call hread
    obtain ⟨xs, list, order⟩ := inv.ordered i hi
    exact ⟨xs, ⟨list.1, hlinks ▸ list.2⟩, order.mono fun k _ free => ⟨hfree _ free, rfl⟩⟩
  | release p => exact inv.release call.1 call.2 h
  | write p => exact call.elim
  | sync => exact call.elim

/-- The buffer closest to the tail was released last. -/
theorem Ordered.newest {i j : Nat} {xs : List Nat} (order : t.Ordered i xs)
    (h : xs.reverse.find? (fun j => decide ((t.cache.buf (i, j)).refcnt = 0)) = some j) :
    ∀ k ∈ xs, t.Free (i, k) → t.released (i, k) ≤ t.released (i, j) := by
  obtain ⟨hj, behind, before, hxs, hused⟩ := List.find?_eq_some_iff_append.mp h
  have freej : t.Free (i, j) := by simpa [Free] using hj
  obtain rfl : xs = before.reverse ++ j :: behind.reverse := by
    rw [← List.reverse_inj, hxs]
    simp
  intro k hk hfree
  rcases List.mem_append.mp hk with hk | hk
  · exact (List.pairwise_append.mp order).2.2 k hk j List.mem_cons_self hfree freej
  · rcases List.mem_cons.mp hk with rfl | hk
    · exact Nat.le_refl _
    · exact absurd (hused k (List.mem_reverse.mp hk)) (by simpa [Free] using hfree)

end Timed

/-- A read that reuses a buffer in a state that calls of `bufRead` and `bufRelease` have reached:
its choice is the least recently used one exactly where all free buffers of the group have the same
time, that is, where none of them has been released or only one is free. -/
theorem reuse_oldest_iff {disk : Nat → Block} {s₀ : Cache} {ops : List Op} {t : Timed}
    (init : bufInit (Cache.zero disk) = some s₀)
    (calls : Run.Meets Timed.step Timed.Call (.start s₀) ops)
    (run : Run.exec Timed.step (.start s₀) ops = some t) {dev blockno : Nat} {isRead : Bool}
    {p : BufPtr} {s' : Cache} (hread : bufRead t.cache dev blockno isRead = some (p, s'))
    (miss : ∀ k < bgroupBufNum, ¬Holds t.cache dev blockno (blockno &&& bgroupMask, k)) :
    t.Oldest p ↔ ∀ j < bgroupBufNum, ∀ k < bgroupBufNum, t.Free (blockno &&& bgroupMask, j) →
      t.Free (blockno &&& bgroupMask, k) →
        t.released (blockno &&& bgroupMask, j) = t.released (blockno &&& bgroupMask, k) := by
  rw [bufInit_zero] at init
  obtain rfl := Option.some.inj init
  have start : Timed.Inv (.start (Cache.initial disk)) := by
    refine ⟨.initial disk, fun _ => Nat.le_refl 0, fun i hi => ?_⟩
    obtain ⟨xs, list⟩ := (Inv.initial disk).lists i hi
    exact ⟨xs, list, List.pairwise_of_forall fun _ _ _ _ => Nat.le_refl 0⟩
  have inv := Run.invariant start calls (fun _ _ _ inv call h => inv.step call h) run
  obtain ⟨hp, hgroup, ⟨holds, -⟩ | ⟨-, hzero, hvictim, -⟩⟩ := inv.cache.bufRead_cases hread
  · exact absurd (hgroup ▸ holds) (miss p.2 hp.2)
  rw [← hgroup]
  obtain ⟨xs, list, order⟩ := inv.ordered p.1 hp.1
  rw [victim_eq list] at hvictim
  obtain ⟨j, hfind, hj⟩ := Option.map_eq_some_iff.mp hvictim
  have hlatest := order.newest hfind
  rw [hj] at hlatest
  constructor
  · intro oldest j hj k hk freej freek
    have := oldest j hj freej
    have := oldest k hk freek
    have := hlatest j (list.mem_iff.mpr hj) freej
    have := hlatest k (list.mem_iff.mpr hk) freek
    omega
  · intro same k hk freek
    exact (same p.2 hp.2 k hk hzero freek).le

/-- A client that reads sector 0 and releases the buffer. -/
def readRelease : List Op := [.read 1 0 true, .release (0, 7)]

/-- The sector missed next is in group 1. -/
theorem reuse_oldest_iff_otherGroup :
    ∃ t p, Run.exec Timed.step (.start (Cache.initial fun _ _ => 0)) readRelease = some t ∧
      (bufRead t.cache 1 1 true).map Prod.fst = some p ∧ t.Oldest p := by
  have hrun : (Run.exec Timed.step (.start (Cache.initial fun _ _ => 0)) readRelease).map
      (fun t => ((bufRead t.cache 1 1 true).isSome,
        decide (∀ k < bgroupBufNum, t.released (1, k) = 0 ∧ ¬Holds t.cache 1 1 (1, k)))) =
      some (true, true) := by decide
  obtain ⟨t, ht, heq⟩ := Option.map_eq_some_iff.mp hrun
  obtain ⟨hsome, hgroup⟩ := Prod.mk.inj heq
  obtain ⟨⟨p, s'⟩, hread⟩ := Option.isSome_iff_exists.mp hsome
  have hgroup := of_decide_eq_true hgroup
  have hcalls :
      Run.Meets Timed.step Timed.Call (.start (Cache.initial fun _ _ => 0)) readRelease := by
    refine ⟨⟨by decide, fun p _ _ => ?_⟩, fun t₁ h₁ => ⟨⟨by decide, ?_⟩, fun _ _ => trivial⟩⟩
    · change 0 + 1 < 65536
      decide
    · have held : (Timed.step (.start (Cache.initial fun _ _ => 0)) (.read 1 0 true)).map
          (fun t => (t.cache.buf (0, 7)).refcnt) = some 1 := by decide
      rw [h₁] at held
      exact (Option.some.inj held).ge
  refine ⟨t, p, ht, by rw [hread]; rfl, ?_⟩
  refine (reuse_oldest_iff (bufInit_zero _) hcalls ht hread fun k hk => (hgroup k hk).2).mpr ?_
  intro j hj k hk _ _
  exact (hgroup j hj).1.trans (hgroup k hk).1.symm

/-- The sector missed next is in group 0: the buffer is reused, although buffer 0 was never used. -/
theorem released_last_reused :
    ∃ t, Run.exec Timed.step (.start (Cache.initial fun _ _ => 0)) readRelease = some t ∧
      (bufRead t.cache 1 bgroupNum true).map Prod.fst = some (0, 7) ∧
      t.Free (0, 0) ∧ t.released (0, 0) = 0 ∧ t.released (0, 7) = 2 ∧ ¬t.Oldest (0, 7) := by
  have hrun : (Run.exec Timed.step (.start (Cache.initial fun _ _ => 0)) readRelease).map
      (fun t => ((bufRead t.cache 1 bgroupNum true).map Prod.fst, (t.cache.buf (0, 0)).refcnt,
        t.released (0, 0), t.released (0, 7))) = some (some (0, 7), 0, 0, 2) := by decide
  obtain ⟨t, ht, heq⟩ := Option.map_eq_some_iff.mp hrun
  simp only [Prod.mk.injEq] at heq
  obtain ⟨hreuse, hfree, hnever, hlast⟩ := heq
  refine ⟨t, ht, hreuse, hfree, hnever, hlast, fun oldest => ?_⟩
  have : t.released (0, 7) ≤ t.released (0, 0) := oldest 0 (by decide) hfree
  omega

end KernelTravel.Buf

import KernelTravel.Fs.QueueOrder

/-!
# What poll says about a pipe

`pipe_check_read` and `pipe_check_write` answer whether a call on the queue would go through.
They take the lock of the queue for it, which a thread that sleeps in `ioq_wait` holds: a poll
of a pipe with a sleeping reader sleeps too, although the pipe has room. The lock that `sys_close`
clears with the queue is never free again.

Under the lock they look at the two positions themselves: the reader's side tests whether they
differ, as `ioq_empty` does. The writer's side compares their difference with the size of the
buffer, which it can never reach because both positions lie in the buffer; `ioq_full` looks at the
position after `head` instead.
-/

namespace KernelTravel.Pipe

open Function

namespace WakeSys

/-- `lock_acquire` outside of the loops. `none` is a thread that sleeps, or that meets the wait
list of a cleared lock. -/
def lockTake (s : WakeSys) (t : Nat) : Option WakeSys :=
  if s.holder = some t then some { s with acquireNr := s.acquireNr + 1 }
  else if s.sema.value = 0 then none
  else some { s with
    sema := { s.sema with value := s.sema.value - 1 }, holder := some t, acquireNr := 1 }

/-- Both checks look at the queue between `lock_acquire` and `lock_release`. -/
def pipeCheck (answer : Ioqueue → Nat) (s : WakeSys) (t : Nat) : Option (Nat × WakeSys) :=
  (s.lockTake t).bind fun s => (s.lockRelease t).map fun s' => (answer s.ioq, s')

def pipeCheckRead : WakeSys → Nat → Option (Nat × WakeSys) :=
  pipeCheck fun q => if q.head ≠ q.tail then 1 else if q.flag = 0 then 1 else 0

/-- The positions are `int32_t` and so is their difference. -/
def pipeCheckWrite : WakeSys → Nat → Option (Nat × WakeSys) :=
  pipeCheck fun q => if (q.head : Int) - q.tail < bufsize then 1 else if q.flag = 0 then 1 else 0

end WakeSys

/-- A thread calls only when it is in no call. -/
def WakeEnabled (s : WakeSys) : WakeOp → Prop
  | .get t | .put t _ => s.phase t = .idle
  | _ => True

/-- The states of a pipe and its threads. -/
inductive Reached : WakeSys → Prop where
  | init (threads : Nat) (buf : Nat → Char8) : Reached (.init threads buf)
  | step {s s' : WakeSys} {op : WakeOp} :
      Reached s → WakeEnabled s op → wakeStep s op = some s' → Reached s'
  | poll {s s' : WakeSys} {t ret : Nat} {answer : Ioqueue → Nat} :
      Reached s → s.phase t = .idle → s.pipeCheck answer t = some (ret, s') → Reached s'

/-- The call returns 1. -/
def Ready (result : Option (Nat × WakeSys)) : Prop := result.map Prod.fst = some 1

/-- Both answers to thread `t` are those of the calls they stand for. -/
structure PollRight (s : WakeSys) (t : Nat) : Prop where
  read : Ready (s.pipeCheckRead t) ↔ (ioqGetchar s.ioq).isSome
  write : ∀ byte, Ready (s.pipeCheckWrite t) ↔
    s.ioq.flag = 0 ∨ ∃ q', pipeWrite s.ioq [byte] = some (1, q')

/-- Thread `t` can take the lock of the queue. -/
def LockFree (s : WakeSys) (t : Nat) : Prop := s.holder = some t ∨ s.sema.value ≠ 0

instance (s : WakeSys) (t : Nat) : Decidable (LockFree s t) := inferInstanceAs (Decidable (_ ∨ _))

section Queue

variable {q : Ioqueue} {xs : List Char8}

theorem ioqFull_iff (h : Holds q xs) : ioqFull q = true ↔ xs.length + 1 = bufsize := by
  rw [ioqFull, decide_eq_true_iff]
  exact Ring.Holds.succ_head_eq_tail_iff h

/-- An open queue takes one more character exactly if it is not full. -/
theorem pipeWrite_one_iff (h : Holds q xs) (hopen : q.flag ≠ 0) (byte : Char8) :
    (∃ q', pipeWrite q [byte] = some (1, q')) ↔ ioqFull q = false := by
  have hlen := h.length
  have hleft : bufsize - ioqLength q - 1 = bufsize - (xs.length + 1) := by
    rw [ioqLength_eq h, Nat.sub_sub]
  rw [← Bool.not_eq_true, ioqFull_iff h, pipeWrite, hleft]
  rcases Nat.eq_or_lt_of_le hlen with hfull | hroom
  · simp [pipeWriteLoop, show xs.length + 1 = bufsize from hfull]
  · have hsome : [byte].take (if [byte].length < bufsize - (xs.length + 1) then [byte].length
        else bufsize - (xs.length + 1)) = [byte] := by
      rw [List.take_of_length_le]
      rw [List.length_singleton]
      split
      · exact Nat.le_refl 1
      · omega
    obtain ⟨q', hput, -⟩ := ioqPutchar_of_room h hroom byte
    refine iff_of_true ⟨q', ?_⟩ (by omega)
    rw [hsome, pipeWriteLoop, if_neg hopen, hput]
    rfl

end Queue

/-! ## Threads that sleep -/

/-- The thread sleeps in neither of the two places. -/
def Phase.Awake (p : Phase) : Prop := ∀ side, p ≠ .lockWait side ∧ p ≠ .ioqWait side

/-- The threads of a wait list and the waiters of a queue sleep there. -/
structure Asleep (list : List Nat) (waiter : Side → Option Nat) (phase : Nat → Phase) : Prop where
  nodup : list.Nodup
  queued : ∀ u ∈ list, ∃ side, phase u = .lockWait side
  waits : ∀ side u, waiter side = some u → phase u = .ioqWait side

namespace Asleep

variable {list list' : List Nat} {waiter waiter' : Side → Option Nat} {phase : Nat → Phase}
  {t : Nat} {side : Side}

theorem nobody (phase : Nat → Phase) : Asleep [] (fun _ => none) phase where
  nodup := List.nodup_nil
  queued u hu := absurd hu List.not_mem_nil
  waits side u hu := by cases hu

theorem not_mem (h : Asleep list waiter phase) (hawake : (phase t).Awake) : t ∉ list := by
  intro hmem
  obtain ⟨side, hside⟩ := h.queued t hmem
  exact (hawake side).1 hside

theorem waiter_ne (h : Asleep list waiter phase) (hawake : (phase t).Awake) (side : Side) :
    waiter side ≠ some t :=
  fun hwaiter => (hawake side).2 (h.waits side t hwaiter)

/-- A thread that is taken from where it sleeps may go anywhere. -/
theorem leave (h : Asleep list waiter phase) (hlist : list'.Sublist list)
    (hwaiter : ∀ side u, waiter' side = some u → waiter side = some u) (hmem : t ∉ list')
    (hne : ∀ side, waiter' side ≠ some t) (p : Phase) :
    Asleep list' waiter' (update phase t p) where
  nodup := h.nodup.sublist hlist
  queued u hu := by
    rw [update_of_ne (ne_of_mem_of_not_mem hu hmem)]
    exact h.queued u (hlist.subset hu)
  waits side u hu := by
    have hut : u ≠ t := fun heq => hne side (heq ▸ hu)
    rw [update_of_ne hut]
    exact h.waits side u (hwaiter side u hu)

theorem move (h : Asleep list waiter phase) (hawake : (phase t).Awake) (p : Phase) :
    Asleep list waiter (update phase t p) :=
  h.leave (.refl _) (fun _ _ hu => hu) (h.not_mem hawake) (h.waiter_ne hawake) p

theorem queue (h : Asleep list waiter phase) (hawake : (phase t).Awake) (side : Side) :
    Asleep (list ++ [t]) waiter (update phase t (.lockWait side)) where
  nodup := List.nodup_append.mpr ⟨h.nodup, List.pairwise_singleton _ _, fun u hu v hv heq =>
    h.not_mem hawake (List.mem_singleton.mp hv ▸ heq ▸ hu)⟩
  queued u hu := by
    rcases List.mem_append.mp hu with hu | hu
    · exact (h.move hawake _).queued u hu
    · rw [List.mem_singleton.mp hu, update_self]
      exact ⟨side, rfl⟩
  waits := (h.move hawake _).waits

theorem enter (h : Asleep list waiter phase) (hawake : (phase t).Awake) (side : Side) :
    Asleep list (update waiter side (some t)) (update phase t (.ioqWait side)) where
  nodup := h.nodup
  queued := (h.move hawake _).queued
  waits side' u hu := by
    rw [update_apply] at hu
    split at hu
    next heq => rw [← Option.some.inj hu, update_self, heq]
    next => exact (h.move hawake _).waits side' u hu

/-- `sema_up` makes the first thread of the list ready. -/
theorem pop (h : Asleep (t :: list) waiter phase) (p : Phase) :
    Asleep list waiter (update phase t p) := by
  obtain ⟨side, hside⟩ := h.queued t List.mem_cons_self
  refine h.leave (List.sublist_cons_self t list) (fun _ _ hu => hu)
    (List.nodup_cons.mp h.nodup).1 ?_ p
  intro side' hwaiter
  cases hside.symm.trans (h.waits side' t hwaiter)

/-- `wakeup` makes a waiter ready. -/
theorem wake (h : Asleep list waiter phase) (hwaiter : waiter side = some t) (p : Phase) :
    Asleep list (update waiter side none) (update phase t p) := by
  have hphase := h.waits side t hwaiter
  refine h.leave (.refl _) ?_ ?_ ?_ p
  · intro side' u hu
    rw [update_apply] at hu
    split at hu
    · cases hu
    · exact hu
  · intro hmem
    obtain ⟨side', hside'⟩ := h.queued t hmem
    cases hphase.symm.trans hside'
  · intro side' hu
    rw [update_apply] at hu
    split at hu
    next => cases hu
    next hne =>
      cases hphase.symm.trans (h.waits side' t hu)
      exact hne rfl

end Asleep

section Steps

variable {s s' : WakeSys} {t : Nat} {side : Side}

theorem Phase.awake_idle : Phase.Awake .idle := fun _ => ⟨nofun, nofun⟩

theorem Phase.awake_lockReady : Phase.Awake (.lockReady side) := fun _ => ⟨nofun, nofun⟩

theorem Phase.awake_ioqReady : Phase.Awake (.ioqReady side) := fun _ => ⟨nofun, nofun⟩

theorem WakeSys.phase_goto (s : WakeSys) (t : Nat) (p : Phase) : (s.goto t p).phase t = p :=
  update_self ..

/-- The three fields that `Asleep` is about. -/
def WakeSys.Sound (s : WakeSys) : Prop := Asleep s.sema.waitList s.waiter s.phase

theorem ioqWait_sound (h : s.Sound) (hawake : (s.phase t).Awake)
    (hstep : s.ioqWait t side = some s') : s'.Sound := by
  rw [WakeSys.ioqWait] at hstep
  split at hstep
  · cases hstep
    exact h.enter hawake side
  · cases hstep

theorem semaDown_sound (h : s.Sound) (hawake : (s.phase t).Awake)
    (hstep : s.semaDown t side = some s') : s'.Sound := by
  obtain ⟨⟨sema, got⟩, hround, hstep⟩ := Option.bind_eq_some_iff.mp hstep
  rw [Sync.semaRound] at hround
  split at hround
  · split at hround
    · cases hround
    · cases hround
      cases hstep
      exact h.queue hawake side
  · cases hround
    refine ioqWait_sound ?_ ?_ hstep
    · exact h
    · exact hawake

theorem lockAcquire_sound (h : s.Sound) (hawake : (s.phase t).Awake)
    (hstep : s.lockAcquire t side = some s') : s'.Sound := by
  rw [WakeSys.lockAcquire] at hstep
  split at hstep
  · refine ioqWait_sound ?_ ?_ hstep
    · exact h
    · exact hawake
  · exact semaDown_sound h hawake hstep

/-- The holder can give the lock back. This can wake a thread, but none that is awake. -/
theorem lockRelease_spec (h : s.Sound) (hnr : s.acquireNr ≠ 0) (hholder : s.holder = some t) :
    ∃ s', s.lockRelease t = some s' ∧ s'.Sound ∧ s'.ioq = s.ioq ∧
      ∀ u, (s.phase u).Awake → s'.phase u = s.phase u := by
  rw [WakeSys.lockRelease, if_neg (by simp [hnr, hholder])]
  by_cases hlast : s.acquireNr = 1
  · rw [if_pos hlast]
    unfold WakeSys.Sound at h
    cases hlist : s.sema.waitList with
    | nil =>
      simp only [Sync.semaUp, hlist]
      rw [hlist] at h
      exact ⟨_, rfl, h, rfl, fun _ _ => rfl⟩
    | cons u rest =>
      rw [hlist] at h
      obtain ⟨side, hside⟩ := h.queued u List.mem_cons_self
      simp only [Sync.semaUp, hlist, WakeSys.threadUnblock, hside]
      refine ⟨_, rfl, h.pop _, rfl, fun v hv => update_of_ne ?_ _ _⟩
      rintro rfl
      exact (hv side).1 hside
  · rw [if_neg hlast]
    exact ⟨_, rfl, h, rfl, fun _ _ => rfl⟩

theorem wakeup_sound (h : s.Sound) (hstep : s.wakeup side = some s') : s'.Sound := by
  rw [WakeSys.wakeup] at hstep
  split at hstep
  · cases hstep
    exact h
  next u hwaiter =>
    obtain ⟨s₁, hunblock, rfl⟩ := Option.map_eq_some_iff.mp hstep
    have hphase := h.waits side u hwaiter
    rw [WakeSys.threadUnblock, hphase] at hunblock
    cases hunblock
    exact h.wake hwaiter _

theorem serve_sound {q : Ioqueue} (h : s.Sound) (hawake : (s.phase t).Awake)
    (hstep : s.serve t side q = some s') : s'.Sound := by
  refine wakeup_sound ?_ hstep
  exact h.move hawake _

theorem loop_sound (h : s.Sound) (hawake : (s.phase t).Awake)
    (hstep : s.loop t side = some s') : s'.Sound := by
  cases side with
  | consumer =>
    rw [WakeSys.loop, WakeSys.getchar] at hstep
    split at hstep
    · exact lockAcquire_sound h hawake hstep
    · split at hstep
      · cases hstep
        exact h.move hawake _
      · exact serve_sound h hawake hstep
  | producer =>
    rw [WakeSys.loop, WakeSys.putchar] at hstep
    split at hstep
    · exact lockAcquire_sound h hawake hstep
    · exact serve_sound h hawake hstep

theorem resume_sound (h : s.Sound) (hstep : wakeStep s (.resume t) = some s') : s'.Sound := by
  rw [wakeStep] at hstep
  split at hstep
  next side hphase =>
    have hawake : (s.phase t).Awake := hphase ▸ Phase.awake_lockReady
    refine semaDown_sound ?_ ?_ hstep
    · exact h.move hawake .idle
    · rw [WakeSys.phase_goto]
      exact Phase.awake_idle
  next side hphase =>
    have hawake : (s.phase t).Awake := hphase ▸ Phase.awake_ioqReady
    obtain ⟨s₁, hrelease, hloop⟩ := Option.bind_eq_some_iff.mp hstep
    have hidle : (s.goto t .idle).Sound := h.move hawake .idle
    have hheld : s.acquireNr ≠ 0 ∧ s.holder = some t := by
      rw [WakeSys.lockRelease] at hrelease
      split at hrelease
      · cases hrelease
      next hheld => exact ⟨fun h => hheld (.inl h), not_not.mp fun h => hheld (.inr h)⟩
    obtain ⟨s₂, hs₂, hsound, -, hphases⟩ := lockRelease_spec hidle hheld.1 hheld.2
    cases hs₂.symm.trans hrelease
    refine loop_sound hsound ?_ hloop
    rw [hphases t (by rw [WakeSys.phase_goto]; exact Phase.awake_idle), WakeSys.phase_goto]
    exact Phase.awake_idle
  next => cases hstep

/-- A check answers exactly if the lock is free, and leaves the queue as it was. -/
theorem pipeCheck_spec (h : s.Sound) (answer : Ioqueue → Nat) (hfree : LockFree s t) :
    ∃ s', s.pipeCheck answer t = some (answer s.ioq, s') ∧ s'.Sound ∧ s'.ioq = s.ioq := by
  obtain ⟨s₁, htake, hsound, hioq, hnr, hholder⟩ : ∃ s₁, s.lockTake t = some s₁ ∧ s₁.Sound ∧
      s₁.ioq = s.ioq ∧ s₁.acquireNr ≠ 0 ∧ s₁.holder = some t := by
    rw [WakeSys.lockTake]
    by_cases hown : s.holder = some t
    · rw [if_pos hown]
      exact ⟨_, rfl, h, rfl, Nat.succ_ne_zero _, hown⟩
    · rw [if_neg hown, if_neg (hfree.resolve_left hown)]
      exact ⟨_, rfl, h, rfl, Nat.one_ne_zero, rfl⟩
  obtain ⟨s', hrelease, hsound', hioq', -⟩ := lockRelease_spec hsound hnr hholder
  refine ⟨s', ?_, hsound', hioq'.trans hioq⟩
  rw [WakeSys.pipeCheck, htake, Option.bind_some, hrelease, hioq]
  rfl

theorem pipeCheck_eq_none (answer : Ioqueue → Nat) (hfree : ¬LockFree s t) :
    s.pipeCheck answer t = none := by
  rw [LockFree, not_or, not_not] at hfree
  rw [WakeSys.pipeCheck, WakeSys.lockTake, if_neg hfree.1, if_pos hfree.2]
  rfl

theorem Effect.holds {byte : Char8} (effect : Effect s byte s') (h : ∃ xs, Holds s.ioq xs) :
    ∃ xs, Holds s'.ioq xs := by
  obtain ⟨xs, h⟩ := h
  cases effect with
  | quiet ioq _ => exact ⟨xs, ioq ▸ h⟩
  | took get nonempty _ =>
    obtain ⟨rest, -, hrest⟩ := holds_of_get h nonempty get
    exact ⟨rest, hrest⟩
  | put put _ => exact ⟨_, holds_of_put h put⟩

end Steps

/-- What every step keeps. -/
theorem Reached.inv {s : WakeSys} (reached : Reached s) : (∃ xs, Holds s.ioq xs) ∧ s.Sound := by
  induction reached with
  | init threads buf =>
    exact ⟨⟨[], holds_init buf⟩, .nobody _⟩
  | @step s s' op _ enabled hstep ih =>
    obtain ⟨hholds, hsound⟩ := ih
    cases op with
    | get t =>
      have hawake : (s.phase t).Awake := (show s.phase t = .idle from enabled) ▸ Phase.awake_idle
      have hloop : s.loop t .consumer = some s' := hstep
      exact ⟨(getchar_effect hstep 0).holds hholds, loop_sound hsound hawake hloop⟩
    | put t byte =>
      have hawake : (s.phase t).Awake := (show s.phase t = .idle from enabled) ▸ Phase.awake_idle
      rw [wakeStep] at hstep
      split at hstep
      · cases hstep
        exact ⟨hholds, hsound⟩
      · have hloop : { s with arg := update s.arg t byte }.loop t .producer = some s' := hstep
        refine ⟨(putchar_effect hstep).2.holds hholds, loop_sound ?_ ?_ hloop⟩
        · exact hsound
        · exact hawake
    | resume t =>
      have heffect := queueStep_effect (show queueStep s (.resume t) = some s' from hstep)
      exact ⟨heffect.holds hholds, resume_sound hsound hstep⟩
    | add writer counted =>
      cases hstep
      exact ⟨hholds, hsound⟩
    | close writer pid =>
      rw [wakeStep] at hstep
      split at hstep
      · cases hstep
        rw [WakeSys.sysClose]
        split
        · exact ⟨hholds, hsound⟩
        · split
          · exact ⟨⟨[], holds_clear⟩, .nobody _⟩
          · exact ⟨hholds, hsound⟩
      · cases hstep
    | drop writer =>
      cases hstep
      exact ⟨hholds, hsound⟩
  | @poll s s' t ret answer _ _ hpoll ih =>
    by_cases hfree : LockFree s t
    · obtain ⟨s₁, hs₁, hsound, hioq⟩ := pipeCheck_spec ih.2 answer hfree
      cases hs₁.symm.trans hpoll
      exact ⟨hioq ▸ ih.1, hsound⟩
    · rw [pipeCheck_eq_none answer hfree] at hpoll
      cases hpoll

section Answers

variable {s : WakeSys} {xs : List Char8} {t : Nat}

theorem ready_read_iff (hsound : s.Sound) (hfree : LockFree s t) :
    Ready (s.pipeCheckRead t) ↔ (ioqGetchar s.ioq).isSome := by
  obtain ⟨s', hs', -⟩ := pipeCheck_spec hsound
    (fun q => if q.head ≠ q.tail then 1 else if q.flag = 0 then 1 else 0) hfree
  rw [Ready, WakeSys.pipeCheckRead, hs', ioqGetchar, ioqEmpty]
  by_cases hempty : s.ioq.head = s.ioq.tail
  · by_cases hflag : s.ioq.flag = 0
    · simp [hempty, hflag]
    · simp [hempty, hflag]
  · simp [hempty]

/-- The first test of the check always succeeds: neither position reaches the size of the buffer. -/
theorem ready_write (h : Holds s.ioq xs) (hsound : s.Sound) (hfree : LockFree s t) :
    Ready (s.pipeCheckWrite t) := by
  obtain ⟨s', hs', -⟩ := pipeCheck_spec hsound
    (fun q => if (q.head : Int) - q.tail < bufsize then 1 else if q.flag = 0 then 1 else 0) hfree
  have hhead : s.ioq.head < bufsize := by
    rw [h.head_eq]
    exact Nat.mod_lt _ (by decide)
  rw [Ready, WakeSys.pipeCheckWrite, hs']
  exact congrArg some (if_pos (by omega))

/-- Without an answer the queue would have to be both empty and full. -/
theorem not_pollRight_of_locked (h : Holds s.ioq xs) (hfree : ¬LockFree s t) : ¬PollRight s t := by
  intro right
  have hread := right.read
  have hwrite := right.write 0
  rw [WakeSys.pipeCheckRead, pipeCheck_eq_none _ hfree] at hread
  rw [WakeSys.pipeCheckWrite, pipeCheck_eq_none _ hfree] at hwrite
  have hnot : ¬Ready none := fun h => by cases h
  rw [iff_false_left hnot, not_or] at hwrite
  rw [iff_false_left hnot] at hread
  have hfull : ioqFull s.ioq = true := by
    rw [← Bool.not_eq_false, ← pipeWrite_one_iff h hwrite.1 0]
    exact hwrite.2
  have hlen := (ioqFull_iff h).mp hfull
  cases xs with
  | nil => cases hlen
  | cons x xs =>
    obtain ⟨q', hget, -⟩ := ioqGetchar_cons h
    rw [hget] at hread
    exact hread rfl

end Answers

/-- The answers are right exactly if the lock of the queue is free and the pipe is closed or not
full. -/
theorem pollRight_iff {s : WakeSys} (reached : Reached s) (t : Nat) :
    PollRight s t ↔ LockFree s t ∧ (s.ioq.flag = 0 ∨ ioqFull s.ioq = false) := by
  obtain ⟨⟨xs, h⟩, hsound⟩ := reached.inv
  by_cases hfree : LockFree s t
  · have hwrite := ready_write h hsound hfree
    constructor
    · intro right
      refine ⟨hfree, ?_⟩
      rcases (right.write 0).mp hwrite with hclosed | haccepts
      · exact .inl hclosed
      · by_cases hflag : s.ioq.flag = 0
        · exact .inl hflag
        · exact .inr ((pipeWrite_one_iff h hflag 0).mp haccepts)
    · rintro ⟨-, hroom⟩
      refine ⟨ready_read_iff hsound hfree, fun byte => ⟨fun _ => ?_, fun _ => hwrite⟩⟩
      by_cases hflag : s.ioq.flag = 0
      · exact .inl hflag
      · exact .inr ((pipeWrite_one_iff h hflag byte).mpr (hroom.resolve_left hflag))
  · exact iff_of_false (not_pollRight_of_locked h hfree) fun hright => hfree hright.1

/-! ## Examples -/

/-- An open queue with `n` zero characters at the start of its buffer, put by thread 0. -/
def filled (n : Nat) : WakeSys :=
  { WakeSys.init 3 fun _ => 0 with
    ioq := ⟨1, fun _ => 0, n, 0⟩
    done := fun side => if side = .producer then n else 0 }

theorem reached_filled {n : Nat} (hn : n < bufsize) : Reached (filled n) := by
  induction n with
  | zero =>
    have hinit : filled 0 = WakeSys.init 3 fun _ => 0 := by
      simp [filled, WakeSys.init, ioqueueInit]
    exact hinit ▸ .init 3 fun _ => 0
  | succ n ih =>
    have hnext : nextPos n = n + 1 := Nat.mod_eq_of_lt hn
    have hroom : ioqFull (filled n).ioq = false := by
      refine decide_eq_false ?_
      change nextPos n ≠ 0
      omega
    have hput : ioqPutchar (filled n).ioq 0 = some (filled (n + 1)).ioq := by
      rw [ioqPutchar, hroom, if_neg Bool.false_ne_true]
      simp only [filled, hnext, update_eq_self]
    refine @Reached.step _ _ (.put 0 0) (ih (by omega)) rfl ?_
    have harg : { filled n with arg := update (filled n).arg 0 0 } = filled n := by
      simp only [filled, WakeSys.init, update_eq_self]
    rw [wakeStep, if_neg (show ¬(filled n).ioq.flag = 0 from Nat.one_ne_zero), harg,
      WakeSys.putchar, show (filled n).arg 0 = 0 from rfl, hput]
    simp only [WakeSys.serve, WakeSys.wakeup, filled, WakeSys.init, WakeSys.goto, update_eq_self]
    congr 2
    funext side
    cases side with
    | consumer => rfl
    | producer => rfl

/-- Two characters were put and one was taken: thread 2 gets the right answers. -/
theorem pollRight_oneLeft : ∃ s, Reached s ∧ s.ioq.head = 2 ∧ s.ioq.tail = 1 ∧ PollRight s 2 := by
  have h₁ := @Reached.step _ _ (.put 0 65) (.init 3 fun _ => 0) rfl rfl
  have h₂ := @Reached.step _ _ (.put 0 66) h₁ rfl rfl
  have h₃ := @Reached.step _ _ (.get 1) h₂ rfl rfl
  exact ⟨_, h₃, rfl, rfl, (pollRight_iff h₃ 2).mpr ⟨.inr (by decide), .inr (by decide)⟩⟩

/-- A full open pipe is reported as writable. While a reader sleeps in an empty one, the check
does not answer, although a write of one byte would be accepted. -/
theorem poll_wrong : (Reached (filled 2047) ∧ ¬PollRight (filled 2047) 1) ∧
    ∃ s, Reached s ∧ s.pipeCheckWrite 1 = none ∧ ioqFull s.ioq = false ∧ ¬PollRight s 1 := by
  have hfull : Reached (filled 2047) := reached_filled (by decide)
  have hasleep := @Reached.step _ _ (.get 0) (.init 3 fun _ => 0) rfl rfl
  refine ⟨⟨hfull, fun right => ?_⟩, _, hasleep, rfl, by decide, fun right => ?_⟩
  · exact absurd ((pollRight_iff hfull 1).mp right).2 (by decide)
  · exact absurd ((pollRight_iff hasleep 1).mp right).1 (by decide)

end KernelTravel.Pipe

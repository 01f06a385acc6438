import KernelTravel.Lib.Run
import KernelTravel.Thread.Sync
import Mathlib.Data.List.Nodup

/-!
# The reentrant lock

The semaphore lets one thread in. That thread is the owner from its `sema_down` to its
`sema_up`, and only the owner writes `holder` and `acquire_nr`. Another thread that reads
`holder` may see any value but itself, which is all that the test in `lock_acquire` needs.
-/

namespace KernelTravel.Sync

open Function

/-- The places in which a thread does not own the semaphore. -/
def Pc.apart (pc : Pc) : Bool :=
  pc = .idle ∨ pc = .acquire ∨ pc = .down ∨ pc = .queued ∨ pc = .woken

/-- What the owner finds in the lock, by its place. -/
def OwnsAt (pc : Pc) (holder : Option Nat) (acquireNr depth t : Nat) : Prop :=
  match pc with
  | .idle => 0 < depth ∧ holder = some t ∧ acquireNr = depth
  | .acquire | .nest => 0 < depth ∧ holder = some t ∧ acquireNr = depth ∧ depth + 1 < 2 ^ 32
  | .gotSema | .relUp => depth = 0 ∧ holder = none
  | .gotHolder | .relZero | .relNull => depth = 0 ∧ holder = some t
  | .release | .relHolder | .relTest => holder = some t ∧ acquireNr = depth + 1
  | .relDec => 0 < depth ∧ holder = some t ∧ acquireNr = depth + 1
  | .down | .queued | .woken => False

/-- The owner, if any, has the one unit; all others are outside. -/
structure LockInv (s : LockSys) (owner : Option Nat) : Prop where
  value : s.sema.value = if owner = none then 1 else 0
  holder : ∀ t, s.holder = some t → owner = some t
  others : ∀ t, owner ≠ some t → (s.pc t).apart = true ∧ s.depth t = 0
  owns : ∀ t, owner = some t → OwnsAt (s.pc t) s.holder s.acquireNr (s.depth t) t
  depth : ∀ t, s.depth t < 2 ^ 32
  queued : ∀ t, s.pc t = .queued ↔ t ∈ s.sema.waitList
  nodup : s.sema.waitList.Nodup

theorem init_lockInv : LockInv LockSys.init none where
  value := rfl
  holder _ h := by cases h
  others _ _ := ⟨rfl, rfl⟩
  owns _ h := by cases h
  depth _ := show 0 < 2 ^ 32 by decide
  queued _ := iff_of_false Pc.noConfusion List.not_mem_nil
  nodup := List.nodup_nil

theorem OwnsAt.holder_cases {pc : Pc} {holder : Option Nat} {nr depth t : Nat}
    (h : OwnsAt pc holder nr depth t) : holder = some t ∨ holder = none := by
  cases pc with
  | gotSema => exact .inr h.2
  | relUp => exact .inr h.2
  | idle => exact .inl h.2.1
  | acquire => exact .inl h.2.1
  | nest => exact .inl h.2.1
  | relDec => exact .inl h.2.1
  | gotHolder => exact .inl h.2
  | relZero => exact .inl h.2
  | relNull => exact .inl h.2
  | release => exact .inl h.1
  | relHolder => exact .inl h.1
  | relTest => exact .inl h.1
  | down => exact h.elim
  | queued => exact h.elim
  | woken => exact h.elim

theorem OwnsAt.ne_queued {pc : Pc} {holder : Option Nat} {nr depth t : Nat}
    (h : OwnsAt pc holder nr depth t) : pc ≠ .queued := by
  rintro rfl
  exact h

section Goto

variable {s : LockSys} {t u : Nat} {pc : Pc}

theorem LockSys.pc_goto_self : (s.goto t pc).pc t = pc := update_self ..

theorem LockSys.pc_goto_of_ne (h : u ≠ t) : (s.goto t pc).pc u = s.pc u :=
  update_of_ne h ..

/-- The wait list is unchanged while nobody goes to sleep or wakes up. -/
theorem LockSys.queued_goto (hold : s.pc t ≠ .queued) (hnew : pc ≠ .queued)
    (hqueued : ∀ u, s.pc u = .queued ↔ u ∈ s.sema.waitList) (u : Nat) :
    (s.goto t pc).pc u = .queued ↔ u ∈ s.sema.waitList := by
  by_cases hu : u = t
  · subst hu
    rw [LockSys.pc_goto_self, ← hqueued u]
    exact iff_of_false hnew hold
  · rw [LockSys.pc_goto_of_ne hu]
    exact hqueued u

end Goto

section Steps

variable {s s' : LockSys} {owner : Option Nat} {t : Nat} {pc : Pc}

/-- A thread outside moves between places outside. -/
theorem LockInv.outside (inv : LockInv s owner) (ht : owner ≠ some t) (hold : s.pc t ≠ .queued)
    (hnew : pc ≠ .queued) (hpc : pc.apart = true) : LockInv (s.goto t pc) owner where
  value := inv.value
  holder := inv.holder
  others u hu := by
    by_cases hut : u = t
    · subst hut
      rw [LockSys.pc_goto_self]
      exact ⟨hpc, (inv.others u hu).2⟩
    · rw [LockSys.pc_goto_of_ne hut]
      exact inv.others u hu
  owns u hu := by
    have hne : u ≠ t := fun h => ht (h ▸ hu)
    rw [LockSys.pc_goto_of_ne hne]
    exact inv.owns u hu
  depth := inv.depth
  queued := LockSys.queued_goto hold hnew inv.queued
  nodup := inv.nodup

/-- The owner moves and writes the fields of the lock. Nobody else reads them as its own. -/
theorem LockInv.own (inv : LockInv s (some t)) (hsema : s'.sema = s.sema)
    (hpc : s'.pc = (s.goto t pc).pc) (hdepths : ∀ u, u ≠ t → s'.depth u = s.depth u)
    (hdepth : s'.depth t < 2 ^ 32) (howns : OwnsAt pc s'.holder s'.acquireNr (s'.depth t) t) :
    LockInv s' (some t) where
  value := by
    rw [hsema]
    exact inv.value
  holder u hu := by
    rcases howns.holder_cases with h | h
    · exact h.symm.trans hu
    · cases h.symm.trans hu
  others u hu := by
    have hne : u ≠ t := fun h => hu (h ▸ rfl)
    rw [hpc, LockSys.pc_goto_of_ne hne, hdepths u hne]
    exact inv.others u hu
  owns u hu := by
    cases hu
    rw [hpc, LockSys.pc_goto_self]
    exact howns
  depth u := by
    by_cases hut : u = t
    · rw [hut]
      exact hdepth
    · rw [hdepths u hut]
      exact inv.depth u
  queued := by
    rw [hpc, hsema]
    exact LockSys.queued_goto (inv.owns t rfl).ne_queued howns.ne_queued inv.queued
  nodup := by
    rw [hsema]
    exact inv.nodup

/-- The owner moves without changing its depth. -/
theorem LockInv.ownMove (inv : LockInv s (some t)) (hsema : s'.sema = s.sema)
    (hpc : s'.pc = (s.goto t pc).pc) (hdepth : s'.depth = s.depth)
    (howns : OwnsAt pc s'.holder s'.acquireNr (s.depth t) t) : LockInv s' (some t) := by
  refine inv.own hsema hpc (fun u _ => congrFun hdepth u) ?_ ?_
  · rw [hdepth]
    exact inv.depth t
  · rw [hdepth]
    exact howns

/-- The owner comes back from `lock_acquire`. -/
theorem LockInv.ownAcquired (inv : LockInv s (some t)) {nr : Nat} (hholder : s.holder = some t)
    (hnr : nr = s.depth t + 1) (hdepth : s.depth t + 1 < 2 ^ 32) :
    LockInv ({ s with acquireNr := nr }.acquired t) (some t) := by
  have hself : update s.depth t (s.depth t + 1) t = s.depth t + 1 := update_self ..
  refine inv.own rfl rfl (fun u hu => update_of_ne hu ..) ?_ ?_
  · change update s.depth t (s.depth t + 1) t < 2 ^ 32
    rw [hself]
    exact hdepth
  · change OwnsAt .idle s.holder nr (update s.depth t (s.depth t + 1) t) t
    rw [hself]
    exact ⟨Nat.succ_pos _, hholder, hnr⟩

/-- A round of `sema_down` by a thread outside: it becomes the owner, or it is queued. -/
theorem round_lockInv (inv : LockInv s owner) (ht : owner ≠ some t) (hpc : s.pc t ≠ .queued) :
    ∃ sema got, semaRound s.sema t = some (sema, got) ∧ ∃ owner', LockInv
      ({ s with sema := sema }.goto t (if got then .gotSema else .queued)) owner' := by
  have hwait : t ∉ s.sema.waitList := fun h => hpc ((inv.queued t).mpr h)
  cases owner with
  | some o =>
    have hzero : s.sema.value = 0 := inv.value
    refine ⟨{ s.sema with waitList := s.sema.waitList ++ [t] }, false, ?_, some o, ?_⟩
    · rw [semaRound, if_pos hzero, if_neg hwait]
    have hto : o ≠ t := fun h => ht (h ▸ rfl)
    refine ⟨inv.value, inv.holder, ?_, ?_, inv.depth, ?_, ?_⟩
    · intro u hu
      by_cases hut : u = t
      · subst hut
        rw [LockSys.pc_goto_self]
        exact ⟨rfl, (inv.others u hu).2⟩
      · rw [LockSys.pc_goto_of_ne hut]
        exact inv.others u hu
    · intro u hu
      cases hu
      rw [LockSys.pc_goto_of_ne hto]
      exact inv.owns o rfl
    · intro u
      change _ ↔ u ∈ s.sema.waitList ++ [t]
      rw [List.mem_append, List.mem_singleton]
      by_cases hut : u = t
      · subst hut
        rw [LockSys.pc_goto_self]
        exact iff_of_true rfl (.inr rfl)
      · rw [LockSys.pc_goto_of_ne hut]
        exact (inv.queued u).trans (or_iff_left hut).symm
    · exact inv.nodup.append (List.nodup_singleton t) (List.disjoint_singleton.mpr hwait)
  | none =>
    have hone : s.sema.value = 1 := inv.value
    have hholder : s.holder = none := by
      cases h : s.holder with
      | none => rfl
      | some o => cases inv.holder o h
    refine ⟨{ s.sema with value := s.sema.value - 1 }, true, ?_, some t, ?_⟩
    · rw [semaRound, if_neg (by omega)]
    refine ⟨?_, ?_, ?_, ?_, inv.depth, ?_, inv.nodup⟩
    · change s.sema.value - 1 = 0
      omega
    · intro u hu
      cases hholder.symm.trans hu
    · intro u hu
      have hne : u ≠ t := fun h => hu (h ▸ rfl)
      rw [LockSys.pc_goto_of_ne hne]
      exact inv.others u (by simp)
    · intro u hu
      cases hu
      rw [LockSys.pc_goto_self]
      exact ⟨(inv.others t (by simp)).2, hholder⟩
    · exact LockSys.queued_goto hpc Pc.noConfusion inv.queued

/-- `sema_up` by the owner: nobody owns the semaphore any more, and the first waiter is woken. -/
theorem up_lockInv (inv : LockInv s (some t)) (hpc : s.pc t = .relUp) :
    ∃ s', s.run t = some s' ∧ LockInv s' none := by
  have hzero : s.sema.value = 0 := inv.value
  obtain ⟨hdepth, hholder⟩ : s.depth t = 0 ∧ s.holder = none := by
    have hown := inv.owns t rfl
    rw [hpc] at hown
    exact hown
  have hnot : s.pc t ≠ .queued := (inv.owns t rfl).ne_queued
  have hothers : ∀ u, ((s.goto t .idle).pc u).apart = true ∧ s.depth u = 0 := by
    intro u
    by_cases hut : u = t
    · rw [hut, LockSys.pc_goto_self]
      exact ⟨rfl, hdepth⟩
    · rw [LockSys.pc_goto_of_ne hut]
      exact inv.others u fun h => hut (Option.some.inj h).symm
  have hqueued : ∀ u, (s.goto t .idle).pc u = .queued ↔ u ∈ s.sema.waitList :=
    LockSys.queued_goto hnot (by decide) inv.queued
  cases hlist : s.sema.waitList with
  | nil =>
    have hup : semaUp s.sema = (⟨1, []⟩, none) := by
      rw [semaUp]
      simp only [hlist, hzero]
    rw [hlist] at hqueued
    refine ⟨{ s with sema := ⟨1, []⟩ }.goto t .idle, ?_, ?_⟩
    · simp only [LockSys.run, hpc, hup]
    · refine ⟨rfl, ?_, fun u _ => hothers u, nofun, inv.depth, hqueued, List.nodup_nil⟩
      intro u hu
      cases hholder.symm.trans hu
  | cons w rest =>
    have hup : semaUp s.sema = (⟨1, rest⟩, some w) := by
      rw [semaUp]
      simp only [hlist, hzero]
    have hnodup := inv.nodup
    rw [hlist, List.nodup_cons] at hnodup
    rw [hlist] at hqueued
    refine ⟨({ s with sema := ⟨1, rest⟩ }.goto t .idle).goto w .woken, ?_, ?_⟩
    · simp only [LockSys.run, hpc, hup]
    · refine ⟨rfl, ?_, fun u _ => ?_, nofun, inv.depth, fun u => ?_, hnodup.2⟩
      · intro u hu
        cases hholder.symm.trans hu
      · by_cases huw : u = w
        · subst huw
          rw [LockSys.pc_goto_self]
          exact ⟨rfl, (hothers u).2⟩
        · rw [LockSys.pc_goto_of_ne huw]
          exact hothers u
      · change _ ↔ u ∈ rest
        by_cases huw : u = w
        · subst huw
          rw [LockSys.pc_goto_self]
          exact iff_of_false Pc.noConfusion hnodup.1
        · rw [LockSys.pc_goto_of_ne huw]
          refine (hqueued u).trans ?_
          rw [List.mem_cons]
          exact or_iff_right huw

/-- The next statement of a thread outside. -/
theorem run_outside (inv : LockInv s owner) (ht : owner ≠ some t) (hidle : s.pc t ≠ .idle)
    (hqueued : s.pc t ≠ .queued) : ∃ s', s.run t = some s' ∧ ∃ owner', LockInv s' owner' := by
  have hapart := (inv.others t ht).1
  obtain ⟨sema, got, hround, owner', inv'⟩ := round_lockInv inv ht hqueued
  cases hpc : s.pc t with
  | acquire =>
    have hholder : s.holder ≠ some t := fun h => ht (inv.holder t h)
    refine ⟨s.goto t .down, ?_, owner, inv.outside ht hqueued (by decide) rfl⟩
    simp only [LockSys.run, hpc, if_neg hholder]
  | down => exact ⟨_, by simp only [LockSys.run, hpc, hround, Option.map_some], owner', inv'⟩
  | woken => exact ⟨_, by simp only [LockSys.run, hpc, hround, Option.map_some], owner', inv'⟩
  | idle => exact absurd hpc hidle
  | queued => exact absurd hpc hqueued
  | _ =>
    rw [hpc] at hapart
    exact absurd hapart (by decide)

/-- The next statement of the owner. -/
theorem run_owner (inv : LockInv s (some t)) (hidle : s.pc t ≠ .idle) :
    ∃ s', s.run t = some s' ∧ ∃ owner', LockInv s' owner' := by
  have hown := inv.owns t rfl
  have hdepth := inv.depth t
  cases hpc : s.pc t with
  | idle => exact absurd hpc hidle
  | down =>
    rw [hpc] at hown
    exact hown.elim
  | queued =>
    rw [hpc] at hown
    exact hown.elim
  | woken =>
    rw [hpc] at hown
    exact hown.elim
  | acquire =>
    rw [hpc] at hown
    refine ⟨s.goto t .nest, ?_, some t, inv.ownMove rfl rfl rfl hown⟩
    simp only [LockSys.run, hpc, if_pos hown.2.1]
  | nest =>
    rw [hpc] at hown
    obtain ⟨-, hholder, hnr, hbound⟩ := hown
    refine ⟨{ s with acquireNr := (s.acquireNr + 1) % 2 ^ 32 }.acquired t, ?_, some t,
      inv.ownAcquired hholder ?_ hbound⟩
    · simp only [LockSys.run, hpc]
    · rw [hnr, Nat.mod_eq_of_lt hbound]
  | gotSema =>
    rw [hpc] at hown
    refine ⟨{ s with holder := some t }.goto t .gotHolder, ?_, some t, inv.ownMove rfl rfl rfl ?_⟩
    · simp only [LockSys.run, hpc]
    · exact ⟨hown.1, rfl⟩
  | gotHolder =>
    rw [hpc] at hown
    refine ⟨{ s with acquireNr := 1 }.acquired t, ?_, some t, inv.ownAcquired hown.2 ?_ ?_⟩
    · simp only [LockSys.run, hpc]
    · rw [hown.1]
    · rw [hown.1]
      decide
  | release =>
    rw [hpc] at hown
    have hnr : s.acquireNr ≠ 0 := by
      rw [hown.2]
      exact Nat.succ_ne_zero _
    refine ⟨s.goto t .relHolder, ?_, some t, inv.ownMove rfl rfl rfl hown⟩
    simp only [LockSys.run, hpc, if_neg hnr]
  | relHolder =>
    rw [hpc] at hown
    refine ⟨s.goto t .relTest, ?_, some t, inv.ownMove rfl rfl rfl hown⟩
    simp only [LockSys.run, hpc, if_pos hown.1]
  | relTest =>
    rw [hpc] at hown
    obtain ⟨hholder, hnr⟩ := hown
    by_cases hone : s.acquireNr = 1
    · refine ⟨s.goto t .relZero, ?_, some t, inv.ownMove rfl rfl rfl ?_⟩
      · simp only [LockSys.run, hpc, if_pos hone]
      · exact ⟨by omega, hholder⟩
    · refine ⟨s.goto t .relDec, ?_, some t, inv.ownMove rfl rfl rfl ?_⟩
      · simp only [LockSys.run, hpc, if_neg hone]
      · exact ⟨by omega, hholder, hnr⟩
  | relZero =>
    rw [hpc] at hown
    refine ⟨{ s with acquireNr := 0 }.goto t .relNull, ?_, some t, inv.ownMove rfl rfl rfl hown⟩
    simp only [LockSys.run, hpc]
  | relNull =>
    rw [hpc] at hown
    refine ⟨{ s with holder := none }.goto t .relUp, ?_, some t, inv.ownMove rfl rfl rfl ?_⟩
    · simp only [LockSys.run, hpc]
    · exact ⟨hown.1, rfl⟩
  | relUp =>
    obtain ⟨s', hrun, inv'⟩ := up_lockInv inv hpc
    exact ⟨s', hrun, none, inv'⟩
  | relDec =>
    rw [hpc] at hown
    obtain ⟨hpos, hholder, hnr⟩ := hown
    refine ⟨{ s with acquireNr := s.acquireNr - 1 }.goto t .idle, ?_, some t,
      inv.ownMove rfl rfl rfl ?_⟩
    · simp only [LockSys.run, hpc]
    · exact ⟨hpos, hholder, show s.acquireNr - 1 = s.depth t by omega⟩

theorem acquire_lockInv (inv : LockInv s owner) (hidle : s.pc t = .idle)
    (hdepth : s.depth t + 1 < 2 ^ 32) : LockInv (s.goto t .acquire) owner := by
  have hnot : s.pc t ≠ .queued := by
    rw [hidle]
    decide
  by_cases ht : owner = some t
  · subst ht
    have hown := inv.owns t rfl
    rw [hidle] at hown
    obtain ⟨hpos, hholder, hnr⟩ := hown
    exact inv.ownMove rfl rfl rfl ⟨hpos, hholder, hnr, hdepth⟩
  · exact inv.outside ht hnot (by decide) rfl

theorem release_lockInv (inv : LockInv s owner) (hidle : s.pc t = .idle) (hpos : 0 < s.depth t) :
    LockInv ({ s with depth := update s.depth t (s.depth t - 1) }.goto t .release) owner := by
  obtain rfl : owner = some t := by
    by_contra ht
    have hzero := (inv.others t ht).2
    omega
  have hown := inv.owns t rfl
  have hdepth := inv.depth t
  rw [hidle] at hown
  obtain ⟨-, hholder, hnr⟩ := hown
  have hself : update s.depth t (s.depth t - 1) t = s.depth t - 1 := update_self ..
  refine inv.own rfl rfl (fun u hu => update_of_ne hu ..) ?_ ?_
  · change update s.depth t (s.depth t - 1) t < 2 ^ 32
    rw [hself]
    omega
  · change OwnsAt .release s.holder s.acquireNr (update s.depth t (s.depth t - 1) t) t
    rw [hself]
    exact ⟨hholder, by omega⟩

theorem lockStep_inv (inv : LockInv s owner) (op : LockOp) (enabled : LockEnabled s op) :
    ∃ s', lockStep s op = some s' ∧ ∃ owner', LockInv s' owner' := by
  cases op with
  | acquire t => exact ⟨_, rfl, owner, acquire_lockInv inv enabled.1 enabled.2⟩
  | release t => exact ⟨_, rfl, owner, release_lockInv inv enabled.1 enabled.2⟩
  | run t =>
    by_cases ht : owner = some t
    · subst ht
      exact run_owner inv enabled.1
    · exact run_outside inv ht enabled.1 enabled.2

end Steps

/-- What the lock promises at every point of every run. -/
structure LockOk (s : LockSys) : Prop where
  exclusive : ∀ t u, 0 < s.depth t → 0 < s.depth u → t = u
  acquireNr : ∀ t, s.pc t = .idle → 0 < s.depth t → s.acquireNr = s.depth t
  nested : ∀ t, 0 < s.depth t → s.pc t ≠ .down ∧ s.pc t ≠ .queued ∧ s.pc t ≠ .woken

theorem LockInv.lockOk {s : LockSys} {owner : Option Nat} (inv : LockInv s owner) : LockOk s := by
  have howner : ∀ t, 0 < s.depth t → owner = some t := by
    intro t hpos
    by_contra ht
    have hzero := (inv.others t ht).2
    omega
  constructor
  case exclusive =>
    intro t u ht hu
    exact Option.some.inj ((howner t ht).symm.trans (howner u hu))
  case acquireNr =>
    intro t hidle hpos
    have hown := inv.owns t (howner t hpos)
    rw [hidle] at hown
    exact hown.2.2
  case nested =>
    intro t hpos
    have hown := inv.owns t (howner t hpos)
    refine ⟨?_, ?_, ?_⟩
    all_goals
      intro hpc
      rw [hpc] at hown
      exact hown

/-- Every run of balanced calls, with the statements of the threads interleaved in any way,
passes every assertion and keeps the promises of the lock. -/
theorem lock_runs (ops : List LockOp) (enabled : Run.Meets lockStep LockEnabled LockSys.init ops) :
    ∃ s, Run.exec lockStep LockSys.init ops = some s ∧ LockOk s := by
  obtain ⟨s, hrun, owner, inv⟩ := Run.total (I := fun s => ∃ owner, LockInv s owner)
    ⟨none, init_lockInv⟩ enabled fun s op inv hen => by
      obtain ⟨owner, inv⟩ := inv
      exact lockStep_inv inv op hen
  exact ⟨s, hrun, inv.lockOk⟩

/-- Thread 1 takes the lock twice while thread 2 waits, and thread 2 gets it after both
releases. -/
def nestedAndContended : List LockOp :=
  [.acquire 1, .run 1, .run 1, .acquire 2, .run 2, .run 1, .run 2, .run 1, .acquire 1,
    .run 1, .run 1,
    .release 1, .run 1, .run 1, .run 1, .run 1, .release 1, .run 1, .run 1, .run 1, .run 1, .run 1,
    .run 1, .run 2, .run 2, .run 2]

theorem lock_runs_nestedAndContended :
    ∃ s, Run.exec lockStep LockSys.init nestedAndContended = some s ∧ LockOk s :=
  lock_runs nestedAndContended (by decide +kernel)

end KernelTravel.Sync

import KernelTravel.Lib.Trace
import KernelTravel.Thread.Sync
import Mathlib.Data.List.Nodup

/-!
# No wake-up of a semaphore is lost

The value counts the units. A thread that is woken does not own the unit that woke it, so a
thread that comes later may take it and the woken thread goes back to the list. What holds
is a count: while threads are waiting, there are at least as many woken threads as units.
Every one of them takes a unit when it runs, so a unit is not left over next to a waiter.
-/

namespace KernelTravel.Sync

/-- What one semaphore keeps from `sema_init(value)` on. -/
structure SemInv (value : Nat) (s : SemSys) : Prop where
  count : s.sema.value + s.downs = value + s.ups
  small : s.sema.value < 256
  covered : s.sema.waitList ≠ [] → s.sema.value ≤ s.woken.length
  nodup : (s.sema.waitList ++ s.woken).Nodup

theorem init_semInv {value : Nat} (h : value < 256) : SemInv value (SemSys.init value) where
  count := rfl
  small := h
  covered hne := absurd rfl hne
  nodup := List.nodup_nil

section Steps

variable {value t : Nat} {s : SemSys}

/-- A round by a thread that is on no list. -/
theorem round_inv (inv : SemInv value s) (hwait : t ∉ s.sema.waitList) (hwoken : t ∉ s.woken) :
    ∃ s', s.round t = some s' ∧ SemInv value s' := by
  by_cases hzero : s.sema.value = 0
  · refine ⟨{ s with sema := { s.sema with waitList := s.sema.waitList ++ [t] } }, ?_, ?_⟩
    · rw [SemSys.round, semaRound, if_pos hzero, if_neg hwait]
      rfl
    · refine ⟨inv.count, inv.small, fun _ => ?_, ?_⟩
      · change s.sema.value ≤ _
        rw [hzero]
        exact Nat.zero_le _
      · change (s.sema.waitList ++ [t] ++ s.woken).Nodup
        rw [List.append_assoc, List.singleton_append, List.nodup_middle, List.nodup_cons,
          List.mem_append, not_or]
        exact ⟨⟨hwait, hwoken⟩, inv.nodup⟩
  · refine ⟨{ s with sema := { s.sema with value := s.sema.value - 1 }, downs := s.downs + 1 }, ?_,
      ?_⟩
    · rw [SemSys.round, semaRound, if_neg hzero]
      rfl
    · have hcount := inv.count
      have hsmall := inv.small
      refine ⟨?_, ?_, fun hne => ?_, inv.nodup⟩
      · change s.sema.value - 1 + (s.downs + 1) = value + s.ups
        omega
      · change s.sema.value - 1 < 256
        omega
      · exact (Nat.sub_le _ _).trans (inv.covered hne)

/-- A woken thread that gets a unit leaves as many woken threads as there are units. One that
gets none found the value 0. -/
theorem resume_inv (inv : SemInv value s) (ht : t ∈ s.woken) :
    ∃ s', semStep s (.resume t) = some s' ∧ SemInv value s' := by
  have hparts := List.nodup_append.mp inv.nodup
  have hwait : t ∉ s.sema.waitList := fun h => hparts.2.2 t h t ht rfl
  have hwoken : t ∉ s.woken.erase t := hparts.2.1.not_mem_erase
  have hnodup : (s.sema.waitList ++ s.woken.erase t).Nodup :=
    inv.nodup.sublist (List.Sublist.append_left List.erase_sublist _)
  by_cases hzero : s.sema.value = 0
  · have inv' : SemInv value { s with woken := s.woken.erase t } := by
      refine ⟨inv.count, inv.small, fun _ => ?_, hnodup⟩
      change s.sema.value ≤ _
      rw [hzero]
      exact Nat.zero_le _
    exact round_inv inv' hwait hwoken
  · refine ⟨{ s with
      sema := { s.sema with value := s.sema.value - 1 }
      woken := s.woken.erase t
      downs := s.downs + 1 }, ?_, ?_⟩
    · rw [semStep, SemSys.round, semaRound, if_neg hzero]
      rfl
    · have hcount := inv.count
      have hsmall := inv.small
      refine ⟨?_, ?_, fun hne => ?_, hnodup⟩
      · change s.sema.value - 1 + (s.downs + 1) = value + s.ups
        omega
      · change s.sema.value - 1 < 256
        omega
      · change s.sema.value - 1 ≤ (s.woken.erase t).length
        rw [List.length_erase_of_mem ht]
        exact Nat.sub_le_sub_right (inv.covered hne) 1

theorem up_inv (inv : SemInv value s) (hroom : s.sema.value + 1 < 256) :
    ∃ s', semStep s .up = some s' ∧ SemInv value s' := by
  have hcount := inv.count
  have hmod : (s.sema.value + 1) % 256 = s.sema.value + 1 := Nat.mod_eq_of_lt hroom
  refine ⟨_, rfl, ?_⟩
  cases hlist : s.sema.waitList with
  | nil =>
    have hup : semaUp s.sema = ({ s.sema with value := s.sema.value + 1 }, none) := by
      rw [semaUp]
      simp only [hlist, hmod]
    rw [hup]
    refine ⟨?_, hroom, fun hne => absurd hlist hne, ?_⟩
    · change s.sema.value + 1 + s.downs = value + (s.ups + 1)
      omega
    · change (s.sema.waitList ++ (s.woken ++ [])).Nodup
      rw [List.append_nil]
      exact inv.nodup
  | cons t rest =>
    have hup : semaUp s.sema = (⟨s.sema.value + 1, rest⟩, some t) := by
      rw [semaUp, hlist, hmod]
    have hcovered := inv.covered (by rw [hlist]; exact List.cons_ne_nil _ _)
    have hnodup := inv.nodup
    rw [hlist] at hnodup
    rw [hup]
    refine ⟨?_, hroom, fun _ => ?_, ?_⟩
    · change s.sema.value + 1 + s.downs = value + (s.ups + 1)
      omega
    · change s.sema.value + 1 ≤ (s.woken ++ [t]).length
      rw [List.length_append, List.length_singleton]
      omega
    · change (rest ++ (s.woken ++ [t])).Nodup
      rw [← List.append_assoc]
      exact (List.perm_append_singleton t (rest ++ s.woken)).nodup_iff.mpr hnodup

theorem semStep_inv (inv : SemInv value s) (op : SemOp) (enabled : SemEnabled s op) :
    ∃ s', semStep s op = some s' ∧ SemInv value s' := by
  cases op with
  | down t => exact round_inv inv enabled.1 enabled.2
  | resume t => exact resume_inv inv enabled
  | up => exact up_inv inv enabled

end Steps

section Live

variable {t : Nat} {s s' : SemSys}

/-- Threads ahead of `t` and units to hand out. Every step on the semaphore lowers it. -/
def rank (t : Nat) (s : SemSys) : Nat := s.sema.waitList.idxOf t * 256 + s.sema.value

theorem rank_round {u : Nat} (hpos : 0 < s.sema.value) (hstep : s.round u = some s') :
    rank t s' < rank t s := by
  rw [SemSys.round, semaRound, if_neg (Nat.pos_iff_ne_zero.mp hpos)] at hstep
  cases hstep
  change s.sema.waitList.idxOf t * 256 + (s.sema.value - 1) <
    s.sema.waitList.idxOf t * 256 + s.sema.value
  omega

/-- While `t` waits next to a unit, every step brings it closer to being woken. -/
theorem rank_step (hsmall : s.sema.value < 256) (hpos : 0 < s.sema.value)
    (hwait : t ∈ s.sema.waitList)
    (hwait' : t ∈ s'.sema.waitList) (hnodup : s.sema.waitList.Nodup) {op : SemOp}
    (hstep : semStep s op = some s') : rank t s' < rank t s := by
  cases op with
  | down u => exact rank_round hpos hstep
  | resume u => exact rank_round (s := { s with woken := s.woken.erase u }) hpos hstep
  | up =>
    cases hlist : s.sema.waitList with
    | nil =>
      rw [hlist] at hwait
      exact absurd hwait List.not_mem_nil
    | cons u rest =>
      have hup : semaUp s.sema = (⟨(s.sema.value + 1) % 256, rest⟩, some u) := by
        rw [semaUp, hlist]
      rw [semStep, hup] at hstep
      cases hstep
      have hmem : t ∈ rest := hwait'
      rw [hlist, List.nodup_cons] at hnodup
      have hne : u ≠ t := by
        rintro rfl
        exact hnodup.1 hmem
      change rest.idxOf t * 256 + (s.sema.value + 1) % 256 < rank t s
      rw [rank, hlist, List.idxOf_cons_ne rest hne]
      have := Nat.mod_lt (s.sema.value + 1) (show 0 < 256 by decide)
      omega

end Live

/-- A ready thread runs eventually. -/
def SemFair (states : Nat → SemSys) (ops : Nat → Option SemOp) : Prop :=
  ∀ n t, t ∈ (states n).woken → ∃ m ≥ n, ops m = some (.resume t)

/-- Over every run: the value counts the units, waiters are covered by woken threads, no call
fails an assertion; and under fairness no waiter stays asleep next to a unit. -/
theorem sema_runs (value : Nat) (hvalue : value < 256) (states : Nat → SemSys)
    (ops : Nat → Option SemOp) (start : states 0 = SemSys.init value)
    (trace : Run.IsTrace semStep SemEnabled states ops) :
    (∀ n, (states n).sema.value + (states n).downs = value + (states n).ups) ∧
      (∀ n, 0 < (states n).sema.value → (states n).sema.waitList ≠ [] →
        (states n).sema.value ≤ (states n).woken.length) ∧
      (∀ n op, SemEnabled (states n) op → ∃ s', semStep (states n) op = some s') ∧
      (SemFair states ops → ∀ n t, t ∈ (states n).sema.waitList →
        ∃ m ≥ n, t ∉ (states m).sema.waitList ∨ (states m).sema.value = 0) := by
  have inv : ∀ n, SemInv value (states n) := by
    refine trace.invariant (by rw [start]; exact init_semInv hvalue) fun s op s' inv hen hstep => ?_
    obtain ⟨s'', hstep'', inv'⟩ := semStep_inv inv op hen
    cases hstep.symm.trans hstep''
    exact inv'
  refine ⟨fun n => (inv n).count, fun n _ hne => (inv n).covered hne, fun n op hen => ?_, ?_⟩
  · obtain ⟨s', hstep, -⟩ := semStep_inv (inv n) op hen
    exact ⟨s', hstep⟩
  · intro fair n t _
    have hleaves : ∃ m ≥ n, ¬(t ∈ (states m).sema.waitList ∧ 0 < (states m).sema.value) := by
      refine trace.leaves (fun s => t ∈ s.sema.waitList ∧ 0 < s.sema.value) (rank t) ?_ ?_
      · rintro m - ⟨hwait, hpos⟩
        have hcovered := (inv m).covered (List.ne_nil_of_mem hwait)
        obtain ⟨u, hu⟩ := List.exists_mem_of_length_pos (hpos.trans_le hcovered)
        obtain ⟨k, hk, hop⟩ := fair m u hu
        exact ⟨k, hk, by rw [hop]; exact Option.some_ne_none _⟩
      · rintro m - op hop ⟨hwait, hpos⟩ ⟨hwait', -⟩
        exact rank_step (inv m).small hpos hwait hwait' (List.nodup_append.mp (inv m).nodup).1
          (trace.taken hop).2
    obtain ⟨m, hm, hleft⟩ := hleaves
    refine ⟨m, hm, ?_⟩
    rw [not_and_or, Nat.not_lt, Nat.le_zero] at hleft
    exact hleft

/-- Two threads sleep on a semaphore with the value 0, one `sema_up` wakes the first, a third
thread takes its unit, and the first goes back to sleep until the next `sema_up`. -/
def barging : List SemOp :=
  [.down 1, .down 2, .up, .down 3, .resume 1, .up, .resume 2, .up, .resume 1]

/-- The states of that run. -/
def bargingStates : Nat → SemSys := Run.path semStep (SemSys.init 0) barging

theorem sema_runs_barging :
    (∀ n, (bargingStates n).sema.value + (bargingStates n).downs = 0 + (bargingStates n).ups) ∧
      (∀ n, 0 < (bargingStates n).sema.value → (bargingStates n).sema.waitList ≠ [] →
        (bargingStates n).sema.value ≤ (bargingStates n).woken.length) ∧
      (∀ n op, SemEnabled (bargingStates n) op → ∃ s', semStep (bargingStates n) op = some s') ∧
      (SemFair bargingStates (fun n => barging[n]?) → ∀ n t, t ∈ (bargingStates n).sema.waitList →
        ∃ m ≥ n, t ∉ (bargingStates m).sema.waitList ∨ (bargingStates m).sema.value = 0) := by
  have hrun : (Run.exec semStep (SemSys.init 0) barging).isSome = true := by decide +kernel
  obtain ⟨s, hs⟩ := Option.isSome_iff_exists.mp hrun
  exact sema_runs 0 (by decide) bargingStates _ rfl (Run.isTrace_path (by decide +kernel) hs)

end KernelTravel.Sync

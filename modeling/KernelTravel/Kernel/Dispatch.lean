import KernelTravel.Kernel.Signal

/-!
# Which signals `check_signals` can dispatch

`get_signal` looks at the blocked set only to skip words that are blocked as a whole, so
the loop meets blocked signals as well. It takes such a signal, puts it back and takes it
again, and it does not move on from a signal that is ignored by default. `Deliverable`
describes the processes for which neither happens before a handler is found.
-/

namespace KernelTravel.Signal

namespace Sigset

variable {s t : Sigset} {u v : Fin 32}

/-- Only the bits that stand for signals are used. `sigaddset` and `sigremove` build such sets. -/
def Low (s : Sigset) : Prop := ∀ i k, 8 ≤ k → (s.sig i).getLsbD k = false

theorem bitOf_lt (v : Fin 32) : bitOf v < 8 := Nat.mod_lt _ (by decide)

theorem eq_of_wordOf_bitOf (hword : wordOf u = wordOf v) (hbit : bitOf u = bitOf v) : u = v := by
  simp only [wordOf, bitOf, Fin.mk.injEq] at hword hbit
  omega

theorem getLsbD_sigremove (i : Fin 4) (k : Nat) : ((s.sigremove v).sig i).getLsbD k =
    ((s.sig i).getLsbD k && !decide (i = wordOf v ∧ k = bitOf v)) := by
  have hbit := bitOf_lt v
  by_cases hi : i = wordOf v
  · subst hi
    simp only [sigremove, Function.update_self, BitVec.getLsbD_and, BitVec.getLsbD_not,
      BitVec.getLsbD_twoPow]
    by_cases hk : k = bitOf v
    · simp [hk]
    · by_cases hlt : k < 64
      · simp [hk, hlt, Ne.symm hk]
      · simp [BitVec.getLsbD_of_ge _ k (Nat.le_of_not_lt hlt)]
  · simp [sigremove, hi]

theorem sigismember_sigremove : (s.sigremove v).sigismember u =
    (s.sigismember u && !decide (u = v)) := by
  rw [sigismember, getLsbD_sigremove, sigismember]
  by_cases h : u = v
  · subst h
    simp
  · have hne : ¬(wordOf u = wordOf v ∧ bitOf u = bitOf v) :=
      fun hb => h (eq_of_wordOf_bitOf hb.1 hb.2)
    simp only [h, hne]

theorem Low.sigremove (hs : s.Low) : (s.sigremove v).Low := by
  intro i k hk
  rw [getLsbD_sigremove, hs i k hk, Bool.false_and]

/-- A member that is taken out and put back leaves the set as it was. -/
theorem sigaddset_sigremove (h : s.sigismember v = true) : (s.sigremove v).sigaddset v = s := by
  have hbit := bitOf_lt v
  have hwords : (s.sigremove v).sig (wordOf v) ||| BitVec.twoPow 64 (bitOf v) =
      s.sig (wordOf v) := by
    apply BitVec.eq_of_getLsbD_eq
    intro k hk
    rw [BitVec.getLsbD_or, getLsbD_sigremove, BitVec.getLsbD_twoPow]
    by_cases hkv : k = bitOf v
    · subst hkv
      rw [sigismember] at h
      simp [h, hk]
    · simp [hkv, Ne.symm hkv]
  rw [sigaddset, hwords, Sigset.sigremove]
  simp

end Sigset

open Sigset

section Get

variable {p : Proc} {v : Fin 32}

/-- A pending signal in a word that `get_signal` does not skip. -/
def Visible (p : Proc) (v : Fin 32) : Prop :=
  p.pending.sigismember v = true ∧ ~~~p.blocked.sig (wordOf v) ≠ 0

instance : Decidable (Visible p v) := inferInstanceAs (Decidable (_ ∧ _))

/-- The signal that is taken next. -/
structure IsNext (p : Proc) (v : Fin 32) : Prop where
  visible : Visible p v
  least : ∀ u < v, ¬Visible p u

theorem getLsbD_zero_word (k : Nat) : (0 : BitVec 64).getLsbD k = false := BitVec.getLsbD_zero

theorem findLsb_spec {x : BitVec 64} (hx : x ≠ 0) :
    x.getLsbD (findLsb x) = true ∧ ∀ k < findLsb x, x.getLsbD k = false := by
  rw [findLsb]
  cases h : (List.range 64).find? x.getLsbD with
  | none =>
    refine absurd (BitVec.eq_of_getLsbD_eq fun k hk => ?_) hx
    rw [getLsbD_zero_word]
    simpa using List.find?_range_eq_none.mp h k hk
  | some k =>
    obtain ⟨hset, -, hleast⟩ := List.find?_range_eq_some.mp h
    exact ⟨hset, fun j hj => by simpa using hleast j hj⟩

theorem word_ne_zero (h : p.pending.sigismember v = true) : p.pending.sig (wordOf v) ≠ 0 := by
  intro hzero
  rw [sigismember, hzero, getLsbD_zero_word] at h
  exact Bool.noConfusion h

/-- `get_signal` finds the first visible signal, or there is none. -/
theorem getSignal_spec (hlow : p.pending.Low) :
    (getSignal p.pending p.blocked = 0 ∧ ∀ v, ¬Visible p v) ∨
      ∃ v : Fin 32, getSignal p.pending p.blocked = v + 1 ∧ IsNext p v := by
  rw [getSignal]
  cases hfind : Fin.find? fun i => decide (p.pending.sig i ≠ 0 ∧ ~~~p.blocked.sig i ≠ 0) with
  | none =>
    refine .inl ⟨rfl, fun v hv => ?_⟩
    have hnone := Fin.find?_eq_none_iff.mp hfind (wordOf v)
    rw [decide_eq_false_iff_not] at hnone
    exact hnone ⟨word_ne_zero hv.1, hv.2⟩
  | some i =>
    obtain ⟨htaken, hfirst⟩ := Fin.find?_eq_some_iff.mp hfind
    obtain ⟨hpending, hblocked⟩ := of_decide_eq_true htaken
    obtain ⟨hset, hlowest⟩ := findLsb_spec hpending
    set k := findLsb (p.pending.sig i) with hk
    have hk8 : k < 8 := by
      refine Nat.lt_of_not_le fun hle => ?_
      rw [hlow i k hle] at hset
      exact Bool.noConfusion hset
    have hi := i.isLt
    have hlt : i * 8 + k < 32 := by omega
    have hword : wordOf ⟨i * 8 + k, hlt⟩ = i := Fin.ext (show (i * 8 + k) / 8 = i by omega)
    have hbit : bitOf ⟨i * 8 + k, hlt⟩ = k := show (i * 8 + k) % 8 = k by omega
    refine .inr ⟨⟨i * 8 + k, hlt⟩, rfl, ⟨?_, ?_⟩, ?_⟩
    · rw [sigismember, hword, hbit]
      exact hset
    · rw [hword]
      exact hblocked
    · intro u hu hvisible
      have hu : (u : Nat) < i * 8 + k := hu
      by_cases hsame : wordOf u = i
      · have hlow : bitOf u < k := by
          have : (u : Nat) / 8 = i := congrArg Fin.val hsame
          rw [bitOf]
          omega
        have hmember := hvisible.1
        rw [sigismember, hsame, hlowest _ hlow] at hmember
        exact Bool.noConfusion hmember
      · have hlt : wordOf u < i := by
          have hne : (u : Nat) / 8 ≠ i := fun h => hsame (Fin.ext h)
          exact show (u : Nat) / 8 < i by omega
        have hskip := hfirst (wordOf u) hlt
        rw [decide_eq_false_iff_not] at hskip
        exact hskip ⟨word_ne_zero hvisible.1, hvisible.2⟩

end Get

section Loop

variable {p : Proc} {v : Fin 32} {fuel : Nat}

/-- The process after `dequeue_signal` took `v`. -/
def Proc.without (p : Proc) (v : Fin 32) : Proc :=
  { p with pending := p.pending.sigremove v }

theorem signoIndex_succ (v : Fin 32) : signoIndex (v + 1) = some v := by
  rw [signoIndex, dif_pos (by omega)]
  rfl

theorem dequeueSignal_of_none (hlow : p.pending.Low) (hnone : ∀ v, ¬Visible p v) :
    dequeueSignal p = some (0, p) := by
  rcases getSignal_spec hlow with ⟨hzero, -⟩ | ⟨v, -, hnext⟩
  · rw [dequeueSignal, hzero]
    rfl
  · exact absurd hnext.visible (hnone v)

theorem dequeueSignal_of_next (hlow : p.pending.Low) (hnext : IsNext p v) :
    dequeueSignal p = some ((v : Nat) + 1, p.without v) := by
  rcases getSignal_spec hlow with ⟨-, hnone⟩ | ⟨u, hget, hu⟩
  · exact absurd hnext.visible (hnone v)
  · obtain rfl : u = v := by
      rcases lt_trichotomy u v with hlt | heq | hgt
      · exact absurd hu.visible (hnext.least u hlt)
      · exact heq
      · exact absurd hnext.visible (hu.least v hgt)
    rw [dequeueSignal, hget, if_neg (Nat.succ_ne_zero _), signoIndex_succ]
    rfl

theorem exists_next (hlow : p.pending.Low) : (∀ v, ¬Visible p v) ∨ ∃ v, IsNext p v := by
  rcases getSignal_spec hlow with ⟨-, hnone⟩ | ⟨v, -, hnext⟩
  · exact .inl hnone
  · exact .inr ⟨v, hnext⟩

theorem checkSignals_of_none (hlow : p.pending.Low) (hnone : ∀ v, ¬Visible p v) :
    checkSignals (fuel + 1) p = some (p, none) := by
  rw [checkSignals, dequeueSignal_of_none hlow hnone]
  rfl

/-- One round of the loop, by what the signal is. -/
theorem checkSignals_of_next (hlow : p.pending.Low) (hnext : IsNext p v) :
    checkSignals (fuel + 1) p =
      if p.blocked.sigismember v = true then checkSignals fuel p
      else if (p.action v).saHandler ≠ sigDfl then
        some (setSigframe { p.without v with
          blocked := p.blocked.sigsetOr (p.action v).saMask } v, some v)
      else if sigKernelIgnore (v + 1) then checkLoop fuel (v + 1) (p.without v)
      else checkSignals fuel (p.without v) := by
  rw [checkSignals, dequeueSignal_of_next hlow hnext, Option.bind_some, checkLoop,
    if_neg (Nat.succ_ne_zero _), signoIndex_succ, Option.bind_some]
  by_cases hblocked : p.blocked.sigismember v = true
  · have hback : specificSendsig (p.without v) v = p := by
      have hkept : isignoredSignals (p.without v) v = false := if_pos hblocked
      rw [specificSendsig, hkept]
      change { p with pending := (p.pending.sigremove v).sigaddset v } = p
      rw [sigaddset_sigremove hnext.visible.1]
    have hsame : (p.without v).blocked.sigismember v = true := hblocked
    rw [if_pos hsame, if_pos hblocked, hback, checkSignals]
  · have hsame : ¬(p.without v).blocked.sigismember v = true := hblocked
    rw [if_neg hsame, if_neg hblocked]
    rfl

/-- A signal that is ignored by default is never left again. -/
theorem checkLoop_of_ignored (hblocked : p.blocked.sigismember v = false)
    (hdfl : (p.action v).saHandler = sigDfl) (hignore : sigKernelIgnore (v + 1) = true)
    (fuel : Nat) : checkLoop fuel (v + 1) p = none := by
  induction fuel with
  | zero => rfl
  | succ fuel ih =>
    rw [checkLoop, if_neg (Nat.succ_ne_zero _), signoIndex_succ, Option.bind_some, hblocked,
      if_neg Bool.false_ne_true, if_neg (not_not_intro hdfl), if_pos hignore, ih]

end Loop

/-- What `check_signals` is for: it ends; it enters a handler only for a pending signal that
is neither blocked nor ignored; blocked signals stay pending; and it does enter a handler
when a pending signal that is not blocked has one. -/
def DispatchOk (p : Proc) : Prop :=
  ∃ fuel p' started, checkSignals fuel p = some (p', started) ∧
    (∀ v, started = some v → p.pending.sigismember v = true ∧ p.blocked.sigismember v = false ∧
      (p.action v).saHandler ≠ sigIgn ∧
      ¬((p.action v).saHandler = sigDfl ∧ sigKernelIgnore (v + 1) = true)) ∧
    (∀ v, p.pending.sigismember v = true → p.blocked.sigismember v = true →
      p'.pending.sigismember v = true) ∧
    ((∃ v, p.pending.sigismember v = true ∧ p.blocked.sigismember v = false ∧
      (p.action v).saHandler ≠ sigDfl ∧ (p.action v).saHandler ≠ sigIgn) → started ≠ none)

/-- Every visible signal up to the first one with a handler is neither blocked nor ignored. -/
def Deliverable (p : Proc) : Prop :=
  ∀ v, Visible p v → (∀ u < v, Visible p u → (p.action u).saHandler = sigDfl) →
    p.blocked.sigismember v = false ∧ isignoredSignals p v = false

instance (p : Proc) : Decidable (Deliverable p) :=
  inferInstanceAs (Decidable (∀ _, _))

section Characterise

variable {p : Proc} {v : Fin 32}

theorem isignoredSignals_eq_false (hblocked : p.blocked.sigismember v = false) :
    isignoredSignals p v = false ↔ (p.action v).saHandler ≠ sigIgn ∧
      ¬((p.action v).saHandler = sigDfl ∧ sigKernelIgnore (v + 1) = true) := by
  rw [isignoredSignals, hblocked, if_neg Bool.false_ne_true, decide_eq_false_iff_not, not_or]

theorem visible_without {u : Fin 32} : Visible (p.without v) u ↔ Visible p u ∧ u ≠ v := by
  have hmember : (p.without v).pending.sigismember u =
      (p.pending.sigismember u && !decide (u = v)) :=
    sigismember_sigremove
  rw [Visible, hmember]
  simp only [Bool.and_eq_true, Bool.not_eq_true', decide_eq_false_iff_not, Visible]
  exact and_right_comm

/-- A signal that is dropped because of its default action does not matter. -/
theorem deliverable_without (hnext : IsNext p v) (hblocked : p.blocked.sigismember v = false)
    (hdfl : (p.action v).saHandler = sigDfl) (hignore : ¬sigKernelIgnore (v + 1) = true) :
    Deliverable (p.without v) ↔ Deliverable p := by
  constructor
  · intro h u hu hbefore
    by_cases huv : u = v
    · subst huv
      refine ⟨hblocked, (isignoredSignals_eq_false hblocked).mpr ⟨?_, fun hc => hignore hc.2⟩⟩
      rw [hdfl]
      decide
    · exact h u (visible_without.mpr ⟨hu, huv⟩) fun w hw hvisible =>
        hbefore w hw (visible_without.mp hvisible).1
  · intro h u hu hbefore
    obtain ⟨hvisible, -⟩ := visible_without.mp hu
    refine h u hvisible fun w hw hwvisible => ?_
    by_cases hwv : w = v
    · rw [hwv]
      exact hdfl
    · exact hbefore w hw (visible_without.mpr ⟨hwvisible, hwv⟩)

/-- If the loop ends without entering an ignored signal's handler, nothing stood in its way. -/
theorem deliverable_of_checkSignals {fuel : Nat} {p' : Proc} {started : Option (Fin 32)}
    (hlow : p.pending.Low) (hrun : checkSignals fuel p = some (p', started))
    (hstarted : ∀ v, started = some v → (p.action v).saHandler ≠ sigIgn) : Deliverable p := by
  induction fuel generalizing p with
  | zero =>
    rw [checkSignals, Option.bind_eq_some_iff] at hrun
    obtain ⟨next, -, hnone⟩ := hrun
    exact absurd hnone (Option.some_ne_none _).symm
  | succ fuel ih =>
    rcases exists_next hlow with hnone | ⟨v, hnext⟩
    · exact fun u hu => absurd hu (hnone u)
    · rw [checkSignals_of_next hlow hnext] at hrun
      split at hrun
      · exact ih hlow hrun hstarted
      · rename_i hblocked
        rw [Bool.not_eq_true] at hblocked
        split at hrun
        · rename_i hhandler
          cases hrun
          intro u hu hbefore
          -- a later signal would have to see `SIG_DFL` at `v`
          obtain rfl : u = v := by
            rcases lt_trichotomy u v with hlt | heq | hgt
            · exact absurd hu (hnext.least u hlt)
            · exact heq
            · exact absurd (hbefore v hgt hnext.visible) hhandler
          exact ⟨hblocked, (isignoredSignals_eq_false hblocked).mpr
            ⟨hstarted u rfl, fun hc => hhandler hc.1⟩⟩
        · rename_i hdfl
          rw [not_not] at hdfl
          split at hrun
          · rename_i hignore
            rw [checkLoop_of_ignored (p := p.without v) hblocked hdfl hignore] at hrun
            exact absurd hrun (Option.some_ne_none _).symm
          · rename_i hignore
            exact (deliverable_without hnext hblocked hdfl hignore).mp
              (ih (p := p.without v) hlow.sigremove hrun hstarted)

/-- How many signals are pending. -/
def Proc.pendingCount (p : Proc) : Nat :=
  (Finset.univ.filter fun v => p.pending.sigismember v = true).card

theorem pendingCount_without (h : p.pending.sigismember v = true) :
    (p.without v).pendingCount < p.pendingCount := by
  apply Finset.card_lt_card
  rw [Finset.ssubset_iff_of_subset]
  · refine ⟨v, Finset.mem_filter.mpr ⟨Finset.mem_univ v, h⟩, fun hv => ?_⟩
    have hv := (Finset.mem_filter.mp hv).2
    rw [Proc.without, sigismember_sigremove] at hv
    simp at hv
  · intro u hu
    have hu := (Finset.mem_filter.mp hu).2
    rw [Proc.without, sigismember_sigremove, Bool.and_eq_true] at hu
    exact Finset.mem_filter.mpr ⟨Finset.mem_univ u, hu.1⟩

theorem pending_without {u : Fin 32} (h : p.pending.sigismember u = true) (hne : u ≠ v) :
    (p.without v).pending.sigismember u = true := by
  rw [Proc.without, sigismember_sigremove, h, Bool.true_and, Bool.not_eq_true',
    decide_eq_false_iff_not]
  exact hne

/-- A signal that is not blocked keeps its word from being skipped. -/
theorem visible_of_unblocked (h : p.pending.sigismember v = true)
    (hblocked : p.blocked.sigismember v = false) : Visible p v := by
  refine ⟨h, fun hzero => ?_⟩
  have hbit : (~~~p.blocked.sig (wordOf v)).getLsbD (bitOf v) = true := by
    rw [BitVec.getLsbD_not]
    rw [sigismember] at hblocked
    have := bitOf_lt v
    simp only [hblocked, Bool.not_false, Bool.and_true, decide_eq_true_eq]
    omega
  rw [hzero, getLsbD_zero_word] at hbit
  exact Bool.noConfusion hbit

theorem dispatchOk_of_deliverable (hlow : p.pending.Low) (h : Deliverable p) : DispatchOk p := by
  induction hn : p.pendingCount using Nat.strong_induction_on generalizing p with
  | _ n ih =>
    rcases exists_next hlow with hnone | ⟨v, hnext⟩
    · refine ⟨1, p, none, checkSignals_of_none hlow hnone, nofun, fun _ hv _ => hv, ?_⟩
      rintro ⟨v, hv, hblocked, -⟩
      exact absurd (visible_of_unblocked hv hblocked) (hnone v)
    · obtain ⟨hblocked, hignored⟩ :=
        h v hnext.visible fun u hu hvisible => absurd hvisible (hnext.least u hu)
      obtain ⟨hign, hkernel⟩ := (isignoredSignals_eq_false hblocked).mp hignored
      have hfree : ¬p.blocked.sigismember v = true := by
        rw [hblocked]
        exact Bool.false_ne_true
      have hne : ∀ u, p.blocked.sigismember u = true → u ≠ v := by
        rintro u hu rfl
        exact hfree hu
      by_cases hdfl : (p.action v).saHandler = sigDfl
      · have hignore : ¬sigKernelIgnore (v + 1) = true := fun hc => hkernel ⟨hdfl, hc⟩
        -- the signal is dropped, and the rest follows for the signals that are left
        obtain ⟨fuel, p', started, hrun, honly, hkeep, hsome⟩ :=
          ih _ (hn ▸ pendingCount_without hnext.visible.1) (p := p.without v) hlow.sigremove
            ((deliverable_without hnext hblocked hdfl hignore).mpr h) rfl
        refine ⟨fuel + 1, p', started, ?_, ?_, ?_, ?_⟩
        · rw [checkSignals_of_next hlow hnext, if_neg hfree, if_neg (not_not_intro hdfl),
            if_neg hignore, hrun]
        · intro u hu
          obtain ⟨hpending, hrest⟩ := honly u hu
          rw [Proc.without, sigismember_sigremove, Bool.and_eq_true] at hpending
          exact ⟨hpending.1, hrest⟩
        · intro u hu hb
          exact hkeep u (pending_without hu (hne u hb)) hb
        · rintro ⟨u, hu, hb, hhandler, hrest⟩
          refine hsome ⟨u, pending_without hu ?_, hb, hhandler, hrest⟩
          rintro rfl
          exact hhandler hdfl
      · have hrun : checkSignals (0 + 1) p = _ := checkSignals_of_next hlow hnext
        rw [if_neg hfree, if_pos hdfl] at hrun
        refine ⟨1, _, some v, hrun, ?_, ?_, fun _ => Option.some_ne_none v⟩
        · rintro u ⟨⟩
          exact ⟨hnext.visible.1, hblocked, hign, hkernel⟩
        · intro u hu hb
          exact pending_without hu (hne u hb)

end Characterise

/-- `check_signals` meets its purpose for exactly the deliverable processes. -/
theorem dispatchOk_iff_deliverable (p : Proc) (hlow : p.pending.Low) :
    DispatchOk p ↔ Deliverable p := by
  constructor
  · rintro ⟨fuel, p', started, hrun, honly, -⟩
    exact deliverable_of_checkSignals hlow hrun fun v hv => (honly v hv).2.2.1
  · exact dispatchOk_of_deliverable hlow

/-- A process with the given sets and one handler, at 0x4000, for the signal with index `v`. -/
def smallProc (pending blocked : Sigset) (v : Fin 32) (mask : Sigset) : Proc where
  pending := pending
  blocked := blocked
  action u := if u = v then ⟨0x4000, mask, 0, 0⟩ else ⟨sigDfl, initSigset, 0, 0⟩
  regs := ⟨fun r => if r = 3 then 0x10000 else BitVec.ofNat 64 r, 0, 0x2000, 3⟩
  regsAddr := 0x90000000
  stack _ := ⟨0, initSigset, 0, 0, fun _ => 0⟩
  returnCode := []

theorem initSigset_low : initSigset.Low := fun _ _ _ => BitVec.getLsbD_zero

theorem Sigset.Low.sigaddset {s : Sigset} {v : Fin 32} (hs : s.Low) : (s.sigaddset v).Low := by
  intro i k hk
  have hbit := bitOf_lt v
  by_cases hi : i = wordOf v
  · subst hi
    have hne : bitOf v ≠ k := by omega
    simp [Sigset.sigaddset, hs _ k hk, hne]
  · simp [Sigset.sigaddset, hi, hs i k hk]

/-- `SIGUSR1` has a handler, `SIGINT` is dropped on the way, and `SIGTERM` is blocked. -/
theorem dispatchOk_usr1 :
    DispatchOk (smallProc ((initSigset.sigaddset 1).sigaddset 9) (initSigset.sigaddset 14) 9
      initSigset) :=
  (dispatchOk_iff_deliverable _ initSigset_low.sigaddset.sigaddset).mpr (by decide +kernel)

/-- `SIGINT` is blocked and pending. -/
def blockedInt : Proc := smallProc (initSigset.sigaddset 1) (initSigset.sigaddset 1) 9 initSigset

theorem checkSignals_blockedInt (fuel : Nat) : checkSignals fuel blockedInt = none := by
  have hlow : blockedInt.pending.Low := initSigset_low.sigaddset
  have hnext : IsNext blockedInt 1 := ⟨by decide +kernel, by decide +kernel⟩
  induction fuel with
  | zero =>
    rw [checkSignals, dequeueSignal_of_next hlow hnext]
    rfl
  | succ fuel ih => rw [checkSignals_of_next hlow hnext, if_pos (by decide +kernel), ih]

/-- The loop never ends. -/
theorem checkSignals_blocked_pending :
    (∀ fuel, checkSignals fuel blockedInt = none) ∧ ¬DispatchOk blockedInt := by
  refine ⟨checkSignals_blockedInt, ?_⟩
  rintro ⟨fuel, p', started, hrun, -⟩
  rw [checkSignals_blockedInt] at hrun
  cases hrun

end KernelTravel.Signal

import KernelTravel.Drivers.Timer
import KernelTravel.Lib.Links
import KernelTravel.Lib.Run

/-!
# The timer wheel on its links

Here the lists of the wheel are the links that `list.c` keeps. `cascade_timers` appends each
timer of a list to another one and then goes on from the successor that the timer has there.
`detach_timer` takes a timer for pending when its `prev` is not null, and `list_remove` leaves
`prev` as it is, so this is the test whether the timer was ever linked.
-/

namespace KernelTravel.Timer

open Function

/-- The ends of the lists in `tvecs` and the `elm` fields of the timers. -/
inductive Node where
  | head (n s : Nat)
  | tail (n s : Nat)
  | timer (t : Nat)
deriving DecidableEq, Repr

structure LinkedWheel where
  timerTicks : Nat
  index : Nat → Nat
  expires : Nat → Nat
  links : Links Node

namespace LinkedWheel

/-- The state after `tvecs_init`, with no timer linked. -/
def init : LinkedWheel where
  timerTicks := 0
  index _ := 0
  expires _ := 0
  links :=
    { next := fun x => match x with | .head n s => some (.tail n s) | _ => none
      prev := fun x => match x with | .tail n s => some (.head n s) | _ => none }

/-- What `calc_wheel_idx` reads of the wheel. -/
def clocks (w : LinkedWheel) : Wheel :=
  { Wheel.init with timerTicks := w.timerTicks, expires := w.expires }

def setExpires (w : LinkedWheel) (t e : Nat) : LinkedWheel :=
  { w with expires := update w.expires t e }

theorem distance_setExpires (w : LinkedWheel) (t e : Nat) :
    sub64 ((w.setExpires t e).expires t) (w.setExpires t e).timerTicks = sub64 e w.timerTicks :=
  congrArg (sub64 · w.timerTicks) (update_self ..)

def internalAddTimer (w : LinkedWheel) (t : Nat) : Option LinkedWheel := do
  let idx ← calcWheelIdx w.clocks t
  let links ← w.links.insertBefore (.tail (idx / lvlSize) (idx % lvlSize)) (.timer t)
  return { w with links }

/-- The result is the returned number. -/
def detachTimer (w : LinkedWheel) (t : Nat) : Option (Bool × LinkedWheel) :=
  if w.links.prev (.timer t) = none then some (false, w)
  else do
    let links ← w.links.unlink (.timer t)
    return (true, { w with links })

/-- `add_timer` stops with `BUG()` where `prev` is not null. -/
def addTimer (w : LinkedWheel) (t : Nat) : Option LinkedWheel :=
  if w.links.prev (.timer t) ≠ none then none else w.internalAddTimer t

def modTimer (w : LinkedWheel) (t expire : Nat) : Option (Bool × LinkedWheel) := do
  let (ret, w) ← (w.setExpires t expire).detachTimer t
  let w ← w.internalAddTimer t
  return (ret, w)

def delTimer (w : LinkedWheel) (t : Nat) : Option (Bool × LinkedWheel) := w.detachTimer t

/-- One round of the inner loop of `run_timers`, for a function that uses no timer. -/
def fireFirst (w : LinkedWheel) (slot : Nat) : Option LinkedWheel := do
  let first ← w.links.next (.head 0 slot)
  if first = .tail 0 slot then return w
  else
    let links ← w.links.unlink first
    return { w with links }

def listInit (l : Links Node) (n s : Nat) : Links Node :=
  (((l.setPrev (.head n s) none).setNext (.head n s) (some (.tail n s))).setPrev (.tail n s)
    (some (.head n s))).setNext (.tail n s) none

/-- The loop of `cascade_timers`. An end of a list is not part of a timer. -/
def cascadeLoop (n slot : Nat) : Nat → Node → LinkedWheel → Option LinkedWheel
  | 0, _, _ => none
  | fuel + 1, cur, w =>
    if cur = .tail n slot then some w
    else match cur with
      | .timer t => do
        let w ← w.internalAddTimer t
        let cur ← w.links.next (.timer t)
        cascadeLoop n slot fuel cur w
      | _ => none

def cascadeTimers (w : LinkedWheel) (fuel n : Nat) : Option LinkedWheel := do
  let slot := w.index n
  let cur ← w.links.next (.head n slot)
  let w ← cascadeLoop n slot fuel cur w
  return { w with
    links := listInit w.links n slot
    index := update w.index n ((slot + 1) % lvlSize) }

/-! ## The lists of the wheel -/

/-- The lists `L` of timers are linked and share no timer. -/
def HasLists (l : Links Node) (L : Nat × Nat → List Nat) : Prop :=
  l.Family (fun i => .head i.1 i.2) (fun i => .tail i.1 i.2) fun i => (L i).map .timer

section Lists

variable {l : Links Node} {L : Nat × Nat → List Nat} {i : Nat × Nat} {t : Nat}

theorem map_update (xs : List Nat) : (fun j => (update L i xs j).map Node.timer) =
    update (fun j => (L j).map Node.timer) i (xs.map .timer) :=
  Function.comp_update (List.map Node.timer) L i xs

theorem HasLists.append (lists : HasLists l L) (hnot : ∀ j, t ∉ L j) :
    ∃ l', l.insertBefore (.tail i.1 i.2) (.timer t) = some l' ∧
      HasLists l' (update L i (L i ++ [t])) := by
  have fresh : ∀ j : Nat × Nat,
      Node.timer t ∉ Node.head j.1 j.2 :: .tail j.1 j.2 :: (L j).map .timer := by
    intro j
    simpa using hnot j
  obtain ⟨l', hinsert, fam⟩ := Links.Family.append (i := i) lists fresh
  refine ⟨l', hinsert, ?_⟩
  rw [HasLists, map_update, List.map_append]
  exact fam

/-- The wheel of `run_timers`, with its lists on these links. -/
structure Shows (w : LinkedWheel) (v : Wheel) : Prop where
  timerTicks : v.timerTicks = w.timerTicks
  expires : v.expires = w.expires
  index : v.index = w.index
  lists : HasLists w.links fun i => v.vec i.1 i.2

theorem Shows.internalAddTimer {w : LinkedWheel} {v v' : Wheel} (shows : Shows w v)
    (hnot : ∀ n s, t ∉ v.vec n s) (hadd : Timer.internalAddTimer v t = some v') :
    ∃ w', w.internalAddTimer t = some w' ∧ Shows w' v' := by
  obtain ⟨idx, hidx, hadd⟩ := Option.bind_eq_some_iff.mp hadd
  cases hadd
  have hclocks : calcWheelIdx w.clocks t = some idx := by
    rw [← hidx, calcWheelIdx, calcWheelIdx, shows.expires, shows.timerTicks]
    rfl
  obtain ⟨links, hinsert, lists⟩ :=
    shows.lists.append (i := (idx / lvlSize, idx % lvlSize)) fun j => hnot j.1 j.2
  refine ⟨{ w with links }, ?_, shows.timerTicks, shows.expires, shows.index, ?_⟩
  · rw [LinkedWheel.internalAddTimer, hclocks, Option.bind_eq_bind, Option.bind_some, hinsert]
    rfl
  · convert lists using 1
    funext ⟨n, s⟩
    simp [enqueueTimer, Wheel.setVec, update_apply]

theorem HasLists.remove (lists : HasLists l L) {ys zs : List Nat} (hL : L i = ys ++ t :: zs) :
    ∃ l', l.unlink (.timer t) = some l' ∧ HasLists l' (update L i (ys ++ zs)) := by
  have hmap : (L i).map Node.timer = ys.map .timer ++ .timer t :: zs.map .timer := by
    rw [hL, List.map_append, List.map_cons]
  obtain ⟨l', hunlink, fam⟩ := Links.Family.remove lists hmap
  refine ⟨l', hunlink, ?_⟩
  rw [HasLists, map_update, List.map_append]
  exact fam

theorem HasLists.linked (lists : HasLists l L) (ht : t ∈ L i) :
    (∃ y, l.Linked y (.timer t)) ∧ ∃ y, l.Linked (.timer t) y :=
  (lists.between i).linked_of_mem (List.mem_map_of_mem ht)

theorem HasLists.prev_ne_none (lists : HasLists l L) (ht : t ∈ L i) : l.prev (.timer t) ≠ none := by
  obtain ⟨⟨y, hy⟩, -⟩ := lists.linked ht
  rw [hy.2]
  exact Option.some_ne_none y

theorem HasLists.index_unique (lists : HasLists l L) {j : Nat × Nat} (hi : t ∈ L i)
    (hj : t ∈ L j) : i = j := by
  by_contra hne
  refine lists.apart i j hne (.timer t) ?_ ?_
  · simpa using hi
  · simpa using hj

theorem HasLists.nodup (lists : HasLists l L) (i : Nat × Nat) : (L i).Nodup :=
  ((lists.between i).nodup_left.of_cons).of_map

theorem init_hasLists : HasLists init.links fun _ => [] := by
  constructor
  · intro i
    exact ⟨by simp [init, Links.Linked], by simp, by simp⟩
  · intro i j hij x hx hx'
    have hij' : ¬(i.1 = j.1 ∧ i.2 = j.2) := fun h => hij (Prod.ext h.1 h.2)
    simp only [List.map_nil, List.mem_cons, List.not_mem_nil, or_false] at hx hx'
    rcases hx with rfl | rfl
    · simp at hx'
      exact hij' hx'
    · simp at hx'
      exact hij' hx'

end Lists

/-- A distance below `LVL_START(6)` has a level. -/
theorem calcWheelIdx_isSome (w : Wheel) (t : Nat) :
    (calcWheelIdx w t).isSome ↔ sub64 (w.expires t) w.timerTicks < lvlStart 6 := by
  unfold calcWheelIdx lvlStart
  dsimp only
  split_ifs
  all_goals
    simp only [Option.isSome_some, Option.isSome_none, true_iff, false_iff, Bool.false_eq_true]
    omega

/-! ## Cascading -/

section Cascade

/-- A timer in this slot fires at its own expiry: level `m` holds at most 64 spans of 64^m
ticks, and the slot is the one of the span in which the timer expires. -/
def OnTime (w : LinkedWheel) (t : Nat) (i : Nat × Nat) : Prop :=
  i.2 = w.expires t / lvlStart i.1 % lvlSize ∧ w.timerTicks ≤ w.expires t ∧
    w.expires t < w.timerTicks + lvlStart (i.1 + 1)

/-- Cascading a level ends, keeps the lists and the set of pending timers and moves every timer of
the current slot to one from which it fires on time. -/
def CascadeRight (w : LinkedWheel) (L : Nat × Nat → List Nat) (n : Nat) : Prop :=
  ∃ fuel w' L', w.cascadeTimers fuel n = some w' ∧ HasLists w'.links L' ∧
    (∀ t, (∃ i, t ∈ L' i) ↔ ∃ i, t ∈ L i) ∧
    ∀ t ∈ L (n, w.index n), ∃ i, t ∈ L' i ∧ w'.OnTime t i

variable {w w' : LinkedWheel} {L : Nat × Nat → List Nat} {n slot fuel t : Nat}

/-- Appending a timer makes the end of the list its successor. -/
theorem next_internalAddTimer (h : w.internalAddTimer t = some w') :
    ∃ m s, w'.links.next (.timer t) = some (.tail m s) := by
  obtain ⟨idx, -, h⟩ := Option.bind_eq_some_iff.mp h
  obtain ⟨links, hinsert, h⟩ := Option.bind_eq_some_iff.mp h
  obtain ⟨p, hp, -⟩ := Option.bind_eq_some_iff.mp hinsert
  rw [Links.insertBefore_eq _ hp] at hinsert
  cases hinsert
  cases h
  exact ⟨_, _, if_pos rfl⟩

/-- The loop ends with the first timer, if that was appended to its own list. -/
theorem cascadeLoop_timer (h : cascadeLoop n slot fuel (.timer t) w = some w') :
    w'.links.next (.timer t) = some (.tail n slot) := by
  cases fuel with
  | zero => cases h
  | succ fuel =>
    rw [cascadeLoop, if_neg (by simp)] at h
    obtain ⟨w₁, hadd, h⟩ := Option.bind_eq_some_iff.mp h
    obtain ⟨m, s, hnext⟩ := next_internalAddTimer hadd
    rw [hnext] at h
    cases fuel with
    | zero => cases h
    | succ fuel =>
      change (if Node.tail m s = .tail n slot then some w₁ else none) = some w' at h
      split at h
      next heq =>
        cases h
        rw [hnext, heq]
      next => cases h

/-- A slot that holds a timer loses it, or the loop takes the end of a list for a timer. -/
theorem HasLists.not_cascadeRight (lists : HasLists w.links L) {ts : List Nat}
    (hL : L (n, w.index n) = t :: ts) : ¬w.CascadeRight L n := by
  rintro ⟨fuel, w', L', hcascade, lists', pending, -⟩
  have hcur : w.links.next (.head n (w.index n)) = some (.timer t) := by
    rw [(lists.between (n, w.index n)).next_anchor]
    simp [hL]
  rw [cascadeTimers, hcur, Option.bind_eq_bind, Option.bind_some] at hcascade
  obtain ⟨w₁, hloop, hret⟩ := Option.bind_eq_some_iff.mp hcascade
  cases hret
  have hnext := cascadeLoop_timer hloop
  obtain ⟨i, ht⟩ := (pending t).mpr ⟨(n, w.index n), by simp [hL]⟩
  -- the end of the emptied list does not point back at the timer
  obtain ⟨-, y, hforth, hback⟩ := lists'.linked ht
  have hkept : (listInit w₁.links n (w.index n)).next (.timer t) = w₁.links.next (.timer t) := by
    simp [listInit]
  rw [hkept, hnext] at hforth
  cases hforth
  simp [listInit] at hback

theorem HasLists.listInit (lists : HasLists w.links L) {s : Nat} (hL : L (n, s) = []) :
    HasLists (listInit w.links n s) L := by
  have hself : update L (n, s) [] = L := by
    rw [← hL, update_eq_self]
  have same : w.links.SameOutside (LinkedWheel.listInit w.links n s) [.head n s, .tail n s] := by
    intro x hx
    simp only [List.mem_cons, List.not_mem_nil, or_false, not_or] at hx
    simp [LinkedWheel.listInit, hx]
  rw [← hself, HasLists, map_update, List.map_nil]
  refine Links.Family.replace lists ⟨?_, by simp, by simp⟩ same ?_ ?_
  · simp [LinkedWheel.listInit, Links.Linked]
  · intro j hj x hx htouched
    refine lists.apart j (n, s) hj x hx ?_
    simp only [List.mem_cons, List.not_mem_nil, or_false] at htouched ⊢
    exact htouched.elim .inl fun h => .inr (.inl h)
  · exact fun j hj x hx => List.not_mem_nil

/-- Cascading a level is right only when there is nothing to move. -/
theorem cascadeRight_iff (lists : HasLists w.links L) (n : Nat) :
    w.CascadeRight L n ↔ L (n, w.index n) = [] := by
  constructor
  · intro right
    cases hL : L (n, w.index n) with
    | nil => rfl
    | cons t ts => exact absurd right (lists.not_cascadeRight hL)
  · intro hL
    have hcur : w.links.next (.head n (w.index n)) = some (.tail n (w.index n)) := by
      rw [(lists.between (n, w.index n)).next_anchor]
      simp [hL]
    refine ⟨1, { w with
        links := LinkedWheel.listInit w.links n (w.index n)
        index := update w.index n ((w.index n + 1) % lvlSize) }, L, ?_,
      lists.listInit hL, fun _ => Iff.rfl, ?_⟩
    · simp [cascadeTimers, hcur, cascadeLoop]
    · simp [hL]

/-- Timer 0 alone is added to its slot. -/
theorem init_addTimer {expires idx : Nat}
    (hidx : calcWheelIdx (init.setExpires 0 expires).clocks 0 = some idx) :
    ∃ w, (init.setExpires 0 expires).addTimer 0 = some w ∧ w.index = init.index ∧
      HasLists w.links (update (fun _ => []) (idx / lvlSize, idx % lvlSize) [0]) := by
  have lists₀ : HasLists (init.setExpires 0 expires).links fun _ => [] := init_hasLists
  obtain ⟨links, hinsert, lists⟩ :=
    lists₀.append (i := (idx / lvlSize, idx % lvlSize)) fun _ => List.not_mem_nil
  have hfree : ¬(init.setExpires 0 expires).links.prev (.timer 0) ≠ none := not_not.mpr rfl
  refine ⟨{ init.setExpires 0 expires with links }, ?_, rfl, lists⟩
  rw [addTimer, if_neg hfree, internalAddTimer, hidx, Option.bind_eq_bind, Option.bind_some]
  exact Option.bind_eq_some_iff.mpr ⟨links, hinsert, rfl⟩

/-- A timer in slot 3 of level 1 is left alone by the cascade of slot 0. -/
theorem cascadeRight_iff_slot : ∃ w L, (init.setExpires 0 130).addTimer 0 = some w ∧
    L (1, 3) = [0] ∧ w.CascadeRight L 1 := by
  obtain ⟨w, hadd, hindex, lists⟩ := @init_addTimer 130 67 (by decide +kernel)
  refine ⟨w, _, hadd, rfl, (cascadeRight_iff lists 1).mpr ?_⟩
  rw [hindex]
  rfl

/-- A timer that expires at tick 4032 is added to slot 0 of level 1 at tick 0. The cascade of this
tick appends it to its own list and then empties the list. -/
theorem cascade_loses_timer : ∃ w L, (init.setExpires 0 4032).addTimer 0 = some w ∧
    HasLists w.links L ∧ L (1, w.index 1) = [0] ∧ ¬w.CascadeRight L 1 := by
  obtain ⟨w, hadd, hindex, lists⟩ := @init_addTimer 4032 64 (by decide +kernel)
  have hL : update (fun _ : Nat × Nat => []) (64 / lvlSize, 64 % lvlSize) [0] (1, w.index 1) =
      [0] := by
    rw [hindex]
    rfl
  exact ⟨w, _, hadd, lists, hL, lists.not_cascadeRight hL⟩

end Cascade

/-! ## Histories -/

inductive LinkOp where
  | add (t e : Nat)
  | mod (t e : Nat)
  | del (t : Nat)
  /-- The first timer of a list of level 0 is called. -/
  | fire (slot : Nat)
  /-- `timer_ticks` is advanced. -/
  | advance
deriving DecidableEq, Repr

def linkStep (w : LinkedWheel) : LinkOp → Option LinkedWheel
  | .add t e => (w.setExpires t e).addTimer t
  | .mod t e => (w.modTimer t e).map Prod.snd
  | .del t => (w.delTimer t).map Prod.snd
  | .fire slot => w.fireFirst slot
  | .advance => some { w with timerTicks := (w.timerTicks + 1) % 2 ^ 64 }

/-- The links hold `ts` as the list of a slot. -/
def SlotList (w : LinkedWheel) (n s : Nat) (ts : List Node) : Prop :=
  w.links.Between (.head n s) ts (.tail n s)

/-- The timer is in a list. -/
def Pending (w : LinkedWheel) (t : Nat) : Prop := ∃ n s ts, w.SlotList n s ts ∧ .timer t ∈ ts

/-- `del_timer` removes a pending timer and returns 1, and for any other one it returns 0 and
changes nothing. -/
def DelRight (w : LinkedWheel) (t : Nat) : Prop :=
  (w.Pending t → ∃ w', w.delTimer t = some (true, w') ∧
    ∀ n s ts, w.SlotList n s ts → w'.SlotList n s (ts.erase (.timer t))) ∧
  (¬w.Pending t → w.delTimer t = some (false, w))

def AddAccepted (w : LinkedWheel) (t e : Nat) : Prop :=
  ∃ w', (w.setExpires t e).addTimer t = some w' ∧ w'.Pending t

/-- A timer is used only before it was ever linked or while it is pending. -/
def LinkSafe (w : LinkedWheel) : LinkOp → Prop
  | .add t e => w.links.prev (.timer t) = none ∧ sub64 e w.timerTicks < lvlStart 6
  | .mod t e => (w.Pending t ∨ w.links.prev (.timer t) = none) ∧
      sub64 e w.timerTicks < lvlStart 6
  | .del t => w.Pending t ∨ w.links.prev (.timer t) = none
  | .fire _ => True
  | .advance => True

section Histories

variable {w w' : LinkedWheel} {L : Nat × Nat → List Nat} {t e : Nat}

variable (lists : HasLists w.links L)
include lists

theorem HasLists.pending_iff : w.Pending t ↔ ∃ i, t ∈ L i := by
  constructor
  · rintro ⟨n, s, ts, hlist, ht⟩
    rw [hlist.unique (lists.between (n, s))] at ht
    exact ⟨(n, s), by simpa using ht⟩
  · rintro ⟨i, ht⟩
    exact ⟨i.1, i.2, _, lists.between i, List.mem_map_of_mem ht⟩

/-- A timer whose `prev` is null is in no list. -/
theorem HasLists.not_mem_of_prev (h : w.links.prev (.timer t) = none) (i : Nat × Nat) : t ∉ L i :=
  fun ht => lists.prev_ne_none ht h

/-- Adding a timer that is in no list. -/
theorem HasLists.internalAdd (hnot : ∀ i, t ∉ L i)
    (hnear : sub64 (w.expires t) w.timerTicks < lvlStart 6) :
    ∃ w' i, w.internalAddTimer t = some w' ∧ HasLists w'.links (update L i (L i ++ [t])) := by
  obtain ⟨idx, hidx⟩ := Option.isSome_iff_exists.mp ((calcWheelIdx_isSome w.clocks t).mpr hnear)
  obtain ⟨links, hinsert, lists'⟩ := lists.append (i := (idx / lvlSize, idx % lvlSize)) hnot
  refine ⟨{ w with links }, _, ?_, lists'⟩
  rw [internalAddTimer, hidx, Option.bind_eq_bind, Option.bind_some, hinsert]
  rfl

/-- `add_timer` on a timer that was never linked. -/
theorem HasLists.add (hprev : w.links.prev (.timer t) = none)
    (hnear : sub64 e w.timerTicks < lvlStart 6) : ∃ w' i, (w.setExpires t e).addTimer t = some w' ∧
      HasLists w'.links (update L i (L i ++ [t])) := by
  have lists₀ : HasLists (w.setExpires t e).links L := lists
  have hfree : ¬(w.setExpires t e).links.prev (.timer t) ≠ none := not_not.mpr hprev
  rw [addTimer, if_neg hfree]
  exact lists₀.internalAdd (lists.not_mem_of_prev hprev) (by rwa [distance_setExpires])

/-- `detach_timer` on a pending timer. -/
theorem HasLists.detach {i : Nat × Nat} {ys zs : List Nat} (hL : L i = ys ++ t :: zs) :
    ∃ w', w.detachTimer t = some (true, w') ∧ w'.expires = w.expires ∧
      w'.timerTicks = w.timerTicks ∧ HasLists w'.links (update L i (ys ++ zs)) := by
  have ht : t ∈ L i := by simp [hL]
  obtain ⟨links, hunlink, lists'⟩ := lists.remove hL
  refine ⟨{ w with links }, ?_, rfl, rfl, lists'⟩
  rw [detachTimer, if_neg (lists.prev_ne_none ht), hunlink]
  rfl

/-- A timer taken out of its list is in no list. -/
theorem HasLists.not_mem_removed {i : Nat × Nat} {ys zs : List Nat}
    (hL : L i = ys ++ t :: zs) (j : Nat × Nat) : t ∉ update L i (ys ++ zs) j := by
  by_cases hj : j = i
  · subst hj
    have hnodup := lists.nodup j
    rw [hL] at hnodup
    rw [update_self]
    grind
  · rw [update_of_ne hj]
    exact fun ht => hj (lists.index_unique ht (by simp [hL]))

/-- `detach_timer` on a timer that is pending or was never linked. -/
theorem HasLists.detach_known (hknown : w.Pending t ∨ w.links.prev (.timer t) = none) :
    ∃ ret w' L', w.detachTimer t = some (ret, w') ∧ w'.expires = w.expires ∧
      w'.timerTicks = w.timerTicks ∧ HasLists w'.links L' ∧ ∀ i, t ∉ L' i := by
  rcases hknown with hpending | hprev
  · obtain ⟨i, ht⟩ := lists.pending_iff.mp hpending
    obtain ⟨ys, zs, hL⟩ := List.append_of_mem ht
    obtain ⟨w', hdetach, hexpires, hticks, lists'⟩ := lists.detach hL
    exact ⟨true, w', _, hdetach, hexpires, hticks, lists', lists.not_mem_removed hL⟩
  · exact ⟨false, w, L, if_pos hprev, rfl, rfl, lists, lists.not_mem_of_prev hprev⟩

theorem linkStep_lists {op : LinkOp} (safe : w.LinkSafe op) :
    ∃ w', w.linkStep op = some w' ∧ ∃ L', HasLists w'.links L' := by
  cases op with
  | add t e =>
    obtain ⟨w', i, hadd, lists'⟩ := lists.add safe.1 safe.2
    exact ⟨w', hadd, _, lists'⟩
  | mod t e =>
    obtain ⟨hknown, hnear⟩ := safe
    have lists₀ : HasLists (w.setExpires t e).links L := lists
    have hknown₀ : (w.setExpires t e).Pending t ∨
        (w.setExpires t e).links.prev (.timer t) = none := hknown
    obtain ⟨ret, w₁, L₁, hdetach, hexpires, hticks, lists₁, hnot⟩ := lists₀.detach_known hknown₀
    have hnear₁ : sub64 (w₁.expires t) w₁.timerTicks < lvlStart 6 := by
      rw [hexpires, hticks, distance_setExpires]
      exact hnear
    obtain ⟨w', i, hadd, lists'⟩ := lists₁.internalAdd hnot hnear₁
    have hmod : w.modTimer t e = some (ret, w') := by
      rw [modTimer, hdetach, Option.bind_eq_bind, Option.bind_some]
      exact Option.bind_eq_some_iff.mpr ⟨w', hadd, rfl⟩
    exact ⟨w', by rw [linkStep, hmod]; rfl, _, lists'⟩
  | del t =>
    obtain ⟨ret, w', L', hdetach, -, -, lists', -⟩ := lists.detach_known safe
    exact ⟨w', by rw [linkStep, delTimer, hdetach]; rfl, L', lists'⟩
  | fire slot =>
    have hfirst := (lists.between (0, slot)).next_anchor
    cases hL : L (0, slot) with
    | nil =>
      have hempty : w.links.next (.head 0 slot) = some (.tail 0 slot) := by simp [hfirst, hL]
      exact ⟨w, by simp [linkStep, fireFirst, hempty], L, lists⟩
    | cons t ts =>
      have htimer : w.links.next (.head 0 slot) = some (.timer t) := by simp [hfirst, hL]
      have hcut : L (0, slot) = [] ++ t :: ts := hL
      obtain ⟨links, hunlink, lists'⟩ := lists.remove hcut
      exact ⟨{ w with links }, by simp [linkStep, fireFirst, htimer, hunlink], _, lists'⟩
  | advance => exact ⟨_, rfl, L, lists⟩

theorem delRight_iff : w.DelRight t ↔ w.Pending t ∨ w.links.prev (.timer t) = none := by
  constructor
  · rintro ⟨-, hnot⟩
    by_contra hbad
    obtain ⟨hpending, hprev⟩ := not_or.mp hbad
    have hdel := hnot hpending
    rw [delTimer, detachTimer, if_neg hprev] at hdel
    obtain ⟨links, -, hret⟩ := Option.bind_eq_some_iff.mp hdel
    cases hret
  · intro hknown
    constructor
    · intro hpending
      obtain ⟨i, ht⟩ := lists.pending_iff.mp hpending
      obtain ⟨ys, zs, hL⟩ := List.append_of_mem ht
      obtain ⟨w', hdetach, -, -, lists'⟩ := lists.detach hL
      refine ⟨w', hdetach, ?_⟩
      intro n s ts hts
      have hold := hts.unique (lists.between (n, s))
      have hnew := lists'.between (n, s)
      dsimp only at hold hnew
      rw [SlotList, hold]
      by_cases hi : (n, s) = i
      · subst hi
        have hys : Node.timer t ∉ ys.map Node.timer := by
          have hnodup := lists.nodup (n, s)
          rw [hL] at hnodup
          grind
        rw [update_self, List.map_append] at hnew
        rwa [hL, List.map_append, List.map_cons, List.erase_append_right _ hys,
          List.erase_cons_head]
      · have hout : Node.timer t ∉ (L (n, s)).map Node.timer := by
          have : t ∉ L (n, s) := fun h => hi (lists.index_unique h ht)
          simpa using this
        rw [update_of_ne hi] at hnew
        rwa [List.erase_of_not_mem hout]
    · intro hpending
      exact if_pos (hknown.resolve_left hpending)

theorem addAccepted_iff : w.AddAccepted t e ↔
      w.links.prev (.timer t) = none ∧ sub64 e w.timerTicks < lvlStart 6 := by
  constructor
  · rintro ⟨w', hadd, -⟩
    rw [addTimer] at hadd
    split at hadd
    next => cases hadd
    next hprev =>
      obtain ⟨idx, hidx, -⟩ := Option.bind_eq_some_iff.mp hadd
      have hnear := (calcWheelIdx_isSome (w.setExpires t e).clocks t).mp (by rw [hidx]; rfl)
      exact ⟨not_not.mp hprev, distance_setExpires w t e ▸ hnear⟩
  · rintro ⟨hprev, hnear⟩
    obtain ⟨w', i, hadd, lists'⟩ := lists.add hprev hnear
    exact ⟨w', hadd, lists'.pending_iff.mpr ⟨i, by simp⟩⟩

end Histories

/-- In every history that uses a timer only before it was ever linked or while it is pending,
`del_timer` is right for exactly these timers, and `add_timer` accepts exactly those never
linked whose expiry has a level. -/
theorem timer_histories {ops : List LinkOp} (meets : Run.Meets linkStep LinkSafe init ops) :
    ∃ w, Run.exec linkStep init ops = some w ∧
      (∀ t, w.DelRight t ↔ w.Pending t ∨ w.links.prev (.timer t) = none) ∧
      ∀ t e, ¬w.Pending t → (w.AddAccepted t e ↔
        w.links.prev (.timer t) = none ∧ sub64 e w.timerTicks < lvlStart 6) := by
  obtain ⟨w, run, L, lists⟩ := Run.total
    (I := fun w : LinkedWheel => ∃ L, HasLists w.links L) ⟨_, init_hasLists⟩ meets
    fun _ _ ⟨_, lists⟩ safe => linkStep_lists lists safe
  exact ⟨w, run, fun t => delRight_iff lists, fun t e _ => addAccepted_iff lists⟩

theorem timer_histories_fired : ∃ w, Run.exec linkStep init [.add 0 5, .advance, .fire 6] = some w ∧
      ∀ t, w.DelRight t ↔ w.Pending t ∨ w.links.prev (.timer t) = none := by
  have meets : Run.Meets linkStep LinkSafe init [.add 0 5, .advance, .fire 6] :=
    ⟨⟨rfl, by decide +kernel⟩, fun _ _ => ⟨trivial, fun _ _ => ⟨trivial, fun _ _ => trivial⟩⟩⟩
  obtain ⟨w, run, del, -⟩ := timer_histories meets
  exact ⟨w, run, del⟩

/-- A timer that has fired is not pending, `del_timer` returns 1 for it, and `add_timer` stops. -/
theorem fired_timer_taken_for_pending :
    ∃ w, Run.exec linkStep init [.add 0 5, .fire 6] = some w ∧ ¬w.Pending 0 ∧
      (∃ w', w.delTimer 0 = some (true, w')) ∧ (w.setExpires 0 70).addTimer 0 = none := by
  have hvalues : (Run.exec linkStep init [.add 0 5, .fire 6]).map (fun w =>
      (w.links.next (.timer 0), w.links.prev (.tail 0 6), (w.delTimer 0).map Prod.fst,
        ((w.setExpires 0 70).addTimer 0).isNone)) =
      some (some (.tail 0 6), some (.head 0 6), some true, true) := by
    decide +kernel
  obtain ⟨w, run, hw⟩ := Option.map_eq_some_iff.mp hvalues
  simp only [Prod.mk.injEq] at hw
  obtain ⟨hnext, hprev, hdel, hadd⟩ := hw
  obtain ⟨⟨ret, w'⟩, hret, rfl⟩ := Option.map_eq_some_iff.mp hdel
  refine ⟨w, run, ?_, ⟨w', hret⟩, Option.isNone_iff_eq_none.mp hadd⟩
  rintro ⟨n, s, ts, hlist, ht⟩
  obtain ⟨-, y, hforth, hback⟩ := Links.Between.linked_of_mem hlist ht
  cases hnext.symm.trans hforth
  cases hprev.symm.trans hback

end LinkedWheel

end KernelTravel.Timer

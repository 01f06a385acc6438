import KernelTravel.Lib.Dyadic
import KernelTravel.Lib.Links
import KernelTravel.Lib.Run

/-!
# The buddy allocator

`mm/memory.c` keeps the free blocks of `2 ^ k` pages on one circular list for each order
`k`. A page is its page frame number, and `private` of the first page of a free block
holds the order of the block. The value 0 also stands in every page that is not the
first of a free block, and `page_is_buddy` looks at nothing else: a block of order 0
is merged with its neighbour whether the neighbour is free or not, and `list_del` then
follows the links of a page that is on no list.

Pages are freed to the lists of `MIGRATE_UNMOVABLE` only, which are the lists modelled
here. `zone->lock`, `page->index` and the watermarks are not read by these functions. An
operation answers `none` where it follows a null or poisoned pointer.
-/

namespace KernelTravel.Mm

open Function

def maxPageOrder : Nat := 10

/-- The list heads in `free_area` and the `buddy_list` fields of the pages. -/
inductive ListNode where
  | head (order : Nat)
  | page (pfn : Nat)
deriving DecidableEq, Repr

structure Zone where
  links : Links ListNode
  priv : Nat → Nat
  nrFree : Nat → Nat

/-! ## The list functions -/

/-- `__list_add`. -/
def listAddBetween (l : Links ListNode) (new prev next : ListNode) : Links ListNode :=
  (((l.setPrev next (some new)).setNext new (some next)).setPrev new (some prev)).setNext prev
    (some new)

def listAdd (l : Links ListNode) (new head : ListNode) : Option (Links ListNode) := do
  let next ← l.next head
  return listAddBetween l new head next

def listAddTail (l : Links ListNode) (new head : ListNode) : Option (Links ListNode) := do
  let prev ← l.prev head
  return listAddBetween l new prev head

/-- The poison values fault when they are followed. -/
def listDel (l : Links ListNode) (entry : ListNode) : Option (Links ListNode) := do
  let prev ← l.prev entry
  let next ← l.next entry
  let l := (l.setPrev next (some prev)).setNext prev (some next)
  return (l.setNext entry none).setPrev entry none

/-- The inner `Option` is the returned pointer. A list head is not part of a page. -/
def listFirstEntryOrNull (l : Links ListNode) (head : ListNode) : Option (Option Nat) := do
  let pos ← l.next head
  if pos = head then return none
  else match pos with
    | .page pfn => return some pfn
    | .head _ => none

/-! ## The allocator -/

namespace Zone

/-- `zone_init_free_lists` over a cleared page array. -/
def initial : Zone where
  links :=
    { next := fun x => match x with | .head k => some (.head k) | .page _ => none
      prev := fun x => match x with | .head k => some (.head k) | .page _ => none }
  priv _ := 0
  nrFree _ := 0

def setPagePrivate (z : Zone) (pfn order : Nat) : Zone :=
  { z with priv := update z.priv pfn order }

def delPageFromFreeList (z : Zone) (pfn order : Nat) : Option Zone := do
  let links ← listDel z.links (.page pfn)
  return { { z with links }.setPagePrivate pfn 0 with
           nrFree := update z.nrFree order (z.nrFree order - 1) }

def addToFreeListTail (z : Zone) (pfn order : Nat) : Option Zone := do
  let links ← listAddTail z.links (.page pfn) (.head order)
  return { z with links, nrFree := update z.nrFree order (z.nrFree order + 1) }

def addToFreeList (z : Zone) (pfn order : Nat) : Option Zone := do
  let links ← listAdd z.links (.page pfn) (.head order)
  return { z with links, nrFree := update z.nrFree order (z.nrFree order + 1) }

def findBuddyPfn (pfn order : Nat) : Nat := pfn ^^^ 2 ^ order

/-- `find_buddy_page_pfn` finds a page. -/
def isBuddy (z : Zone) (pfn order : Nat) : Bool := z.priv (findBuddyPfn pfn order) = order

def buddyMergeLikely (z : Zone) (pfn buddyPfn order : Nat) : Bool :=
  if maxPageOrder - 1 ≤ order then false else z.isBuddy (buddyPfn &&& pfn) (order + 1)

/-- The loop of `free_one_page`, with the number of orders left below the largest. It
returns the merged block and the last buddy looked at. -/
def mergeBuddies (z : Zone) : Nat → Nat → Nat → Nat → Option (Zone × Nat × Nat × Nat)
  | 0, pfn, order, buddyPfn => some (z, pfn, order, buddyPfn)
  | left + 1, pfn, order, _ =>
    let buddyPfn := findBuddyPfn pfn order
    if z.isBuddy pfn order then do
      let z ← z.delPageFromFreeList buddyPfn order
      mergeBuddies z left (buddyPfn &&& pfn) (order + 1) buddyPfn
    else some (z, pfn, order, buddyPfn)

def freeOnePage (z : Zone) (pfn order : Nat) (fpiToTail : Bool) : Option Zone := do
  let (z, pfn, order, buddyPfn) ← z.mergeBuddies (maxPageOrder - order) pfn order 0
  let z := z.setPagePrivate pfn order
  if fpiToTail || z.buddyMergeLikely pfn buddyPfn order then z.addToFreeListTail pfn order
  else z.addToFreeList pfn order

def getPageFromFreeArea (z : Zone) (order : Nat) : Option (Option Nat) :=
  listFirstEntryOrNull z.links (.head order)

/-- `expand`, by recursion on the order of the block that is left. -/
def expand (z : Zone) (pfn low : Nat) : Nat → Option Zone
  | 0 => some z
  | high + 1 =>
    if low < high + 1 then do
      let z ← z.addToFreeList (pfn + 2 ^ high) high
      expand (z.setPagePrivate (pfn + 2 ^ high) high) pfn low high
    else some z

/-- The loop of `__rmqueue_smallest`, with the number of orders left to try. -/
def rmqueueFrom (z : Zone) (order : Nat) : Nat → Nat → Option (Option Nat × Zone)
  | 0, _ => some (none, z)
  | left + 1, currentOrder => do
    match ← z.getPageFromFreeArea currentOrder with
    | none => rmqueueFrom z order left (currentOrder + 1)
    | some pfn =>
      let z ← z.delPageFromFreeList pfn currentOrder
      let z ← z.expand pfn order currentOrder
      return (some pfn, z)

/-- The inner `Option` is the returned page, null when no list has a block. -/
def rmqueueSmallest (z : Zone) (order : Nat) : Option (Option Nat × Zone) :=
  z.rmqueueFrom order (maxPageOrder + 1 - order) order

end Zone

/-! ## The list functions on circular lists -/

section Lists

variable {l : Links ListNode} {h e : ListNode} {xs ys zs : List ListNode}

theorem insertBefore_eq_listAddBetween {p c : ListNode} (hc : l.prev c = some p) (hec : e ≠ c)
    (hep : e ≠ p) : l.insertBefore c e = some (listAddBetween l e p c) := by
  rw [Links.insertBefore_eq e hc]
  congr 1
  refine Links.ext (funext fun x => ?_) (funext fun x => ?_)
  · simp only [listAddBetween, Links.setNext_next, Links.setPrev_next]
    grind
  · simp only [listAddBetween, Links.setNext_prev, Links.setPrev_prev]
    grind

theorem listAdd_spec (circle : l.Between h xs h) (fresh : e ∉ h :: xs) :
    ∃ l', listAdd l e h = some l' ∧ l'.Between h (e :: xs) h ∧
      Links.SameOutside l l' (e :: h :: xs) := by
  obtain ⟨l', hinsert, between, same⟩ := circle.insertBefore_first (e := e) (by simpa using fresh)
  have cut : l.Between h ([] ++ xs) h := circle
  have back : l.prev ((xs ++ [h]).head (by simp)) = some h := cut.linked_cut.2
  have hne : e ≠ (xs ++ [h]).head (by simp) := by
    have := List.head_mem (l := xs ++ [h]) (by simp)
    grind
  rw [insertBefore_eq_listAddBetween back hne (by grind)] at hinsert
  refine ⟨l', ?_, between, by simpa [Links.SameOutside] using same⟩
  rw [listAdd, circle.next_anchor]
  exact hinsert

theorem listAddTail_spec (circle : l.Between h xs h) (fresh : e ∉ h :: xs) :
    ∃ l', listAddTail l e h = some l' ∧ l'.Between h (xs ++ [e]) h ∧
      Links.SameOutside l l' (e :: h :: xs) := by
  obtain ⟨l', hinsert, between, same⟩ := circle.insertBefore_last (e := e) (by simpa using fresh)
  have hne : e ≠ (h :: xs).getLast (by simp) := by
    have := List.getLast_mem (l := h :: xs) (by simp)
    grind
  rw [insertBefore_eq_listAddBetween circle.prev_anchor (by grind) hne] at hinsert
  refine ⟨l', ?_, between, by simpa [Links.SameOutside] using same⟩
  rw [listAddTail, circle.prev_anchor]
  exact hinsert

/-- Deleting a member closes the list behind it and leaves the member unlinked. -/
theorem listDel_spec (circle : l.Between h (ys ++ e :: zs) h) :
    ∃ l', listDel l e = some l' ∧ l'.Between h (ys ++ zs) h ∧ l'.next e = none ∧
      Links.SameOutside l l' (e :: h :: (ys ++ zs)) := by
  obtain ⟨l₁, hunlink, between, same⟩ := circle.unlink_mem
  have left : l.Between h (ys ++ (e :: zs)) h := circle
  have right : l.Between h ((ys ++ [e]) ++ zs) h := by simpa using circle
  have hprev := left.linked_cut.2
  have hnext := right.linked_cut.1
  simp only [List.cons_append, List.head_cons] at hprev
  rw [show (h :: (ys ++ [e])).getLast (by simp) = e by simp] at hnext
  have hdel : listDel l e = some ((l₁.setNext e none).setPrev e none) := by
    rw [Links.unlink_eq hprev hnext] at hunlink
    obtain rfl := Option.some.inj hunlink
    simp only [listDel, hprev, hnext, Option.bind_eq_bind, Option.bind_some, Option.pure_def,
      Option.some.injEq]
    refine Links.ext (funext fun x => ?_) (funext fun x => ?_)
    · simp
    · simp
  have outside : Links.SameOutside l₁ ((l₁.setNext e none).setPrev e none) [e] := by
    intro x hx
    have : x ≠ e := by simpa using hx
    simp [this]
  have hnodup := circle.nodup_left
  have hnodup' := circle.nodup_right
  refine ⟨_, hdel, between.frame outside ?_ ?_ ?_, by simp, ?_⟩
  · grind
  · grind
  · grind
  · intro x hx
    obtain ⟨hx₁, hx₂⟩ := same x (by grind)
    obtain ⟨hy₁, hy₂⟩ := outside x (by grind)
    exact ⟨hy₁.trans hx₁, hy₂.trans hx₂⟩

end Lists

/-! ## The invariant -/

open Dyadic

/-- The blocks on the lists `F`. -/
def freeBlocks (F : Nat → List Nat) : List Block :=
  (List.range (maxPageOrder + 1)).flatMap fun k => (F k).map fun p => (p, k)

theorem mem_freeBlocks {F : Nat → List Nat} {b : Block} :
    b ∈ freeBlocks F ↔ b.2 ≤ maxPageOrder ∧ b.1 ∈ F b.2 := by
  obtain ⟨p, k⟩ := b
  simp only [freeBlocks, List.mem_flatMap, List.mem_range, List.mem_map, Prod.mk.injEq]
  constructor
  · rintro ⟨j, hj, q, hq, rfl, rfl⟩
    exact ⟨Nat.lt_succ_iff.mp hj, hq⟩
  · rintro ⟨hk, hp⟩
    exact ⟨k, Nat.lt_succ_iff.mpr hk, p, hp, rfl, rfl⟩

@[simp] theorem freeBlocks_nil : freeBlocks (fun _ => []) = [] := by simp [freeBlocks]

/-- Adding a page to one list adds one block. -/
theorem freeBlocks_update {F : Nat → List Nat} {k p : Nat} {xs : List Nat}
    (hk : k ≤ maxPageOrder) (hxs : xs.Perm (p :: F k)) :
    (freeBlocks (update F k xs)).Perm ((p, k) :: freeBlocks F) := by
  obtain ⟨lower, upper, hrange⟩ := List.append_of_mem (List.mem_range.mpr (Nat.lt_succ_iff.mpr hk))
  have hnodup : (lower ++ k :: upper).Nodup := hrange ▸ List.nodup_range
  have other : ∀ js : List Nat, k ∉ js →
      (js.flatMap fun j => (update F k xs j).map fun p => (p, j)) =
        js.flatMap fun j => (F j).map fun p => (p, j) := by
    intro js hkjs
    refine List.flatMap_congr fun j hj => ?_
    have hne : j ≠ k := fun h => hkjs (h ▸ hj)
    rw [update_of_ne hne]
  have hlower : k ∉ lower := by grind
  have hupper : k ∉ upper := by grind
  rw [freeBlocks, freeBlocks, hrange]
  simp only [List.flatMap_append, List.flatMap_cons, update_self, other lower hlower,
    other upper hupper]
  have hmap := hxs.map fun p => (p, k)
  rw [List.map_cons] at hmap
  refine (List.Perm.append_left _ (hmap.append_right _)).trans ?_
  exact List.perm_middle

/-- A block that leaves its list is one of those that are not free. -/
theorem perm_update_del {F : Nat → List Nat} {out : List Block} {k p : Nat} {ys zs : List Nat}
    (hk : k ≤ maxPageOrder) (hF : F k = ys ++ p :: zs) : (freeBlocks F ++ out).Perm
      (freeBlocks (update F k (ys ++ zs)) ++ (p, k) :: out) := by
  have perm : (F k).Perm (p :: update F k (ys ++ zs) k) := by
    rw [update_self, hF]
    exact List.perm_middle
  have blocks := freeBlocks_update hk perm
  rw [update_idem, update_eq_self] at blocks
  exact (blocks.append_right out).trans List.perm_middle.symm

theorem perm_update_put {F : Nat → List Nat} {out : List Block} {k p : Nat} {xs : List Nat}
    (hk : k ≤ maxPageOrder) (perm : xs.Perm (p :: F k)) :
    (freeBlocks F ++ (p, k) :: out).Perm (freeBlocks (update F k xs) ++ out) :=
  List.perm_middle.trans ((freeBlocks_update hk perm).append_right out).symm

/-- The lists `F` are linked, counted and recorded in the pages, and their blocks are disjoint
from each other and from the blocks `out`. -/
structure FreeLists (z : Zone) (F : Nat → List Nat) (out : List Block) : Prop where
  lists : ∀ k ≤ maxPageOrder, z.links.Between (.head k) ((F k).map .page) (.head k)
  nrFree : ∀ k ≤ maxPageOrder, z.nrFree k = (F k).length
  listed : ∀ k ≤ maxPageOrder, ∀ p ∈ F k, z.priv p = k
  apart : (freeBlocks F ++ out).Pairwise Apart

namespace FreeLists

variable {z : Zone} {F : Nat → List Nat} {out : List Block} {p k : Nat}

/-- The first page of a block that is not free is on no list. -/
theorem not_listed (free : FreeLists z F ((p, k) :: out)) {j : Nat} (hj : j ≤ maxPageOrder) :
    p ∉ F j := by
  intro hp
  have apart := (List.pairwise_append.mp free.apart).2.2 (p, j)
    (mem_freeBlocks.mpr ⟨hj, hp⟩) (p, k) List.mem_cons_self
  exact apart p ⟨in_first p j, in_first p k⟩

/-- A page is on the list of one order only. -/
theorem order_unique (free : FreeLists z F out) {i j : Nat} (hi : i ≤ maxPageOrder)
    (hj : j ≤ maxPageOrder) (hpi : p ∈ F i) (hpj : p ∈ F j) : i = j :=
  (free.listed i hi p hpi).symm.trans (free.listed j hj p hpj)

theorem first (free : FreeLists z F out) (hk : k ≤ maxPageOrder) :
    z.getPageFromFreeArea k = some (F k).head? := by
  have hnext := (free.lists k hk).next_anchor
  rw [Zone.getPageFromFreeArea, listFirstEntryOrNull, hnext]
  cases hF : F k with
  | nil => simp
  | cons q qs => simp

/-- Taking a block off its list. -/
theorem del (free : FreeLists z F out) (hk : k ≤ maxPageOrder) {ys zs : List Nat}
    (hF : F k = ys ++ p :: zs) :
    ∃ z', z.delPageFromFreeList p k = some z' ∧ z'.priv = update z.priv p 0 ∧
      z'.links.next (.page p) = none ∧
      Links.SameOutside z.links z'.links (.page p :: .head k :: (ys ++ zs).map .page) ∧
      FreeLists z' (update F k (ys ++ zs)) ((p, k) :: out) := by
  have circle := free.lists k hk
  rw [hF, List.map_append, List.map_cons] at circle
  obtain ⟨links, hdel, between, unlinked, same⟩ := listDel_spec circle
  rw [← List.map_append] at between same
  have hnodup : (ys ++ p :: zs).Nodup := by
    have := circle.nodup_left.of_cons
    rw [← List.map_cons, ← List.map_append] at this
    exact this.of_map _
  have hpk : p ∈ F k := by simp [hF]
  have hrest : ∀ q ∈ ys ++ zs, q ∈ F k ∧ q ≠ p := by
    intro q hq
    rw [hF]
    grind
  refine ⟨_, by rw [Zone.delPageFromFreeList, hdel]; rfl, rfl, unlinked, same, ?_, ?_, ?_, ?_⟩
  · intro j hj
    by_cases hjk : j = k
    · subst hjk
      simpa [Zone.setPagePrivate] using between
    · rw [update_of_ne hjk]
      -- the other lists share no node with this one
      refine (free.lists j hj).frame same ?_ ?_ ?_
      · simpa using hjk
      · simpa using hjk
      · intro x hx
        obtain ⟨q, hq, rfl⟩ := List.mem_map.mp hx
        have : q ∉ F k := fun hqk => hjk (free.order_unique hj hk hq hqk)
        grind
  · intro j hj
    by_cases hjk : j = k
    · subst hjk
      have := free.nrFree j hj
      simp [this, hF]
    · simpa [Zone.setPagePrivate, hjk] using free.nrFree j hj
  · intro j hj q hq
    have hqj : q ∈ F j ∧ q ≠ p := by
      by_cases hjk : j = k
      · subst hjk
        rw [update_self] at hq
        exact hrest q hq
      · rw [update_of_ne hjk] at hq
        exact ⟨hq, fun h => hjk (free.order_unique hj hk (h ▸ hq) hpk)⟩
    simpa [Zone.setPagePrivate, hqj.2] using free.listed j hj q hqj.1
  · exact ((perm_update_del hk hF).pairwise_iff Apart.symm).mp free.apart

/-- Putting a block on the list of its order, at whichever end. -/
theorem put (free : FreeLists z F ((p, k) :: out)) (hk : k ≤ maxPageOrder) {xs : List Nat}
    {links : Links ListNode} (between : links.Between (.head k) (xs.map .page) (.head k))
    (perm : xs.Perm (p :: F k))
    (same : Links.SameOutside z.links links (.page p :: .head k :: (F k).map .page)) :
    FreeLists
      { links, priv := update z.priv p k
        nrFree := update z.nrFree k (z.nrFree k + 1) }
      (update F k xs) out := by
  refine ⟨?_, ?_, ?_, ?_⟩
  · intro j hj
    by_cases hjk : j = k
    · subst hjk
      simpa using between
    · rw [update_of_ne hjk]
      refine (free.lists j hj).frame same ?_ ?_ ?_
      · simpa using hjk
      · simpa using hjk
      · intro x hx
        obtain ⟨q, hq, rfl⟩ := List.mem_map.mp hx
        have hqk : q ∉ F k := fun hqk => hjk (free.order_unique hj hk hq hqk)
        have hqp : q ≠ p := fun h => free.not_listed hj (h ▸ hq)
        grind
  · intro j hj
    by_cases hjk : j = k
    · subst hjk
      simp [free.nrFree j hj, perm.length_eq]
    · simpa [hjk] using free.nrFree j hj
  · intro j hj q hq
    have kept : q ∈ F j → update z.priv p k q = j := by
      intro hq
      have hqp : q ≠ p := fun h => free.not_listed hj (h ▸ hq)
      rw [update_of_ne hqp]
      exact free.listed j hj q hq
    by_cases hjk : j = k
    · subst hjk
      rw [update_self, perm.mem_iff, List.mem_cons] at hq
      rcases hq with rfl | hq
      · simp
      · exact kept hq
    · rw [update_of_ne hjk] at hq
      exact kept hq
  · exact ((perm_update_put hk perm).pairwise_iff Apart.symm).mp free.apart

/-- `add_to_free_list` with the order recorded in the page. -/
theorem add (free : FreeLists z F ((p, k) :: out)) (hk : k ≤ maxPageOrder) :
    ∃ z', (z.addToFreeList p k).map (fun z => z.setPagePrivate p k) = some z' ∧
      z'.priv = update z.priv p k ∧ FreeLists z' (update F k (p :: F k)) out := by
  have fresh : ListNode.page p ∉ ListNode.head k :: (F k).map .page := by
    have := free.not_listed hk
    simpa using this
  obtain ⟨links, hadd, between, same⟩ := listAdd_spec (free.lists k hk) fresh
  rw [← List.map_cons] at between
  exact ⟨_, by simp only [Zone.addToFreeList, hadd]; rfl, rfl,
    free.put hk between (List.Perm.refl _) same⟩

end FreeLists

/-- The lists `F` are linked, counted and recorded in the pages, and together with the
blocks `out` that are not free they tile the set `S`. -/
structure BuddyInv (z : Zone) (F : Nat → List Nat) (out : List Block) (S : Nat → Prop) : Prop where
  lists : ∀ k ≤ maxPageOrder, z.links.Between (.head k) ((F k).map .page) (.head k)
  nrFree : ∀ k ≤ maxPageOrder, z.nrFree k = (F k).length
  listed : ∀ k ≤ maxPageOrder, ∀ p ∈ F k, z.priv p = k
  priv : ∀ p, z.priv p ≠ 0 → z.priv p ≤ maxPageOrder ∧ p ∈ F (z.priv p)
  linked : ∀ p, (z.links.next (.page p)).isSome → ∃ k ≤ maxPageOrder, p ∈ F k
  tiling : Tiling (maxPageOrder + 1) (freeBlocks F ++ out) S

namespace BuddyInv

variable {z : Zone} {F : Nat → List Nat} {out out' : List Block} {S : Nat → Prop} {p k : Nat}

theorem freeLists (inv : BuddyInv z F out S) : FreeLists z F out :=
  ⟨inv.lists, inv.nrFree, inv.listed, inv.tiling.apart⟩

/-- The blocks that are not free may be regrouped without touching the zone. -/
theorem regroup (inv : BuddyInv z F out S) (h : Tiling (maxPageOrder + 1) (freeBlocks F ++ out) S →
      Tiling (maxPageOrder + 1) (freeBlocks F ++ out') S) : BuddyInv z F out' S :=
  { inv with tiling := h inv.tiling }

/-- Taking a block off its list. -/
theorem del (inv : BuddyInv z F out S) (hk : k ≤ maxPageOrder) (hp : p ∈ F k) :
    ∃ z' F', z.delPageFromFreeList p k = some z' ∧ BuddyInv z' F' ((p, k) :: out) S := by
  obtain ⟨ys, zs, hF⟩ := List.append_of_mem hp
  obtain ⟨z', hdel, hpriv, unlinked, same, free⟩ := inv.freeLists.del hk hF
  have hstill : ∀ q j, q ∈ F j → q ≠ p → q ∈ update F k (ys ++ zs) j := by
    intro q j hq hqp
    by_cases hjk : j = k
    · subst hjk
      rw [update_self]
      grind
    · rwa [update_of_ne hjk]
  refine ⟨z', _, hdel, free.lists, free.nrFree, free.listed, ?_, ?_,
    inv.tiling.perm (perm_update_del hk hF)⟩
  · intro q hq
    have hqp : q ≠ p := by
      rintro rfl
      simp [hpriv] at hq
    rw [hpriv, update_of_ne hqp] at hq ⊢
    obtain ⟨horder, hmem⟩ := inv.priv q hq
    exact ⟨horder, hstill q _ hmem hqp⟩
  · intro q hq
    have hqp : q ≠ p := by
      rintro rfl
      simp [unlinked] at hq
    have hmem : ∃ j ≤ maxPageOrder, q ∈ F j := by
      by_cases hqk : q ∈ F k
      · exact ⟨k, hk, hqk⟩
      · refine inv.linked q ?_
        rw [← (same (.page q) (by grind)).1]
        exact hq
    obtain ⟨j, hj, hqj⟩ := hmem
    exact ⟨j, hj, hstill q j hqj hqp⟩

/-- Putting a block on the list of its order, at whichever end. -/
theorem put (inv : BuddyInv z F ((p, k) :: out) S) (hk : k ≤ maxPageOrder) {xs : List Nat}
    {links : Links ListNode} (between : links.Between (.head k) (xs.map .page) (.head k))
    (perm : xs.Perm (p :: F k))
    (same : Links.SameOutside z.links links (.page p :: .head k :: (F k).map .page)) :
    BuddyInv
      { links, priv := update z.priv p k
        nrFree := update z.nrFree k (z.nrFree k + 1) }
      (update F k xs) out S := by
  have hmem : ∀ q, q ∈ xs ↔ q = p ∨ q ∈ F k := fun q => by rw [perm.mem_iff, List.mem_cons]
  have free := inv.freeLists.put hk between perm same
  refine ⟨free.lists, free.nrFree, free.listed, ?_, ?_, inv.tiling.perm (perm_update_put hk perm)⟩
  · intro q hq
    by_cases hqp : q = p
    · subst hqp
      simp only [update_self]
      exact ⟨hk, (hmem q).mpr (.inl rfl)⟩
    · simp only [update_of_ne hqp] at hq ⊢
      obtain ⟨horder, hqF⟩ := inv.priv q hq
      refine ⟨horder, ?_⟩
      by_cases hqk : z.priv q = k
      · rw [hqk, update_self]
        exact (hmem q).mpr (.inr (hqk ▸ hqF))
      · rwa [update_of_ne hqk]
  · intro q hq
    by_cases hqk : q = p ∨ q ∈ F k
    · exact ⟨k, hk, by rw [update_self]; exact (hmem q).mpr hqk⟩
    · obtain ⟨j, hj, hqj⟩ := inv.linked q (by rw [← (same (.page q) (by grind)).1]; exact hq)
      have hjk : j ≠ k := by
        rintro rfl
        exact hqk (.inr hqj)
      exact ⟨j, hj, by rwa [update_of_ne hjk]⟩

/-- `add_to_free_list` or `add_to_free_list_tail`, with the order recorded in the page. -/
theorem add (inv : BuddyInv z F ((p, k) :: out) S) (hk : k ≤ maxPageOrder) :
    (∃ z' F', (z.setPagePrivate p k).addToFreeList p k = some z' ∧ BuddyInv z' F' out S) ∧
      ∃ z' F', (z.setPagePrivate p k).addToFreeListTail p k = some z' ∧ BuddyInv z' F' out S := by
  have fresh : ListNode.page p ∉ ListNode.head k :: (F k).map .page := by
    have := inv.freeLists.not_listed hk
    simpa using this
  constructor
  · obtain ⟨links, hadd, between, same⟩ := listAdd_spec (inv.lists k hk) fresh
    rw [← List.map_cons] at between
    exact ⟨_, _, by simp only [Zone.addToFreeList, Zone.setPagePrivate, hadd]; rfl,
      inv.put hk between (List.Perm.refl _) same⟩
  · obtain ⟨links, hadd, between, same⟩ := listAddTail_spec (inv.lists k hk) fresh
    have hmap : (F k).map ListNode.page ++ [.page p] = (F k ++ [p]).map .page := by simp
    rw [hmap] at between
    exact ⟨_, _, by simp only [Zone.addToFreeListTail, Zone.setPagePrivate, hadd]; rfl,
      inv.put hk between (List.perm_append_singleton _ _) same⟩

end BuddyInv

/-- The two stores of `expand` may be exchanged. -/
theorem Zone.addToFreeList_setPagePrivate (z : Zone) (p k : Nat) :
    (z.setPagePrivate p k).addToFreeList p k =
      (z.addToFreeList p k).map fun z => z.setPagePrivate p k := by
  simp only [Zone.addToFreeList, Zone.setPagePrivate]
  cases listAdd z.links (.page p) (.head k) <;> rfl

namespace BuddyInv

variable {z : Zone} {F : Nat → List Nat} {out : List Block} {S : Nat → Prop} {p k : Nat}

/-- `expand` gives the upper halves back and keeps a block of the wanted order. -/
theorem expand (inv : BuddyInv z F ((p, k) :: out) S) (hk : k ≤ maxPageOrder) {low : Nat}
    (hlow : low ≤ k) :
    ∃ z' F', z.expand p low k = some z' ∧ BuddyInv z' F' ((p, low) :: out) S := by
  induction k generalizing z F with
  | zero =>
    obtain rfl : low = 0 := Nat.le_zero.mp hlow
    exact ⟨z, F, rfl, inv⟩
  | succ high ih =>
    rw [Zone.expand]
    by_cases hlt : low < high + 1
    · have halves : BuddyInv z F ((p + 2 ^ high, high) :: (p, high) :: out) S := by
        refine inv.regroup fun tiling => ?_
        have front := (tiling.perm List.perm_middle).split
        refine front.perm ((List.Perm.swap _ _ _).trans ?_)
        exact (List.Perm.cons _ List.perm_middle.symm).trans List.perm_middle.symm
      obtain ⟨⟨z₁, F₁, hadd, inv₁⟩, -⟩ := halves.add (by omega)
      rw [Zone.addToFreeList_setPagePrivate] at hadd
      obtain ⟨z₂, hput, rfl⟩ := Option.map_eq_some_iff.mp hadd
      obtain ⟨z', F', hexpand, inv'⟩ := ih inv₁ (by omega) (by omega)
      refine ⟨z', F', ?_, inv'⟩
      rw [if_pos hlt, hput]
      exact hexpand
    · obtain rfl : low = high + 1 := by omega
      exact ⟨z, F, if_neg hlt, inv⟩

/-- `__rmqueue_smallest` returns and moves one block of the wanted order out, if it
returns a page at all. -/
theorem rmqueueFrom (inv : BuddyInv z F out S) {order : Nat} (left : Nat) (hk : order ≤ k)
    (hleft : k + left = max k (maxPageOrder + 1)) :
    ∃ r z' F', z.rmqueueFrom order left k = some (r, z') ∧
      BuddyInv z' F' ((r.map fun q => (q, order)).toList ++ out) S := by
  induction left generalizing k with
  | zero => exact ⟨none, z, F, rfl, inv⟩
  | succ left ih =>
    have hbound : k ≤ maxPageOrder := by omega
    rw [Zone.rmqueueFrom, inv.freeLists.first hbound]
    cases hF : F k with
    | nil => exact ih (by omega) (by omega)
    | cons q qs =>
      obtain ⟨z₁, F₁, hdel, inv₁⟩ := inv.del hbound (by rw [hF]; exact List.mem_cons_self)
      obtain ⟨z', F', hexpand, inv'⟩ := inv₁.expand hbound hk
      refine ⟨some q, z', F', ?_, inv'⟩
      simp [hdel, hexpand]

/-- The merge loop joins the block with free buddies only, provided that the buddy of
a block of order 0 is on a list. From order 1 on `private` tells free blocks apart. -/
theorem merge (left : Nat) (inv : BuddyInv z F ((p, k) :: out) S) (hleft : k + left = maxPageOrder)
    (paired : k = 0 → (z.links.next (.page (p ^^^ 1))).isSome) (last : Nat) :
    ∃ z' F' q j b, z.mergeBuddies left p k last = some (z', q, j, b) ∧ j ≤ maxPageOrder ∧
      BuddyInv z' F' ((q, j) :: out) S := by
  induction left generalizing z F p k last with
  | zero => exact ⟨z, F, p, k, last, rfl, by omega, inv⟩
  | succ left ih =>
    rw [Zone.mergeBuddies]
    by_cases hbuddy : z.isBuddy p k = true
    · have hpriv : z.priv (p ^^^ 2 ^ k) = k := of_decide_eq_true hbuddy
      have hfree : p ^^^ 2 ^ k ∈ F k := by
        by_cases hk : k = 0
        · subst hk
          obtain ⟨j, hj, hmem⟩ := inv.linked _ (paired rfl)
          rw [pow_zero] at hpriv ⊢
          rwa [← (inv.listed j hj _ hmem).symm.trans hpriv]
        · have := (inv.priv _ (by rwa [hpriv])).2
          rwa [hpriv] at this
      obtain ⟨z₁, F₁, hdel, inv₁⟩ := inv.del (by omega) hfree
      have joined : BuddyInv z₁ F₁ (((p ^^^ 2 ^ k) &&& p, k + 1) :: out) S := by
        refine inv₁.regroup fun tiling => ?_
        have front := (tiling.perm List.perm_middle).perm (List.Perm.cons _ List.perm_middle)
        have pair := (front.perm (List.Perm.swap _ _ _)).join_buddy (by omega)
        exact pair.perm List.perm_middle.symm
      obtain ⟨z', F', q, j, b, hrest, hj, inv'⟩ :=
        ih joined (by omega) (fun h => absurd h (by omega)) (p ^^^ 2 ^ k)
      refine ⟨z', F', q, j, b, ?_, hj, inv'⟩
      simp only [Zone.findBuddyPfn, hbuddy, if_true, hdel]
      exact hrest
    · exact ⟨z, F, p, k, _, if_neg hbuddy, by omega, inv⟩

theorem freeOnePage (inv : BuddyInv z F ((p, k) :: out) S)
    (paired : k = 0 → (z.links.next (.page (p ^^^ 1))).isSome) (toTail : Bool) :
    ∃ z' F', z.freeOnePage p k toTail = some z' ∧ BuddyInv z' F' out S := by
  have hk : k < maxPageOrder + 1 := inv.tiling.order (p, k) (by simp)
  obtain ⟨z₁, F₁, q, j, b, hmerge, hj, inv₁⟩ :=
    inv.merge (maxPageOrder - k) (by omega) paired 0
  obtain ⟨⟨zh, Fh, hhead, invh⟩, ⟨zt, Ft, htail, invt⟩⟩ := inv₁.add hj
  simp only [Zone.freeOnePage, hmerge, Option.bind_eq_bind, Option.bind_some]
  split
  · exact ⟨zt, Ft, htail, invt⟩
  · exact ⟨zh, Fh, hhead, invh⟩

theorem initial : BuddyInv Zone.initial (fun _ => []) [] fun _ => False := by
  refine ⟨?_, fun _ _ => rfl, by simp, by simp [Zone.initial], by simp [Zone.initial], ?_⟩
  · intro k _
    exact ⟨by simp [Zone.initial, Links.Linked], by simp, by simp⟩
  · rw [freeBlocks_nil]
    exact Tiling.nil _

end BuddyInv

/-! ## Runs -/

/-- The zone, the blocks that are allocated and the blocks it was built from. -/
structure BuddyWorld where
  zone : Zone
  out : List Block
  seeded : List Block

inductive BuddyOp where
  | seed (pfn order : Nat) (toTail : Bool)
  | alloc (order : Nat)
  | free (pfn order : Nat) (toTail : Bool)

def BuddyWorld.initial : BuddyWorld := ⟨Zone.initial, [], []⟩

/-- Seeding and freeing are the same call; they differ in where the block comes from. -/
def buddyStep (w : BuddyWorld) : BuddyOp → Option BuddyWorld
  | .seed pfn order toTail => do
    let zone ← w.zone.freeOnePage pfn order toTail
    return { w with zone, seeded := (pfn, order) :: w.seeded }
  | .alloc order => do
    let (page, zone) ← w.zone.rmqueueSmallest order
    return { w with zone, out := (page.map fun pfn => (pfn, order)).toList ++ w.out }
  | .free pfn order toTail => do
    let zone ← w.zone.freeOnePage pfn order toTail
    return { w with zone, out := w.out.erase (pfn, order) }

/-- Only new aligned blocks are seeded and only allocated blocks are freed. -/
def Owned (w : BuddyWorld) : BuddyOp → Prop
  | .seed pfn order _ => order ≤ maxPageOrder ∧ Aligned (pfn, order) ∧
      ∀ b ∈ w.seeded, Apart (pfn, order) b
  | .alloc _ => True
  | .free pfn order _ => (pfn, order) ∈ w.out

/-- A single page is freed only while its buddy is on a free list. -/
def Paired (w : BuddyWorld) : BuddyOp → Prop
  | .seed pfn order _ => order = 0 → (w.zone.links.next (.page (pfn ^^^ 1))).isSome
  | .alloc _ => True
  | .free pfn order _ => order = 0 → (w.zone.links.next (.page (pfn ^^^ 1))).isSome

instance (w : BuddyWorld) : ∀ op, Decidable (Owned w op)
  | .seed _ _ _ => inferInstanceAs (Decidable (_ ∧ _ ∧ ∀ b ∈ w.seeded, _))
  | .alloc _ => .isTrue trivial
  | .free pfn order _ => inferInstanceAs (Decidable ((pfn, order) ∈ w.out))

instance (w : BuddyWorld) : ∀ op, Decidable (Paired w op)
  | .seed _ _ _ => inferInstanceAs (Decidable (_ → _))
  | .alloc _ => .isTrue trivial
  | .free _ _ _ => inferInstanceAs (Decidable (_ → _))

/-- The pages the zone was built from. -/
def BuddyWorld.Page (w : BuddyWorld) (x : Nat) : Prop := ∃ b ∈ w.seeded, In x b

theorem BuddyInv.step {w : BuddyWorld} {F : Nat → List Nat}
    (inv : BuddyInv w.zone F w.out w.Page) {op : BuddyOp} (owned : Owned w op)
    (paired : Paired w op) :
    ∃ w', buddyStep w op = some w' ∧ ∃ F', BuddyInv w'.zone F' w'.out w'.Page := by
  cases op with
  | seed pfn order toTail =>
    obtain ⟨horder, aligned, apart⟩ := owned
    have fresh : ∀ x, In x (pfn, order) → ¬w.Page x :=
      fun x hx ⟨b, hb, hxb⟩ => apart b hb x ⟨hx, hxb⟩
    have extended : BuddyInv w.zone F ((pfn, order) :: w.out)
        fun x => In x (pfn, order) ∨ w.Page x :=
      { inv with
        tiling := (inv.tiling.cons aligned (Nat.lt_succ_iff.mpr horder) fresh).perm
          List.perm_middle.symm }
    obtain ⟨zone, F', hfree, inv'⟩ := extended.freeOnePage paired toTail
    refine ⟨_, by rw [buddyStep, hfree]; rfl, F', ?_⟩
    have pages : (fun x => In x (pfn, order) ∨ w.Page x) =
        BuddyWorld.Page { w with zone, seeded := (pfn, order) :: w.seeded } := by
      funext x
      simp [BuddyWorld.Page]
    exact pages ▸ inv'
  | alloc order =>
    obtain ⟨r, zone, F', hrmqueue, inv'⟩ :=
      inv.rmqueueFrom (maxPageOrder + 1 - order) (Nat.le_refl order) (by omega)
    exact ⟨_, by rw [buddyStep, Zone.rmqueueSmallest, hrmqueue]; rfl, F', inv'⟩
  | free pfn order toTail =>
    have pending : BuddyInv w.zone F ((pfn, order) :: w.out.erase (pfn, order)) w.Page :=
      inv.regroup fun tiling => tiling.perm ((List.perm_cons_erase owned).append_left _)
    obtain ⟨zone, F', hfree, inv'⟩ := pending.freeOnePage paired toTail
    exact ⟨_, by rw [buddyStep, hfree]; rfl, F', inv'⟩

/-- Every run of seeds, allocations and frees in which a single page is freed only
while its buddy is free ends without a fault. The lists then hold disjoint aligned
blocks that meet no allocated block, the counters count them, and free and allocated
pages together are the pages the zone was built from. -/
theorem buddy_runs {ops : List BuddyOp}
    (meets : Run.Meets buddyStep (fun w op => Owned w op ∧ Paired w op) BuddyWorld.initial ops) :
    ∃ w F, Run.exec buddyStep BuddyWorld.initial ops = some w ∧
      (∀ k ≤ maxPageOrder, w.zone.links.Between (.head k) ((F k).map .page) (.head k)) ∧
      (freeBlocks F).Pairwise Apart ∧ (∀ b ∈ freeBlocks F, Aligned b) ∧
      (∀ b ∈ freeBlocks F, ∀ c ∈ w.out, Apart b c) ∧
      (∀ k ≤ maxPageOrder, w.zone.nrFree k = (F k).length) ∧
      ∀ x, (∃ b ∈ freeBlocks F ++ w.out, In x b) ↔ ∃ b ∈ w.seeded, In x b := by
  have start : BuddyInv BuddyWorld.initial.zone (fun _ => []) BuddyWorld.initial.out
      BuddyWorld.initial.Page := by
    have none : BuddyWorld.initial.Page = fun _ => False := by
      funext x
      simp [BuddyWorld.Page, BuddyWorld.initial]
    rw [none]
    exact BuddyInv.initial
  obtain ⟨w, run, F, inv⟩ := Run.total
    (I := fun w : BuddyWorld => ∃ F, BuddyInv w.zone F w.out w.Page) ⟨_, start⟩ meets
    fun _ _ ⟨_, inv⟩ cond => inv.step cond.1 cond.2
  obtain ⟨free, -, apart⟩ := List.pairwise_append.mp inv.tiling.apart
  exact ⟨w, F, run, inv.lists, free, fun b hb => inv.tiling.aligned b (List.mem_append_left _ hb),
    apart, inv.nrFree, inv.tiling.covers⟩

/-- Split a block of four pages down to single pages and merge it again. -/
def splitAndMerge : List BuddyOp :=
  [.seed 4 2 true, .alloc 0, .alloc 1, .free 4 0 false, .free 6 1 false]

theorem buddy_runs_splitAndMerge :
    ∃ w, Run.exec buddyStep BuddyWorld.initial splitAndMerge = some w ∧
      ∃ F, (∀ k ≤ maxPageOrder, w.zone.nrFree k = (F k).length) ∧
        (freeBlocks F).Pairwise Apart := by
  obtain ⟨w, F, run, -, apart, -, -, count, -⟩ :=
    @buddy_runs splitAndMerge (by decide +kernel)
  exact ⟨w, run, F, count, apart⟩

/-- Both pages of a block of two are allocated, then the first one is freed: its buddy
is taken for a free block, and deleting it from its list follows a poisoned pointer. -/
theorem free_with_allocated_buddy_faults : Run.Meets buddyStep Owned BuddyWorld.initial
        [.seed 0 1 true, .alloc 0, .alloc 0, .free 0 0 false] ∧
      Run.exec buddyStep BuddyWorld.initial
        [.seed 0 1 true, .alloc 0, .alloc 0, .free 0 0 false] = none := by
  refine ⟨by decide +kernel, ?_⟩
  have stuck : (Run.exec buddyStep BuddyWorld.initial
      [.seed 0 1 true, .alloc 0, .alloc 0, .free 0 0 false]).isNone = true := by
    decide +kernel
  exact Option.isNone_iff_eq_none.mp stuck

end KernelTravel.Mm

import Mathlib.Data.Nat.Find
import KernelTravel.Mm.Buddy

/-!
# Splitting a block

`__rmqueue_smallest` takes the first block of the least order that has one. `expand` then
halves it down to the wanted order and puts each upper half in front of the list of its
order. Nothing here needs the blocks to be aligned.
-/

namespace KernelTravel.Mm

open Function

open Dyadic

/-- The lists after the upper halves of the block of order `high` at `p` are put back. -/
def halvesAdded (F : Nat → List Nat) (p low high : Nat) : Nat → List Nat :=
  fun i => if low ≤ i ∧ i < high then (p + 2 ^ i) :: F i else F i

theorem halvesAdded_of_le {F : Nat → List Nat} {p low high : Nat} (h : high ≤ low) :
    halvesAdded F p low high = F := by
  funext i
  apply if_neg
  omega

/-- The upper half of order `high` comes first, then the halves of the lower one. -/
theorem halvesAdded_update {F : Nat → List Nat} {p low high : Nat} (h : low ≤ high) :
    halvesAdded (update F high ((p + 2 ^ high) :: F high)) p low high =
      halvesAdded F p low (high + 1) := by
  funext i
  rcases Nat.lt_trichotomy i high with hi | rfl | hi
  · have hiff : low ≤ i ∧ i < high ↔ low ≤ i ∧ i < high + 1 := by omega
    simp only [halvesAdded, hiff, update_of_ne (Nat.ne_of_lt hi)]
  · simp [halvesAdded, h]
  · have hout : ¬(low ≤ i ∧ i < high) := by omega
    have hout' : ¬(low ≤ i ∧ i < high + 1) := by omega
    simp only [halvesAdded, hout, hout', if_false, update_of_ne (Nat.ne_of_gt hi)]

namespace FreeLists

variable {z : Zone} {F : Nat → List Nat} {out : List Block} {p k : Nat}

/-- `expand` puts the upper halves back, records their orders and changes no other page. -/
theorem expand (free : FreeLists z F ((p, k) :: out)) (hk : k ≤ maxPageOrder) {low : Nat}
    (hlow : low ≤ k) :
    ∃ z', z.expand p low k = some z' ∧ FreeLists z' (halvesAdded F p low k) ((p, low) :: out) ∧
      ∀ q, (∀ i, low ≤ i → i < k → q ≠ p + 2 ^ i) → z'.priv q = z.priv q := by
  induction k generalizing z F with
  | zero =>
    obtain rfl : low = 0 := Nat.le_zero.mp hlow
    refine ⟨z, rfl, ?_, fun _ _ => rfl⟩
    rwa [halvesAdded_of_le (Nat.le_refl 0)]
  | succ high ih =>
    rw [Zone.expand]
    by_cases hlt : low < high + 1
    · have halves : FreeLists z F ((p + 2 ^ high, high) :: (p, high) :: out) := by
        refine { free with apart := ?_ }
        have front := pairwise_halves ((List.perm_middle.pairwise_iff Apart.symm).mp free.apart)
        refine (List.Perm.pairwise_iff Apart.symm ?_).mp front
        refine (List.Perm.swap _ _ _).trans ?_
        exact (List.Perm.cons _ List.perm_middle.symm).trans List.perm_middle.symm
      obtain ⟨z₁, hadd, hpriv, free₁⟩ := halves.add (Nat.le_of_succ_le hk)
      obtain ⟨z₂, hput, rfl⟩ := Option.map_eq_some_iff.mp hadd
      have hle : low ≤ high := Nat.lt_succ_iff.mp hlt
      obtain ⟨z', hexpand, free', kept⟩ := ih free₁ (Nat.le_of_succ_le hk) hle
      rw [halvesAdded_update hle] at free'
      refine ⟨z', ?_, free', ?_⟩
      · rw [if_pos hlt, hput]
        exact hexpand
      · intro q hq
        have hqhigh : q ≠ p + 2 ^ high := hq high hle (Nat.lt_succ_self high)
        rw [kept q fun i hi hlt => hq i hi (Nat.lt_succ_of_lt hlt), hpriv,
          update_of_ne hqhigh]
    · obtain rfl : low = high + 1 := Nat.le_antisymm hlow (Nat.not_lt.mp hlt)
      refine ⟨z, if_neg hlt, ?_, fun _ _ => rfl⟩
      rwa [halvesAdded_of_le (Nat.le_refl _)]

/-- The loop of `__rmqueue_smallest` passes the orders whose lists are empty. -/
theorem rmqueueFrom_skip (free : FreeLists z F out) {low j : Nat} (hlow : low ≤ j)
    (hj : j ≤ maxPageOrder + 1) (empty : ∀ i, low ≤ i → i < j → F i = []) {left : Nat} :
    z.rmqueueFrom k (left + (j - low)) low = z.rmqueueFrom k left j := by
  induction hn : j - low generalizing low with
  | zero =>
    obtain rfl : low = j := by omega
    rfl
  | succ n ih =>
    have hempty : F low = [] := empty low (Nat.le_refl low) (by omega)
    have hbound : low ≤ maxPageOrder := by omega
    rw [← Nat.add_assoc, Zone.rmqueueFrom, free.first hbound, hempty]
    exact ih (by omega) (fun i hi => empty i (Nat.le_of_succ_le hi)) (by omega)

/-- `__rmqueue_smallest` where the first block of the least order that has one is at `p`. -/
theorem rmqueueSmallest_some (free : FreeLists z F []) {j : Nat} {ps : List Nat} (hkj : k ≤ j)
    (hj : j ≤ maxPageOrder) (hF : F j = p :: ps) (hleast : ∀ i, k ≤ i → i < j → F i = []) :
    ∃ z', z.rmqueueSmallest k = some (some p, z') ∧
      FreeLists z' (halvesAdded (update F j ps) p k j) [(p, k)] ∧
      ∀ q, (∀ i, k ≤ i → i < j → q ≠ p + 2 ^ i) → z'.priv q = update z.priv p 0 q := by
  have hfirst : F j = [] ++ p :: ps := hF
  obtain ⟨z₁, hdel, hpriv, -, -, free₁⟩ := free.del hj hfirst
  obtain ⟨z', hexpand, free', kept⟩ := free₁.expand hj hkj
  refine ⟨z', ?_, free', fun q hq => by rw [kept q hq, hpriv]⟩
  have hcount : maxPageOrder + 1 - k = (maxPageOrder - j) + 1 + (j - k) := by omega
  rw [Zone.rmqueueSmallest, hcount, free.rmqueueFrom_skip hkj (Nat.le_succ_of_le hj) hleast,
    Zone.rmqueueFrom, free.first hj, hF]
  simp [hdel, hexpand]

theorem rmqueueSmallest_none (free : FreeLists z F out) (hk : k ≤ maxPageOrder)
    (hempty : ∀ j, k ≤ j → j ≤ maxPageOrder → F j = []) : z.rmqueueSmallest k = some (none, z) := by
  have hall : ∀ i, k ≤ i → i < maxPageOrder + 1 → F i = [] :=
    fun i hi hlt => hempty i hi (Nat.lt_succ_iff.mp hlt)
  have skip : z.rmqueueFrom k (0 + (maxPageOrder + 1 - k)) k = some (none, z) :=
    free.rmqueueFrom_skip (Nat.le_succ_of_le hk) (Nat.le_refl _) hall
  rwa [Nat.zero_add] at skip

end FreeLists

/-- What `__rmqueue_smallest` leaves when it splits the block of order `j` at `p`: the lists
hold what they held, without this block and with the upper halves in front; returned pages and
halves are disjoint and make up the block; no other page is changed. -/
structure SplitRight (z z' : Zone) (F : Nat → List Nat) (p k j : Nat) : Prop where
  lists : FreeLists z' (halvesAdded (update F j (F j).tail) p k j) [(p, k)]
  parts : ∀ x, In x (p, j) ↔ In x (p, k) ∨ ∃ i, k ≤ i ∧ i < j ∧ In x (p + 2 ^ i, i)
  apart : ∀ i, k ≤ i → i < j → Apart (p, k) (p + 2 ^ i, i) ∧
    ∀ i', k ≤ i' → i' < i → Apart (p + 2 ^ i', i') (p + 2 ^ i, i)
  halves : ∀ i, k ≤ i → i < j → z'.priv (p + 2 ^ i) = i
  first : z'.priv p = 0
  others : ∀ q, q ≠ p → (∀ i, k ≤ i → i < j → q ≠ p + 2 ^ i) → z'.priv q = z.priv q

theorem apart_halves_of_lt {p i j : Nat} (h : i < j) :
    Apart (p, i) (p + 2 ^ j, j) ∧ Apart (p + 2 ^ i, i) (p + 2 ^ j, j) := by
  have hpow : 2 ^ (i + 1) ≤ 2 ^ j := Nat.pow_le_pow_right (by decide) h
  rw [Nat.pow_succ] at hpow
  constructor
  · apply apart_iff.mpr
    left
    dsimp only
    omega
  · apply apart_iff.mpr
    left
    dsimp only
    omega

/-- `__rmqueue_smallest` on disjoint blocks: it splits the first block of the least order that
has one, and where there is none it changes nothing. -/
theorem rmqueueSmallest_splits {z : Zone} {F : Nat → List Nat} {k : Nat} (free : FreeLists z F [])
    (hk : k ≤ maxPageOrder) :
    (∀ j, k ≤ j → j ≤ maxPageOrder → F j ≠ [] → (∀ i, k ≤ i → i < j → F i = []) →
      ∃ p z', (F j).head? = some p ∧ z.rmqueueSmallest k = some (some p, z') ∧
        SplitRight z z' F p k j) ∧
    ((∀ j, k ≤ j → j ≤ maxPageOrder → F j = []) → z.rmqueueSmallest k = some (none, z)) := by
  constructor
  · intro j hkj hj hne hleast
    obtain ⟨p, ps, hF⟩ := List.exists_cons_of_ne_nil hne
    obtain ⟨z', hsome, free', kept⟩ := free.rmqueueSmallest_some hkj hj hF hleast
    have hnot : ∀ i, p ≠ p + 2 ^ i := by
      intro i
      have := Nat.two_pow_pos i
      omega
    refine ⟨p, z', by rw [hF]; rfl, hsome, ?_, fun x => in_cut hkj x, ?_, ?_, ?_, ?_⟩
    · rw [hF]
      exact free'
    · intro i hki hij
      refine ⟨?_, fun i' _ hlt => (apart_halves_of_lt hlt).2⟩
      rcases Nat.lt_or_eq_of_le hki with hlt | rfl
      · exact (apart_halves_of_lt hlt).1
      · exact apart_halves p k
    · intro i hki hij
      apply free'.listed i (by omega)
      simp [halvesAdded, hki, hij]
    · rw [kept p fun i _ _ => hnot i, update_self]
    · intro q hqp hq
      rw [kept q hq, update_of_ne hqp]
  · exact free.rmqueueSmallest_none hk

/-- A zone with a block of four pages at page 4. -/
theorem exists_freeFour : ∃ z, FreeLists z (update (fun _ => []) 2 [4]) [] := by
  have outside : FreeLists Zone.initial (fun _ => []) [(4, 2)] :=
    { BuddyInv.initial.freeLists with apart := by simp }
  obtain ⟨z, -, -, free⟩ := outside.add (by decide)
  exact ⟨z, free⟩

/-- The block is split for a single page. -/
theorem rmqueueSmallest_splits_four :
    ∃ z F z', FreeLists z F [] ∧ F 2 = [4] ∧ z.rmqueueSmallest 0 = some (some 4, z') ∧
      SplitRight z z' F 4 0 2 := by
  obtain ⟨z, free⟩ := exists_freeFour
  have hF : update (fun _ => []) 2 [4] 2 = [4] := update_self ..
  have hlower : ∀ i, 0 ≤ i → i < 2 → update (fun _ => []) 2 [4] i = [] :=
    fun i _ hi => update_of_ne (Nat.ne_of_lt hi) ..
  obtain ⟨p, z', hp, hsplit, right⟩ := (rmqueueSmallest_splits free (Nat.zero_le _)).1 2
    (Nat.zero_le 2) (by decide) (by simp) hlower
  obtain rfl : 4 = p := by simpa using hp
  exact ⟨z, _, z', free, hF, hsplit, right⟩

/-! ## Exhaustion -/

namespace Zone

/-- Call `f` until it returns a page. The rounds are counted; `none` says that they do not
suffice. -/
def retry (f : Zone → Option (Option Nat × Zone)) : Nat → Zone → Option (Option Nat × Zone)
  | 0, _ => none
  | rounds + 1, z => do
    let (page, z) ← f z
    if page.isSome then return (page, z) else retry f rounds z

/-- `__rmqueue`. -/
def rmqueueRetry (order rounds : Nat) : Zone → Option (Option Nat × Zone) :=
  retry (fun z => z.rmqueueSmallest order) rounds

def rmqueue (order rounds : Nat) : Zone → Option (Option Nat × Zone) :=
  retry (rmqueueRetry order rounds) rounds

/-- The zones of the node, each with the test that its name is `zone_names[1]`. -/
abbrev Node := List (Bool × Zone)

-- After `goto retry` the loop passes the same zones again, so only the call is repeated.
def getPageFromFreelist (order rounds : Nat) : Node → Option (Option Nat × Node)
  | [] => some (none, [])
  | (true, z) :: zones =>
    (retry (rmqueue order rounds) rounds z).map fun (page, z) => (page, (true, z) :: zones)
  | (false, z) :: zones =>
    (getPageFromFreelist order rounds zones).map fun (page, zones) => (page, (false, z) :: zones)

def allocPages (node : Node) (order rounds : Nat) : Option (Option Nat × Node) :=
  if maxPageOrder < order then some (none, node) else getPageFromFreelist order rounds node

/-- The call ends, and with a null pointer if no block is large enough. -/
def AllocRight (node : Node) (F : Nat → List Nat) (order : Nat) : Prop :=
  ∃ rounds page, (allocPages node order rounds).map Prod.fst = some page ∧
    ((∀ j, order ≤ j → j ≤ maxPageOrder → F j = []) → page = none)

variable {f : Zone → Option (Option Nat × Zone)} {z z' : Zone} {p : Nat}

theorem retry_page (h : f z = some (some p, z')) (rounds : Nat) :
    retry f (rounds + 1) z = some (some p, z') := by
  simp [retry, h]

/-- A call that changes nothing and returns no page is made again and again. -/
theorem retry_endless (h : f z = none ∨ f z = some (none, z)) (rounds : Nat) :
    retry f rounds z = none := by
  induction rounds with
  | zero => rfl
  | succ rounds ih =>
    rcases h with h | h
    · simp [retry, h]
    · simp [retry, h, ih]

theorem getPageFromFreelist_page (order rounds : Nat) (node : Node) :
    (getPageFromFreelist order rounds node).map Prod.fst = (node.find? (·.1)).elim (some none)
        fun x => (retry (rmqueue order rounds) rounds x.2).map Prod.fst := by
  induction node with
  | nil => rfl
  | cons x zones ih =>
    obtain ⟨named, z⟩ := x
    cases named with
    | false => simpa [getPageFromFreelist, Function.comp_def] using ih
    | true => simp [getPageFromFreelist, Function.comp_def]

/-- The three loops make one round. -/
theorem rmqueue_page {order : Nat} (h : z.rmqueueSmallest order = some (some p, z')) :
    retry (rmqueue order 1) 1 z = some (some p, z') :=
  retry_page (retry_page (retry_page h 0) 0) 0

/-- The innermost loop makes no end of rounds. -/
theorem rmqueue_endless {order : Nat} (h : z.rmqueueSmallest order = some (none, z))
    (rounds : Nat) : retry (rmqueue order rounds) rounds z = none :=
  retry_endless (.inl (retry_endless (.inl (retry_endless (.inr h) rounds)) rounds)) rounds

end Zone

/-- `__alloc_pages` is right unless it comes to a zone that has no block for it. -/
theorem allocRight_iff {node : Zone.Node} {F : Nat → List Nat}
    (free : ∀ x, node.find? (·.1) = some x → FreeLists x.2 F []) (order : Nat) :
    Zone.AllocRight node F order ↔ node.find? (·.1) = none ∨ maxPageOrder < order ∨
        ∃ j, order ≤ j ∧ j ≤ maxPageOrder ∧ F j ≠ [] := by
  by_cases hlarge : maxPageOrder < order
  · have hcall : (Zone.allocPages node order 0).map Prod.fst = some none := by
      rw [Zone.allocPages, if_pos hlarge]
      rfl
    exact iff_of_true ⟨0, none, hcall, fun _ => rfl⟩ (.inr (.inl hlarge))
  simp only [Zone.AllocRight, Zone.allocPages, hlarge, if_false, Zone.getPageFromFreelist_page,
    false_or]
  cases hfind : node.find? (·.1) with
  | none => exact iff_of_true ⟨0, none, rfl, fun _ => rfl⟩ (.inl rfl)
  | some x =>
    have hz := free x hfind
    simp only [Option.elim_some, reduceCtorEq, false_or]
    constructor
    · rintro ⟨rounds, page, hcall, -⟩
      by_contra hnone
      have hempty : ∀ j, order ≤ j → j ≤ maxPageOrder → F j = [] := by
        intro j hj hmax
        by_contra hF
        exact hnone ⟨j, hj, hmax, hF⟩
      have hsmallest := hz.rmqueueSmallest_none (Nat.not_lt.mp hlarge) hempty
      rw [Zone.rmqueue_endless hsmallest] at hcall
      cases hcall
    · intro hblock
      classical
      obtain ⟨hj, hmax, hF⟩ := Nat.find_spec hblock
      have hleast : ∀ i, order ≤ i → i < Nat.find hblock → F i = [] := by
        intro i hi hlt
        by_contra hne
        exact Nat.find_min hblock hlt ⟨hi, by omega, hne⟩
      obtain ⟨p, ps, hcons⟩ := List.exists_cons_of_ne_nil hF
      obtain ⟨z', hsmallest, -, -⟩ := hz.rmqueueSmallest_some hj hmax hcons hleast
      refine ⟨1, some p, ?_, fun hempty => absurd (hempty _ hj hmax) hF⟩
      rw [Zone.rmqueue_page hsmallest]
      rfl

theorem allocRight_iff_four : ∃ z F, F 2 = [4] ∧ Zone.AllocRight [(true, z)] F 0 := by
  obtain ⟨z, free⟩ := exists_freeFour
  refine ⟨z, update (fun _ => []) 2 [4], update_self .., (allocRight_iff ?_ 0).mpr ?_⟩
  · rintro x hx
    cases hx
    exact free
  · exact .inr (.inr ⟨2, Nat.zero_le 2, by decide, by simp⟩)

/-- Without a free block a call for one page makes no end of rounds. -/
theorem alloc_endless : ¬Zone.AllocRight [(true, Zone.initial)] (fun _ => []) 0 := by
  rintro ⟨rounds, page, hcall, -⟩
  have hsmallest : Zone.initial.rmqueueSmallest 0 = some (none, Zone.initial) := rfl
  rw [Zone.allocPages, if_neg (by decide), Zone.getPageFromFreelist,
    Zone.rmqueue_endless hsmallest] at hcall
  cases hcall

end KernelTravel.Mm

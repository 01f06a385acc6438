import Mathlib.Data.List.Chain
import Mathlib.Data.List.Nodup

/-!
# Intrusive doubly linked lists

A memory of link fields assigns every node a `next` and a `prev` pointer. The
value `none` stands for any pointer that faults when it is followed, so the
operations below are partial exactly where the pointer program would crash.

`Between l a xs b` says that following the links from the anchor `a` visits
`xs` and then reaches the anchor `b`, and that the way back visits the same
nodes. The anchors may be two sentinels or, for a circular list, one node; all
laws below hold for both because only the outgoing pointer of `a` and the
incoming pointer of `b` belong to the list.
-/

variable {ν : Type*}

/-- The pointer fields of all nodes. -/
@[ext] structure Links (ν : Type*) where
  next : ν → Option ν
  prev : ν → Option ν

namespace Links

open Function

/-- Two nodes that point at each other. -/
def Linked (l : Links ν) (x y : ν) : Prop := l.next x = some y ∧ l.prev y = some x

/-- The nodes `xs`, in this order, lie between the anchors `a` and `b`. -/
structure Between (l : Links ν) (a : ν) (xs : List ν) (b : ν) : Prop where
  chain : ((a :: xs) ++ [b]).IsChain l.Linked
  nodup_left : (a :: xs).Nodup
  nodup_right : (xs ++ [b]).Nodup

/-- The two memories agree on every pointer field outside the listed nodes. -/
def SameOutside (l l' : Links ν) (xs : List ν) : Prop :=
  ∀ x, x ∉ xs → l'.next x = l.next x ∧ l'.prev x = l.prev x

section Operations

variable [DecidableEq ν]

def setNext (l : Links ν) (x : ν) (y : Option ν) : Links ν :=
  { l with next := update l.next x y }

def setPrev (l : Links ν) (x : ν) (y : Option ν) : Links ν :=
  { l with prev := update l.prev x y }

@[simp] theorem setNext_next (l : Links ν) (x z : ν) (y : Option ν) :
    (l.setNext x y).next z = if z = x then y else l.next z := by
  simp only [setNext, update_apply]

@[simp] theorem setNext_prev (l : Links ν) (x : ν) (y : Option ν) :
    (l.setNext x y).prev = l.prev := rfl

@[simp] theorem setPrev_prev (l : Links ν) (x z : ν) (y : Option ν) :
    (l.setPrev x y).prev z = if z = x then y else l.prev z := by
  simp only [setPrev, update_apply]

@[simp] theorem setPrev_next (l : Links ν) (x : ν) (y : Option ν) :
    (l.setPrev x y).next = l.next := rfl

/-- Link `elm` in front of `before`: four stores, in the order a program that
splices a node performs them. -/
def insertBefore (l : Links ν) (before elm : ν) : Option (Links ν) := do
  let p ← l.prev before
  let l₁ := l.setNext p (some elm)
  let l₂ := l₁.setPrev elm (l₁.prev before)
  let l₃ := l₂.setNext elm (some before)
  return l₃.setPrev before (some elm)

/-- Bypass `elm` in both directions. Its own pointers keep their values. -/
def unlink (l : Links ν) (elm : ν) : Option (Links ν) := do
  let p ← l.prev elm
  let l₁ := l.setNext p (l.next elm)
  let n ← l₁.next elm
  return l₁.setPrev n (l₁.prev elm)

/-- The memory after splicing, read field by field. -/
theorem insertBefore_eq {l : Links ν} {c p : ν} (e : ν) (hc : l.prev c = some p) :
    l.insertBefore c e = some
      { next := fun z => if z = e then some c else if z = p then some e else l.next z
        prev := fun z => if z = c then some e else if z = e then some p else l.prev z } := by
  simp only [insertBefore, hc, Option.bind_eq_bind, Option.bind_some, Option.pure_def,
    Option.some.injEq]
  ext z <;> simp [hc]

/-- The memory after bypassing a node, read field by field. -/
theorem unlink_eq {l : Links ν} {x p n : ν} (hp : l.prev x = some p) (hn : l.next x = some n) :
    l.unlink x = some
      { next := fun z => if z = p then some n else l.next z
        prev := fun z => if z = n then some p else l.prev z } := by
  have hx : (l.setNext p (l.next x)).next x = some n := by
    rw [setNext_next, hn, ite_self]
  simp only [unlink, hp, hx, Option.bind_eq_bind, Option.bind_some, Option.pure_def,
    Option.some.injEq]
  ext z <;> simp [hp, hn]

end Operations

/-- A chain survives a change of relation that respects its adjacent pairs: the
first of a pair is never the last node, the second never the first. -/
private theorem isChain_imp_of_ends {R S : ν → ν → Prop} {xs : List ν} (h : xs.IsChain R)
    (imp : ∀ x ∈ xs.dropLast, ∀ y ∈ xs.tail, R x y → S x y) : xs.IsChain S := by
  rw [List.isChain_iff_forall₂, List.forall₂_iff_zip] at h ⊢
  refine ⟨h.1, ?_⟩
  intro x y mem
  have ends := List.of_mem_zip mem
  exact imp x ends.1 y ends.2 (h.2 mem)

namespace Between

variable {l l' : Links ν} {a b c e x : ν} {xs ys zs : List ν}

/-- Only the outgoing pointers of `a :: xs` and the incoming ones of `xs ++ [b]`
are read by the predicate. -/
theorem congr (h : Between l a xs b) (hn : ∀ x ∈ a :: xs, l'.next x = l.next x)
    (hp : ∀ x ∈ xs ++ [b], l'.prev x = l.prev x) : Between l' a xs b := by
  refine ⟨isChain_imp_of_ends h.chain ?_, h.nodup_left, h.nodup_right⟩
  rintro x hx y hy ⟨next, prev⟩
  rw [List.dropLast_concat] at hx
  exact ⟨(hn x hx).trans next, (hp y hy).trans prev⟩

/-- A list none of whose nodes was touched is still there. -/
theorem frame (h : Between l a xs b) {touched : List ν} (same : SameOutside l l' touched)
    (ha : a ∉ touched) (hb : b ∉ touched) (hxs : ∀ x ∈ xs, x ∉ touched) : Between l' a xs b := by
  refine h.congr ?_ ?_
  · intro x hx
    rcases List.mem_cons.mp hx with rfl | hx
    · exact (same _ ha).1
    · exact (same x (hxs x hx)).1
  · intro x hx
    rcases List.mem_append.mp hx with hx | hx
    · exact (same x (hxs x hx)).2
    · rw [List.mem_singleton.mp hx]
      exact (same b hb).2

/-- The pair at an inner cut of the list. -/
theorem linked_cut (h : Between l a (ys ++ zs) b) :
    l.Linked ((a :: ys).getLast (by simp)) ((zs ++ [b]).head (by simp)) := by
  have chain := h.chain
  rw [List.cons_append, List.append_assoc, ← List.cons_append, List.isChain_append] at chain
  exact chain.2.2 _ (List.getLast_mem_getLast? _) _ (List.head_mem_head? _)

theorem next_anchor (h : Between l a xs b) : l.next a = some ((xs ++ [b]).head (by simp)) := by
  have cut : Between l a ([] ++ xs) b := h
  exact cut.linked_cut.1

theorem prev_anchor (h : Between l a xs b) : l.prev b = some ((a :: xs).getLast (by simp)) := by
  have cut : Between l a (xs ++ []) b := by simpa using h
  simpa using cut.linked_cut.2

section Operations

variable [DecidableEq ν]

/-- Splicing a fresh node into an inner cut of the list. -/
theorem insertBefore_cut (h : Between l a (ys ++ zs) b) (fresh : e ∉ a :: b :: (ys ++ zs)) :
    ∃ l', l.insertBefore ((zs ++ [b]).head (by simp)) e = some l' ∧
      Between l' a (ys ++ e :: zs) b ∧ SameOutside l l' (e :: a :: b :: (ys ++ zs)) := by
  obtain ⟨us, p, left⟩ : ∃ us p, a :: ys = us ++ [p] :=
    ⟨_, _, (List.dropLast_append_getLast (List.cons_ne_nil a ys)).symm⟩
  obtain ⟨c, vs, right⟩ : ∃ c vs, zs ++ [b] = c :: vs :=
    List.exists_cons_of_ne_nil (by simp)
  have cut : l.Linked p c := by
    simpa only [left, right, List.getLast_concat, List.head_cons] using h.linked_cut
  have hp : p ∈ a :: ys := by simp [left]
  have hc : c ∈ zs ++ [b] := by simp [right]
  have chain : (us ++ p :: c :: vs).IsChain l.Linked := by
    have chain := h.chain
    rwa [List.cons_append, List.append_assoc, ← List.cons_append, left, right,
      List.append_assoc, List.singleton_append] at chain
  have nodupLeft : (us ++ p :: zs).Nodup := by
    have nodup := h.nodup_left
    rwa [← List.cons_append, left, List.append_assoc, List.singleton_append] at nodup
  have nodupRight : (ys ++ c :: vs).Nodup := by
    have nodup := h.nodup_right
    rwa [List.append_assoc, right] at nodup
  simp only [right, List.head_cons]
  rw [List.isChain_append_cons_cons] at chain
  refine ⟨_, insertBefore_eq e cut.2, ⟨?_, ?_, ?_⟩, ?_⟩
  · -- the pairs left and right of the cut are untouched, the cut becomes two pairs
    have whole : (a :: (ys ++ e :: zs)) ++ [b] = us ++ p :: e :: c :: vs := by
      rw [← List.cons_append, left]
      simp [right]
    rw [whole, List.isChain_append_cons_cons, List.isChain_cons_cons]
    refine ⟨isChain_imp_of_ends chain.1 ?_, ?_, ?_, isChain_imp_of_ends chain.2.2 ?_⟩
    · rintro x hx y hy ⟨next, prev⟩
      rw [List.dropLast_concat] at hx
      have hy : y ∈ ys := by simpa only [← left, List.tail_cons] using hy
      grind [Linked]
    · grind [Linked]
    · grind [Linked]
    · rintro x hx y hy ⟨next, prev⟩
      have hx : x ∈ zs := by simpa only [← right, List.dropLast_concat] using hx
      rw [List.tail_cons] at hy
      grind [Linked]
  · grind [h.nodup_left]
  · grind [h.nodup_right]
  · intro x hx
    grind

/-- Appending at the far anchor. -/
theorem insertBefore_last (h : Between l a xs b) (fresh : e ∉ a :: b :: xs) :
    ∃ l', l.insertBefore b e = some l' ∧ Between l' a (xs ++ [e]) b ∧
      SameOutside l l' (e :: a :: b :: xs) := by
  have cut : Between l a (xs ++ []) b := by simpa using h
  simpa using cut.insertBefore_cut (e := e) (by simpa using fresh)

/-- Pushing behind the near anchor, by inserting before its successor. -/
theorem insertBefore_first (h : Between l a xs b) (fresh : e ∉ a :: b :: xs) :
    ∃ l', l.insertBefore ((xs ++ [b]).head (by simp)) e = some l' ∧
      Between l' a (e :: xs) b ∧ SameOutside l l' (e :: a :: b :: xs) := by
  have cut : Between l a ([] ++ xs) b := h
  simpa using cut.insertBefore_cut (e := e) (by simpa using fresh)

/-- Removing a member joins its two neighbours. -/
theorem unlink_mem (h : Between l a (ys ++ x :: zs) b) :
    ∃ l', l.unlink x = some l' ∧ Between l' a (ys ++ zs) b ∧
      SameOutside l l' (a :: b :: (ys ++ zs)) := by
  obtain ⟨us, p, left⟩ : ∃ us p, a :: ys = us ++ [p] :=
    ⟨_, _, (List.dropLast_append_getLast (List.cons_ne_nil a ys)).symm⟩
  obtain ⟨n, vs, right⟩ : ∃ n vs, zs ++ [b] = n :: vs :=
    List.exists_cons_of_ne_nil (by simp)
  have whole : (a :: (ys ++ x :: zs)) ++ [b] = us ++ p :: x :: n :: vs := by
    rw [← List.cons_append, left]
    simp [right]
  have chain := h.chain
  rw [whole, List.isChain_append_cons_cons, List.isChain_cons_cons] at chain
  have nodupLeft : (us ++ p :: x :: zs).Nodup := by
    have nodup := h.nodup_left
    rwa [← List.cons_append, left, List.append_assoc, List.singleton_append] at nodup
  have nodupRight : (ys ++ x :: n :: vs).Nodup := by
    have nodup := h.nodup_right
    rwa [List.append_assoc, List.cons_append, right] at nodup
  have hp : p ∈ a :: ys := by simp [left]
  have hn : n ∈ zs ++ [b] := by simp [right]
  refine ⟨_, unlink_eq chain.2.1.2 chain.2.2.1.1, ⟨?_, ?_, ?_⟩, ?_⟩
  · -- the two pairs around the node become one
    have joined : (a :: (ys ++ zs)) ++ [b] = us ++ p :: n :: vs := by
      rw [← List.cons_append, left]
      simp [right]
    rw [joined, List.isChain_append_cons_cons]
    refine ⟨isChain_imp_of_ends chain.1 ?_, by grind [Linked],
      isChain_imp_of_ends chain.2.2.2 ?_⟩
    · rintro y hy z hz ⟨next, prev⟩
      rw [List.dropLast_concat] at hy
      have hz : z ∈ ys := by simpa only [← left, List.tail_cons] using hz
      grind [Linked]
    · rintro y hy z hz ⟨next, prev⟩
      have hy : y ∈ zs := by simpa only [← right, List.dropLast_concat] using hy
      rw [List.tail_cons] at hz
      grind [Linked]
  · grind [h.nodup_left]
  · grind [h.nodup_right]
  · intro z hz
    grind

end Operations

end Between

section Scan

variable {σ : Type*} [DecidableEq ν]

/-- Walk from `cur` along `step`, which may depend on the state, and stop at the
first node whose callback answers `true` or at `stop`. The callback may change
the state. The walk gives up (`none`) when it follows a faulting pointer or has
used up its fuel, so a result is a terminating walk. -/
def scan (step : σ → ν → Option ν) (callback : ν → σ → Bool × σ) (stop : ν) :
    Nat → ν → σ → Option (Option ν × σ)
  | 0, _, _ => none
  | fuel + 1, cur, s =>
    if cur = stop then some (none, s)
    else
      let (found, s') := callback cur s
      if found then some (some cur, s')
      else (step s' cur).bind fun cur' => scan step callback stop fuel cur' s'

/-- If a refusing callback changes nothing, the walk finds the first accepting
node of the list it follows and applies the callback to that node only. -/
theorem scan_eq (step : σ → ν → Option ν) {callback : ν → σ → Bool × σ} {stop : ν} {s : σ} :
    ∀ (xs : List ν) {fuel : Nat},
      (xs ++ [stop]).IsChain (fun x y => step s x = some y) → stop ∉ xs → xs.length < fuel →
      (∀ x ∈ xs, (callback x s).1 = false → (callback x s).2 = s) →
      scan step callback stop fuel ((xs ++ [stop]).head (by simp)) s =
        some ((xs.find? fun x => (callback x s).1).elim (none, s)
          fun x => (some x, (callback x s).2))
  | [], fuel + 1, _, _, _, _ => by simp [scan]
  | x :: xs, fuel + 1, chain, hstop, hfuel, pure => by
      have hx : x ≠ stop := fun h => hstop (by simp [h])
      cases hfound : (callback x s).1 with
      | true => simp [scan, hx, hfound]
      | false =>
        have same : (callback x s).2 = s := pure x (by simp) hfound
        have hnext : step s x = some ((xs ++ [stop]).head (by simp)) := by
          rw [List.cons_append, List.isChain_cons] at chain
          exact chain.1 _ (List.head_mem_head? _)
        have rest := scan_eq step xs (List.IsChain.tail chain)
          (fun h => hstop (by simp [h])) (Nat.lt_of_succ_lt_succ hfuel)
          (fun y hy => pure y (by simp [hy]))
        simp only [List.cons_append, List.head_cons, scan, hx, if_false, hfound, same, hnext,
          Option.bind_some, rest, List.find?_cons, Bool.false_eq_true]

end Scan

namespace Between

variable {l : Links ν} {a b : ν} {xs : List ν}

/-- The forward walk over the list. -/
theorem chain_next (h : Between l a xs b) : (xs ++ [b]).IsChain (fun x y => l.next x = some y) :=
  (List.IsChain.tail h.chain).imp fun _ _ linked => linked.1

/-- The backward walk over the list. -/
theorem chain_prev (h : Between l a xs b) :
    (xs.reverse ++ [a]).IsChain (fun x y => l.prev x = some y) := by
  have left : (a :: xs).IsChain l.Linked := h.chain.left_of_append
  rw [← List.reverse_cons, List.isChain_reverse]
  exact left.imp fun _ _ linked => linked.2

theorem tail {x : ν} (h : Between l a (x :: xs) b) : Between l x xs b :=
  ⟨List.IsChain.tail h.chain, h.nodup_left.of_cons, h.nodup_right.of_cons⟩

/-- The links determine the list. -/
theorem unique {ys : List ν} (h : Between l a xs b) (h' : Between l a ys b) : xs = ys := by
  induction xs generalizing a ys with
  | nil =>
    cases ys with
    | nil => rfl
    | cons y ys =>
      have hby : some b = some y := h.next_anchor.symm.trans h'.next_anchor
      have hnot := h'.nodup_right.notMem
      simp [Option.some.inj hby] at hnot
  | cons x xs ih =>
    cases ys with
    | nil =>
      have hxb : some x = some b := h.next_anchor.symm.trans h'.next_anchor
      have hnot := h.nodup_right.notMem
      simp [Option.some.inj hxb] at hnot
    | cons y ys =>
      have hxy : some x = some y := h.next_anchor.symm.trans h'.next_anchor
      obtain rfl := Option.some.inj hxy
      rw [ih h.tail h'.tail]

theorem linked_of_mem {x : ν} (h : Between l a xs b) (hx : x ∈ xs) :
    (∃ y, l.Linked y x) ∧ ∃ y, l.Linked x y := by
  obtain ⟨ys, zs, rfl⟩ := List.append_of_mem hx
  have before : Between l a (ys ++ (x :: zs)) b := h
  have after : Between l a ((ys ++ [x]) ++ zs) b := by simpa using h
  have hlast : (a :: (ys ++ [x])).getLast (by simp) = x := by simp
  exact ⟨⟨_, before.linked_cut⟩, ⟨_, hlast ▸ after.linked_cut⟩⟩

end Between

/-! ## Families of lists -/

/-- Lists with anchors of their own that share no node. -/
structure Family {ι : Type*} (l : Links ν) (a b : ι → ν) (L : ι → List ν) : Prop where
  between : ∀ i, l.Between (a i) (L i) (b i)
  apart : ∀ i j, i ≠ j → ∀ x ∈ a i :: b i :: L i, x ∉ a j :: b j :: L j

namespace Family

variable {ι : Type*} [DecidableEq ι] {l l' : Links ν} {a b : ι → ν} {L : ι → List ν} {i : ι}

/-- One list is replaced by stores that stay within its nodes and new ones. -/
theorem replace (fam : Family l a b L) {xs touched : List ν} (between : l'.Between (a i) xs (b i))
    (same : SameOutside l l' touched) (htouched : ∀ j ≠ i, ∀ x ∈ a j :: b j :: L j, x ∉ touched)
    (hxs : ∀ j ≠ i, ∀ x ∈ a j :: b j :: L j, x ∉ xs) : Family l' a b (update L i xs) := by
  constructor
  · intro j
    by_cases hj : j = i
    · subst hj
      rwa [update_self]
    · rw [update_of_ne hj]
      have hout := htouched j hj
      refine (fam.between j).frame same (hout _ ?_) (hout _ ?_) fun x hx => hout x ?_
      · exact List.mem_cons_self
      · exact List.mem_cons_of_mem _ List.mem_cons_self
      · exact List.mem_cons_of_mem _ (List.mem_cons_of_mem _ hx)
  · intro j k hjk x hx hk
    have old := fam.apart j k hjk x
    by_cases hj : j = i
    · subst hj
      have hki : k ≠ j := Ne.symm hjk
      have hnew := hxs k hki x
      have hold := fam.apart k j hki x
      rw [update_of_ne hki] at hk
      rw [update_self] at hx
      grind
    · rw [update_of_ne hj] at hx
      by_cases hk' : k = i
      · subst hk'
        have hnew := hxs j hj x hx
        rw [update_self] at hk
        grind
      · rw [update_of_ne hk'] at hk
        exact old hx hk

variable [DecidableEq ν]

theorem append (fam : Family l a b L) {e : ν} (fresh : ∀ j, e ∉ a j :: b j :: L j) :
    ∃ l', l.insertBefore (b i) e = some l' ∧ Family l' a b (update L i (L i ++ [e])) := by
  obtain ⟨l', hinsert, between, same⟩ := (fam.between i).insertBefore_last (fresh i)
  refine ⟨l', hinsert, fam.replace between same ?_ ?_⟩
  · intro j hj x hx htouched
    rcases List.mem_cons.mp htouched with rfl | hi
    · exact fresh j hx
    · exact fam.apart j i hj x hx hi
  · intro j hj x hx hnew
    rcases List.mem_append.mp hnew with hi | he
    · exact fam.apart j i hj x hx (List.mem_cons_of_mem _ (List.mem_cons_of_mem _ hi))
    · exact fresh j (List.mem_singleton.mp he ▸ hx)

theorem remove (fam : Family l a b L) {ys zs : List ν} {e : ν} (hL : L i = ys ++ e :: zs) :
    ∃ l', l.unlink e = some l' ∧ Family l' a b (update L i (ys ++ zs)) := by
  have between := fam.between i
  rw [hL] at between
  obtain ⟨l', hunlink, between', same⟩ := between.unlink_mem
  have hsub : ∀ x ∈ a i :: b i :: (ys ++ zs), x ∈ a i :: b i :: L i := by
    rw [hL]
    grind
  refine ⟨l', hunlink, fam.replace between' same ?_ ?_⟩
  · exact fun j hj x hx htouched => fam.apart j i hj x hx (hsub x htouched)
  · intro j hj x hx hnew
    exact fam.apart j i hj x hx (hsub x (List.mem_cons_of_mem _ (List.mem_cons_of_mem _ hnew)))

end Family

end Links

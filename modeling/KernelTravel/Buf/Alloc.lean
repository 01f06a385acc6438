import KernelTravel.Buf.Init

/-!
# What `bufAlloc` does to a well linked group

When a group's list links its own buffers, the two walks of `bufAlloc` are
ordinary list searches: the first buffer from the head that holds the block, or
else the first unreferenced buffer from the tail. `bufAlloc_cases` states the
three outcomes together with the resulting cache.
-/

namespace KernelTravel.Buf

/-- The list of group `i` links exactly its own eight buffers, in the order `xs`. -/
def GroupList (s : Cache) (i : Nat) (xs : List Nat) : Prop :=
  xs.Perm (List.range bgroupBufNum) ∧
    s.links.Between (.head i) (xs.map (Node.elem i)) (.tail i)

/-- The test of `check_cached`. -/
def Holds (s : Cache) (dev blockno : Nat) (p : BufPtr) : Prop :=
  toUInt64 (s.buf p).dev = dev ∧ (s.buf p).blockno = blockno

instance (s : Cache) (dev blockno : Nat) (p : BufPtr) : Decidable (Holds s dev blockno p) :=
  inferInstanceAs (Decidable (_ ∧ _))

/-- The effect of `check_cached` on the buffer it accepts. -/
def takeRef (s : Cache) (p : BufPtr) : Cache :=
  s.setBuf p { s.buf p with refcnt := ((s.buf p).refcnt + 1) % 2 ^ 16 }

/-- The buffer is written out before `check_uncached` reassigns it. -/
def NeedsWriteBack (s : Cache) (p : BufPtr) : Prop :=
  (s.buf p).valid = true ∧ (s.buf p).dirty = true

instance (s : Cache) (p : BufPtr) : Decidable (NeedsWriteBack s p) :=
  inferInstanceAs (Decidable (_ ∧ _))

/-- The effect of `check_uncached` on the buffer it accepts. -/
def reassign (s : Cache) (dev blockno : Nat) (p : BufPtr) : Cache :=
  (if NeedsWriteBack s p then blockWrite s blockno (s.buf p).data else s).setBuf p
    { s.buf p with dev := toInt32 dev, blockno, valid := false, dirty := false, refcnt := 1 }

theorem checkCached_elem (s : Cache) (dev blockno i j : Nat) :
    checkCached dev blockno (.elem i j) s =
      if Holds s dev blockno (i, j) then (true, takeRef s (i, j)) else (false, s) := rfl

theorem checkUncached_elem (s : Cache) (dev blockno i j : Nat) :
    checkUncached dev blockno (.elem i j) s =
      if (s.buf (i, j)).refcnt = 0 then (true, reassign s dev blockno (i, j)) else (false, s) := by
  simp only [checkUncached, reassign, NeedsWriteBack, Bool.and_eq_true]
  rfl

section Walk

variable {s : Cache} {i : Nat} {xs : List Nat}

theorem GroupList.length (h : GroupList s i xs) : xs.length = bgroupBufNum := by
  rw [h.1.length_eq, List.length_range]

theorem GroupList.mem_iff (h : GroupList s i xs) {j : Nat} : j ∈ xs ↔ j < bgroupBufNum := by
  rw [h.1.mem_iff, List.mem_range]

theorem listTraversal_eq (func : Node → Cache → Bool × Cache) (h : GroupList s i xs)
    (pure : ∀ x ∈ xs.map (Node.elem i), (func x s).1 = false → (func x s).2 = s) :
    listTraversal s i func =
      some (((xs.map (Node.elem i)).find? fun x => (func x s).1).elim (none, s)
        fun x => (some x, (func x s).2)) := by
  rw [listTraversal, h.2.next_anchor, Option.bind_eq_bind, Option.bind_some]
  exact Links.scan_eq (fun (s : Cache) x => s.links.next x) (xs.map (Node.elem i))
    h.2.chain_next (by simp) (by simp [h.length, walkFuel]) pure

theorem listReverse_eq (func : Node → Cache → Bool × Cache) (h : GroupList s i xs)
    (pure : ∀ x ∈ xs.map (Node.elem i), (func x s).1 = false → (func x s).2 = s) :
    listReverse s i func =
      some (((xs.reverse.map (Node.elem i)).find? fun x => (func x s).1).elim (none, s)
        fun x => (some x, (func x s).2)) := by
  have start : s.links.prev (.tail i) =
      some ((xs.reverse.map (Node.elem i) ++ [Node.head i]).head (by simp)) := by
    rw [h.2.prev_anchor, List.head_eq_getLast_reverse]
    simp
  rw [listReverse, start, Option.bind_eq_bind, Option.bind_some]
  refine Links.scan_eq (fun (s : Cache) x => s.links.prev x) (xs.reverse.map (Node.elem i))
    ?_ (by simp) (by simp [h.length, walkFuel]) ?_
  · simpa only [List.map_reverse] using h.2.chain_prev
  · intro x hx
    exact pure x (by simpa using hx)

end Walk

section Alloc

variable {s : Cache} (dev : Nat) {blockno : Nat} {xs : List Nat}

private theorem find_elem {i : Nat} {xs : List Nat} {f : Node → Bool} {g : Nat → Bool}
    (h : ∀ j, f (.elem i j) = g j) :
    (xs.map (Node.elem i)).find? f = (xs.find? g).map (Node.elem i) := by
  rw [List.find?_map]
  congr 2
  funext j
  exact h j

/-- `bufAlloc` as two searches of the group's list. -/
theorem bufAlloc_eq {i : Nat} (hi : blockno &&& bgroupMask = i) (h : GroupList s i xs) :
    bufAlloc s dev blockno =
      match xs.find? (fun j => decide (Holds s dev blockno (i, j))) with
      | some j => some (some (i, j), takeRef s (i, j))
      | none =>
        match xs.reverse.find? (fun j => decide ((s.buf (i, j)).refcnt = 0)) with
        | some j => some (some (i, j), reassign s dev blockno (i, j))
        | none => some (none, s) := by
  have hit : ∀ j, (checkCached dev blockno (.elem i j) s).1 =
      decide (Holds s dev blockno (i, j)) := by
    intro j
    rw [checkCached_elem]
    split <;> simp [*]
  have free : ∀ j, (checkUncached dev blockno (.elem i j) s).1 =
      decide ((s.buf (i, j)).refcnt = 0) := by
    intro j
    rw [checkUncached_elem]
    split <;> simp [*]
  have first := listTraversal_eq (checkCached dev blockno) h (by
    intro x hx hfalse
    obtain ⟨j, -, rfl⟩ := List.mem_map.mp hx
    rw [hit, decide_eq_false_iff_not] at hfalse
    simp [checkCached_elem, hfalse])
  have second := listReverse_eq (checkUncached dev blockno) h (by
    intro x hx hfalse
    obtain ⟨j, -, rfl⟩ := List.mem_map.mp hx
    rw [free, decide_eq_false_iff_not] at hfalse
    simp [checkUncached_elem, hfalse])
  rw [find_elem hit] at first
  rw [find_elem free] at second
  simp only [bufAlloc, hi, first]
  cases hfind : xs.find? (fun j => decide (Holds s dev blockno (i, j))) with
  | some j =>
    have hj : Holds s dev blockno (i, j) := by simpa using List.find?_some hfind
    simp [checkCached_elem, hj, elem2entry]
  | none =>
    simp only [Option.map_none, Option.elim_none, Option.bind_eq_bind, Option.bind_some, second]
    cases hrev : xs.reverse.find? (fun j => decide ((s.buf (i, j)).refcnt = 0)) with
    | some j =>
      have hj : (s.buf (i, j)).refcnt = 0 := by simpa using List.find?_some hrev
      simp [checkUncached_elem, hj, elem2entry]
    | none => simp

/-- The buffer a miss would reuse: the unreferenced buffer closest to the tail. -/
def victim (s : Cache) (i : Nat) : Option BufPtr := do
  let (elem, _) ← listReverse s i fun x s =>
    match x with
    | .elem i j => (decide ((s.buf (i, j)).refcnt = 0), s)
    | _ => (false, s)
  let elem ← elem
  elem2entry elem

theorem victim_eq {i : Nat} (h : GroupList s i xs) : victim s i =
      (xs.reverse.find? (fun j => decide ((s.buf (i, j)).refcnt = 0))).map fun j => (i, j) := by
  have walk := listReverse_eq (fun x s =>
    match x with
    | .elem i j => (decide ((s.buf (i, j)).refcnt = 0), s)
    | _ => (false, s)) h (by
      intro x hx _
      obtain ⟨j, -, rfl⟩ := List.mem_map.mp hx
      rfl)
  rw [find_elem (g := fun j => decide ((s.buf (i, j)).refcnt = 0)) (fun _ => rfl)] at walk
  rw [victim, walk]
  cases xs.reverse.find? (fun j => decide ((s.buf (i, j)).refcnt = 0)) <;> simp [elem2entry]

/-- The three outcomes of `bufAlloc`: a hit, a miss that reuses the victim, and a
miss in a group whose buffers are all referenced. -/
theorem bufAlloc_cases {i : Nat} (hi : blockno &&& bgroupMask = i) (h : GroupList s i xs) :
    (∃ j < bgroupBufNum, Holds s dev blockno (i, j) ∧
      bufAlloc s dev blockno = some (some (i, j), takeRef s (i, j))) ∨
    (∃ j < bgroupBufNum, (∀ k < bgroupBufNum, ¬Holds s dev blockno (i, k)) ∧
      (s.buf (i, j)).refcnt = 0 ∧ victim s i = some (i, j) ∧
      bufAlloc s dev blockno = some (some (i, j), reassign s dev blockno (i, j))) ∨
    ((∀ k < bgroupBufNum, ¬Holds s dev blockno (i, k)) ∧
      (∀ k < bgroupBufNum, (s.buf (i, k)).refcnt ≠ 0) ∧
      bufAlloc s dev blockno = some (none, s)) := by
  have alloc := bufAlloc_eq dev hi h
  have reuse := victim_eq h
  cases hfind : xs.find? (fun j => decide (Holds s dev blockno (i, j))) with
  | some j =>
    rw [hfind] at alloc
    exact .inl ⟨j, h.mem_iff.mp (List.mem_of_find?_eq_some hfind),
      by simpa using List.find?_some hfind, alloc⟩
  | none =>
    have miss : ∀ k < bgroupBufNum, ¬Holds s dev blockno (i, k) := by
      intro k hk
      simpa using List.find?_eq_none.mp hfind k (h.mem_iff.mpr hk)
    rw [hfind] at alloc
    cases hrev : xs.reverse.find? (fun j => decide ((s.buf (i, j)).refcnt = 0)) with
    | some j =>
      rw [hrev] at alloc reuse
      have hj : j ∈ xs := List.mem_reverse.mp (List.mem_of_find?_eq_some hrev)
      exact .inr (.inl ⟨j, h.mem_iff.mp hj, miss, by simpa using List.find?_some hrev,
        reuse, alloc⟩)
    | none =>
      rw [hrev] at alloc
      refine .inr (.inr ⟨miss, ?_, alloc⟩)
      intro k hk
      simpa using List.find?_eq_none.mp hrev k (List.mem_reverse.mpr (h.mem_iff.mpr hk))

end Alloc

end KernelTravel.Buf

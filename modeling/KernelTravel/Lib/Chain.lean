import Mathlib.Data.List.Basic

/-!
# Singly linked chains

`Follows next h xs` says that the pointer `h` and then the `next` fields visit exactly
`xs`, up to a null pointer. The laws below are about linking in a new node and about ending
a chain earlier.
-/

namespace Chain

variable {α : Type*}

def Follows (next : α → Option α) : Option α → List α → Prop
  | h, [] => h = none
  | h, x :: xs => h = some x ∧ Follows next (next x) xs

variable {next next' : α → Option α} {h : Option α} {x y : α} {xs ys : List α}

theorem Follows.head? (chain : Follows next h xs) : h = xs.head? := by
  cases xs with
  | nil => exact chain
  | cons x xs => exact chain.1

/-- Only the fields of the visited nodes are read. -/
theorem Follows.congr (chain : Follows next h xs) (same : ∀ x ∈ xs, next' x = next x) :
    Follows next' h xs := by
  induction xs generalizing h with
  | nil => exact chain
  | cons x xs ih =>
    refine ⟨chain.1, ?_⟩
    rw [same x List.mem_cons_self]
    exact ih chain.2 fun y hy => same y (List.mem_cons_of_mem _ hy)

/-- The end of a chain is a chain. -/
theorem Follows.suffix (chain : Follows next h (xs ++ ys)) : Follows next ys.head? ys := by
  induction xs generalizing h with
  | nil => exact chain.head? ▸ chain
  | cons x xs ih => exact ih chain.2

/-- A pointer starts at most one chain. -/
theorem Follows.unique (chain : Follows next h xs) (chain' : Follows next h ys) : xs = ys := by
  induction xs generalizing h ys with
  | nil =>
    have hhead := chain'.head?
    rw [show h = none from chain] at hhead
    exact (List.head?_eq_none_iff.mp hhead.symm).symm
  | cons x xs ih =>
    obtain ⟨rfl, rest⟩ := chain
    obtain ⟨ys, rfl⟩ : ∃ zs, ys = x :: zs := List.head?_eq_some_iff.mp chain'.head?.symm
    rw [ih rest chain'.2]

/-- A chain that ends visits no node twice. -/
theorem Follows.nodup (chain : Follows next h xs) : xs.Nodup := by
  induction xs generalizing h with
  | nil => exact List.nodup_nil
  | cons x xs ih =>
    refine List.nodup_cons.mpr ⟨fun hmem => ?_, ih chain.2⟩
    obtain ⟨as, bs, rfl⟩ := List.append_of_mem hmem
    have hwhole : Follows next (some x) (x :: (as ++ x :: bs)) := ⟨rfl, chain.2⟩
    have hlater : Follows next (some x) (x :: bs) := Follows.suffix chain.2
    have hlen := congrArg List.length (hwhole.unique hlater)
    simp only [List.length_cons, List.length_append] at hlen
    omega

theorem Follows.next_last (chain : Follows next h (xs ++ [x])) : next x = none :=
  chain.suffix.2

/-- End the chain at `x`. -/
theorem Follows.truncate (chain : Follows next h (xs ++ x :: ys)) (hx : next' x = none)
    (same : ∀ z ∈ xs, next' z = next z) : Follows next' h (xs ++ [x]) := by
  induction xs generalizing h with
  | nil => exact ⟨chain.1, hx⟩
  | cons z xs ih =>
    refine ⟨chain.1, ?_⟩
    rw [same z List.mem_cons_self]
    exact ih chain.2 fun y hy => same y (List.mem_cons_of_mem _ hy)

/-- Link `y` in behind the node `x`. -/
theorem Follows.insert_after (chain : Follows next h (xs ++ x :: ys)) (hx : next' x = some y)
    (hy : next' y = next x) (nodup : (xs ++ x :: ys).Nodup) (fresh : y ∉ xs ++ x :: ys)
    (same : ∀ z, z ≠ x → z ≠ y → next' z = next z) : Follows next' h (xs ++ x :: y :: ys) := by
  induction xs generalizing h with
  | nil =>
    obtain ⟨rfl, rest⟩ := chain
    refine ⟨rfl, hx, ?_⟩
    rw [hy]
    refine rest.congr fun z hz => same z ?_ ?_
    · rintro rfl
      exact (List.nodup_cons.mp nodup).1 hz
    · rintro rfl
      exact fresh (List.mem_cons_of_mem _ hz)
  | cons z xs ih =>
    obtain ⟨rfl, rest⟩ := chain
    obtain ⟨hz, nodup⟩ := List.nodup_cons.mp nodup
    refine ⟨rfl, ?_⟩
    have hzx : z ≠ x := by
      rintro rfl
      exact hz (by simp)
    have hzy : z ≠ y := by
      rintro rfl
      exact fresh (by simp)
    rw [same z hzx hzy]
    exact ih rest nodup fun hmem => fresh (List.mem_cons_of_mem _ hmem)

/-- Link `y` in as the first node. -/
theorem Follows.insert_first (chain : Follows next h xs) (hy : next' y = h) (fresh : y ∉ xs)
    (same : ∀ z, z ≠ y → next' z = next z) : Follows next' (some y) (y :: xs) := by
  refine ⟨rfl, ?_⟩
  rw [hy]
  refine chain.congr fun z hz => same z ?_
  rintro rfl
  exact fresh hz

end Chain

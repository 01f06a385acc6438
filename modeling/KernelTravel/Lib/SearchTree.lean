import Mathlib.Data.List.TakeWhile
import Mathlib.Data.List.Pairwise

/-!
# Descending a binary tree by a threshold

A threshold is a predicate that, along the in-order sequence of a tree, is false first
and true from some element on. A descent that goes left where it holds and right where
it does not ends at the empty place between the two parts. Inserting there puts the
new element between them.
-/

inductive SearchTree (α : Type*) where
  | leaf
  | node (left : SearchTree α) (value : α) (right : SearchTree α)

namespace SearchTree

variable {α : Type*} {p : α → Bool} {x : α} {xs ys : List α}

def inorder : SearchTree α → List α
  | leaf => []
  | node left value right => left.inorder ++ value :: right.inorder

def map {β : Type*} (f : α → β) : SearchTree α → SearchTree β
  | leaf => leaf
  | node left value right => node (left.map f) (f value) (right.map f)

@[simp] theorem inorder_map {β : Type*} (f : α → β) (t : SearchTree α) :
    (t.map f).inorder = t.inorder.map f := by
  induction t with
  | leaf => rfl
  | node left value right ihl ihr => simp [map, inorder, ihl, ihr]

/-- Put a new node at the end of a path, which says where to go right. -/
def insertAt : SearchTree α → List Bool → α → Option (SearchTree α)
  | leaf, [], x => some (node leaf x leaf)
  | node left value right, false :: path, x =>
    (left.insertAt path x).map fun left => node left value right
  | node left value right, true :: path, x =>
    (right.insertAt path x).map fun right => node left value right
  | leaf, _ :: _, _ => none
  | node _ _ _, [], _ => none

/-- The path of the descent by `p`. -/
def slot (p : α → Bool) : SearchTree α → List Bool
  | leaf => []
  | node left value right => if p value then false :: left.slot p else true :: right.slot p

/-- `p` is false first and true afterwards. -/
def Threshold (p : α → Bool) (xs : List α) : Prop := xs.Pairwise fun a b => p a = true → p b = true

/-- The elements below and above the threshold. -/
def lower (p : α → Bool) (xs : List α) : List α := xs.takeWhile fun a => !p a
def upper (p : α → Bool) (xs : List α) : List α := xs.dropWhile fun a => !p a

theorem lower_append_upper (p : α → Bool) (xs : List α) : lower p xs ++ upper p xs = xs :=
  List.takeWhile_append_dropWhile

theorem not_of_mem_lower {a : α} (h : a ∈ lower p xs) : p a = false := by
  simpa using List.mem_takeWhile_imp h

theorem of_mem_upper (h : Threshold p xs) {a : α} (ha : a ∈ upper p xs) : p a = true := by
  induction xs with
  | nil => simp [upper] at ha
  | cons b xs ih =>
    obtain ⟨hb, hrest⟩ := List.pairwise_cons.mp h
    cases hp : p b with
    | true =>
      rw [upper, List.dropWhile_cons_of_neg (by simp [hp])] at ha
      rcases List.mem_cons.mp ha with rfl | ha
      · exact hp
      · exact hb a ha hp
    | false =>
      rw [upper, List.dropWhile_cons_of_pos (by simp [hp])] at ha
      exact ih hrest ha

/-- A search finds the first element above the threshold. -/
theorem find?_eq_head?_upper (p : α → Bool) (xs : List α) : xs.find? p = (upper p xs).head? := by
  induction xs with
  | nil => rfl
  | cons a xs ih =>
    cases ha : p a with
    | true => simp [upper, ha]
    | false =>
      rw [List.find?_cons_of_neg (by simp [ha]), ih, upper, upper,
        List.dropWhile_cons_of_pos (by simp [ha])]

/-- At an element above the threshold, the parts to its right are all above. -/
theorem parts_of_true (hx : p x = true) :
    lower p (xs ++ x :: ys) = lower p xs ∧ upper p (xs ++ x :: ys) = upper p xs ++ x :: ys := by
  induction xs with
  | nil => simp [lower, upper, hx]
  | cons a xs ih =>
    cases ha : p a with
    | true => simp [lower, upper, ha]
    | false =>
      simp only [lower, upper, List.cons_append] at ih ⊢
      simp [ha, ih.1, ih.2]

/-- At an element below the threshold, the parts to its left are all below. -/
theorem parts_of_false (h : Threshold p (xs ++ x :: ys)) (hx : p x = false) :
    lower p (xs ++ x :: ys) = xs ++ x :: lower p ys ∧ upper p (xs ++ x :: ys) = upper p ys := by
  have hleft : ∀ a ∈ xs, p a = false := by
    intro a ha
    have mono := (List.pairwise_append.mp h).2.2 a ha x List.mem_cons_self
    cases hp : p a with
    | true => exact absurd (mono hp) (by simp [hx])
    | false => rfl
  clear h
  induction xs with
  | nil => simp [lower, upper, hx]
  | cons a xs ih =>
    have ha : p a = false := hleft a List.mem_cons_self
    obtain ⟨ih₁, ih₂⟩ := ih fun b hb => hleft b (List.mem_cons_of_mem _ hb)
    simp only [lower, upper, List.cons_append] at ih₁ ih₂ ⊢
    simp [ha, ih₁, ih₂]

theorem insertAt_perm {t t' : SearchTree α} {path : List Bool}
    (h : t.insertAt path x = some t') : t'.inorder.Perm (x :: t.inorder) := by
  induction t generalizing path t' with
  | leaf =>
    cases path with
    | nil =>
      cases h
      exact .refl _
    | cons => cases h
  | node left value right ihl ihr =>
    cases path with
    | nil => cases h
    | cons turn path =>
      cases turn with
      | false =>
        obtain ⟨left', hleft, rfl⟩ := Option.map_eq_some_iff.mp h
        exact (ihl hleft).append_right _
      | true =>
        obtain ⟨right', hright, rfl⟩ := Option.map_eq_some_iff.mp h
        refine (((ihr hright).cons value).append_left _).trans ?_
        exact ((List.Perm.swap x value _).append_left _).trans List.perm_middle

/-- Inserting at the end of the descent. -/
theorem insertAt_slot (t : SearchTree α) (h : Threshold p t.inorder) (x : α) :
    ∃ t', t.insertAt (t.slot p) x = some t' ∧
      t'.inorder = lower p t.inorder ++ x :: upper p t.inorder := by
  induction t with
  | leaf => exact ⟨_, rfl, rfl⟩
  | node left value right ihl ihr =>
    obtain ⟨hleft, hright, -⟩ := List.pairwise_append.mp h
    cases hv : p value with
    | true =>
      obtain ⟨t', hinsert, hinorder⟩ := ihl hleft
      obtain ⟨hlower, hupper⟩ := @parts_of_true _ p value left.inorder right.inorder hv
      refine ⟨node t' value right, by simp [slot, hv, insertAt, hinsert], ?_⟩
      simp [inorder, hinorder, hlower, hupper]
    | false =>
      obtain ⟨t', hinsert, hinorder⟩ := ihr hright.of_cons
      obtain ⟨hlower, hupper⟩ := parts_of_false h hv
      refine ⟨node left value t', by simp [slot, hv, insertAt, hinsert], ?_⟩
      simp [inorder, hinorder, hlower, hupper]

end SearchTree

import Mathlib.Data.List.Basic
import Mathlib.Data.List.TakeWhile

/-!
# Strings that end with a zero

An array is a total function from indices to elements, and the string it holds is what
stands before the first zero. The functions below are the usual loops over such arrays;
the laws say which string an array holds afterwards.
-/

namespace CStr

open Function

variable {α : Type*} [Zero α] [DecidableEq α]

/-- The part of a list before its first zero. -/
def cut (xs : List α) : List α := xs.takeWhile fun c => c ≠ 0

/-- The array starts with the string and a zero. -/
structure Holds (buf : Nat → α) (s : List α) : Prop where
  chars : ∀ i (h : i < s.length), buf i = s[i]
  nonzero : ∀ c ∈ s, c ≠ 0
  stop : buf s.length = 0

/-- The length of the string in an array of `limit` elements, if it ends there. -/
def strlen (limit : Nat) (buf : Nat → α) : Option Nat := (List.range limit).find? fun n => buf n = 0

section Cut

theorem cut_cons_zero (xs : List α) : cut (0 :: xs) = [] := by
  rw [cut, List.takeWhile_cons_of_neg (by simp)]

theorem cut_cons {c : α} (hc : c ≠ 0) (xs : List α) : cut (c :: xs) = c :: cut xs := by
  rw [cut, List.takeWhile_cons_of_pos (by simpa using hc), cut]

theorem cut_eq_self {xs : List α} (h : ∀ c ∈ xs, c ≠ 0) : cut xs = xs := by
  rw [cut, List.takeWhile_eq_self_iff]
  simpa using h

theorem length_cut_le (xs : List α) : (cut xs).length ≤ xs.length :=
  (List.takeWhile_prefix _).length_le

theorem cut_append_of_mem {xs : List α} (h : (0 : α) ∈ xs) (ys : List α) :
    cut (xs ++ ys) = cut xs := by
  induction xs with
  | nil => exact absurd h List.not_mem_nil
  | cons c xs ih =>
    rcases eq_or_ne c 0 with rfl | hc
    · rw [List.cons_append, cut_cons_zero, cut_cons_zero]
    · have hmem : (0 : α) ∈ xs := (List.mem_cons.mp h).resolve_left (Ne.symm hc)
      rw [List.cons_append, cut_cons hc, cut_cons hc, ih hmem]

theorem cut_append_of_ne {xs : List α} (h : ∀ c ∈ xs, c ≠ 0) (ys : List α) :
    cut (xs ++ ys) = xs ++ cut ys := by
  induction xs with
  | nil => rfl
  | cons c xs ih =>
    obtain ⟨hc, hxs⟩ := List.forall_mem_cons.mp h
    rw [List.cons_append, cut_cons hc, ih hxs, List.cons_append]

theorem cut_append_zero (xs : List α) : cut (xs ++ [0]) = cut xs := by
  by_cases h : (0 : α) ∈ xs
  · exact cut_append_of_mem h _
  · have hne : ∀ c ∈ xs, c ≠ 0 := fun c hc heq => h (heq ▸ hc)
    rw [cut_append_of_ne hne, cut_eq_self hne, cut_cons_zero, List.append_nil]

end Cut

section Holds

variable {buf buf' : Nat → α} {s t : List α} {limit : Nat}

omit [DecidableEq α] in
theorem Holds.cons {c : α} (hc : c ≠ 0) (hhead : buf 0 = c) (h : Holds (fun i => buf (i + 1)) s) :
    Holds buf (c :: s) where
  chars i hi := by
    cases i with
    | zero => exact hhead
    | succ i => exact h.chars i (Nat.lt_of_succ_lt_succ hi)
  nonzero := List.forall_mem_cons.mpr ⟨hc, h.nonzero⟩
  stop := h.stop

/-- Elements of an array that contain a zero make a string. -/
theorem holds_cut {xs : List α} (h : ∀ i (hi : i < xs.length), buf i = xs[i])
    (hzero : (0 : α) ∈ xs) : Holds buf (cut xs) := by
  induction xs generalizing buf with
  | nil => exact absurd hzero List.not_mem_nil
  | cons c xs ih =>
    have hhead : buf 0 = c := h 0 (Nat.succ_pos _)
    rcases eq_or_ne c 0 with rfl | hc
    · rw [cut_cons_zero]
      exact ⟨fun i hi => absurd hi (Nat.not_lt_zero i),
        fun c hc => absurd hc List.not_mem_nil, hhead⟩
    · rw [cut_cons hc]
      refine .cons hc hhead (ih (fun i hi => h (i + 1) (Nat.succ_lt_succ hi)) ?_)
      exact (List.mem_cons.mp hzero).resolve_left (Ne.symm hc)

/-- The elements before the zero that `strlen` finds are the string. -/
theorem holds_of_strlen {n : Nat} (h : strlen limit buf = some n) :
    n < limit ∧ Holds buf ((List.range n).map buf) := by
  obtain ⟨hzero, hmem, hbefore⟩ := List.find?_range_eq_some.mp h
  refine ⟨List.mem_range.mp hmem, ?_, ?_, ?_⟩
  · intro i hi
    rw [List.getElem_map, List.getElem_range]
  · intro c hc
    obtain ⟨i, hi, rfl⟩ := List.mem_map.mp hc
    simpa using hbefore i (List.mem_range.mp hi)
  · rw [List.length_map, List.length_range]
    simpa using hzero

theorem Holds.strlen (h : Holds buf s) (hlimit : s.length < limit) :
    strlen limit buf = some s.length := by
  refine List.find?_range_eq_some.mpr ⟨by simpa using h.stop, List.mem_range.mpr hlimit, ?_⟩
  intro i hi
  rw [h.chars i hi]
  simpa using h.nonzero _ (List.getElem_mem hi)

omit [DecidableEq α] in
theorem Holds.map_range (h : Holds buf s) : (List.range s.length).map buf = s := by
  refine List.ext_getElem (by simp) fun i hi hi' => ?_
  rw [List.getElem_map, List.getElem_range, h.chars i hi']

theorem strlen_eq_none_iff : CStr.strlen limit buf = none ↔ ∀ n < limit, buf n ≠ 0 := by
  simp [CStr.strlen]

end Holds

section Insert

variable {buf str : Nat → α} {s : List α}

/-- Move `count` elements up by `len`, from the last one down. -/
def shiftUp (buf : Nat → α) (count len : Nat) : Nat → α :=
  (List.range count).reverse.foldl (fun b i => update b (i + len) (b i)) buf

/-- Copy `len` elements to the front. -/
def putFront (buf str : Nat → α) (len : Nat) : Nat → α :=
  (List.range len).foldl (fun b i => update b i (str i)) buf

omit [Zero α] [DecidableEq α] in
theorem shiftUp_apply (buf : Nat → α) (count len x : Nat) :
    shiftUp buf count len x = if len ≤ x ∧ x < count + len then buf (x - len) else buf x := by
  induction count generalizing buf with
  | zero => exact (if_neg (by omega)).symm
  | succ count ih =>
    have hstep : shiftUp buf (count + 1) len =
        shiftUp (update buf (count + len) (buf count)) count len := by
      simp only [shiftUp, List.range_succ, List.reverse_append, List.reverse_cons,
        List.reverse_nil, List.nil_append, List.singleton_append, List.foldl_cons]
    rw [hstep, ih]
    rcases Nat.lt_trichotomy x (count + len) with hlt | rfl | hgt
    · by_cases hlen : len ≤ x
      · rw [if_pos ⟨hlen, hlt⟩, if_pos (by omega), update_of_ne (by omega)]
      · rw [if_neg (by omega), if_neg (by omega), update_of_ne (by omega)]
    · rw [if_neg (by omega), if_pos (by omega), update_self, Nat.add_sub_cancel]
    · rw [if_neg (by omega), if_neg (by omega), update_of_ne (by omega)]

omit [Zero α] [DecidableEq α] in
theorem putFront_apply (buf str : Nat → α) (len x : Nat) :
    putFront buf str len x = if x < len then str x else buf x := by
  induction len with
  | zero => rfl
  | succ len ih =>
    have hstep : putFront buf str (len + 1) = update (putFront buf str len) len (str len) := by
      simp only [putFront, List.range_succ, List.foldl_append, List.foldl_cons, List.foldl_nil]
    rw [hstep]
    rcases Nat.lt_trichotomy x len with hlt | rfl | hgt
    · rw [update_of_ne (by omega), ih, if_pos hlt, if_pos (by omega)]
    · rw [update_self, if_pos (by omega)]
    · rw [update_of_ne (by omega), ih, if_neg (by omega), if_neg (by omega)]

/-- Elements put before a string. A zero among them ends the string there. -/
theorem Holds.insert (h : Holds buf s) (str : Nat → α) (len : Nat) :
    Holds (putFront (shiftUp buf (s.length + 1) len) str len)
      (cut ((List.range len).map str ++ s)) := by
  rw [← cut_append_zero]
  refine holds_cut (fun i hi => ?_) (by simp)
  have hlen : ((List.range len).map str).length = len := by simp
  simp only [List.length_append, hlen, List.length_cons, List.length_nil] at hi
  rw [putFront_apply, shiftUp_apply]
  rcases Nat.lt_or_ge i len with hlow | hhigh
  · rw [if_pos hlow, List.getElem_append_left (by rw [List.length_append, hlen]; omega),
      List.getElem_append_left (by rwa [hlen]), List.getElem_map, List.getElem_range]
  · rw [if_neg (by omega), if_pos (by omega)]
    rcases Nat.lt_or_ge (i - len) s.length with hchar | hstop
    · rw [List.getElem_append_left (by rw [List.length_append, hlen]; omega),
        List.getElem_append_right (by rwa [hlen]), h.chars _ hchar]
      simp only [hlen]
    · rw [List.getElem_append_right (by rw [List.length_append, hlen]; omega),
        List.getElem_singleton, show i - len = s.length by omega, h.stop]

end Insert

section Strcpy

omit [DecidableEq α]

variable {buf : Nat → α} {a x i : Nat} {s : List α}

/-- Copy a string and a zero to position `a`, from the first element on. -/
def strcpy (buf : Nat → α) (a : Nat) : List α → Nat → α
  | [] => update buf a 0
  | c :: s => strcpy (update buf a c) (a + 1) s

theorem strcpy_of_lt (h : x < a) : strcpy buf a s x = buf x := by
  induction s generalizing buf a with
  | nil => exact update_of_ne (by omega) ..
  | cons c s ih => rw [strcpy, ih (by omega), update_of_ne (by omega)]

theorem strcpy_of_gt (h : a + s.length < x) : strcpy buf a s x = buf x := by
  induction s generalizing buf a with
  | nil => exact update_of_ne (by simpa using Nat.ne_of_gt h) ..
  | cons c s ih =>
    rw [List.length_cons] at h
    rw [strcpy, ih (by omega), update_of_ne (by omega)]

theorem strcpy_char (h : i < s.length) : strcpy buf a s (a + i) = s[i] := by
  induction s generalizing buf a i with
  | nil => exact absurd h (Nat.not_lt_zero i)
  | cons c s ih =>
    cases i with
    | zero => exact (strcpy_of_lt (Nat.lt_succ_self a)).trans (update_self ..)
    | succ i =>
      rw [strcpy, show a + (i + 1) = a + 1 + i by omega, ih (Nat.lt_of_succ_lt_succ h),
        List.getElem_cons_succ]

theorem strcpy_stop : strcpy buf a s (a + s.length) = 0 := by
  induction s generalizing buf a with
  | nil => exact update_self ..
  | cons c s ih =>
    rw [strcpy, List.length_cons, show a + (s.length + 1) = a + 1 + s.length by omega, ih]

end Strcpy

end CStr

import KernelTravel.Lib.Ring

/-!
# The character queue

A ring of 2048 characters with one reader position and one writer position. `ioq_getchar`
and `ioq_putchar` sleep on an empty and on a full queue; here they are given up to that
point, and `none` means that the caller sleeps. On an empty queue whose `flag` is 0
`ioq_getchar` returns the character `'@'`.
-/

namespace KernelTravel.Pipe

abbrev Char8 := BitVec 8

def bufsize : Nat := 2048

structure Ioqueue where
  flag : Nat
  buf : Nat → Char8
  head : Nat
  tail : Nat

/-- `ioqueue_init` over the old content of the buffer. -/
def ioqueueInit (buf : Nat → Char8) : Ioqueue := ⟨1, buf, 0, 0⟩

/-- All bytes of the structure are set to 0. -/
def ioqueueClear : Ioqueue := ⟨0, fun _ => 0, 0, 0⟩

def nextPos (pos : Nat) : Nat := (pos + 1) % bufsize

def ioqFull (q : Ioqueue) : Bool := nextPos q.head = q.tail

def ioqEmpty (q : Ioqueue) : Bool := q.head = q.tail

def ioqLength (q : Ioqueue) : Nat :=
  if q.tail ≤ q.head then q.head - q.tail else bufsize - (q.tail - q.head)

/-- The character `'@'`. -/
def endChar : Char8 := 64

def ioqGetchar (q : Ioqueue) : Option (Char8 × Ioqueue) :=
  if ioqEmpty q then
    if q.flag = 0 then some (endChar, q) else none
  else some (q.buf q.tail, { q with tail := nextPos q.tail })

def ioqPutchar (q : Ioqueue) (byte : Char8) : Option Ioqueue :=
  if ioqFull q then none
  else some { q with buf := Function.update q.buf q.head byte, head := nextPos q.head }

/-- The characters in the queue, in the order in which they are read. -/
def Holds (q : Ioqueue) (xs : List Char8) : Prop := Ring.Holds bufsize q.buf q.head q.tail xs

/-- The characters that are in the queue. -/
def contents (q : Ioqueue) : List Char8 :=
  (List.range (ioqLength q)).map fun i => q.buf ((q.tail + i) % bufsize)

section Operations

variable {q : Ioqueue} {xs : List Char8}

theorem holds_init (buf : Nat → Char8) : Holds (ioqueueInit buf) [] :=
  Ring.holds_nil (by decide) 0 (by decide)

theorem holds_clear : Holds ioqueueClear [] := Ring.holds_nil (by decide) 0 (by decide)

theorem ioqLength_eq (h : Holds q xs) : ioqLength q = xs.length := by
  have hlen := h.length
  have htail := h.tail_lt
  have hhead := h.head_eq
  rw [ioqLength]
  rcases Nat.lt_or_ge (q.tail + xs.length) bufsize with hlt | hge
  · rw [Nat.mod_eq_of_lt hlt] at hhead
    rw [if_pos (by omega)]
    omega
  · rw [Nat.mod_eq_sub_mod hge, Nat.mod_eq_of_lt (by omega)] at hhead
    rw [if_neg (by omega)]
    omega

theorem contents_eq (h : Holds q xs) : contents q = xs := by
  apply List.ext_getElem?
  intro i
  rw [contents, ioqLength_eq h, List.getElem?_map]
  rcases Nat.lt_or_ge i xs.length with hlt | hge
  · have hcell := h.cell i xs[i] (List.getElem?_eq_getElem hlt)
    rw [List.getElem?_range hlt, Option.map_some, hcell, List.getElem?_eq_getElem hlt]
  · rw [List.getElem?_eq_none (by rw [List.length_range]; exact hge), List.getElem?_eq_none hge,
      Option.map_none]

/-- An empty queue makes the reader sleep, or gives the end character. -/
theorem ioqGetchar_nil (h : Holds q []) :
    ioqGetchar q = if q.flag = 0 then some (endChar, q) else none := by
  have hempty : ioqEmpty q = true := decide_eq_true (h.head_eq_tail_iff.mpr rfl)
  rw [ioqGetchar, hempty, if_pos rfl]

theorem ioqEmpty_iff (h : Holds q xs) : ioqEmpty q = true ↔ xs = [] := by
  rw [ioqEmpty, decide_eq_true_iff]
  exact h.head_eq_tail_iff

theorem ioqGetchar_cons {x : Char8} (h : Holds q (x :: xs)) :
    ∃ q', ioqGetchar q = some (x, q') ∧ Holds q' xs ∧ q'.flag = q.flag := by
  have hempty : ioqEmpty q = false :=
    decide_eq_false fun heq => List.cons_ne_nil x xs (h.head_eq_tail_iff.mp heq)
  obtain ⟨hfirst, hrest⟩ := Ring.Holds.pop h
  refine ⟨{ q with tail := nextPos q.tail }, ?_, hrest, rfl⟩
  rw [ioqGetchar, hempty, if_neg Bool.false_ne_true, hfirst]

theorem ioqPutchar_of_room (h : Holds q xs) (hroom : xs.length + 1 < bufsize) (byte : Char8) :
    ∃ q', ioqPutchar q byte = some q' ∧ Holds q' (xs ++ [byte]) ∧ q'.flag = q.flag := by
  have hfull : ioqFull q = false := by
    refine decide_eq_false fun heq => ?_
    have := (Ring.Holds.succ_head_eq_tail_iff h).mp heq
    omega
  refine ⟨{ q with buf := Function.update q.buf q.head byte, head := nextPos q.head }, ?_,
    Ring.Holds.push h hroom byte, rfl⟩
  rw [ioqPutchar, hfull, if_neg Bool.false_ne_true]

end Operations

end KernelTravel.Pipe

import KernelTravel.Fat32.Volume

/-!
# The two levels of the cluster pointers

`fs/fat32/filepnt.c`. A `DirentPointer` names five pages of cluster numbers itself and a third-level
page that names 512 more; a page is taken from `get_page`, zeroed, when an entry of it is first set.
`filepnt_getclusbyno` asserts that an index has a page, `filepnt_setval` checks nothing: beyond the
last page it goes on behind the array of the third-level page. What lies there is a parameter.
-/

namespace KernelTravel.Fat32

open Function

def ndirentSecpointer : Nat := 5

/-- `PAGE_SIZE / sizeof(struct TwicePointer *)`. -/
def thirdPointers : Nat := 512

/-- A page of cluster numbers. -/
abbrev TwicePointer := Nat → Nat

/-- Elements of `third` from `thirdPointers` on are the memory behind the page. -/
structure PointerTable where
  second : Nat → Option TwicePointer
  third : Option (Nat → Option TwicePointer)

/-- What a store goes to: a pointer of the entry, a pointer in the third-level page, or an element
of the page that the `k`th pointer names, where those of `third` follow those of `second`. -/
inductive Place where
  | second (k : Nat)
  | third
  | ptr (k : Nat)
  | cluster (k index : Nat)
  deriving DecidableEq

/-- The place belongs to the table. -/
def Place.Inside : Place → Prop
  | .second k => k < ndirentSecpointer
  | .third => True
  | .ptr k => k < thirdPointers
  | .cluster k index => k < pointerPages ∧ index < pageNclusno

namespace PointerTable

/-- A third-level page from `get_page`, with `behind` behind it. -/
def freshThird (behind : Nat → Option TwicePointer) (k : Nat) : Option TwicePointer :=
  if k < thirdPointers then none else behind k

/-- The page of a pointer, which is taken if there is none, with an element stored in it. -/
def storeIn (page : Option TwicePointer) (index value : Nat) : Option TwicePointer :=
  some (update (page.getD fun _ => 0) index value)

/-- The store of a pointer that was null. -/
def takes {α : Type} (pointer : Option α) (place : Place) : List Place :=
  if pointer.isNone then [place] else []

/-- `filepnt_setval`, with the places of its stores. -/
def setval (behind : Nat → Option TwicePointer) (t : PointerTable) (i value : Nat) :
    PointerTable × List Place :=
  let index1 := i / pageNclusno
  let index2 := i % pageNclusno
  if ndirentSecpointer ≤ index1 then
    let third := t.third.getD (freshThird behind)
    let k := index1 - ndirentSecpointer
    ({ t with third := some (update third k (storeIn (third k) index2 value)) },
      takes t.third .third ++ takes (third k) (.ptr k) ++ [.cluster index1 index2])
  else
    ({ t with second := update t.second index1 (storeIn (t.second index1) index2 value) },
      takes (t.second index1) (.second index1) ++ [.cluster index1 index2])

/-- `filepnt_getclusbyno`, with `none` where an assertion fails. -/
def getclusbyno (t : PointerTable) (fileClusNo : Nat) : Option Nat :=
  let ind1 := fileClusNo / pageNclusno
  let twicep :=
    if ind1 < ndirentSecpointer then t.second ind1
    else if ind1 - ndirentSecpointer < thirdPointers then
      t.third.bind fun third => third (ind1 - ndirentSecpointer)
    else none
  twicep.map fun twicep => twicep (fileClusNo % pageNclusno)

/-- The calls `filepnt_setval(i, value)` of a list of pairs, with the places of all their stores. -/
def setAll (behind : Nat → Option TwicePointer) (t : PointerTable) (calls : List (Nat × Nat)) :
    PointerTable × List Place :=
  calls.foldl (fun (t, places) call =>
    let (t, more) := t.setval behind call.1 call.2
    (t, places ++ more)) (t, [])

/-- The last value that the calls set for an index. -/
def lastSet (calls : List (Nat × Nat)) (i : Nat) : Option Nat :=
  (calls.reverse.find? fun call => call.1 = i).map Prod.snd

/-- The stores of the calls stay inside the table, and afterwards every index has its last value. -/
structure Lawful (behind : Nat → Option TwicePointer) (t : PointerTable)
    (calls : List (Nat × Nat)) : Prop where
  inside : ∀ place ∈ (t.setAll behind calls).2, place.Inside
  last : ∀ i v, i < pointerLimit → lastSet calls i = some v →
    (t.setAll behind calls).1.getclusbyno i = some v

section Step

variable {i value : Nat}

/-- The pages in one row. -/
def toPointer (t : PointerTable) : DirentPointer where
  page k := if k < ndirentSecpointer then t.second k
    else t.third.bind fun third => third (k - ndirentSecpointer)

theorem getclusbyno_eq (t : PointerTable) (i : Nat) :
    t.getclusbyno i = t.toPointer.getclusbyno i := by
  have hpages : pointerPages = ndirentSecpointer + thirdPointers := rfl
  rw [getclusbyno, DirentPointer.getclusbyno, toPointer]
  by_cases hsecond : i / pageNclusno < ndirentSecpointer
  · simp only [if_pos hsecond, if_pos (show i / pageNclusno < pointerPages by omega)]
  · by_cases hthird : i / pageNclusno - ndirentSecpointer < thirdPointers
    · simp only [if_neg hsecond, if_pos hthird,
        if_pos (show i / pageNclusno < pointerPages by omega)]
    · simp only [if_neg hsecond, if_neg hthird,
        if_neg (show ¬i / pageNclusno < pointerPages by omega), Option.map_none]

theorem thirdOf_eq (t : PointerTable) (behind : Nat → Option TwicePointer) {k : Nat}
    (hk : k < thirdPointers) :
    t.third.getD (freshThird behind) k = t.third.bind fun third => third k := by
  cases t.third with
  | none => exact if_pos hk
  | some third => rfl

/-- Within the pages the two levels act as one row. -/
theorem toPointer_setval (behind : Nat → Option TwicePointer) (t : PointerTable)
    (hi : i < pointerLimit) (value : Nat) : ∃ q, t.toPointer.setval i value = some q ∧
      ∀ j < pointerLimit, (t.setval behind i value).1.getclusbyno j = q.getclusbyno j := by
  have hpage : i / pageNclusno < pointerPages := (Nat.div_lt_iff_lt_mul (by decide)).mpr hi
  have hpages : pointerPages = ndirentSecpointer + thirdPointers := rfl
  refine ⟨_, if_pos hpage, fun j hj => ?_⟩
  have hjpage : j / pageNclusno < pointerPages := (Nat.div_lt_iff_lt_mul (by decide)).mpr hj
  rw [getclusbyno_eq, DirentPointer.getclusbyno, DirentPointer.getclusbyno, if_pos hjpage,
    if_pos hjpage]
  refine congrArg (Option.map _) ?_
  generalize j / pageNclusno = k at hjpage
  rw [setval]
  by_cases hthird : ndirentSecpointer ≤ i / pageNclusno
  · rw [if_pos hthird]
    rcases eq_or_ne k (i / pageNclusno) with rfl | hne
    · simp only [toPointer, update_self, if_neg (Nat.not_lt.mpr hthird), Option.bind_some,
        thirdOf_eq t behind (show i / pageNclusno - ndirentSecpointer < thirdPointers by omega),
        storeIn]
    · by_cases hsecond : k < ndirentSecpointer
      · simp only [toPointer, update_of_ne hne, if_pos hsecond]
      · have hother : k - ndirentSecpointer ≠ i / pageNclusno - ndirentSecpointer := by omega
        simp only [toPointer, update_of_ne hne, if_neg hsecond, Option.bind_some,
          update_of_ne hother,
          thirdOf_eq t behind (show k - ndirentSecpointer < thirdPointers by omega)]
  · rw [if_neg hthird]
    rcases eq_or_ne k (i / pageNclusno) with rfl | hne
    · simp only [toPointer, update_self, if_pos (Nat.lt_of_not_le hthird), storeIn]
    · simp only [toPointer, update_of_ne hne]

/-- The index that is set has the value, and every other one that has a value keeps it. -/
theorem getclusbyno_setval (behind : Nat → Option TwicePointer) (t : PointerTable) {j v : Nat}
    (hi : i < pointerLimit) (hj : j < pointerLimit)
    (h : (if i = j then some value else t.getclusbyno j) = some v) :
    (t.setval behind i value).1.getclusbyno j = some v := by
  obtain ⟨q, hq, heq⟩ := toPointer_setval behind t hi value
  rw [heq j hj]
  rcases eq_or_ne i j with rfl | hne
  · rw [if_pos rfl] at h
    exact (DirentPointer.getclusbyno_setval_self hq).trans h
  · rw [if_neg hne, getclusbyno_eq] at h
    exact DirentPointer.getclusbyno_setval_of_ne hq h hne.symm

theorem inside_of_mem_takes {α : Type} {pointer : Option α} {place p : Place}
    (h : p ∈ takes pointer place) (hplace : place.Inside) : p.Inside := by
  rw [takes] at h
  split at h
  · exact (List.mem_singleton.mp h) ▸ hplace
  · exact absurd h List.not_mem_nil

/-- A call stores inside the table exactly if there is a page for its index. -/
theorem setval_inside_iff (behind : Nat → Option TwicePointer) (t : PointerTable) (i value : Nat) :
    (∀ place ∈ (t.setval behind i value).2, place.Inside) ↔ i < pointerLimit := by
  have hpages : pointerPages = ndirentSecpointer + thirdPointers := rfl
  have hpage : i < pointerLimit ↔ i / pageNclusno < pointerPages :=
    (Nat.div_lt_iff_lt_mul (by decide)).symm
  have hcluster : Place.cluster (i / pageNclusno)
      (i % pageNclusno) ∈ (t.setval behind i value).2 := by
    rw [setval]
    split <;> exact List.mem_append_right _ (List.mem_singleton_self _)
  refine ⟨fun h => hpage.mpr (h _ hcluster).1, fun hi place hplace => ?_⟩
  have hinside : Place.Inside (.cluster (i / pageNclusno) (i % pageNclusno)) :=
    ⟨hpage.mp hi, Nat.mod_lt _ (by decide)⟩
  rw [hpage] at hi
  rw [setval] at hplace
  split at hplace
  next hthird =>
    rcases List.mem_append.mp hplace with hpointer | hlast
    · rcases List.mem_append.mp hpointer with htaken | hnamed
      · exact inside_of_mem_takes htaken trivial
      · exact inside_of_mem_takes hnamed (show _ < thirdPointers by omega)
    · exact List.mem_singleton.mp hlast ▸ hinside
  next hsecond =>
    rcases List.mem_append.mp hplace with hpointer | hlast
    · exact inside_of_mem_takes hpointer (Nat.lt_of_not_le hsecond)
    · exact List.mem_singleton.mp hlast ▸ hinside

end Step

section Calls

variable {behind : Nat → Option TwicePointer} {calls : List (Nat × Nat)} {call : Nat × Nat}

theorem setAll_append_singleton (t : PointerTable) : t.setAll behind (calls ++ [call]) =
      (((t.setAll behind calls).1.setval behind call.1 call.2).1,
        (t.setAll behind calls).2 ++ ((t.setAll behind calls).1.setval behind call.1 call.2).2) :=
  List.foldl_append

theorem lastSet_append_singleton (i : Nat) :
    lastSet (calls ++ [call]) i = if call.1 = i then some call.2 else lastSet calls i := by
  rw [lastSet, List.reverse_append, List.reverse_singleton, List.singleton_append, List.find?_cons]
  by_cases heq : call.1 = i
  · simp only [heq, decide_true, Option.map_some, if_true]
  · simp only [heq, decide_false, if_false, lastSet]

theorem setAll_inside_iff (behind : Nat → Option TwicePointer) (t : PointerTable)
    (calls : List (Nat × Nat)) :
    (∀ place ∈ (t.setAll behind calls).2, place.Inside) ↔
    ∀ call ∈ calls, call.1 < pointerLimit := by
  induction calls using List.reverseRecOn with
  | nil => exact ⟨fun _ _ h => absurd h List.not_mem_nil, fun _ _ h => absurd h List.not_mem_nil⟩
  | append_singleton calls call ih =>
    rw [setAll_append_singleton, List.forall_mem_append, List.forall_mem_append, ih,
      setval_inside_iff, List.forall_mem_singleton]

theorem getclusbyno_setAll (behind : Nat → Option TwicePointer) (t : PointerTable)
    (hcalls : ∀ call ∈ calls, call.1 < pointerLimit) {i v : Nat} (hi : i < pointerLimit)
    (hlast : lastSet calls i = some v) : (t.setAll behind calls).1.getclusbyno i = some v := by
  induction calls using List.reverseRecOn generalizing v with
  | nil => exact absurd hlast (by simp [lastSet])
  | append_singleton calls call ih =>
    rw [List.forall_mem_append, List.forall_mem_singleton] at hcalls
    rw [setAll_append_singleton]
    refine getclusbyno_setval behind _ hcalls.2 hi ?_
    rw [lastSet_append_singleton] at hlast
    split at hlast
    next heq => rw [if_pos heq, hlast]
    next hne => rw [if_neg hne, ih hcalls.1 hlast]

/-- The setter is lawful exactly on the calls that the getter would not refuse. -/
theorem lawful_iff (behind : Nat → Option TwicePointer) (t : PointerTable)
    (calls : List (Nat × Nat)) : t.Lawful behind calls ↔ ∀ call ∈ calls, call.1 < pointerLimit :=
  ⟨fun h => (setAll_inside_iff behind t calls).mp h.inside, fun hcalls =>
    ⟨(setAll_inside_iff behind t calls).mpr hcalls,
      fun _ _ hi hlast => getclusbyno_setAll behind t hcalls hi hlast⟩⟩

/-- The first index without a page: the pointer of a new page is stored behind the third-level
page. -/
theorem setval_overruns :
    Place.ptr thirdPointers ∈ (setval (fun _ => none) ⟨fun _ => none, none⟩ pointerLimit 7).2 ∧
      ¬Place.Inside (.ptr thirdPointers) ∧
      ¬Lawful (fun _ => none) ⟨fun _ => none, none⟩ [(pointerLimit, 7)] := by
  have hstore : Place.ptr
      thirdPointers ∈ (setval (fun _ => none) ⟨fun _ => none, none⟩ pointerLimit 7).2 := by
    decide
  exact ⟨hstore, Nat.lt_irrefl _, fun h => Nat.lt_irrefl _ (h.inside _ hstore)⟩

end Calls

end PointerTable

end KernelTravel.Fat32

import KernelTravel.Ext4.Balloc
import KernelTravel.Lib.Run

/-!
# Walking over a directory whose blocks hold anything

`ext4_dir_iterator_next` with the checks of `ext4_dir_iterator_set`, over arbitrary bytes. What
the map of the inode, `bufRead` and the uninitialised `r` of `ext4_dir_iterator_seek` answer in a
round is an input. Every record that is accepted has at least eight bytes, so the walk ends; but
a round that gives up in between leaves `curr_off` where it was.
-/

namespace KernelTravel.Ext4

open Mem (leNum)

/-- The fields of the superblock that directories depend on. -/
structure DirSb extends Sblock where
  revLevel : Nat
  minorRevLevel : Nat

/-- In these revisions the length of a name has two bytes, and there is no type. -/
def DirSb.Old (sb : DirSb) : Prop := sb.revLevel = 0 ∧ sb.minorRevLevel < 5

instance (sb : DirSb) : Decidable sb.Old := inferInstanceAs (Decidable (_ ∧ _))

/-! The accessors of `ext4_dir.h` for the record at `a`: an inode number, which is 0 if the record
is free, the length of the record and the length of the name. -/

namespace DirEn

def inode (m : Nat → Byte) (a : Nat) : Nat := leNum m a 4

def entryLen (m : Nat → Byte) (a : Nat) : Nat := leNum m (a + 4) 2

def nameLen (sb : DirSb) (m : Nat → Byte) (a : Nat) : Nat :=
  (m (a + 6)).toNat + if sb.Old then (m (a + 7)).toNat * 256 else 0

theorem entryLen_lt (m : Nat → Byte) (a : Nat) : entryLen m a < 2 ^ 16 := Mem.leNum_lt m (a + 4) 2

end DirEn

/-- A directory as the iterator sees it. Its size is `size_lo`, and the block size has 32 bits. -/
structure DirSize where
  sb : DirSb
  size : Nat
  size_lt : size < 2 ^ 32
  log_le : sb.logBlockSize ≤ 21

/-- What a round is given: `r` before it is assigned, the answer and the block of
`ext4_fs_get_inode_dblk_idx`, and the buffer of `bufRead`. -/
structure Fetch where
  junk : Int
  result : Int
  block : Nat
  buf : Option (Nat → Byte)

/-- `ext4_dir_iter`, with `curr` as an offset into the block. -/
structure DirIter where
  currOff : Nat
  curr : Option Nat
  lbId : Nat
  data : Nat → Byte

/-- Where a round goes from the record at `off`. -/
def DirIter.target (it : DirIter) (off : Nat) : Nat :=
  (it.currOff + DirEn.entryLen it.data off) % 2 ^ 64

namespace DirSize

def eio : Int := 5

variable (d : DirSize)

/-- `ext4_dir_iterator_set`. -/
def iteratorSet (it : DirIter) : Int × DirIter :=
  let off := it.currOff % d.sb.blockSize
  let it := { it with curr := none }
  if off % 4 ≠ 0 then (eio, it)
  else if d.sb.blockSize - 8 < off then (eio, it)
  else
    let length := DirEn.entryLen it.data off
    if d.sb.blockSize < off + length then (eio, it)
    else if (length : Int) - 8 < DirEn.nameLen d.sb it.data off then (eio, it)
    else (0, { it with curr := some off })

/-- The round needs a block other than the one it holds. -/
def Moves (it : DirIter) (pos : Nat) : Prop :=
  it.lbId = 0 ∨ it.currOff / d.sb.blockSize ≠ pos / d.sb.blockSize % 2 ^ 32

instance (it : DirIter) (pos : Nat) : Decidable (d.Moves it pos) :=
  inferInstanceAs (Decidable (_ ∨ _))

/-- `ext4_dir_iterator_seek`. A block that is held is released before `r` is tested. -/
def iteratorSeek (f : Fetch) (it : DirIter) (pos : Nat) : Int × DirIter :=
  let held := it.lbId ≠ 0
  let it := { it with curr := none }
  if d.size ≤ pos then
    let it := { it with lbId := 0 }
    if held ∧ f.junk ≠ 0 then (f.junk, it) else (0, { it with currOff := pos })
  else if d.Moves it pos then
    let it := { it with lbId := 0 }
    if held ∧ f.junk ≠ 0 then (f.junk, it)
    else if f.result ≠ 0 then (f.result, it)
    else match f.buf with
      | none => (0, it)
      | some data => d.iteratorSet { it with lbId := f.block, data, currOff := pos }
  else d.iteratorSet { it with currOff := pos }

/-- The loop of `ext4_dir_iterator_next`, with what is left of the answers. A null pointer in
`curr` is followed at its start. -/
def iteratorNext : List Fetch → DirIter → Option (Int × DirIter × List Fetch)
  | [], _ => none
  | f :: fs, it => do
    let off ← it.curr
    let (r, it) := d.iteratorSeek f it (it.target off)
    match it.curr with
    | none => some (r, it, fs)
    | some off =>
      if DirEn.inode it.data off ≠ 0 ∨ r ≠ 0 then some (r, it, fs) else iteratorNext fs it

/-- A caller that goes on `n` times. -/
def iteratorCalls : Nat → List Fetch → DirIter → Option (DirIter × List Fetch)
  | 0, fs, it => some (it, fs)
  | n + 1, fs, it => do
    let (_, it, fs) ← d.iteratorNext fs it
    iteratorCalls n fs it

/-- One round, as a step of the iterator. -/
def round (it : DirIter) (f : Fetch) : Option DirIter :=
  it.curr.map fun off => (d.iteratorSeek f it (it.target off)).2

/-! ## What is accepted -/

/-- The record at `off` lies within the block, with its name. -/
structure EntryOk (data : Nat → Byte) (off : Nat) : Prop where
  inBlock : off + DirEn.entryLen data off ≤ d.sb.blockSize
  eight : 8 ≤ DirEn.entryLen data off
  name : DirEn.nameLen d.sb data off ≤ DirEn.entryLen data off - 8

/-- What `curr` points at was accepted, before the end of the directory. -/
def Accepted (it : DirIter) : Prop :=
  ∀ off, it.curr = some off → d.EntryOk it.data off ∧ it.currOff < d.size

/-- The round gives up before it sets `curr_off`. -/
def Aborts (f : Fetch) (it : DirIter) (pos : Nat) : Prop :=
  if d.size ≤ pos then it.lbId ≠ 0 ∧ f.junk ≠ 0
  else d.Moves it pos ∧ (it.lbId ≠ 0 ∧ f.junk ≠ 0 ∨ f.result ≠ 0 ∨ f.buf = none)

def RoundAborts (it : DirIter) (f : Fetch) : Prop :=
  ∃ off, it.curr = some off ∧ d.Aborts f it (it.target off)

/-- The round moves `curr_off` by eight bytes or more. -/
def Advances (it : DirIter) (f : Fetch) : Prop :=
  ∀ off, it.curr = some off →
    it.currOff + 8 ≤ (d.iteratorSeek f it (it.target off)).2.currOff

variable {d} {it it' : DirIter} {f : Fetch} {pos off : Nat}

theorem iteratorSet_currOff (it : DirIter) : (d.iteratorSet it).2.currOff = it.currOff := by
  unfold iteratorSet
  dsimp only
  split_ifs <;> rfl

theorem iteratorSet_curr (h : (d.iteratorSet it).2.curr = some off) :
    d.EntryOk (d.iteratorSet it).2.data off := by
  unfold iteratorSet at h ⊢
  dsimp only at h ⊢
  split_ifs at h ⊢ with _ _ hblock hname
  cases h
  refine ⟨Nat.not_lt.mp hblock, ?_, ?_⟩
  · dsimp only
    omega
  · dsimp only
    omega

/-- Whatever the bytes are, a position that is accepted lies in the directory and holds a record
within its block. -/
theorem iteratorSeek_curr (h : (d.iteratorSeek f it pos).2.curr = some off) :
    d.EntryOk (d.iteratorSeek f it pos).2.data off ∧ pos < d.size ∧
      (d.iteratorSeek f it pos).2.currOff = pos := by
  unfold iteratorSeek at h ⊢
  dsimp only at h ⊢
  split_ifs at h ⊢ with hsize
  · split at h
    next => cases h
    next => exact ⟨iteratorSet_curr h, Nat.not_le.mp hsize, iteratorSet_currOff _⟩
  · exact ⟨iteratorSet_curr h, Nat.not_le.mp hsize, iteratorSet_currOff _⟩

theorem iteratorSeek_currOff_iff (hne : pos ≠ it.currOff) :
    (d.iteratorSeek f it pos).2.currOff = it.currOff ↔ d.Aborts f it pos := by
  have hmoves : d.Moves { it with curr := none } pos ↔ d.Moves it pos := Iff.rfl
  unfold iteratorSeek Aborts
  dsimp only
  by_cases hsize : d.size ≤ pos
  · by_cases hjunk : it.lbId ≠ 0 ∧ f.junk ≠ 0
    · simp [hsize, hjunk]
    · simp [hsize, hjunk, hne]
  by_cases hmove : d.Moves it pos
  · simp only [hsize, hmoves.mpr hmove, hmove, if_true, if_false, true_and]
    by_cases hjunk : it.lbId ≠ 0 ∧ f.junk ≠ 0
    · simp [hjunk]
    by_cases hresult : f.result = 0
    · cases hbuf : f.buf with
      | none => simp [hjunk, hresult]
      | some data => simp [hjunk, hresult, iteratorSet_currOff, hne]
    · simp [hjunk, hresult]
  · simp [hsize, mt hmoves.mp hmove, hmove, iteratorSet_currOff, hne]

theorem iteratorSeek_currOff (d : DirSize) (f : Fetch) (it : DirIter) (pos : Nat) :
    (d.iteratorSeek f it pos).2.currOff = it.currOff ∨
    (d.iteratorSeek f it pos).2.currOff = pos := by
  unfold iteratorSeek
  dsimp only
  split_ifs
  all_goals first | exact .inl rfl | exact .inr rfl | skip
  · split
    · exact .inl rfl
    · exact .inr (iteratorSet_currOff _)
  · exact .inr (iteratorSet_currOff _)

theorem Accepted.target (ok : d.Accepted it) (h : it.curr = some off) :
    it.target off = it.currOff + DirEn.entryLen it.data off ∧ 8 ≤ DirEn.entryLen it.data off := by
  obtain ⟨entry, hlt⟩ := ok off h
  have hlen := DirEn.entryLen_lt it.data off
  have hsize := d.size_lt
  exact ⟨Nat.mod_eq_of_lt (by omega), entry.eight⟩

theorem round_eq (h : it.curr = some off) (f : Fetch) :
    d.round it f = some (d.iteratorSeek f it (it.target off)).2 := by
  rw [round, h, Option.map_some]

theorem round_accepted (h : d.round it f = some it') : d.Accepted it' := by
  obtain ⟨off, -, rfl⟩ := Option.map_eq_some_iff.mp h
  intro off' hoff'
  obtain ⟨entry, hlt, heq⟩ := iteratorSeek_curr hoff'
  refine ⟨entry, ?_⟩
  rw [heq]
  exact hlt

/-- A round that yields a record has moved by eight bytes or more. -/
theorem Accepted.round_yields (ok : d.Accepted it) (h : d.round it f = some it')
    (hyields : it'.curr ≠ none) : it.currOff + 8 ≤ it'.currOff := by
  obtain ⟨off, hoff, rfl⟩ := Option.map_eq_some_iff.mp h
  obtain ⟨off', hoff'⟩ := Option.ne_none_iff_exists'.mp hyields
  obtain ⟨htarget, hlen⟩ := ok.target hoff
  rw [(iteratorSeek_curr hoff').2.2, htarget]
  exact Nat.add_le_add_left hlen _

theorem Accepted.advances_iff (ok : d.Accepted it) (f : Fetch) :
    d.Advances it f ↔ ¬d.RoundAborts it f := by
  constructor
  · rintro advances ⟨off, hoff, aborts⟩
    obtain ⟨htarget, hlen⟩ := ok.target hoff
    have hsame := (iteratorSeek_currOff_iff (by omega)).mpr aborts
    have := advances off hoff
    omega
  · intro hgoes off hoff
    obtain ⟨htarget, hlen⟩ := ok.target hoff
    have hne : it.target off ≠ it.currOff := by omega
    have hmoved := mt (@iteratorSeek_currOff_iff d it f _ hne).mp
      fun aborts => hgoes ⟨off, hoff, aborts⟩
    have := (iteratorSeek_currOff d f it (it.target off)).resolve_left hmoved
    omega

/-! ## Whole walks -/

/-- Every round but the last yields a record, and each of these is eight bytes further on. -/
theorem Accepted.exec_length (ok : d.Accepted it) {fs : List Fetch}
    (run : Run.exec d.round it (f :: fs) = some it') : 8 * fs.length + it.currOff < d.size := by
  obtain ⟨it₁, hround, hrest⟩ := Run.exec_cons_eq_some.mp run
  induction fs generalizing it f it₁ with
  | nil =>
    obtain ⟨off, hoff, -⟩ := Option.map_eq_some_iff.mp hround
    simpa using (ok off hoff).2
  | cons g fs ih =>
    obtain ⟨it₂, hnext, hrest'⟩ := Run.exec_cons_eq_some.mp hrest
    have hyields : it₁.curr ≠ none := by
      obtain ⟨off, hoff, -⟩ := Option.map_eq_some_iff.mp hnext
      simp [hoff]
    have hmoved := ok.round_yields hround hyields
    have := ih (round_accepted hround) hrest it₂ hnext hrest'
    rw [List.length_cons]
    omega

/-- `ext4_dir_iterator_next` is a run of at least one round. -/
theorem iteratorNext_run {fs rest : List Fetch} {r : Int}
    (h : d.iteratorNext fs it = some (r, it', rest)) :
    ∃ f used, fs = f :: used ++ rest ∧ Run.exec d.round it (f :: used) = some it' := by
  induction fs generalizing it with
  | nil => cases h
  | cons f fs ih =>
    obtain ⟨off, hoff, h⟩ := Option.bind_eq_some_iff.mp h
    have hround := round_eq (d := d) hoff f
    have single : ∀ it', (d.iteratorSeek f it (it.target off)).2 = it' →
        Run.exec d.round it [f] = some it' := by
      rintro _ rfl
      rw [Run.exec_cons, hround]
      rfl
    dsimp only at h
    split at h
    next =>
      cases h
      exact ⟨f, [], rfl, single _ rfl⟩
    next =>
      split at h
      next =>
        cases h
        exact ⟨f, [], rfl, single _ rfl⟩
      next =>
        obtain ⟨g, used, rfl, run⟩ := ih h
        refine ⟨f, g :: used, rfl, ?_⟩
        rw [Run.exec_cons, hround]
        exact run

/-- With an answer for every eight bytes that are left `ext4_dir_iterator_next` returns. -/
theorem Accepted.iteratorNext_isSome (ok : d.Accepted it) (hcurr : it.curr ≠ none)
    {fs : List Fetch} (hlen : d.size ≤ 8 * fs.length + it.currOff) :
    (d.iteratorNext fs it).isSome := by
  induction fs generalizing it with
  | nil =>
    obtain ⟨off, hoff⟩ := Option.ne_none_iff_exists'.mp hcurr
    have := (ok off hoff).2
    simp at hlen
    omega
  | cons f fs ih =>
    obtain ⟨off, hoff⟩ := Option.ne_none_iff_exists'.mp hcurr
    have hround := round_eq (d := d) hoff f
    rw [iteratorNext, hoff]
    simp only [Option.bind_eq_bind, Option.bind_some]
    split
    next => rfl
    next off' hoff' =>
      split
      next => rfl
      next =>
        have hyields : (d.iteratorSeek f it (it.target off)).2.curr ≠ none := by simp [hoff']
        have hmoved := ok.round_yields hround hyields
        rw [List.length_cons] at hlen
        exact ih (round_accepted hround) hyields (by omega)

theorem iteratorCalls_run {n : Nat} {fs rest : List Fetch}
    (h : d.iteratorCalls n fs it = some (it', rest)) :
    ∃ used, n ≤ used.length ∧ Run.exec d.round it used = some it' := by
  induction n generalizing fs it with
  | zero =>
    cases h
    exact ⟨[], Nat.le_refl 0, rfl⟩
  | succ n ih =>
    obtain ⟨⟨r, it₁, fs₁⟩, hnext, h⟩ := Option.bind_eq_some_iff.mp h
    obtain ⟨f, used, -, run⟩ := iteratorNext_run hnext
    obtain ⟨used', hlen, run'⟩ := ih h
    refine ⟨f :: used ++ used', ?_, ?_⟩
    · rw [List.length_append, List.length_cons]
      omega
    · rw [Run.exec_append, run]
      exact run'

/-- What a walk from an accepted record has to do. -/
structure WalkRight (d : DirSize) (it : DirIter) (fs : List Fetch) : Prop where
  entries : ∀ used it', used <+: fs → Run.exec d.round it used = some it' → d.Accepted it'
  advances : Run.Meets d.round d.Advances it fs
  next : d.size ≤ 8 * fs.length → (d.iteratorNext fs it).isSome
  calls : ∀ n it' rest, d.iteratorCalls n fs it = some (it', rest) → 8 * n < d.size + 8

/-- From an accepted record every walk accepts records within their blocks only and ends. Its
rounds all move on exactly if none gives up before it has set `curr_off`. -/
theorem walkRight_iff (ok : d.Accepted it) (hcurr : it.curr ≠ none) (fs : List Fetch) :
    WalkRight d it fs ↔ Run.Meets d.round (fun it f => ¬d.RoundAborts it f) it fs := by
  have agree : Run.Meets d.round d.Advances it fs ↔
      Run.Meets d.round (fun it f => ¬d.RoundAborts it f) it fs :=
    Run.meets_congr ok (fun _ f ok => ok.advances_iff f) fun _ _ _ _ _ h => round_accepted h
  refine ⟨fun right => agree.mp right.advances, fun goes => ⟨?_, agree.mpr goes, ?_, ?_⟩⟩
  · intro used it' _ run
    exact Run.invariant ok (Run.Meets.of_forall (fun _ _ => trivial) used it)
      (fun _ _ _ _ _ h => round_accepted h) run
  · intro hlen
    exact ok.iteratorNext_isSome hcurr (Nat.le_add_right_of_le hlen)
  · intro n it' rest h
    obtain ⟨used, hlen, run⟩ := iteratorCalls_run h
    cases used with
    | nil =>
      simp at hlen
      omega
    | cons f used =>
      have := ok.exec_length run
      rw [List.length_cons] at hlen
      omega

/-- A directory of one record of twelve bytes. -/
def oneRecord : DirSize where
  sb := ⟨⟨1, 0, 8192, 8192, 0, 32⟩, 1, 0⟩
  size := 12
  size_lt := by decide
  log_le := by decide

def atRecord : DirIter := ⟨0, some 0, 1, fun j => if j = 4 then 12 else 0⟩

theorem atRecord_accepted : oneRecord.Accepted atRecord := by
  intro off hoff
  cases hoff
  exact ⟨⟨by decide, by decide, by decide⟩, by decide⟩

theorem walkRight_iff_oneRecord : WalkRight oneRecord atRecord [⟨0, 0, 0, none⟩] := by
  refine (walkRight_iff atRecord_accepted (Option.some_ne_none 0) _).mpr ⟨?_, fun _ _ => trivial⟩
  rintro ⟨off, hoff, aborts⟩
  cases hoff
  exact aborts.2 rfl

/-- The step over the last record gives up when the uninitialised `r` is not 0. -/
theorem last_step_keeps_offset :
    (oneRecord.iteratorNext [⟨1, 0, 0, none⟩] atRecord).map (fun x => (x.1, x.2.1.currOff)) =
        some (1, 0) ∧ ¬WalkRight oneRecord atRecord [⟨1, 0, 0, none⟩] := by
  refine ⟨by decide, fun right => ?_⟩
  have hmoved := right.advances.1 0 rfl
  have hkept : (oneRecord.iteratorSeek ⟨1, 0, 0, none⟩ atRecord (atRecord.target 0)).2.currOff =
      0 := by
    decide
  rw [hkept] at hmoved
  exact absurd hmoved (by decide)

end DirSize

end KernelTravel.Ext4

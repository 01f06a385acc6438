import KernelTravel.Ext4.ExtentLookup

/-!
# Blocks of an unwritten extent

`ext4_extent_get_blocks` with `create`, for a block that lies in an unwritten extent: the blocks
that are asked for are cleared, and the part of the extent that they make up becomes a written
one. Each block is cleared by one `memset` in the buffer of one sector. The sector is computed by
a macro without brackets, and the `memset` has the length of a block, which is at least twice
that of the buffer. The search finds the extent in a well-formed tree of any height, so the only
calls that clear nothing are those for which no element of `extent_path` is free.
-/

namespace KernelTravel.Extent

open Ext4 (bufSize)

instance (e : Entry) (l : Nat) : Decidable (e.Covers l) := inferInstanceAs (Decidable (_ ∧ _))

/-- Where the extent puts block `l`, and whether the extent is unwritten. -/
def Entry.target (e : Entry) (l : Nat) : Option (Nat × Bool) :=
  if e.Covers l then some (e.pblock + (l - e.firstBlock), e.isUnwritten) else none

section Tree

variable {blockSize lo hi d : Nat} {nd : Nodes} {r : Ref}

theorem Wf.nodeOk (hwf : Wf blockSize nd d r lo hi) : NodeOk blockSize nd r d := by
  cases d with
  | zero => exact hwf.1
  | succ d => exact hwf.1

theorem Wf.key_mono (hwf : Wf blockSize nd (d + 1) r lo hi) :
    ∀ i j, i ≤ j → j < (nd r).entriesCount → (nd r).key i ≤ (nd r).key j := by
  intro i j hij hj
  induction j, hij using Nat.le_induction with
  | base => exact Nat.le_refl _
  | succ j hij ih =>
    have hstep := (hwf.2.2 j (by omega)).2.1
    rw [Node.bound, if_pos hj] at hstep
    exact (ih (by omega)).trans hstep.le

/-- The range of an entry of an index lies in that of the node. -/
theorem Wf.bound_le (hwf : Wf blockSize nd (d + 1) r lo hi) (i : Nat) : (nd r).bound hi i ≤ hi := by
  rw [Node.bound]
  split
  · have hlast := (hwf.2.2 ((nd r).entriesCount - 1) (by omega)).2.1
    rw [Node.bound, if_neg (by omega)] at hlast
    exact (hwf.key_mono _ _ (by omega) (by omega)).trans hlast.le
  · exact Nat.le_refl _

/-- The extents of a subtree lie in its range. -/
theorem Wf.extent_range (hwf : Wf blockSize nd d r lo hi) {e : Entry} (he : e ∈ extents nd d r) :
    lo ≤ e.firstBlock ∧ 0 < e.actualLen ∧ e.firstBlock + e.actualLen ≤ hi := by
  induction d generalizing r lo hi with
  | zero =>
    obtain ⟨i, hi', rfl⟩ := List.mem_map.mp he
    rw [List.mem_range] at hi'
    exact ⟨(hwf.2 i hi').1, (hwf.2 i hi').2.1, hwf.2.end_le hi'⟩
  | succ d ih =>
    obtain ⟨i, hi', he⟩ := List.mem_flatMap.mp he
    rw [List.mem_range] at hi'
    obtain ⟨hlow, -, hchild⟩ := hwf.2.2 i hi'
    obtain ⟨hfirst, hpos, hend⟩ := ih hchild he
    exact ⟨hlow.trans hfirst, hpos, hend.trans (hwf.bound_le i)⟩

/-- The search of an index ends at the entry below which the extent of the block is. -/
theorem Wf.eq_of_covers (hwf : Wf blockSize nd (d + 1) r lo hi) {l p i : Nat} {e : Entry}
    (hp : p < (nd r).entriesCount) (hle : 0 < p → (nd r).key p ≤ l)
    (hgt : ∀ i, p < i → i < (nd r).entriesCount → l < (nd r).key i)
    (hi' : i < (nd r).entriesCount) (he : e ∈ extents nd d ((nd r).child i)) (hc : e.Covers l) :
    i = p := by
  obtain ⟨-, -, hchild⟩ := hwf.2.2 i hi'
  obtain ⟨hfirst, -, hend⟩ := hchild.extent_range he
  rcases Nat.lt_trichotomy i p with hlt | heq | hlt
  · have hnext : (nd r).bound hi i ≤ (nd r).key p := by
      rw [Node.bound, if_pos (by omega)]
      exact hwf.key_mono _ _ hlt hp
    exact absurd hc.2 (Nat.not_lt.mpr ((hend.trans hnext).trans (hle (by omega))))
  · exact heq
  · exact absurd hc.1 (Nat.not_le.mpr ((hgt i hlt hi').trans_le hfirst))

end Tree

namespace St

variable {σ : Type}

/-- The map of the tree. -/
def mapOf (s : St σ) (l : Nat) : Option (Nat × Bool) :=
  (extents s.node s.extDepth .inode).findSome? fun e => e.target l

/-- The extent that the search finds for a block, if it covers it, with the state and the path
behind the search. -/
def covering (s : St σ) (iblock : Nat) : Option (St σ × Nat × Entry) := do
  let (err, path, s) ← s.findExtent iblock none
  if err ≠ 0 then none
  else
    let base ← path
    let e ← s.elem (base + s.extDepth)
    let p ← e.extent
    let r ← e.header
    let ex ← s.entry r p
    if ex.InRange iblock then some (s, base, ex) else none

/-- How many blocks of an extent are converted. -/
def zeroRange (iblock maxBlocks : Nat) (ex : Entry) : Nat :=
  min (ex.actualLen - (iblock - ex.firstBlock)) maxBlocks

/-- The sector and the length of every `memset` of a call with `create`. -/
def zeroCalls (s : St σ) (iblock maxBlocks : Nat) : List (Nat × Nat) :=
  match s.covering iblock with
  | none => []
  | some (s, _, ex) =>
    if ex.isUnwritten = false then []
    else (List.range (zeroRange iblock maxBlocks ex)).map fun i =>
      (s.zeroSector (iblock - ex.firstBlock + ex.pblock) i, s.blockSize)

/-- Block `l` lies in the unwritten extent `e` of the tree. -/
structure UnwrittenAt (s : St σ) (l : Nat) (e : Entry) : Prop where
  mem : e ∈ extents s.node s.extDepth .inode
  covers : e.Covers l
  unwritten : e.isUnwritten = true

/-- A call for a block of the unwritten extent `e` converts the blocks that are asked for, as far
as `e` goes, and clears them and nothing else; or it fails and leaves the map as it was. -/
structure ConvertRight (A : Allocator σ) (fuel : Nat) (s : St σ) (iblock maxBlocks : Nat)
    (e : Entry) (out : Out σ) : Prop where
  answer : s.getBlocks A fuel iblock maxBlocks true = some out
  inside : ∀ call ∈ s.zeroCalls iblock maxBlocks, call.2 ≤ bufSize
  zeroed : out.ret = 0 → ∀ a,
    (∃ call ∈ s.zeroCalls iblock maxBlocks, call.1 * bufSize ≤ a ∧ a < call.1 * bufSize + call.2) ↔
      (iblock - e.firstBlock + e.pblock) * s.blockSize ≤ a ∧
        a < (iblock - e.firstBlock + e.pblock + zeroRange iblock maxBlocks e) * s.blockSize
  converted : out.ret = 0 → ∀ l, iblock ≤ l → l < iblock + zeroRange iblock maxBlocks e →
    out.s.mapOf l = some (e.pblock + (l - e.firstBlock), false)
  kept : out.ret = 0 → ∀ l, ¬(iblock ≤ l ∧ l < iblock + zeroRange iblock maxBlocks e) →
    out.s.mapOf l = s.mapOf l
  failed : out.ret ≠ 0 → ∀ l, out.s.mapOf l = s.mapOf l

variable {s s' : St σ} {iblock maxBlocks : Nat}

theorem bufSize_lt_blockSize (s : St σ) : bufSize < s.blockSize :=
  (show bufSize < 1024 by decide).trans_le Nat.le_shiftLeft

/-- A call for a block of the extent clears at least that block. -/
theorem zeroRange_pos {e : Entry} (hcovers : e.Covers iblock) (hask : 1 ≤ maxBlocks) :
    0 < zeroRange iblock maxBlocks e := by
  obtain ⟨hfirst, hlast⟩ := hcovers
  rw [zeroRange]
  omega

/-- Behind a search in the nodes `nd`: element `k` is at the extent `e`. -/
structure Found (nd : Nodes) (s' : St σ) (k : Nat) (e : Entry) : Prop where
  node : s'.node = nd
  lt : k < extentPathMax
  elem : ∃ r p, (s'.path k).header = some r ∧ (s'.path k).extent = some p ∧ p < r.room ∧
    (nd r).entry p = e

variable {size lo hi d l depth base ppos k : Nat} {nd : Nodes} {r : Ref} {e : Entry} {ret : Int}

theorem setElem_path (s : St σ) (k : Nat) (e : PathElem) : (s.setElem k e).path k = e :=
  Function.update_self ..

theorem setElem_lbId (hlb : ∀ k, (s.path k).lbId = 0) {e : PathElem} (he : e.lbId = 0) :
    ∀ j, ((s.setElem k e).path j).lbId = 0 := by
  intro j
  simp only [setElem, Function.update_apply]
  split
  · exact he
  · exact hlb j

theorem extCheck_eq_none (hok : NodeOk size s.node r d) : s.extCheck r d = none := by
  simp only [extCheck]
  rw [if_neg (not_not.mpr hok.magic), if_neg (not_not.mpr hok.depth_eq), if_neg hok.max_pos.ne',
    if_neg (Nat.not_lt.mpr hok.count_le)]

theorem findLeaf_found (hnode : s.node = nd) (hwf : Wf size nd 0 r lo hi) (he : e ∈ extents nd 0 r)
    (hc : e.Covers l) (hheader : (s.path k).header = some r)
    (h : s.findLeaf l k = some (ret, s')) : ret = 0 ∧ Found nd s' k e := by
  subst hnode
  obtain ⟨i, hi', rfl⟩ := List.mem_map.mp he
  rw [List.mem_range] at hi'
  simp only [findLeaf, Option.bind_eq_bind, Option.bind_eq_some_iff, elem,
    Option.ite_none_right_eq_some] at h
  obtain ⟨_, ⟨hk, heq⟩, r', hr, extent, hsearch, h⟩ := h
  cases heq
  obtain rfl : r = r' := Option.some.inj (hheader.symm.trans hr)
  rw [binsearch, if_neg (by omega)] at hsearch
  obtain ⟨p, hp, rfl⟩ := Option.map_eq_some_iff.mp hsearch
  obtain ⟨hlt, hle, hgt⟩ := Table.bisect_eq_some hwf.2.mono (by omega) hp
  obtain rfl := hwf.2.eq_of_covers hlt hle hgt hi' hc
  obtain ⟨ex, hentry, h⟩ := Option.bind_eq_some_iff.mp h
  obtain ⟨hroom, -⟩ := Option.ite_none_right_eq_some.mp hentry
  cases h
  refine ⟨rfl, rfl, hk, r, i, ?_, ?_, hroom, rfl⟩
  · rw [setElem_path]
    exact hheader
  · rw [setElem_path]

/-- The walk down a well-formed tree, where it comes to its end, is at the extent of the block. -/
theorem findLoop_found (hnode : s.node = nd) (hlb : ∀ k, (s.path k).lbId = 0)
    (hwf : Wf size nd d r lo hi) (he : e ∈ extents nd d r) (hc : e.Covers l)
    (hdepth : ppos + d = depth) (hheader : (s.path (base + ppos)).header = some r)
    (h : findLoop l depth base d ppos s = some (ret, s')) :
    ret = 0 ∧ Found nd s' (base + depth) e := by
  induction d generalizing r lo hi ppos s with
  | zero =>
    obtain rfl : ppos = depth := hdepth
    exact findLeaf_found hnode hwf he hc hheader h
  | succ d ih =>
    subst hnode
    obtain ⟨i, hi', he⟩ := List.mem_flatMap.mp he
    rw [List.mem_range] at hi'
    obtain ⟨-, -, hchild⟩ := hwf.2.2 i hi'
    simp only [findLoop, Option.bind_eq_bind, Option.bind_eq_some_iff] at h
    obtain ⟨_, helem, r', hr, p, hsearch, ix, hentry, next, hnext, h⟩ := h
    obtain ⟨-, heq⟩ := Option.ite_none_right_eq_some.mp helem
    cases heq
    obtain rfl : r = r' := Option.some.inj (hheader.symm.trans hr)
    obtain ⟨hlt, hle, hgt⟩ := Table.bisect_eq_some hwf.key_mono hwf.2.1 hsearch
    obtain rfl := hwf.eq_of_covers hlt hle hgt hi' he hc
    obtain ⟨-, heq⟩ := Option.ite_none_right_eq_some.mp hentry
    cases heq
    obtain ⟨-, heq⟩ := Option.ite_none_right_eq_some.mp hnext
    -- no element has a buffer, so that the walk reads the child, whose header passes the check
    set s₁ := s.setElem (base + ppos) { s.path (base + ppos) with
      index := some i, pBlock := ((s.node r).entry i).idxPblock, depth := d + 1, extent := none }
    have hlb₁ : ∀ k, (s₁.path k).lbId = 0 := setElem_lbId hlb (hlb (base + ppos))
    have hzero : next.lbId = 0 := by
      rw [← Option.some.inj heq]
      exact hlb₁ _
    have hcheck : (s₁.extCheck (.block ((s.node r).entry i).idxPblock) d).isSome = false :=
      congrArg Option.isSome (extCheck_eq_none hchild.nodeOk)
    rw [if_pos (.inl hzero), hcheck, if_neg Bool.false_ne_true, if_neg (by omega)] at h
    refine ih ?_ ?_ hchild he ?_ ?_ h
    · rfl
    · exact setElem_lbId hlb₁ rfl
    · omega
    · rw [← Nat.add_assoc, setElem_path]
      rfl

/-- With an element free, a call that answers has found the extent. -/
theorem covering_of_answer {A : Allocator σ} {fuel : Nat} {out : Out σ}
    (hlb : ∀ k, (s.path k).lbId = 0) (hwf : Wf s.blockSize s.node s.extDepth .inode 0 (2 ^ 32))
    (he : e ∈ extents s.node s.extDepth .inode) (hc : e.Covers iblock)
    (hfree : ∃ k < extentPathMax, (s.path k).flag = false)
    (h : s.getBlocks A fuel iblock maxBlocks true = some out) :
    ∃ s' base, s.covering iblock = some (s', base, e) := by
  obtain ⟨k, s₁, hp⟩ := exists_pathAlloc hfree
  obtain ⟨-, -, hs₁⟩ := pathAlloc_eq_some hp
  have hlb₁ : ∀ j, (s₁.path j).lbId = 0 := hs₁ ▸ setElem_lbId hlb (hlb k)
  have hnode₁ : (s₁.enter k).node = s.node := by
    rw [hs₁]
    rfl
  have hlb₂ : ∀ j, ((s₁.enter k).path j).lbId = 0 := by
    refine setElem_lbId (setElem_lbId hlb₁ ?_) ?_
    · exact hlb₁ k
    · rfl
  obtain ⟨⟨err, path, s'⟩, hfind, -⟩ := Option.bind_eq_some_iff.mp h
  have hwalk := hfind
  simp only [findExtent, takePath, hp, Option.bind_eq_bind, Option.bind_some] at hwalk
  obtain ⟨⟨ret, s₂⟩, hloop, hend⟩ := Option.bind_eq_some_iff.mp hwalk
  have hloop' : findLoop iblock s.extDepth k s.extDepth 0 (s₁.enter k) = some (ret, s₂) := by
    rw [← extDepth_congr hnode₁]
    exact hloop
  obtain ⟨rfl, hnode, hlt, r, p, hheader, hext, hroom, hentry⟩ :=
    findLoop_found hnode₁ hlb₂ hwf he hc (Nat.zero_add _)
      (by rw [Nat.add_zero, enter, setElem_path]) hloop'
  cases hend
  obtain ⟨-, hpos, hlast⟩ := hwf.extent_range he
  have hin : e.InRange iblock := (inRange_iff_covers hpos hlast).mpr hc
  refine ⟨s₂, k, ?_⟩
  have hentry' : s₂.entry r p = some e := (if_pos hroom).trans (congrArg some (hnode ▸ hentry))
  have helem : s₂.elem (k + s₂.extDepth) = some (s₂.path (k + s.extDepth)) := by
    rw [extDepth_congr hnode]
    exact if_pos hlt
  simp only [covering, hfind, Option.bind_eq_bind, Option.bind_some, ne_eq, not_true_eq_false,
    if_false, helem, hext, hheader, hentry', if_pos hin]

theorem getBlocks_of_full (A : Allocator σ) (fuel iblock maxBlocks : Nat)
    (hfull : ∀ k < extentPathMax, (s.path k).flag = true) :
    s.getBlocks A fuel iblock maxBlocks true = some ⟨-1, 0, 0, s⟩ ∧ s.covering iblock = none := by
  have hp : s.pathAlloc = none := by
    rw [pathAlloc, List.find?_eq_none.mpr fun k hk => by simp [hfull k (List.mem_range.mp hk)]]
    rfl
  have hfind : s.findExtent iblock none = some (-1, none, s) := by
    rw [findExtent, takePath, hp]
    rfl
  refine ⟨?_, ?_⟩
  · rw [getBlocks, hfind]
    rfl
  · rw [covering, hfind]
    rfl

/-- A call for blocks of an unwritten extent is right exactly if it fails because no element of
`extent_path` is free: every other call writes behind the buffer of a sector, or does not end. -/
theorem convertRight_iff (A : Allocator σ) (fuel : Nat) (s : St σ) (iblock maxBlocks : Nat)
    (hwf : Wf s.blockSize s.node s.extDepth .inode 0 (2 ^ 32)) (hlb : ∀ k, (s.path k).lbId = 0)
    (he : s.UnwrittenAt iblock e) (hask : 1 ≤ maxBlocks) :
    (∃ out, ConvertRight A fuel s iblock maxBlocks e out) ↔
      ∀ k < extentPathMax, (s.path k).flag = true := by
  constructor
  · rintro ⟨out, h⟩ k hk
    by_contra hflag
    obtain ⟨s', base, hcov⟩ := covering_of_answer hlb hwf he.mem he.covers
      ⟨k, hk, Bool.eq_false_iff.mpr hflag⟩ h.answer
    -- the first block that is asked for is cleared by a call of its own
    have hrange : 0 < zeroRange iblock maxBlocks e := zeroRange_pos he.covers hask
    have hcall : (s'.zeroSector (iblock - e.firstBlock + e.pblock) 0, s'.blockSize) ∈
        s.zeroCalls iblock maxBlocks := by
      rw [zeroCalls, hcov]
      simp only [he.unwritten, Bool.true_eq_false, if_false]
      exact List.mem_map_of_mem (List.mem_range.mpr hrange)
    exact absurd (h.inside _ hcall) (Nat.not_le.mpr s'.bufSize_lt_blockSize)
  · intro hfull
    obtain ⟨hanswer, hcov⟩ := getBlocks_of_full A fuel iblock maxBlocks hfull
    have hret : ¬(-1 : Int) = 0 := by decide
    refine ⟨_, hanswer, ?_, fun h => absurd h hret, fun h => absurd h hret, fun h => absurd h hret,
      fun _ _ => rfl⟩
    rw [zeroCalls, hcov]
    exact List.forall_mem_nil _

end St

section Example

/-- One unwritten extent, of the blocks 0 to 4, at block 100. -/
def oneUnwritten : St Unit :=
  { oneExtent with
    node := fun
      | .inode => ⟨extentMagic, 1, 4, 0, fun _ => ⟨0, 0x8005, 100⟩⟩
      | .block _ => ⟨0, 0, 0, 0, fun _ => ⟨0, 0, 0⟩⟩ }

theorem oneUnwritten_unwrittenAt {l : Nat} (h : l < 5) :
    oneUnwritten.UnwrittenAt l ⟨0, 0x8005, 100⟩ :=
  ⟨by decide, ⟨Nat.zero_le _, h⟩, rfl⟩

theorem oneUnwritten_wf :
    Wf oneUnwritten.blockSize oneUnwritten.node oneUnwritten.extDepth .inode 0 (2 ^ 32) := by
  refine ⟨⟨rfl, rfl, by decide, by decide, by decide⟩, fun i hi => ?_⟩
  obtain rfl : i = 0 := Nat.lt_one_iff.mp hi
  decide

/-- The same tree, with every element of `extent_path` taken. -/
def pathFull : St Unit :=
  { oneUnwritten with path := fun _ => { PathElem.zero with flag := true } }

/-- While an element is free no call for a block of the extent is right; with all elements taken
the call fails and leaves the map. -/
theorem convertRight_oneUnwritten :
    (¬∃ out, St.ConvertRight noBlocks 9 oneUnwritten 4 1 ⟨0, 0x8005, 100⟩ out) ∧
      ∃ out, St.ConvertRight noBlocks 9 pathFull 4 1 ⟨0, 0x8005, 100⟩ out := by
  have he : oneUnwritten.UnwrittenAt 4 ⟨0, 0x8005, 100⟩ := oneUnwritten_unwrittenAt (by decide)
  have hfree := St.convertRight_iff noBlocks 9 oneUnwritten 4 1 oneUnwritten_wf (fun _ => rfl) he
    (by decide)
  have hfull := St.convertRight_iff noBlocks 9 pathFull 4 1 oneUnwritten_wf (fun _ => rfl)
    ⟨he.mem, he.covers, he.unwritten⟩ (by decide)
  exact ⟨fun h => absurd (hfree.mp h 0 (by decide)) Bool.false_ne_true, hfull.mpr fun _ _ => rfl⟩

/-- For logical block 3 a kilobyte is cleared from sector 103 on; block 103 has the sectors 206
and 207. -/
theorem oneUnwritten_zeroCalls :
    oneUnwritten.UnwrittenAt 3 ⟨0, 0x8005, 100⟩ ∧ oneUnwritten.zeroCalls 3 1 = [(103, 1024)] ∧
      ¬∃ out, St.ConvertRight noBlocks 9 oneUnwritten 3 1 ⟨0, 0x8005, 100⟩ out := by
  have hcalls : oneUnwritten.zeroCalls 3 1 = [(103, 1024)] := by decide
  refine ⟨oneUnwritten_unwrittenAt (by decide), hcalls, fun ⟨out, h⟩ => ?_⟩
  exact absurd (h.inside (103, 1024) (by rw [hcalls]; exact List.mem_cons_self)) (by decide)

end Example

end KernelTravel.Extent

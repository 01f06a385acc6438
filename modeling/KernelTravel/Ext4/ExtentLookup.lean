import KernelTravel.Ext4.BlockMap

/-!
# Looking up a block in the extent tree

`ext4_extent_get_blocks` without `create`. The tree of an inode is well formed over a range of
logical blocks when its extents are disjoint, in order and inside the range, the key of an index
entry is a lower bound of the extents below it and the next key an upper one, and the headers
say so.

A walk takes one element of `extent_path`, whatever the depth of the tree, and goes on in the
elements behind it; the buffers of the nodes are not given back, because `lb_id` stays 0.
`Log` records the elements that a call uses and the nodes that it reads and gives back.
-/

namespace KernelTravel.Extent

section Tree

/-- The extent covers block `l`. -/
def Entry.Covers (e : Entry) (l : Nat) : Prop := e.firstBlock ≤ l ∧ l < e.firstBlock + e.actualLen

namespace Node

def key (n : Node) (i : Nat) : Nat := (n.entry i).firstBlock

/-- The end of the range of entry `i` in a node whose range ends at `hi`. -/
def bound (n : Node) (hi i : Nat) : Nat := if i + 1 < n.entriesCount then n.key (i + 1) else hi

end Node

/-- The entries that the block of a node holds. -/
def Ref.capacity (blockSize : Nat) : Ref → Nat
  | .inode => 4
  | .block _ => (blockSize - 12) / 12

/-- What the header of a node says. -/
structure NodeOk (blockSize : Nat) (nd : Nodes) (r : Ref) (depth : Nat) : Prop where
  magic : (nd r).magic = extentMagic
  depth_eq : (nd r).depth = depth
  max_pos : 0 < (nd r).maxEntriesCount
  count_le : (nd r).entriesCount ≤ (nd r).maxEntriesCount
  max_le : (nd r).maxEntriesCount ≤ r.capacity blockSize

/-- The extents of a leaf lie in order in the range from `lo` to `hi`. -/
def LeafOk (n : Node) (lo hi : Nat) : Prop :=
  ∀ i, i < n.entriesCount → lo ≤ n.key i ∧ 0 < (n.entry i).actualLen ∧
    n.key i + (n.entry i).actualLen ≤ n.bound hi i

/-- The subtree of height `d` at `r` is well formed over the range from `lo` to `hi`. -/
def Wf (blockSize : Nat) (nd : Nodes) : Nat → Ref → Nat → Nat → Prop
  | 0, r, lo, hi => NodeOk blockSize nd r 0 ∧ LeafOk (nd r) lo hi
  | d + 1, r, lo, hi => NodeOk blockSize nd r (d + 1) ∧ 0 < (nd r).entriesCount ∧
      ∀ i, i < (nd r).entriesCount → lo ≤ (nd r).key i ∧ (nd r).key i < (nd r).bound hi i ∧
        Wf blockSize nd d ((nd r).child i) ((nd r).key i) ((nd r).bound hi i)

/-- The extents of the subtree of height `d` at `r`. -/
def extents (nd : Nodes) : Nat → Ref → List Entry
  | 0, r => (List.range (nd r).entriesCount).map (nd r).entry
  | d + 1, r => (List.range (nd r).entriesCount).flatMap fun i => extents nd d ((nd r).child i)

variable {blockSize lo hi d : Nat} {nd : Nodes} {r : Ref} {n : Node}

theorem LeafOk.step (ok : LeafOk n lo hi) {i : Nat} (hi' : i + 1 < n.entriesCount) :
    n.key i + (n.entry i).actualLen ≤ n.key (i + 1) := by
  have hbound := (ok i (by omega)).2.2
  rw [Node.bound, if_pos hi'] at hbound
  exact hbound

/-- An extent ends before the later ones begin. -/
theorem LeafOk.apart (ok : LeafOk n lo hi) {i j : Nat} (hij : i < j) (hj : j < n.entriesCount) :
    n.key i + (n.entry i).actualLen ≤ n.key j := by
  induction j, hij using Nat.le_induction with
  | base => exact ok.step hj
  | succ j hij ih => exact (ih (by omega)).trans ((Nat.le_add_right _ _).trans (ok.step hj))

theorem LeafOk.mono (ok : LeafOk n lo hi) :
    ∀ i j, i ≤ j → j < n.entriesCount → n.key i ≤ n.key j := by
  intro i j hij hj
  rcases Nat.eq_or_lt_of_le hij with rfl | hlt
  · exact Nat.le_refl _
  · exact (Nat.le_add_right _ _).trans (ok.apart hlt hj)

theorem LeafOk.end_le (ok : LeafOk n lo hi) {i : Nat} (hi' : i < n.entriesCount) :
    n.key i + (n.entry i).actualLen ≤ hi := by
  have hlast := (ok (n.entriesCount - 1) (by omega)).2.2
  rw [Node.bound, if_neg (by omega)] at hlast
  rcases Nat.eq_or_lt_of_le (Nat.le_sub_one_of_lt hi') with heq | hlt
  · rw [heq]
    exact hlast
  · exact ((ok.apart hlt (by omega)).trans (Nat.le_add_right _ _)).trans hlast

/-- The search of a leaf ends at the one extent that can cover the block. -/
theorem LeafOk.eq_of_covers (ok : LeafOk n lo hi) {l p i : Nat} (hp : p < n.entriesCount)
    (hle : 0 < p → n.key p ≤ l) (hgt : ∀ i, p < i → i < n.entriesCount → l < n.key i)
    (hi' : i < n.entriesCount) (hcovers : (n.entry i).Covers l) : i = p := by
  rcases Nat.lt_trichotomy i p with hlt | heq | hlt
  · have hend := ok.apart hlt hp
    have hkey := hle (by omega)
    exact absurd hcovers.2 (Nat.not_lt.mpr (hend.trans hkey))
  · exact heq
  · exact absurd hcovers.1 (Nat.not_le.mpr (hgt i hlt hi'))

theorem inRange_iff_covers {e : Entry} {l : Nat} (hpos : 0 < e.actualLen)
    (hend : e.firstBlock + e.actualLen ≤ 2 ^ 32) : e.InRange l ↔ e.Covers l := by
  rw [Entry.InRange, Entry.Covers,
    show (e.firstBlock + e.actualLen + 2 ^ 32 - 1) % 2 ^ 32 =
    e.firstBlock + e.actualLen - 1 by omega]
  omega

end Tree

section Log

/-- The elements of `extent_path` that a call uses, and the nodes that it reads and gives back. -/
structure Log where
  elems : List Nat
  reads : List Ref
  releases : List Ref

namespace St

variable {σ : Type}

/-- `findLoop` with its log. -/
def walk (block depth base : Nat) : Nat → Nat → Log → St σ → Option (Int × Log × St σ)
  | 0, ppos, log, s =>
    (s.findLeaf block (base + ppos)).map fun out =>
      (out.1, { log with elems := (base + ppos) :: log.elems }, out.2)
  | i + 1, ppos, log, s => do
    let e ← s.elem (base + ppos)
    let r ← e.header
    let p ← s.binsearchIdx r block
    let ix ← s.entry r p
    let s := s.setElem (base + ppos)
      { e with index := some p, pBlock := ix.idxPblock, depth := i + 1, extent := none }
    let next ← s.elem (base + ppos + 1)
    let log := { log with elems := (base + ppos + 1) :: (base + ppos) :: log.elems }
    if next.lbId = 0 ∨ next.lbId ≠ ix.idxPblock then
      let log := { log with reads := .block ix.idxPblock :: log.reads }
      if (s.extCheck (.block ix.idxPblock) i).isSome then some (-1, log, s)
      else if depth < ppos + 1
        then some (-1, { log with releases := .block ix.idxPblock :: log.releases }, s)
      else
        let s := s.setElem (base + ppos + 1)
          { next with lbId := 0, header := some (.block ix.idxPblock) }
        walk block depth base i (ppos + 1) log s
    else walk block depth base i (ppos + 1) log s

/-- The log of `n` rounds of `ext4_ext_drop_refs`. -/
def dropLog (s : St σ) : Nat → Nat → Log → Log
  | 0, _, log => log
  | n + 1, k, log =>
    s.dropLog n (k + 1) { log with
      elems := k :: log.elems
      releases := if (s.path k).lbId ≠ 0 then (s.path k).header.toList ++ log.releases
        else log.releases }

/-- The first element of a new walk. -/
def enter (s : St σ) (k : Nat) : St σ :=
  let s := s.setElem k { s.path k with maxdepth := s.extDepth + 1 }
  s.setElem k { s.path k with header := some .inode, lbId := 0 }

/-- `ext4_find_extent` without a path, with its log. -/
def findLog (s : St σ) (block : Nat) : Option (Int × Option Nat × Log × St σ) :=
  match s.pathAlloc with
  | none => some (-1, none, ⟨[], [], []⟩, s)
  | some (k, s) => do
    let s := s.enter k
    let (ret, log, s) ← walk block s.extDepth k s.extDepth 0 ⟨[k], [], []⟩ s
    if ret = 0 then some (0, some k, log, s)
    else
      let log := s.dropLog ((s.path k).depth + 1) k log
      let s ← s.dropRefs k false
      some (ret, none, log, s.pathFree k)

/-- The log of `ext4_extent_get_blocks` without `create`. -/
def lookupLog (s : St σ) (iblock : Nat) : Option Log :=
  (s.findLog iblock).map fun (_, path, log, s) =>
    match path with
    | none => log
    | some base =>
      s.dropLog ((s.path base).depth + 1) base
        { log with elems := (base + s.extDepth) :: log.elems }

/-- The answer is the block of the written extent that covers `iblock`, or 0; no element of
`extent_path` is used but the one that was taken, and every node that was read is given back. -/
structure LookupRight (A : Allocator σ) (fuel : Nat) (s : St σ) (iblock maxBlocks : Nat)
    (out : Out σ) (log : Log) : Prop where
  answer : s.getBlocks A fuel iblock maxBlocks false = some out ∧ s.lookupLog iblock = some log
  ok : out.ret = 0
  covered : ∀ e ∈ extents s.node s.extDepth .inode, e.Covers iblock → e.isUnwritten = false →
    out.result = e.pblock + (iblock - e.firstBlock)
  hole : (∀ e ∈ extents s.node s.extDepth .inode, e.Covers iblock → e.isUnwritten = true) →
    out.result = 0
  own : ∀ k ∈ log.elems, s.pathAlloc.map Prod.fst = some k
  released : ∀ r ∈ log.reads, r ∈ log.releases

variable {s s' : St σ} {block depth base : Nat}

/-- Without the log, the walk is the loop of the search. -/
theorem walk_map (i ppos : Nat) (log : Log) (s : St σ) :
    (walk block depth base i ppos log s).map (fun out => (out.1, out.2.2)) =
      findLoop block depth base i ppos s := by
  induction i generalizing ppos log s with
  | zero =>
    rw [walk, findLoop, Option.map_map]
    exact Option.map_id'
  | succ i ih =>
    simp only [walk, findLoop, Option.bind_eq_bind, Option.map_bind, Function.comp_def]
    refine Option.bind_congr fun e _ => Option.bind_congr fun r _ => Option.bind_congr fun p _ =>
      Option.bind_congr fun ix _ => Option.bind_congr fun next _ => ?_
    split
    · split
      · rfl
      · split
        · rfl
        · exact ih ..
    · exact ih ..

theorem findLog_map (s : St σ) (block : Nat) :
    (s.findLog block).map (fun out => (out.1, out.2.1, out.2.2.2)) = s.findExtent block none := by
  rw [findLog, findExtent, takePath]
  cases s.pathAlloc with
  | none => rfl
  | some taken =>
    obtain ⟨k, s⟩ := taken
    simp only [Option.bind_eq_bind, Option.bind_some, enter]
    rw [← walk_map _ _ ⟨[k], [], []⟩]
    cases walk block _ k _ 0 ⟨[k], [], []⟩ _ with
    | none => rfl
    | some out =>
      obtain ⟨ret, log, s⟩ := out
      simp only [Option.map_some, Option.bind_some]
      split
      · rfl
      · cases s.dropRefs k false <;> rfl

/-- A round of the walk uses two elements. Then the walk stops or goes on. -/
theorem walk_succ {i ppos : Nat} {log : Log} {s : St σ} {out : Int × Log × St σ}
    (h : walk block depth base (i + 1) ppos log s = some out) :
    ∃ log' : Log, log'.elems = (base + ppos + 1) :: (base + ppos) :: log.elems ∧
      (out.2.1 = log' ∨ ∃ s', walk block depth base i (ppos + 1) log' s' = some out) := by
  simp only [walk, Option.bind_eq_bind, Option.bind_eq_some_iff] at h
  obtain ⟨e, -, r, -, p, -, ix, -, next, -, h⟩ := h
  split at h
  · split at h
    · cases h
      exact ⟨_, rfl, .inl rfl⟩
    · split at h
      · cases h
        exact ⟨_, rfl, .inl rfl⟩
      · exact ⟨_, rfl, .inr ⟨_, h⟩⟩
  · exact ⟨_, rfl, .inr ⟨_, h⟩⟩

/-- The log of a walk has what it had before. -/
theorem mem_walk {i ppos : Nat} {log : Log} {s : St σ} {out : Int × Log × St σ}
    (h : walk block depth base i ppos log s = some out) {k : Nat} (hk : k ∈ log.elems) :
    k ∈ out.2.1.elems := by
  induction i generalizing ppos log s with
  | zero =>
    obtain ⟨-, -, rfl⟩ := Option.map_eq_some_iff.mp h
    exact List.mem_cons_of_mem _ hk
  | succ i ih =>
    obtain ⟨log', helems, hround⟩ := walk_succ h
    have hmore : k ∈ log'.elems := by
      rw [helems]
      exact List.mem_cons_of_mem _ (List.mem_cons_of_mem _ hk)
    obtain hstop | ⟨s', hrest⟩ := hround
    · exact hstop ▸ hmore
    · exact ih hrest hmore

/-- The walk of a tree with an index uses the element behind its own. -/
theorem mem_walk_succ {i : Nat} {log : Log} {s : St σ} {out : Int × Log × St σ}
    (h : walk block depth base (i + 1) 0 log s = some out) : base + 1 ∈ out.2.1.elems := by
  obtain ⟨log', helems, hround⟩ := walk_succ h
  have hmem : base + 1 ∈ log'.elems := by
    rw [helems]
    exact List.mem_cons_self
  obtain hstop | ⟨s', hrest⟩ := hround
  · exact hstop ▸ hmem
  · exact mem_walk hrest hmem

theorem mem_dropLog (s : St σ) (n k : Nat) {log : Log} {j : Nat} (hj : j ∈ log.elems) :
    j ∈ (s.dropLog n k log).elems := by
  induction n generalizing k log with
  | zero => exact hj
  | succ n ih => exact ih _ (List.mem_cons_of_mem _ hj)

theorem pathAlloc_eq_some {k : Nat} (h : s.pathAlloc = some (k, s')) :
    k < extentPathMax ∧ (s.path k).flag = false ∧
    s' = s.setElem k { s.path k with flag := true } := by
  obtain ⟨i, hi, heq⟩ := Option.map_eq_some_iff.mp h
  obtain ⟨rfl, rfl⟩ := Prod.mk.inj heq
  exact ⟨List.mem_range.mp (List.mem_of_find?_eq_some hi), by simpa using List.find?_some hi, rfl⟩

theorem exists_pathAlloc (h : ∃ k < extentPathMax, (s.path k).flag = false) :
    ∃ k s', s.pathAlloc = some (k, s') := by
  obtain ⟨k, hk, hflag⟩ := h
  cases hfind : (List.range extentPathMax).find? fun i => !(s.path i).flag with
  | none => exact absurd (List.find?_eq_none.mp hfind k (List.mem_range.mpr hk)) (by simp [hflag])
  | some i => exact ⟨i, _, by rw [pathAlloc, hfind]; rfl⟩

/-- In a tree with an index a lookup uses an element that it has not taken. -/
theorem not_own (hdepth : 0 < s.extDepth) {k iblock : Nat}
    (hp : s.pathAlloc = some (k, s')) {log : Log}
    (hlog : s.lookupLog iblock = some log) : k + 1 ∈ log.elems := by
  obtain ⟨⟨ret, path, log', s₁⟩, hfind, rfl⟩ := Option.map_eq_some_iff.mp hlog
  obtain ⟨d, hd⟩ : ∃ d, s'.extDepth = d + 1 := by
    obtain ⟨-, -, rfl⟩ := pathAlloc_eq_some hp
    exact ⟨s.extDepth - 1, (Nat.succ_pred_eq_of_pos hdepth).symm⟩
  rw [findLog, hp] at hfind
  obtain ⟨⟨ret', log₁, s₂⟩, hwalk, hrest⟩ := Option.bind_eq_some_iff.mp hfind
  have hmem : k + 1 ∈ log₁.elems := mem_walk_succ (hd ▸ hwalk)
  by_cases hret : ret' = 0
  · simp only [if_pos hret] at hrest
    cases hrest
    exact mem_dropLog _ _ _ (List.mem_cons_of_mem _ hmem)
  · simp only [if_neg hret] at hrest
    obtain ⟨s₃, -, hout⟩ := Option.bind_eq_some_iff.mp hrest
    cases hout
    exact mem_dropLog _ _ _ hmem

theorem extDepth_congr (h : s'.node = s.node) : s'.extDepth = s.extDepth := by
  rw [extDepth, extDepth, h]

/-- The search of a leaf that lies in the inode. -/
theorem findLeaf_inode {k l : Nat} {ext : Option Nat} (hk : k < extentPathMax)
    (hheader : (s.path k).header = some .inode) (hext : s.binsearch .inode l = some ext)
    (hroom : ∀ p ∈ ext, p < 4) :
    ∃ e : PathElem, s.findLeaf l k = some (0, s.setElem k e) ∧ e.header = some .inode ∧
      e.lbId = (s.path k).lbId ∧ e.depth = 0 ∧ e.extent = ext := by
  have helem : s.elem k = some (s.path k) := if_pos hk
  simp only [findLeaf, helem, hheader, hext, Option.bind_eq_bind, Option.bind_some]
  cases ext with
  | none => exact ⟨_, rfl, rfl, rfl, rfl, rfl⟩
  | some p =>
    have hentry : s.entry .inode p = some ((s.node .inode).entry p) := if_pos (hroom p rfl)
    simp only [hentry, Option.bind_some]
    exact ⟨_, rfl, rfl, rfl, rfl, rfl⟩

theorem getDone_leaf {k : Nat} (hk : k < extentPathMax) (hdepth : (s.path k).depth = 0)
    (hlb : (s.path k).lbId = 0) (ret : Int) (result count : Nat) :
    s.getDone (some k) ret result count = some ⟨ret, result, count, s.pathFree k⟩ := by
  have helem : s.elem k = some (s.path k) := if_pos hk
  simp only [getDone, dropRefs, dropRef, dropRefsFrom, helem, hdepth, hlb, Option.bind_eq_bind,
    Option.bind_some, Bool.false_eq_true, if_false, ne_eq, not_true_eq_false]

/-- The search with one level. -/
theorem findLog_leaf (hdepth : s.extDepth = 0) {k l : Nat} {ext : Option Nat}
    (hp : s.pathAlloc = some (k, s'))
    (hext : s.binsearch .inode l = some ext) (hroom : ∀ p ∈ ext, p < 4) :
    ∃ s₁ : St σ, s.findLog l = some (0, some k, ⟨[k, k], [], []⟩, s₁) ∧ s₁.node = s.node ∧
      (s₁.path k).header = some .inode ∧ (s₁.path k).lbId = 0 ∧ (s₁.path k).depth = 0 ∧
      (s₁.path k).extent = ext := by
  have hs := pathAlloc_eq_some hp
  have hpath : (s'.enter k).path k =
      { s'.path k with maxdepth := s'.extDepth + 1, header := some .inode, lbId := 0 } := by
    simp only [enter, setElem, Function.update_self]
  have hnode : (s'.enter k).node = s.node := by
    rw [hs.2.2]
    rfl
  have hlevel : (s'.enter k).extDepth = 0 := (extDepth_congr hnode).trans hdepth
  obtain ⟨e, hleaf, hheader, hlb, hde, hex⟩ :=
    @findLeaf_inode σ (s'.enter k) k l ext hs.1 (by rw [hpath])
    (by rw [binsearch, hnode]; exact hext) hroom
  have hwalk : walk l (s'.enter k).extDepth k (s'.enter k).extDepth 0 ⟨[k], [], []⟩ (s'.enter k) =
      some (0, ⟨[k, k], [], []⟩, (s'.enter k).setElem k e) := by
    rw [hlevel, walk, Nat.add_zero, hleaf]
    rfl
  have hself : ((s'.enter k).setElem k e).path k = e := Function.update_self ..
  rw [hpath] at hlb
  refine ⟨(s'.enter k).setElem k e, ?_, hnode, by rw [hself, hheader], by rw [hself, hlb],
    by rw [hself, hde], by rw [hself, hex]⟩
  rw [findLog, hp]
  simp only [Option.bind_eq_bind, hwalk, Option.bind_some, if_true]

/-- The answer of a lookup in a leaf: the place in the extent that the search found, if it is
written. -/
def leafAnswer (n : Node) (l : Nat) : Option Nat → Nat
  | none => 0
  | some p =>
    if (n.entry p).InRange l ∧ (n.entry p).isUnwritten = false then
      l - (n.entry p).firstBlock + (n.entry p).pblock
    else 0

theorem getBlocks_leaf (A : Allocator σ) (fuel maxBlocks : Nat)
    (hdepth : s.extDepth = 0) {k l : Nat}
    {ext : Option Nat} (hp : s.pathAlloc = some (k, s')) (hext : s.binsearch .inode l = some ext)
    (hroom : ∀ p ∈ ext, p < 4) :
    ∃ out, s.getBlocks A fuel l maxBlocks false = some out ∧ out.ret = 0 ∧
      out.result = leafAnswer (s.node .inode) l ext := by
  obtain ⟨s₁, hfind, hnode, hheader, hlb, hde, hex⟩ := findLog_leaf hdepth hp hext hroom
  have hk := (pathAlloc_eq_some hp).1
  have hextent := findLog_map s l
  rw [hfind] at hextent
  have hlevel : s₁.extDepth = 0 := (extDepth_congr hnode).trans hdepth
  have helem : s₁.elem (k + s₁.extDepth) = some (s₁.path k) := by
    rw [hlevel]
    exact if_pos hk
  have hdone := fun result count => getDone_leaf hk hde hlb 0 result count
  simp only [getBlocks, ← hextent, Option.map_some, Option.bind_eq_bind, Option.bind_some, ne_eq,
    not_true_eq_false, if_false, helem, hex]
  cases ext with
  | none => exact ⟨_, hdone 0 0, rfl, rfl⟩
  | some p =>
    have hentry : s₁.entry .inode p = some ((s.node .inode).entry p) := by
      rw [← hnode]
      exact if_pos (hroom p rfl)
    simp only [hheader, Option.bind_some, hentry, leafAnswer]
    by_cases hin : ((s.node .inode).entry p).InRange l
    · rw [if_pos hin, getCovered]
      by_cases hwritten : ((s.node .inode).entry p).isUnwritten = false
      · rw [if_pos hwritten, if_pos ⟨hin, hwritten⟩]
        exact ⟨_, hdone _ _, rfl, rfl⟩
      · rw [if_neg hwritten, if_pos rfl, if_neg fun h => hwritten h.2]
        exact ⟨_, hdone _ _, rfl, rfl⟩
    · rw [if_neg hin, getNew, if_pos rfl, if_neg fun h => hin h.1]
      exact ⟨_, hdone 0 0, rfl, rfl⟩

/-- A search in a root without an index. -/
theorem binsearch_leaf (hok : NodeOk s.blockSize s.node .inode 0) {lo hi : Nat}
    (hleaf : LeafOk (s.node .inode) lo hi) (l : Nat) :
    ∃ ext, s.binsearch .inode l = some ext ∧ (∀ p ∈ ext, p < (s.node .inode).entriesCount) ∧
      ∀ i < (s.node .inode).entriesCount, ((s.node .inode).entry i).Covers l → ext = some i := by
  rw [binsearch]
  by_cases hzero : (s.node .inode).entriesCount = 0
  · rw [if_pos hzero]
    exact ⟨none, rfl, fun _ h => absurd h.symm (Option.some_ne_none _),
      fun i hi => absurd hi (by omega)⟩
  · obtain ⟨p, hp, hlt, hle, hgt⟩ :=
      Table.bisect_spec (x := l) hleaf.mono (hok.count_le.trans hok.max_le) (by omega)
    rw [if_neg hzero]
    refine ⟨some p, congrArg (Option.map some) hp, fun q hq => Option.some.inj hq ▸ hlt,
      fun i hi hcovers => ?_⟩
    exact congrArg some (hleaf.eq_of_covers hlt hle hgt hi hcovers).symm

/-- Entry `p` is the last one whose first block is at most `block`, or the first where none is. -/
def Selected (n : Node) (block p : Nat) : Prop :=
  p < n.entriesCount ∧ (∀ i, p < i → i < n.entriesCount → block < n.key i) ∧
    (n.key p ≤ block ∨ p = 0 ∧ ∀ i < n.entriesCount, block < n.key i)

/-- The searches select this entry, and they would do so if only the entries in use were there. -/
theorem binsearch_selects (s : St σ) (r : Ref) (block : Nat) (hpos : 1 ≤ (s.node r).entriesCount)
    (sorted : ∀ i j, i < j → j < (s.node r).entriesCount → (s.node r).key i < (s.node r).key j) :
    ∃ p, Selected (s.node r) block p ∧
      Table.bisect (s.node r).key (s.node r).entriesCount block (s.node r).entriesCount = some p ∧
      ((s.node r).entriesCount ≤ r.room →
        s.binsearchIdx r block = some p ∧ s.binsearch r block = some (some p)) := by
  have mono : ∀ i j, i ≤ j → j < (s.node r).entriesCount → (s.node r).key i ≤ (s.node r).key j := by
    intro i j hij hj
    rcases Nat.eq_or_lt_of_le hij with rfl | hlt
    · exact Nat.le_refl _
    · exact Nat.le_of_lt (sorted i j hlt hj)
  obtain ⟨p, hsearch, hlt, hle, habove⟩ :=
    Table.bisect_spec (x := block) mono (Nat.le_refl _) hpos
  refine ⟨p, ⟨hlt, habove, ?_⟩, hsearch, fun hroom => ?_⟩
  · rcases Nat.eq_zero_or_pos p with rfl | hp
    · rcases Nat.lt_or_ge block ((s.node r).key 0) with hnone | hfirst
      · exact .inr ⟨rfl, fun i hi => Nat.lt_of_lt_of_le hnone (mono 0 i (Nat.zero_le i) hi)⟩
      · exact .inl hfirst
    · exact .inl (hle hp)
  · obtain ⟨q, hroomy, hlt', hle', habove'⟩ := Table.bisect_spec (x := block) mono hroom hpos
    obtain rfl : q = p := by
      rcases Nat.lt_trichotomy q p with h | h | h
      · exact absurd (hle (by omega)) (Nat.not_le.mpr (habove' p h hlt))
      · exact h
      · exact absurd (hle' (by omega)) (Nat.not_le.mpr (habove q h hlt'))
    refine ⟨hroomy, ?_⟩
    rw [binsearch, if_neg (Nat.ne_of_gt hpos)]
    exact congrArg (Option.map some) hroomy

/-- A lookup is right exactly in a tree without an index, and while an element of `extent_path` is
free. -/
theorem lookupRight_iff (A : Allocator σ) (fuel : Nat) (s : St σ) (iblock maxBlocks : Nat)
    (hwf : Wf s.blockSize s.node s.extDepth .inode 0 (2 ^ 32)) :
    (∃ out log, LookupRight A fuel s iblock maxBlocks out log) ↔
      s.extDepth = 0 ∧ ∃ k < extentPathMax, (s.path k).flag = false := by
  constructor
  · rintro ⟨out, log, h⟩
    cases hp : s.pathAlloc with
    | none =>
      -- without an element the search fails before it looks at the tree
      have hextent := findLog_map s iblock
      rw [findLog, hp] at hextent
      have hout := h.answer.1
      simp only [getBlocks, ← hextent, Option.map_some, Option.bind_eq_bind,
        Option.bind_some] at hout
      have hret := h.ok
      rw [if_pos (by decide)] at hout
      rw [← Option.some.inj hout] at hret
      exact absurd (show (-1 : Int) = 0 from hret) (by decide)
    | some taken =>
      obtain ⟨k, s'⟩ := taken
      obtain ⟨hk, hflag, -⟩ := pathAlloc_eq_some hp
      refine ⟨Nat.eq_zero_of_not_pos fun hpos => ?_, k, hk, hflag⟩
      have hown := h.own _ (not_own hpos hp h.answer.2)
      rw [hp] at hown
      exact absurd (Option.some.inj hown) (Nat.ne_of_lt (Nat.lt_succ_self k))
  · rintro ⟨hdepth, hfree⟩
    rw [hdepth] at hwf
    obtain ⟨hok, hleaf⟩ := hwf
    obtain ⟨k, s', hp⟩ := exists_pathAlloc hfree
    obtain ⟨ext, hext, hlt, hcovers⟩ := binsearch_leaf hok hleaf iblock
    have hroom : ∀ p ∈ ext, p < 4 := fun p h => (hlt p h).trans_le (hok.count_le.trans hok.max_le)
    obtain ⟨out, hout, hret, hresult⟩ := getBlocks_leaf A fuel maxBlocks hdepth hp hext hroom
    obtain ⟨s₁, hfind, hnode, -, hlb, hde, -⟩ := findLog_leaf hdepth hp hext hroom
    have hmem : ∀ e ∈ extents s.node s.extDepth .inode, ∃ i < (s.node .inode).entriesCount,
        (s.node .inode).entry i = e := by
      rw [hdepth]
      intro e he
      obtain ⟨i, hi, heq⟩ := List.mem_map.mp he
      exact ⟨i, List.mem_range.mp hi, heq⟩
    refine ⟨out, ⟨[k, k, k, k], [], []⟩, ⟨hout, ?_⟩, hret, fun e he hc hw => ?_, fun hnone => ?_,
      fun j hj => ?_, fun r hr => nomatch hr⟩
    · have hlevel : s₁.extDepth = 0 := (extDepth_congr hnode).trans hdepth
      rw [lookupLog, hfind]
      simp only [Option.map_some, dropLog, hlb, hde, hlevel, Nat.add_zero, ne_eq,
        not_true_eq_false, if_false]
    · obtain ⟨i, hi, rfl⟩ := hmem e he
      have hin := (inRange_iff_covers (hleaf i hi).2.1 (hleaf.end_le hi)).mpr hc
      rw [hresult, hcovers i hi hc, leafAnswer, if_pos ⟨hin, hw⟩, Nat.add_comm]
    · rw [hresult]
      cases ext with
      | none => rfl
      | some p =>
        have hp := hlt p rfl
        refine if_neg fun h => ?_
        have hc := (inRange_iff_covers (hleaf p hp).2.1 (hleaf.end_le hp)).mp h.1
        have hun :=
          hnone _ (by rw [hdepth]; exact List.mem_map.mpr ⟨p, List.mem_range.mpr hp, rfl⟩) hc
        exact Bool.false_ne_true (h.2.symm.trans hun)
    · obtain rfl : j = k := by simpa using hj
      rw [hp]
      rfl

end St

end Log

section Example

/-- The inode has one extent, of the blocks 0 to 4, at block 100. -/
def oneExtent : St Unit where
  logBlockSize := 0
  inodeIndex := 12
  inodesPerGroup := 256
  node := fun
    | .inode => ⟨extentMagic, 1, 4, 0, fun _ => ⟨0, 5, 100⟩⟩
    | .block _ => ⟨0, 0, 0, 0, fun _ => ⟨0, 0, 0⟩⟩
  dirty _ := false
  stray := []
  path _ := PathElem.zero
  balloc := ()

/-- The extent is in the leaf at block 50, below the root. -/
def oneLeaf : St Unit :=
  { oneExtent with
    node := fun
      | .inode => ⟨extentMagic, 1, 4, 1, fun _ => ⟨0, 50, 0⟩⟩
      | .block _ => ⟨extentMagic, 1, 84, 0, fun _ => ⟨0, 5, 100⟩⟩ }

def noBlocks : Allocator Unit := ⟨fun _ _ => (.error 28, ()), fun _ _ _ => ()⟩

theorem oneExtent_leafOk (n : Node) (h : n.entriesCount = 1 ∧ ∀ i, n.entry i = ⟨0, 5, 100⟩) :
    LeafOk n 0 (2 ^ 32) := by
  intro i hi
  rw [Node.bound, if_neg (by omega), Node.key, h.2 i]
  decide

theorem lookupRight_oneExtent : ∃ out log, St.LookupRight noBlocks 0 oneExtent 3 1 out log :=
  (St.lookupRight_iff noBlocks 0 oneExtent 3 1
    ⟨⟨rfl, rfl, by decide, by decide, by decide⟩, oneExtent_leafOk _ ⟨rfl, fun _ => rfl⟩⟩).mpr
    ⟨rfl, 0, by decide, rfl⟩

/-- The inode is full: four extents of five blocks, at the blocks 0, 10, 20 and 30. -/
def fourExtents : St Unit :=
  { oneExtent with
    node := fun
      | .inode => ⟨extentMagic, 4, 4, 0, fun i => ⟨10 * i, 5, 100 + 10 * i⟩⟩
      | .block _ => ⟨0, 0, 0, 0, fun _ => ⟨0, 0, 0⟩⟩ }

/-- Block 27 lies behind the third extent, which is the one that the search finds. -/
theorem binsearch_selects_fourExtents : St.Selected (fourExtents.node .inode) 27 2 ∧
    fourExtents.binsearch .inode 27 = some (some 2) := by
  obtain ⟨p, hselected, -, hroom⟩ := St.binsearch_selects fourExtents .inode 27 (by decide)
    fun i j hij _ => Nat.mul_lt_mul_of_pos_left hij (by decide)
  obtain ⟨hidx, hext⟩ := hroom (by decide)
  obtain rfl : 2 = p :=
    Option.some.inj ((by decide : fourExtents.binsearchIdx .inode 27 = some 2).symm.trans hidx)
  exact ⟨hselected, hext⟩

/-- The tree is well formed, but the lookup uses element 1 and keeps the buffer of block 50. -/
theorem oneLeaf_lookup : Wf oneLeaf.blockSize oneLeaf.node oneLeaf.extDepth .inode 0 (2 ^ 32) ∧
      (oneLeaf.pathAlloc.map Prod.fst = some 0 ∧ (oneLeaf.lookupLog 3).map Log.elems =
        some [1, 0, 1, 1, 1, 0, 0]) ∧
      (oneLeaf.lookupLog 3).map Log.reads = some [.block 50] ∧
        (oneLeaf.lookupLog 3).map Log.releases = some [] ∧
      ¬∃ out log, St.LookupRight noBlocks 0 oneLeaf 3 1 out log := by
  refine ⟨⟨⟨rfl, rfl, by decide, by decide, by decide⟩, by decide, fun i hi => ?_⟩,
    by decide, by decide, by decide, ?_⟩
  · obtain rfl : i = 0 := Nat.lt_one_iff.mp hi
    exact ⟨Nat.le_refl _, by decide, ⟨rfl, rfl, by decide, by decide, by decide⟩,
      oneExtent_leafOk _ ⟨rfl, fun _ => rfl⟩⟩
  · rintro ⟨out, log, h⟩
    have hown := h.own 1 (@St.not_own Unit oneLeaf _ (by decide) 0 3 rfl log h.answer.2)
    exact absurd hown (by decide)

end Example

end KernelTravel.Extent

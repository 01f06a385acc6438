import KernelTravel.Fat32.Entries

/-!
# Mounting a volume

`fat32_init` and `build_dirent_tree` of `fs/fat32/fat32init.c`: the directories are scanned
from the root down, and an entry of the pool is taken for every entry that is found. Nothing
remembers which directories have been entered, so a directory that contains itself is
entered until the pool is empty and the assertion of `dirent_alloc` fails.

Every loop and the recursion is bounded by a number of rounds; that a function comes to its
end means that it answers for some number of rounds. The boot sector has been read:
`Volume` is the result.
-/

namespace KernelTravel.Fat32

/-- An entry of the tree with its child list. -/
inductive Tree where
  | node (entry : Entry) (children : List Tree)

/-- `strncmp(name, ".          ", 11) == 0`, or the same with two dots. -/
def isSelf (name : List Byte) : Bool := name.take 11 = dotName || name.take 11 = dotDotName

/-- The entries below a child, which is entered when it is a directory. -/
def treeBelow (build : Entry → Nat → Except Trap (List Tree × Nat)) (child : Entry) (pool : Nat) :
    Except Trap (List Tree × Nat) :=
  if child.isDir then build child pool else .ok ([], pool)

/-- The loop of `build_dirent_tree`; the second part of the answer is what is left of the
pool. -/
def treeLoop (dir : Directory) (stack : ScanBufs)
    (build : Entry → Nat → Except Trap (List Tree × Nat)) :
    Nat → Nat → Nat → Except Trap (List Tree × Nat)
  | 0, _, _ => .error .stuck
  | rounds + 1, off, pool =>
    match dir.dirGetDentFrom pool stack off with
    | .error e => .error e
    | .ok none => .ok ([], pool)
    | .ok (some (child, off)) =>
      if isSelf child.name then treeLoop dir stack build rounds off (pool - 1)
      else
        (treeBelow build child (pool - 1)).bind fun below =>
          (treeLoop dir stack build rounds off below.2).map fun rest =>
            (.node child below.1 :: rest.1, rest.2)

/-- No page of cluster numbers has been taken. -/
def noPages : DirentPointer := ⟨fun _ => none⟩

/-- A directory of the volume with its pointer pages. -/
def Volume.directory (v : Volume) (rounds : Nat) (pointer : DirentPointer) (fileSize : Nat) :
    Directory where
  read buf j :=
    (Fs.fatfileRead ⟨v, 1, fun _ => ⟨0, fileSize, pointer, 0, none, fun _ => 0⟩⟩ 0 buf 0 j
      direntSize).map Prod.snd
  fileSize
  clusSize := v.clusSize
  count := v.countClusters rounds

def buildDirentTree (v : Volume) (stack : ScanBufs) :
    Nat → Nat → Nat → Nat → Except Trap (List Tree × Nat)
  | 0, _, _, _ => .error .stuck
  | rounds + 1, firstClus, fileSize, pool =>
    match v.filepntInit rounds firstClus false noPages with
    | none => .error .stuck
    | some (_, pointer) =>
      treeLoop (v.directory rounds pointer fileSize) stack
        (fun child pool => buildDirentTree v stack rounds child.firstClus child.fileSize pool)
        rounds 0 pool

/-- The root takes the first entry of the pool. -/
def fat32Init (v : Volume) (stack : ScanBufs) (rounds rootClus pool : Nat) :
    Except Trap (List Tree × Nat) :=
  if pool = 0 then .error .stuck
  else
    match v.countClusters rounds rootClus with
    | none => .error .stuck
    | some n => buildDirentTree v stack rounds rootClus (n * v.clusSize % 2 ^ 32) (pool - 1)

section Loop

/-- `treeLoop` over the short entries that the scan finds. -/
def treeShorts (dir : Directory) (build : Entry → Nat → Except Trap (List Tree × Nat)) :
    List Short → Nat → Except Trap (List Tree × Nat)
  | [], pool => .ok ([], pool)
  | (q, j, f) :: ss, pool =>
    match dir.fillEntry pool q j f with
    | .error e => .error e
    | .ok (child, _) =>
      if isSelf child.name then treeShorts dir build ss (pool - 1)
      else
        (treeBelow build child (pool - 1)).bind fun below =>
          (treeShorts dir build ss below.2).map fun rest =>
            (.node child below.1 :: rest.1, rest.2)

/-- The use of an entry by the loop. One with the name of the directory itself or of its
parent is left out. -/
def treeVisit (build : Entry → Nat → Except Trap (List Tree × Nat)) (child : Entry) (pool : Nat) :
    Except Trap (Nat × (List Tree × Nat → List Tree × Nat)) :=
  if isSelf child.name then .ok (pool, id)
  else (treeBelow build child pool).map fun below =>
    (below.2, fun rest => (.node child below.1 :: rest.1, rest.2))

variable {dir : Directory} {slots : List (Nat → Byte)} {stack : ScanBufs}
  {build : Entry → Nat → Except Trap (List Tree × Nat)} {rounds pool i : Nat}

/-- What the loop does with an entry and the rest `next` of the loop is the visit. -/
theorem treeVisit_bind (child : Entry) (pool : Nat) (next : Nat → Except Trap (List Tree × Nat)) :
    ((treeVisit build child pool).bind fun r => (next r.1).map r.2) =
      if isSelf child.name then next pool else (treeBelow build child pool).bind fun below =>
        (next below.2).map fun rest => (.node child below.1 :: rest.1, rest.2) := by
  rw [treeVisit]
  split
  · change (next pool).map id = _
    cases next pool <;> rfl
  · cases treeBelow build child pool <;> rfl

theorem treeLoop_eq_entryLoop (off : Nat) : treeLoop dir stack build rounds off pool =
      entryLoop dir stack (treeVisit build) (fun pool => ([], pool)) rounds off pool := by
  induction rounds generalizing off pool with
  | zero => rfl
  | succ rounds ih =>
    rw [treeLoop, entryLoop]
    cases dir.dirGetDentFrom pool stack off with
    | error e => rfl
    | ok answer =>
      cases answer with
      | none => rfl
      | some next =>
        simp only [treeVisit_bind _ _ (entryLoop dir stack _ _ rounds next.2), ih]

theorem treeShorts_eq_entryShorts (ss : List Short) :
    treeShorts dir build ss pool = entryShorts dir (treeVisit build) (fun pool => ([], pool))
      ss pool := by
  induction ss generalizing pool with
  | nil => rfl
  | cons short ss ih =>
    obtain ⟨q, j, f⟩ := short
    rw [treeShorts, entryShorts]
    cases dir.fillEntry pool q j f with
    | error e => rfl
    | ok answer =>
      simp only [treeVisit_bind _ _ (entryShorts dir _ _ ss), ih]

/-- The loop from a slot on answers exactly when the names from there on fit, the rounds
suffice and the short entries can be used. -/
theorem treeLoop_eq_ok_iff (h : IsDirOf dir slots) {r : List Tree × Nat} :
    treeLoop dir stack build rounds (direntSize * i) pool = .ok r ↔
      DirFits EndsInTime [] (bufsFrom stack slots i) ∧
        (shorts [] (slotBufs stack.direntBuf slots i)).length < rounds ∧
          treeShorts dir build (shorts [] (slotBufs stack.direntBuf slots i)) pool = .ok r := by
  rw [treeLoop_eq_entryLoop, treeShorts_eq_entryShorts, entryLoop_eq_ok_iff h]

/-- No array is left in a directory whose names fit. -/
theorem treeLoop_ne_overrun (h : IsDirOf dir slots)
    (hbuild : ∀ child pool, build child pool ≠ .error .overrun)
    (hfit : DirFits EndsInTime [] (bufsFrom stack slots i)) :
    treeLoop dir stack build rounds (direntSize * i) pool ≠ .error .overrun := by
  rw [treeLoop_eq_entryLoop]
  refine entryLoop_ne_overrun h (fun child pool => ?_) hfit
  rw [treeVisit]
  split
  · exact nofun
  · rw [treeBelow]
    split
    · cases hbelow : build child pool with
      | error e =>
        intro herr
        cases herr
        exact hbuild _ _ hbelow
      | ok below => exact nofun
    · exact nofun

/-- When nothing else stops the loop, it comes to the name that does not fit. -/
theorem treeLoop_overrun (h : IsDirOf dir slots) (hcount : ∀ c, (dir.count c).isSome)
    (hfit : ¬DirFits EndsInTime [] (bufsFrom stack slots i)) (hrounds : slots.length - i < rounds)
    (hpool : slots.length - i ≤ pool) :
    treeLoop dir stack (fun _ pool => .ok ([], pool)) rounds (direntSize * i) pool =
      .error .overrun := by
  rw [treeLoop_eq_entryLoop]
  refine entryLoop_overrun h hcount (fun child pool => ?_) hfit hrounds hpool
  rw [treeVisit, treeBelow, ite_self]
  split
  · exact ⟨_, rfl⟩
  · exact ⟨_, rfl⟩

end Loop

section Inside

/-- A directory file with the given slots. -/
def Directory.ofSlots (slots : List (Nat → Byte)) (clusSize : Nat) (count : Nat → Option Nat) :
    Directory where
  read buf j := slots[j / direntSize]?.map (Mem.blit buf 0 direntSize)
  fileSize := direntSize * slots.length
  clusSize
  count

theorem isDirOf_ofSlots (slots : List (Nat → Byte)) (clusSize : Nat) (count : Nat → Option Nat) :
    IsDirOf (.ofSlots slots clusSize count) slots where
  size := rfl
  read i hi buf := by
    have hindex : direntSize * i / direntSize = i := Nat.mul_div_cancel_left i (by decide)
    simp only [Directory.ofSlots, hindex, List.getElem?_eq_getElem hi, Option.map_some]

/-- A stack without a zero behind the buffer. -/
def onesStack : ScanBufs := ⟨fun _ => 1, fun _ => 0, fun _ => 0⟩

/-- The scan of a directory writes inside its arrays exactly when the names fit, for every
content of the stack: a call at an offset up to the short entry that it returns, and the
loop of the tree over the whole directory, whatever `countClusters` answers and whatever is
built below. -/
theorem scan_inside_iff (slots : List (Nat → Byte)) (clusSize : Nat) :
    (∀ offset, (∀ count pool stack,
        (Directory.ofSlots slots clusSize count).dirGetDentFrom pool stack offset ≠
          .error .overrun) ↔
      (offset % direntSize = 0 → NamesFit EndsInSlot [] (slots.drop (offset / direntSize)))) ∧
    ((∀ count pool stack build rounds, (∀ child pool, build child pool ≠ .error .overrun) →
        treeLoop (.ofSlots slots clusSize count) stack build rounds 0 pool ≠ .error .overrun) ↔
      DirFits EndsInSlot [] slots) := by
  have hones : ∀ s, EndsInTime (Mem.blit (fun _ => 1) 0 direntSize s) → EndsInSlot s :=
    fun s => endsInSlot_of_ones
  refine ⟨fun offset => ⟨fun hsafe haligned => ?_, fun hfit count pool stack => ?_⟩,
    fun hsafe => ?_, fun hfit count pool stack build rounds hbuild => ?_⟩
  · have hcall := hsafe (fun _ => none) 0 onesStack
    rw [← Nat.mul_div_cancel' (Nat.dvd_of_mod_eq_zero haligned),
      (isDirOf_ofSlots slots clusSize _).call_inside_iff, namesFit_map] at hcall
    exact hcall.mono hones
  · by_cases haligned : offset % direntSize = 0
    · rw [← Nat.mul_div_cancel' (Nat.dvd_of_mod_eq_zero haligned),
        (isDirOf_ofSlots slots clusSize _).call_inside_iff, namesFit_map]
      exact (hfit haligned).mono fun s hs => hs.endsInTime _
    · rw [Directory.dirGetDentFrom, if_pos haligned]
      intro h
      cases h
  · by_contra hfit
    have hlate : ¬DirFits EndsInTime [] (bufsFrom onesStack slots 0) := by
      rw [bufsFrom, List.drop_zero, dirFits_map]
      exact fun h => hfit (h.mono hones)
    refine hsafe (fun _ => some 0) slots.length onesStack (fun _ pool => .ok ([], pool))
      (slots.length + 1) (fun _ _ h => by cases h) ?_
    exact treeLoop_overrun (isDirOf_ofSlots slots clusSize _) (fun _ => rfl) hlate
      (Nat.lt_succ_self _) (Nat.le_refl _)
  · refine treeLoop_ne_overrun (i := 0) (isDirOf_ofSlots slots clusSize count) hbuild ?_
    rw [bufsFrom, List.drop_zero, dirFits_map]
    exact hfit.mono fun s hs => hs.endsInTime _

/-- Long entries without a zero character add up. -/
theorem NamesFit.length_lt {ends : (Nat → Byte) → Prop} {p : List Wchar} {f : Nat → Byte}
    {rest : List (Nat → Byte)} {n : Nat} (hskip : isSkipped f = false)
    (hlong : f 11 = attrLongNameMask) (hfull : (0 : Wchar) ∉ longText f) (hp : ∀ c ∈ p, c ≠ 0)
    (h : NamesFit ends p (List.replicate (n + 1) f ++ rest)) :
    p.length + bytesLongent * (n + 1) < maxNameLen := by
  induction n generalizing p with
  | zero =>
    simp only [List.replicate_succ, List.cons_append, NamesFit, hskip, hlong, if_true] at h
    exact h.1
  | succ n ih =>
    rw [List.replicate_succ, List.cons_append] at h
    simp only [NamesFit, hskip, hlong, if_true] at h
    have hall : ∀ c ∈ longText f ++ p, c ≠ 0 :=
      List.forall_mem_append.mpr ⟨fun c hc heq => hfull (heq ▸ hc), hp⟩
    have hcollect : collect p f = longText f ++ p := CStr.cut_eq_self hall
    have hmore := ih (p := collect p f) (hcollect ▸ hall) h.2
    rw [hcollect, List.length_append, longText, List.length_map, List.length_range] at hmore
    rw [Nat.mul_succ]
    omega

/-- A long entry with thirteen characters. -/
def fullLong : Nat → Byte := fun k => if k = 0 then 1 else if k = 11 then attrLongNameMask else 0x61

/-- Ten long entries with thirteen characters each. -/
theorem fullLong_overrun (stack : ScanBufs) :
    (Directory.ofSlots (List.replicate 10 fullLong) 512 fun _ => none).dirGetDentFrom 1 stack 0 =
      .error .overrun := by
  have hdir := isDirOf_ofSlots (List.replicate 10 fullLong) 512 fun _ => none
  have hfit : ¬NamesFit EndsInTime [] (bufsFrom stack (List.replicate 10 fullLong) 0) := by
    rw [bufsFrom, List.drop_zero, namesFit_map, ← List.append_nil (List.replicate 10 fullLong)]
    intro h
    have hfull : (0 : Wchar) ∉ longText fullLong := by decide +kernel
    have hlt :=
      h.length_lt (n := 9) (by decide) (by decide) hfull fun _ hc => absurd hc List.not_mem_nil
    exact absurd hlt (by decide)
  exact not_not.mp ((hdir.call_inside_iff stack 1 0).not.mpr hfit)

/-- The name of the file may have up to 255 characters; with 130 the call leaves the buffer. -/
theorem tenLong_overrun :
    (Directory.ofSlots (List.replicate 10 fullLong) 512 fun _ => none).dirGetDentFrom 1
      onesStack 0 = .error .overrun :=
  fullLong_overrun onesStack

end Inside

section Volume

/-- The clusters of a directory; its first cluster may be 0. -/
def DirChain (v : Volume) (first : Nat) (xs : List Nat) : Prop :=
  first = 0 ∧ xs = [] ∨ first ≠ 0 ∧ Chained v first xs

/-- The size that `countClusters` gives a directory. -/
def dirSize (v : Volume) (xs : List Nat) : Nat := xs.length * v.clusSize % 2 ^ 32

/-- The slots of a directory with the clusters `xs`. -/
def slotsOf (v : Volume) (xs : List Nat) : List (Nat → Byte) :=
  (List.range (dirSize v xs / direntSize)).map fun i k => v.byteAt xs (direntSize * i + k)

/-- Slots do not cross the end of a cluster. -/
structure DirGeometry (v : Volume) : Prop extends Geometry v where
  slots : direntSize ∣ v.clusSize

variable {v : Volume} {first : Nat} {xs ys : List Nat}

theorem DirChain.unique (h : DirChain v first xs) (h' : DirChain v first ys) : xs = ys := by
  rcases h with ⟨rfl, rfl⟩ | ⟨hne, chained⟩
  · rcases h' with ⟨-, rfl⟩ | ⟨hne, -⟩
    · rfl
    · exact absurd rfl hne
  · rcases h' with ⟨rfl, -⟩ | ⟨-, chained'⟩
    · exact absurd rfl hne
    · exact chained.unique chained'

theorem dirChain_of_count {rounds n : Nat} (h : v.countClusters rounds first = some n) :
    ∃ xs, DirChain v first xs ∧ n = xs.length := by
  rw [Volume.countClusters] at h
  split at h
  · next hzero => exact ⟨[], .inl ⟨hzero, rfl⟩, (Option.some.inj h).symm⟩
  · next hne =>
    obtain ⟨xs, chained, -, hn⟩ := chained_of_countLoop h
    exact ⟨xs, .inr ⟨hne, chained⟩, by rw [hn, Nat.zero_add]⟩

theorem DirChain.count (h : DirChain v first xs) {rounds : Nat} (hrounds : xs.length < rounds) :
    v.countClusters rounds first = some xs.length := by
  rcases h with ⟨rfl, rfl⟩ | ⟨hne, chained⟩
  · rfl
  · rw [Volume.countClusters, if_neg hne, chained.countLoop hrounds 0, Nat.zero_add]

/-- The pages after `filepnt_init` describe the chain. -/
theorem Chained.linked {pointer : DirentPointer} (chained : Chained v first xs) (hne : first ≠ 0)
    (hxs : xs ≠ []) (filled : Filled noPages pointer 0 xs) : Linked v first pointer xs where
  chain := by
    obtain ⟨c, xs, rfl⟩ := List.exists_cons_of_ne_nil hxs
    obtain ⟨rfl, -, -⟩ := chained.uncons
    rw [headOf, if_neg hne]
    exact ⟨rfl, chained.follows.2⟩
  nodup := chained.nodup
  clusters := chained.clusters
  table i hi := by
    have hentry := filled.table i hi
    rwa [Nat.zero_add] at hentry
  beyond i c hi hget := by
    rcases filled.fresh i c (.inr (by omega)) hget with hzero | hold
    · exact hzero
    · exact absurd hold (by simp [noPages, DirentPointer.getclusbyno])

theorem DirGeometry.dirSize_mod (geometry : DirGeometry v) (xs : List Nat) :
    v.clusSize ∣ dirSize v xs :=
  (Nat.dvd_mod_iff geometry.power).mpr (Nat.dvd_mul_left ..)

theorem slot_within {m : Nat} (hdvd : direntSize ∣ m) (hpos : 0 < m) (i : Nat) :
    direntSize * i + direntSize ≤ (direntSize * i / m + 1) * m := by
  obtain ⟨n, rfl⟩ := hdvd
  have hn : 0 < n := Nat.pos_of_mul_pos_left hpos
  have hlt : i < (i / n + 1) * n := Nat.lt_mul_of_div_lt (Nat.lt_succ_self _) hn
  rw [Nat.mul_div_mul_left _ _ (by decide), Nat.mul_left_comm, ← Nat.mul_succ]
  exact Nat.mul_le_mul_left _ hlt

/-- A directory of the volume is read slot by slot. -/
theorem Linked.isDirOf {pointer : DirentPointer} (geometry : DirGeometry v)
    (h : dirSize v xs ≠ 0 → Linked v first pointer xs) (rounds : Nat) :
    IsDirOf (v.directory rounds pointer (dirSize v xs)) (slotsOf v xs) where
  size := by
    have hdvd : direntSize ∣ dirSize v xs := geometry.slots.trans (geometry.dirSize_mod xs)
    rw [slotsOf, List.length_map, List.length_range, Nat.mul_div_cancel' hdvd]
    rfl
  read i hi buf := by
    have hdvd : direntSize ∣ dirSize v xs := geometry.slots.trans (geometry.dirSize_mod xs)
    have hindex : i < dirSize v xs / direntSize := by
      rwa [slotsOf, List.length_map, List.length_range] at hi
    have hend : direntSize * i + direntSize ≤ dirSize v xs := by
      rw [← Nat.mul_div_cancel' hdvd, ← Nat.mul_succ]
      exact Nat.mul_le_mul_left _ hindex
    have hsize : dirSize v xs < 2 ^ 32 := Nat.mod_lt _ (by decide)
    have hlen : dirSize v xs ≤ xs.length * v.clusSize := Nat.mod_le _ _
    have hwithin := slot_within geometry.slots geometry.pos i
    have hupto : v.clusters (direntSize * i + direntSize) ≤ direntSize * i / v.clusSize + 1 :=
      (Volume.clusters_le_iff geometry.pos).mpr hwithin
    have harith : v.clusters (direntSize * i + direntSize) * v.clusSize < 2 ^ 32 := by
      obtain ⟨n, hn⟩ := geometry.dirSize_mod xs
      have hle : v.clusters (direntSize * i + direntSize) ≤ n :=
        (Volume.clusters_le_iff geometry.pos).mpr (by rwa [Nat.mul_comm n, ← hn])
      exact (Nat.mul_le_mul_right _ hle).trans_lt (by rwa [Nat.mul_comm n, ← hn])
    have hconsecutive : Consecutive v xs (direntSize * i / v.clusSize)
        (direntSize * i + direntSize) := by
      intro j hj hlt
      obtain rfl : j = direntSize * i / v.clusSize := by omega
      rw [Nat.sub_self, Nat.add_zero]
    have hpos : 0 < direntSize := by decide
    have hread := @readClusters_spec v first pointer xs buf 0 (direntSize * i) direntSize
      (h (by omega)) geometry.toGeometry hpos (hend.trans hlen) harith hconsecutive
    have hn : (if dirSize v xs < (direntSize * i + direntSize) % 2 ^ 32 then
        dirSize v xs - direntSize * i else direntSize) = direntSize := by
      rw [Nat.mod_eq_of_lt (by omega), if_neg (by omega)]
    simp only [Volume.directory, Fs.fatfileRead, hn]
    rw [if_neg (by omega), if_neg (by omega), hread]
    simp only [Option.map_some, slotsOf, List.getElem_map, List.getElem_range]

end Volume

section Termination

/-- Whether the tree goes on below a short entry. -/
def descends (short : Short) : Bool :=
  isDirectory short.2.2 && !isSelf (entryName short.1 short.2.2)

/-- What is left to do: a directory, or the short entries of one. -/
inductive Job where
  | directory (first : Nat)
  | entries (ss : List Short)

/-- A directory can be mounted with `n` entries of the pool: its links lead to an end mark,
the pointer pages hold them, its names fit, the links of its directories lead to an end
mark, and those that are entered can be mounted in turn. As a derivation is finite, no
directory is entered below itself. -/
inductive Mounts (v : Volume) (behind : Nat → Byte) : Job → Nat → Prop where
  | directory {first n : Nat} {xs : List Nat} (chain : DirChain v first xs)
      (pages : xs.length ≤ pointerLimit)
      (fits : DirFits EndsInTime [] ((slotsOf v xs).map (Mem.blit behind 0 direntSize)))
      (entries : Mounts v behind (.entries (shorts [] (slotBufs behind (slotsOf v xs) 0))) n) :
      Mounts v behind (.directory first) n
  | nil : Mounts v behind (.entries []) 0
  | leaf {short : Short} {ss : List Short} {n : Nat} (stays : descends short = false)
      (size : isDirectory short.2.2 = true → ∃ ys, DirChain v (slotClus short.2.2) ys)
      (rest : Mounts v behind (.entries ss) n) : Mounts v behind (.entries (short :: ss)) (n + 1)
  | sub {short : Short} {ss : List Short} {m n : Nat} (enters : descends short = true)
      (below : Mounts v behind (.directory (slotClus short.2.2)) m)
      (rest : Mounts v behind (.entries ss) n) :
        Mounts v behind (.entries (short :: ss)) (m + n + 1)

variable {v : Volume} {stack : ScanBufs} {dir : Directory} {rounds pool : Nat}
  {build : Entry → Nat → Except Trap (List Tree × Nat)}

/-- The entries of the pool that the short entries have used up. -/
theorem mounts_of_treeShorts {behind : Nat → Byte} (hclus : dir.clusSize = v.clusSize)
    (hcount : dir.count = v.countClusters rounds)
    (hbuild : ∀ (child : Entry) (pool : Nat) (xs : List Nat) (r : List Tree × Nat),
      DirChain v child.firstClus xs → child.fileSize = dirSize v xs → build child pool = .ok r →
        ∃ n, Mounts v behind (.directory child.firstClus) n ∧ r.2 + n = pool)
    {ss : List Short} {r : List Tree × Nat} (h : treeShorts dir build ss pool = .ok r) :
    ∃ n, Mounts v behind (.entries ss) n ∧ r.2 + n = pool := by
  induction ss generalizing pool r with
  | nil =>
    cases h
    exact ⟨0, .nil, rfl⟩
  | cons short ss ih =>
    obtain ⟨q, j, f⟩ := short
    rw [treeShorts] at h
    cases hfill : dir.fillEntry pool q j f with
    | error e =>
      rw [hfill] at h
      cases h
    | ok answer =>
      obtain ⟨child, next⟩ := answer
      obtain ⟨hpool, -, hname, hdir, hfirst, hsize⟩ := fillEntry_eq_ok hfill
      rw [hcount, hclus] at hsize
      have hchain : isDirectory f = true →
          ∃ ys, DirChain v (slotClus f) ys ∧ child.fileSize = dirSize v ys := by
        intro hisdir
        obtain ⟨n, hn, hsize⟩ := hsize hisdir
        obtain ⟨ys, chain, rfl⟩ := dirChain_of_count hn
        exact ⟨ys, chain, hsize⟩
      rw [hfill] at h
      simp only [hname] at h
      split at h
      · next hself =>
        obtain ⟨n, rest, hn⟩ := ih h
        refine ⟨n + 1, .leaf (by simp [descends, hself]) ?_ rest, by omega⟩
        exact fun hisdir => (hchain hisdir).imp fun _ h => h.1
      · next hself =>
        obtain ⟨below, hbelow, hrest⟩ := except_bind_eq_ok.mp h
        obtain ⟨r', hloop, rfl⟩ := except_map_eq_ok.mp hrest
        obtain ⟨n, rest, hn⟩ := ih hloop
        rw [treeBelow, hdir] at hbelow
        split at hbelow
        · next hisdir =>
          obtain ⟨ys, chain, hsize⟩ := hchain hisdir
          obtain ⟨m, sub, hm⟩ := hbuild child _ ys below (hfirst ▸ chain) hsize hbelow
          refine ⟨m + n + 1, .sub (by simp [descends, hisdir, hself]) (hfirst ▸ sub) rest, ?_⟩
          simp only
          omega
        · next hfile =>
          cases hbelow
          refine ⟨n + 1, .leaf (by simp [descends, hfile]) (fun hisdir => absurd hisdir hfile) rest,
            ?_⟩
          simp only at hn ⊢
          omega

/-- The pages that `filepnt_init` fills in for a directory. -/
theorem DirChain.filepntInit {first : Nat} {xs : List Nat} (chain : DirChain v first xs)
    (hpages : xs.length ≤ pointerLimit) (hrounds : xs.length < rounds) :
    ∃ valid pointer, v.filepntInit rounds first false noPages = some (valid, pointer) ∧
      (dirSize v xs ≠ 0 → Linked v first pointer xs) := by
  rcases chain with ⟨rfl, rfl⟩ | ⟨hne, chained⟩
  · exact ⟨false, noPages, rfl, fun h => absurd (by simp [dirSize]) h⟩
  · obtain ⟨pointer, hrun, filled⟩ :=
      chained.filepntLoop hrounds (show 0 + xs.length ≤ _ by omega) noPages
    refine ⟨true, pointer, ?_, fun hsize => chained.linked hne ?_ filled⟩
    · rw [Volume.filepntInit, if_neg (by decide), if_neg hne, hrun, Option.map_some]
    · rintro rfl
      exact hsize (by simp [dirSize])

theorem DirChain.of_filepntInit {first : Nat} {valid : Bool} {pointer : DirentPointer}
    {xs : List Nat} (chain : DirChain v first xs)
    (h : v.filepntInit rounds first false noPages = some (valid, pointer)) :
    xs.length ≤ pointerLimit ∧ (dirSize v xs ≠ 0 → Linked v first pointer xs) := by
  have hbounds : xs = [] ∨ xs.length ≤ pointerLimit ∧ xs.length < rounds := by
    rcases chain with ⟨-, rfl⟩ | ⟨hne, chained⟩
    · exact .inl rfl
    · rw [Volume.filepntInit, if_neg (by decide), if_neg hne] at h
      obtain ⟨pointer', hrun, -⟩ := Option.map_eq_some_iff.mp h
      obtain ⟨ys, chained', hrounds, hlimit⟩ := chained_of_filepntLoop hrun (Nat.zero_le _)
      rw [chained.unique chained']
      exact .inr ⟨by omega, hrounds⟩
  rcases hbounds with rfl | ⟨hpages, hrounds⟩
  · exact ⟨Nat.zero_le _, fun h => absurd (by simp [dirSize]) h⟩
  · obtain ⟨valid', pointer', hinit, linked⟩ := chain.filepntInit hpages hrounds
    obtain ⟨-, rfl⟩ : valid' = valid ∧ pointer' = pointer := by simpa [hinit] using h
    exact ⟨hpages, linked⟩

theorem mounts_of_buildDirentTree (geometry : DirGeometry v) {first : Nat} {xs : List Nat}
    {r : List Tree × Nat} (chain : DirChain v first xs)
    (h : buildDirentTree v stack rounds first (dirSize v xs) pool = .ok r) :
    ∃ n, Mounts v stack.direntBuf (.directory first) n ∧ r.2 + n = pool := by
  induction rounds generalizing first xs pool r with
  | zero => cases h
  | succ rounds ih =>
    rw [buildDirentTree] at h
    cases hinit : v.filepntInit rounds first false noPages with
    | none =>
      rw [hinit] at h
      cases h
    | some init =>
      obtain ⟨valid, pointer⟩ := init
      rw [hinit] at h
      obtain ⟨hpages, hlinked⟩ := chain.of_filepntInit hinit
      have hdir := Linked.isDirOf geometry hlinked rounds
      obtain ⟨fits, -, hshorts⟩ := (treeLoop_eq_ok_iff (i := 0) hdir).mp h
      rw [bufsFrom, List.drop_zero] at fits
      obtain ⟨n, entries, hn⟩ := mounts_of_treeShorts (v := v) rfl rfl
        (fun child pool xs r chain hsize hbuild => ih chain (hsize ▸ hbuild)) hshorts
      exact ⟨n, .directory chain hpages fits entries, hn⟩

/-- What a derivation says of the functions: with enough rounds they answer, and the
entries it counts are taken from the pool. -/
def Job.Done (v : Volume) (stack : ScanBufs) (n rounds : Nat) : Job → Prop
  | .directory first => ∀ xs, DirChain v first xs → ∀ pool, n ≤ pool →
      ∃ ts, buildDirentTree v stack rounds first (dirSize v xs) pool = .ok (ts, pool - n)
  | .entries ss =>
    ∀ dir : Directory, dir.clusSize = v.clusSize → dir.count = v.countClusters rounds →
      ∀ pool, n ≤ pool → ∃ ts, treeShorts dir
        (fun child pool => buildDirentTree v stack rounds child.firstClus child.fileSize pool) ss
          pool = .ok (ts, pool - n)

theorem exists_rounds {f : Nat → Byte}
    (h : isDirectory f = true → ∃ ys, DirChain v (slotClus f) ys) :
    ∃ enough, ∀ rounds, enough ≤ rounds → isDirectory f = true →
      (v.countClusters rounds (slotClus f)).isSome := by
  by_cases hdir : isDirectory f = true
  · obtain ⟨ys, chain⟩ := h hdir
    refine ⟨ys.length + 1, fun rounds hrounds _ => ?_⟩
    rw [chain.count hrounds]
    rfl
  · exact ⟨0, fun _ _ h => absurd h hdir⟩

theorem Mounts.done (geometry : DirGeometry v) {job : Job} {n : Nat}
    (h : Mounts v stack.direntBuf job n) : ∃ least, ∀ rounds, least ≤ rounds →
    job.Done v stack n rounds := by
  induction h with
  | @directory first n xs chain pages fits entries ih =>
    obtain ⟨least, ih⟩ := ih
    -- one round is spent on entering the directory
    refine ⟨max least (max xs.length
      (shorts [] (slotBufs stack.direntBuf (slotsOf v xs) 0)).length + 1) + 1, ?_⟩
    intro rounds hrounds ys chain' pool hpool
    obtain rfl := chain.unique chain'
    obtain ⟨rounds, rfl⟩ : ∃ k, rounds = k + 1 := ⟨rounds - 1, by omega⟩
    obtain ⟨valid, pointer, hinit, linked⟩ := chain.filepntInit pages
      (show xs.length < rounds by omega)
    have hdir := Linked.isDirOf geometry linked rounds
    obtain ⟨ts, hts⟩ :=
      ih rounds (by omega) (v.directory rounds pointer (dirSize v xs)) rfl rfl pool hpool
    refine ⟨ts, ?_⟩
    rw [buildDirentTree, hinit]
    refine (treeLoop_eq_ok_iff (i := 0) hdir).mpr ⟨?_, by omega, hts⟩
    rwa [bufsFrom, List.drop_zero]
  | nil => exact ⟨0, fun _ _ _ _ _ pool _ => ⟨[], rfl⟩⟩
  | @leaf short ss n stays size rest ih =>
    obtain ⟨q, j, f⟩ := short
    obtain ⟨least, ih⟩ := ih
    obtain ⟨enough, hcount⟩ := exists_rounds size
    refine ⟨max least enough, fun rounds hrounds dir hclus hdir pool hpool => ?_⟩
    have hsize := hcount rounds (by omega)
    rw [← hdir] at hsize
    obtain ⟨child, hfill⟩ := @fillEntry_ok dir pool f hsize (by omega) q j
    obtain ⟨-, -, hname, hisdir, -⟩ := fillEntry_eq_ok hfill
    obtain ⟨ts, hts⟩ := ih rounds (by omega) dir hclus hdir (pool - 1) (by omega)
    rw [show pool - 1 - n = pool - (n + 1) by omega] at hts
    rw [treeShorts, hfill]
    simp only [hname]
    split
    · exact ⟨ts, hts⟩
    · next hself =>
      have hfile : isDirectory f = false := by simpa [descends, hself] using stays
      rw [treeBelow, hisdir, hfile, if_neg (by decide)]
      refine ⟨.node child [] :: ts, ?_⟩
      exact except_bind_eq_ok.mpr ⟨_, rfl, except_map_eq_ok.mpr ⟨_, hts, rfl⟩⟩
  | @sub short ss m n enters below rest ihb ihr =>
    obtain ⟨q, j, f⟩ := short
    obtain ⟨leastb, ihb⟩ := ihb
    obtain ⟨leastr, ihr⟩ := ihr
    obtain ⟨ys, chain⟩ : ∃ ys, DirChain v (slotClus f) ys := by
      cases below with
      | directory chain => exact ⟨_, chain⟩
    obtain ⟨enough, hcount⟩ := exists_rounds (v := v) (f := f) fun _ => ⟨ys, chain⟩
    refine ⟨max (max leastb leastr) enough, fun rounds hrounds dir hclus hdir pool hpool => ?_⟩
    obtain ⟨hdirectory, hself⟩ : isDirectory f = true ∧ isSelf (entryName q f) = false := by
      simpa [descends] using enters
    have hsize := hcount rounds (by omega)
    rw [← hdir] at hsize
    obtain ⟨child, hfill⟩ := @fillEntry_ok dir pool f hsize (by omega) q j
    obtain ⟨-, -, hname, hisdir, hfirst, hbytes⟩ := fillEntry_eq_ok hfill
    have hfileSize : child.fileSize = dirSize v ys := by
      obtain ⟨k, hk, hbytes⟩ := hbytes hdirectory
      rw [hdir] at hk
      obtain ⟨zs, chain', rfl⟩ := dirChain_of_count hk
      rw [hbytes, hclus, chain.unique chain']
      rfl
    obtain ⟨ts, hts⟩ := ihb rounds (by omega) ys chain (pool - 1) (by omega)
    obtain ⟨us, hus⟩ := ihr rounds (by omega) dir hclus hdir (pool - 1 - m) (by omega)
    rw [show pool - 1 - m - n = pool - (m + n + 1) by omega] at hus
    refine ⟨.node child ts :: us, ?_⟩
    rw [treeShorts, hfill]
    simp only [hname, hself]
    rw [if_neg (by decide), treeBelow, hisdir, if_pos hdirectory, hfirst, hfileSize, hts]
    exact except_map_eq_ok.mpr ⟨_, hus, rfl⟩

/-- The volume can be mounted exactly when there is a derivation for its root, and the pool
has an entry for the root and for everything that is found. -/
theorem fat32Init_ends_iff (geometry : DirGeometry v) (rootClus : Nat) :
    (∃ rounds r, fat32Init v stack rounds rootClus pool = .ok r) ↔
      ∃ n, n + 1 ≤ pool ∧ Mounts v stack.direntBuf (.directory rootClus) n := by
  constructor
  · rintro ⟨rounds, r, h⟩
    rw [fat32Init] at h
    split at h
    · cases h
    · next hpool =>
      cases hcount : v.countClusters rounds rootClus with
      | none =>
        rw [hcount] at h
        cases h
      | some k =>
        rw [hcount] at h
        obtain ⟨xs, chain, rfl⟩ := dirChain_of_count hcount
        obtain ⟨n, mounts, hn⟩ := mounts_of_buildDirentTree geometry chain h
        exact ⟨n, by omega, mounts⟩
  · rintro ⟨n, hpool, mounts⟩
    obtain ⟨least, hdone⟩ := mounts.done geometry
    obtain ⟨xs, chain⟩ : ∃ xs, DirChain v rootClus xs := by
      cases mounts with
      | directory chain => exact ⟨_, chain⟩
    obtain ⟨ts, hts⟩ := hdone (max least (xs.length + 1)) (Nat.le_max_left _ _) xs chain (pool - 1)
      (by omega)
    refine ⟨max least (xs.length + 1), (ts, pool - 1 - n), ?_⟩
    rw [fat32Init, if_neg (by omega), chain.count (by omega)]
    exact hts

/-- The loops along the FAT come to an end exactly along chains of clusters, and the mount
exactly on a finite tree of such directories for which the pool suffices. -/
theorem mount_ends_iff (geometry : DirGeometry v) :
    (∀ first, (∃ rounds n, v.countClusters rounds first = some n) ↔
      first = 0 ∨ ∃ xs, Chained v first xs) ∧
    (∀ first valid pointer, (∃ rounds r, v.filepntInit rounds first valid pointer = some r) ↔
      valid = true ∨ first = 0 ∨ ∃ xs, Chained v first xs ∧ xs.length ≤ pointerLimit) ∧
    (∀ clus, (∃ rounds v', Volume.freeSequence rounds v clus = some v') ↔
      v.IsCluster clus ∧ ∃ ys, Chained v (v.fatRead clus) ys) ∧
    ∀ stack rootClus pool, (∃ rounds r, fat32Init v stack rounds rootClus pool = .ok r) ↔
      ∃ n, n + 1 ≤ pool ∧ Mounts v stack.direntBuf (.directory rootClus) n :=
  ⟨fun _ => countClusters_ends_iff, fun _ _ _ => filepntInit_ends_iff,
    fun _ => freeSequence_ends_iff, fun _ rootClus _ => fat32Init_ends_iff geometry rootClus⟩

/-- A root directory of one cluster whose link is 0. -/
def brokenRoot : Volume where
  clusSize := 512
  dataClusCnt := 8
  fat _ := 0
  data _ := 0

/-- A directory of one cluster without entries. -/
theorem mounts_skipped {behind : Nat → Byte} {c : Nat} (hc : c ≠ 0) (chained : Chained v c [c])
    (skipped : ∀ s ∈ slotsOf v [c], isSkipped s = true) : Mounts v behind (.directory c) 0 := by
  have hbufs : ∀ f ∈ (slotsOf v [c]).map (Mem.blit behind 0 direntSize), isSkipped f = true := by
    intro f hf
    obtain ⟨s, hs, rfl⟩ := List.mem_map.mp hf
    rw [isSkipped_blit]
    exact skipped s hs
  have hshorts : shorts [] (slotBufs behind (slotsOf v [c]) 0) = [] := by
    refine shorts_of_skipped fun slot hslot => ?_
    have hmem := List.mem_map_of_mem (f := Prod.snd) hslot
    rw [slotBufs_bufs, List.drop_zero] at hmem
    exact hbufs _ hmem
  refine .directory (.inr ⟨hc, chained⟩) (by decide : 1 ≤ pointerLimit)
    (dirFits_of_skipped hbufs) ?_
  rw [hshorts]
  exact .nil

/-- A root directory with a directory `A` at cluster 3, which has no entries. -/
def smallRoot : Volume where
  clusSize := 512
  dataClusCnt := 8
  fat c := if c = 2 ∨ c = 3 then fat32Eof else 0
  data k := if k = 0 then 0x41 else if k < 11 then 0x20 else if k = 11 then attrDirectory
    else if k = 26 then 3 else 0

theorem smallRoot_geometry : DirGeometry smallRoot where
  power := show 512 ∣ 2 ^ 32 by decide +kernel
  count := by decide
  slots := by decide

theorem smallRoot_chained {c : Nat} (hc : c = 2 ∨ c = 3) : Chained smallRoot c [c] := by
  rcases hc with rfl | rfl
  all_goals
    refine ⟨⟨rfl, rfl⟩, fun c hc => ?_⟩
    rw [List.mem_singleton.mp hc]
    decide

theorem smallRoot_mounts : Mounts smallRoot onesStack.direntBuf (.directory 2) 1 := by
  have hempty : ∀ s ∈ slotsOf smallRoot [3], isSkipped s = true := by decide +kernel
  refine .directory (.inr ⟨by decide, smallRoot_chained (.inl rfl)⟩) (by decide) ?_ ?_
  · change NameFits EndsInTime [] (Mem.blit _ 0 direntSize _) ∧ True
    exact ⟨fun _ => ⟨12, by decide, by decide⟩, trivial⟩
  · have hbelow : Mounts smallRoot onesStack.direntBuf (.directory 3) 0 :=
      mounts_skipped (by decide) (smallRoot_chained (.inr rfl)) hempty
    exact @Mounts.sub _ _ ([], 0, _) [] 0 0 (by decide) hbelow .nil

theorem mount_ends_iff_smallRoot :
    ∃ rounds r, fat32Init smallRoot onesStack rounds 2 4096 = .ok r :=
  ((mount_ends_iff smallRoot_geometry).2.2.2 onesStack 2 4096).mpr
    ⟨1, by decide, smallRoot_mounts⟩

/-- The link of the root directory is 0: counting its clusters does not come to an end, and
neither does the mount. -/
theorem brokenRoot_stuck : (∀ rounds, brokenRoot.countClusters rounds 2 = none) ∧
      ∀ stack rounds pool, fat32Init brokenRoot stack rounds 2 pool = .error .stuck := by
  have hloop : ∀ rounds clus i, fat32NotEndCluster clus = true →
      brokenRoot.countLoop rounds clus i = none := by
    intro rounds
    induction rounds with
    | zero => exact fun _ _ _ => rfl
    | succ rounds ih =>
      intro clus i hmore
      have hread : brokenRoot.fatRead clus = 0 := ite_self 0
      rw [Volume.countLoop, if_pos hmore, hread]
      exact ih 0 (i + 1) rfl
  have hcount : ∀ rounds, brokenRoot.countClusters rounds 2 = none :=
    fun rounds => hloop rounds 2 0 rfl
  refine ⟨hcount, fun stack rounds pool => ?_⟩
  rw [fat32Init, hcount]
  exact ite_self _

end Termination

end KernelTravel.Fat32

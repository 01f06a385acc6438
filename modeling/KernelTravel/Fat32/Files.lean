import KernelTravel.Fat32.Transfer

/-!
# Operations on the files of a volume

`FatInv fs chains` is the invariant of a volume with its open entries: every entry, the FAT
and the pointer pages describe the chain of its file, the chain has the clusters that the
size asks for, and no cluster belongs to two files.

`Outcome` is what an operation on one file amounts to. It changes the clusters, the size
and the bytes of that file, and the bytes of the directory that holds its entry; every
other file stays as it is.
-/

namespace KernelTravel.Fat32

open Function

open Scatter

structure FatInv (fs : Fs) (chains : Nat → List Nat) : Prop where
  geometry : Geometry fs.vol
  linked : ∀ f < fs.count, Linked fs.vol (fs.dirent f).firstClus (fs.dirent f).pointer (chains f)
  length : ∀ f < fs.count, (chains f).length = fs.vol.clusters (fs.dirent f).fileSize
  apart : ∀ f < fs.count, ∀ g < fs.count, f ≠ g → (chains f).Disjoint (chains g)

structure Outcome (fs fs' : Fs) (chains : Nat → List Nat) (f : Nat) (xs : List Nat) (size : Nat)
    (bytes : Nat → Byte) : Prop where
  inv : FatInv fs' (update chains f xs)
  count : fs'.count = fs.count
  clusSize : fs'.vol.clusSize = fs.vol.clusSize
  size : (fs'.dirent f).fileSize = size
  parentDirent : (fs'.dirent f).parentDirent = (fs.dirent f).parentDirent
  parentDirOff : (fs'.dirent f).parentDirOff = (fs.dirent f).parentDirOff
  others : ∀ g, g ≠ f → fs'.dirent g = fs.dirent g
  self : ∀ k < xs.length * fs.vol.clusSize, fs'.vol.byteAt xs k = bytes k
  rest : ∀ g < fs.count, g ≠ f → (fs.dirent f).parentDirent ≠ some g →
    ∀ k < (chains g).length * fs.vol.clusSize,
      fs'.vol.byteAt (chains g) k = fs.vol.byteAt (chains g) k

section Frame

variable {v v' : Volume} {first : Nat} {pointer : DirentPointer} {xs xs' ys : List Nat}

theorem Evolves.filePos (step : Evolves v v' xs xs') (ys : List Nat) (k : Nat) :
    v'.filePos ys k = v.filePos ys k := by
  rw [Volume.filePos, Volume.filePos, step.clusterPos, step.clusSize]

/-- The bytes of another file stay. -/
theorem Linked.byteAt_frame (h : Linked v first pointer ys) (step : Evolves v v' xs xs')
    (apart : xs.Disjoint ys) {k : Nat} (hk : k < ys.length * v.clusSize) :
    v'.byteAt ys k = v.byteAt ys k := by
  have hindex : k / v.clusSize < ys.length := Nat.div_lt_of_lt_mul (by rwa [Nat.mul_comm])
  have hpos : 0 < v.clusSize := Nat.pos_of_lt_mul_left hk
  have hmem : ys.getD (k / v.clusSize) 0 ∈ ys := by
    rw [List.getD_eq_getElem _ _ hindex]
    exact List.getElem_mem hindex
  rw [Volume.byteAt, Volume.byteAt, step.filePos]
  exact step.data _ (h.clusters _ hmem) (h.fat_ne_zero hmem) (fun hx => apart hx hmem) _
    (Nat.mod_lt k hpos)

/-- A write to a file only touches its clusters. -/
theorem Linked.evolves_wrote (h : Linked v first pointer xs) (hsize : 0 < v.clusSize) {off n : Nat}
    {src data : Nat → Byte} (hinside : off + n ≤ xs.length * v.clusSize)
    (wrote : Wrote (v.filePos xs) off n src v.data data) : Evolves v { v with data } xs xs where
  clusSize := rfl
  dataClusCnt := rfl
  fat _ _ _ := rfl
  taken c hc := .inl hc
  data c hcluster _ hmem o ho := by
    refine wrote.outside _ fun j hj heq => hmem ?_
    have hindex : (off + j) / v.clusSize < xs.length := (Nat.div_lt_iff_lt_mul hsize).mpr (by omega)
    rw [Volume.filePos, List.getD_eq_getElem _ _ hindex] at heq
    obtain ⟨rfl, -⟩ := Volume.clusterPos_inj (h.clusters _ (List.getElem_mem hindex)) hcluster
      (Nat.mod_lt _ hsize) ho heq
    exact List.getElem_mem hindex

/-- The links do not depend on the bytes. -/
theorem Linked.with_data (h : Linked v first pointer xs) (data : Nat → Byte) :
    Linked { v with data } first pointer xs :=
  ⟨h.chain, h.nodup, h.clusters, h.table, h.beyond⟩

end Frame

section Outcome

variable {fs fs' fs'' : Fs} {chains : Nat → List Nat} {f : Nat} {xs xs' : List Nat}
  {size size' : Nat} {bytes bytes' : Nat → Byte}

theorem FatInv.with_data (inv : FatInv fs chains) (data : Nat → Byte) :
    FatInv { fs with vol := { fs.vol with data } } chains :=
  ⟨⟨inv.geometry.power, inv.geometry.count⟩, fun g hg => (inv.linked g hg).with_data data,
    inv.length, inv.apart⟩

/-- Replace the entry and the chain of one file. -/
theorem FatInv.update (inv : FatInv fs chains) (hf : f < fs.count) {v : Volume} {d : Dirent}
    (step : Evolves fs.vol v (chains f) xs) (linked : Linked v d.firstClus d.pointer xs)
    (length : xs.length = v.clusters d.fileSize) :
    FatInv ({ fs with vol := v }.setDirent f d) (update chains f xs) where
  geometry := inv.geometry.evolves step
  linked g hg := by
    rcases eq_or_ne g f with rfl | hne
    · simpa [Fs.setDirent] using linked
    · simpa [Fs.setDirent, hne] using (inv.linked g hg).frame step (inv.apart f hf g hg hne.symm)
  length g hg := by
    rcases eq_or_ne g f with rfl | hne
    · simpa [Fs.setDirent] using length
    · simpa [Fs.setDirent, hne, Volume.clusters, step.clusSize] using inv.length g hg
  apart g hg h hh hgh := by
    have fresh : ∀ e < fs.count, e ≠ f → xs.Disjoint (chains e) := fun e he hne =>
      (inv.linked e he).apart_of_evolves step (inv.apart f hf e he hne.symm)
    rcases eq_or_ne g f with rfl | hg'
    · simpa [hgh.symm] using fresh h hh hgh.symm
    · rcases eq_or_ne h f with rfl | hh'
      · simpa [hg'] using (fresh g hg hg').symm
      · simpa [hg', hh'] using inv.apart g hg h hh hgh

theorem Outcome.of_evolves (inv : FatInv fs chains) (hf : f < fs.count) {v : Volume} {d : Dirent}
    (step : Evolves fs.vol v (chains f) xs) (linked : Linked v d.firstClus d.pointer xs)
    (length : xs.length = v.clusters d.fileSize)
    (parentDirent : d.parentDirent = (fs.dirent f).parentDirent)
    (parentDirOff : d.parentDirOff = (fs.dirent f).parentDirOff)
    (self : ∀ k < xs.length * fs.vol.clusSize, v.byteAt xs k = bytes k) :
    Outcome fs ({ fs with vol := v }.setDirent f d) chains f xs d.fileSize bytes where
  inv := inv.update hf step linked length
  count := rfl
  clusSize := step.clusSize
  size := by simp [Fs.setDirent]
  parentDirent := by simpa [Fs.setDirent] using parentDirent
  parentDirOff := by simpa [Fs.setDirent] using parentDirOff
  others g hne := update_of_ne hne _ _
  self := self
  rest g hg hne _ k hk := (inv.linked g hg).byteAt_frame step (inv.apart f hf g hg hne.symm) hk

theorem Outcome.trans (h : Outcome fs fs' chains f xs size bytes)
    (h' : Outcome fs' fs'' (update chains f xs) f xs' size' bytes') :
    Outcome fs fs'' chains f xs' size' bytes' where
  inv := by simpa using h'.inv
  count := h'.count.trans h.count
  clusSize := h'.clusSize.trans h.clusSize
  size := h'.size
  parentDirent := h'.parentDirent.trans h.parentDirent
  parentDirOff := h'.parentDirOff.trans h.parentDirOff
  others g hne := (h'.others g hne).trans (h.others g hne)
  self := by simpa only [h.clusSize] using h'.self
  rest g hg hne hparent k hk := by
    have hlater :=
      h'.rest g (by rw [h.count]; exact hg) hne (by rw [h.parentDirent]; exact hparent) k
    rw [update_of_ne hne, h.clusSize] at hlater
    exact (hlater hk).trans (h.rest g hg hne hparent k hk)

theorem Outcome.congr (h : Outcome fs fs' chains f xs size bytes)
    (same : ∀ k < xs.length * fs.vol.clusSize, bytes k = bytes' k) :
    Outcome fs fs' chains f xs size bytes' :=
  { h with self := fun k hk => (h.self k hk).trans (same k hk) }

/-- The same entry on a volume in which the clusters of its file changed. -/
theorem Outcome.of_volume (inv : FatInv fs chains) (hf : f < fs.count) {v : Volume}
    (step : Evolves fs.vol v (chains f) (chains f))
    (linked : Linked v (fs.dirent f).firstClus (fs.dirent f).pointer (chains f))
    (self : ∀ k < (chains f).length * fs.vol.clusSize, v.byteAt (chains f) k = bytes k) :
    Outcome fs { fs with vol := v } chains f (chains f) (fs.dirent f).fileSize bytes := by
  have length : (chains f).length = v.clusters (fs.dirent f).fileSize := by
    rw [Volume.clusters, step.clusSize]
    exact inv.length f hf
  have outcome := Outcome.of_evolves inv hf step linked length rfl rfl self
  simpa only [Fs.setDirent, update_eq_self] using outcome

end Outcome

/-- A write that does not leave the file. The last cluster written does not end at 4 GiB. -/
structure InsideOk (fs : Fs) (f off n : Nat) : Prop where
  nonempty : 0 < n
  inside : off + n ≤ (fs.dirent f).fileSize
  arith : fs.vol.clusters (off + n) * fs.vol.clusSize < 2 ^ 32

/-- The raw entry of the file lies inside its directory. -/
def ParentOk (fs : Fs) (f : Nat) : Prop :=
  ∀ p ∈ (fs.dirent f).parentDirent,
    p < fs.count ∧ p ≠ f ∧ InsideOk fs p (fs.dirent f).parentDirOff direntSize

section Write

variable {fs fs' : Fs} {chains : Nat → List Nat} {f off n upto : Nat} {src : Nat → Byte}

/-- What the functions need of the one that writes the raw entry. -/
def WritesInside (write : Fs → Nat → (Nat → Byte) → Nat → Nat → Option Fs) : Prop :=
  ∀ fs chains p src off n, FatInv fs chains → p < fs.count → InsideOk fs p off n →
    ∃ data, write fs p src off n = some { fs with vol := { fs.vol with data } } ∧
      Wrote (fs.vol.filePos (chains p)) off n src fs.vol.data data

theorem FatInv.size_le (inv : FatInv fs chains) (hf : f < fs.count) :
    (fs.dirent f).fileSize ≤ (chains f).length * fs.vol.clusSize := by
  rw [inv.length f hf]
  exact (Volume.clusters_le_iff inv.geometry.pos).mp (Nat.le_refl _)

theorem Volume.le_clusters_mul {v : Volume} (geometry : Geometry v) (size : Nat) :
    size ≤ v.clusters size * v.clusSize :=
  (Volume.clusters_le_iff geometry.pos).mp (Nat.le_refl _)

theorem writesInside_writeWith (fuel : Nat) : WritesInside (Fs.writeWith (fuel + 1)) := by
  intro fs chains p src off n inv hp ok
  have hcover := fs.vol.le_clusters_mul inv.geometry (off + n)
  have hsmall : (off + n) % 2 ^ 32 = off + n := Nat.mod_eq_of_lt (hcover.trans_lt ok.arith)
  have hsize := inv.size_le hp
  have hinside := ok.inside
  obtain ⟨data, hwrite, wrote⟩ := @writeClusters_spec fs.vol _ _ _ src off n (inv.linked p hp)
    inv.geometry ok.nonempty (by omega) ok.arith
  refine ⟨data, ?_, wrote⟩
  have hreach : fs.reachWith (Fs.extendWith (Fs.syncWith (Fs.writeWith fuel))) p (off + n) =
      some fs :=
    if_neg (by omega)
  rw [Fs.writeWith, if_neg (by have := ok.nonempty; omega), hsmall, hreach]
  simp only [Option.bind_eq_bind, Option.bind_some, hwrite, Option.pure_def]

theorem writesInside_fatfileWrite : WritesInside Fs.fatfileWrite := by
  intro fs chains p src off n
  exact writesInside_writeWith fs.count fs chains p src off n

/-- A write to the directory of a file, seen from the file. -/
theorem Outcome.of_parent (inv : FatInv fs chains) (hf : f < fs.count) {p : Nat}
    (hp : p < fs.count) (hne : p ≠ f) (hparent : (fs.dirent f).parentDirent = some p)
    {data : Nat → Byte} (step : Evolves fs.vol { fs.vol with data } (chains p) (chains p)) :
    Outcome fs { fs with vol := { fs.vol with data } } chains f (chains f) (fs.dirent f).fileSize
      (fs.vol.byteAt (chains f)) where
  inv := by
    rw [update_eq_self]
    exact inv.with_data data
  count := rfl
  clusSize := rfl
  size := rfl
  parentDirent := rfl
  parentDirOff := rfl
  others _ _ := rfl
  self k hk := (inv.linked f hf).byteAt_frame step (inv.apart p hp f hf hne) hk
  rest g hg _ hdir k hk := by
    have hgp : p ≠ g := fun heq => hdir (heq ▸ hparent)
    exact (inv.linked g hg).byteAt_frame step (inv.apart p hp g hg hgp) hk

/-- Writing the entry back changes no size and no chain. -/
theorem syncWith_spec {write : Fs → Nat → (Nat → Byte) → Nat → Nat → Option Fs}
    (hwrite : WritesInside write) (inv : FatInv fs chains) (hf : f < fs.count)
    (parent : ParentOk fs f) : ∃ fs', Fs.syncWith write fs f = some fs' ∧
      Outcome fs fs' chains f (chains f) (fs.dirent f).fileSize (fs.vol.byteAt (chains f)) := by
  have sync : Outcome fs (fs.setDirent f (fs.dirent f).syncRaw) chains f (chains f)
      (fs.dirent f).fileSize (fs.vol.byteAt (chains f)) :=
    Outcome.of_evolves inv hf (.refl _ _) (inv.linked f hf) (inv.length f hf) rfl rfl fun _ _ => rfl
  cases hparent : (fs.dirent f).parentDirent with
  | none =>
    refine ⟨_, ?_, sync⟩
    have hraw : (fs.dirent f).syncRaw.parentDirent = none := hparent
    simp only [Fs.syncWith, hraw]
  | some p =>
    obtain ⟨hp, hne, ok⟩ := parent p hparent
    have hdir : (fs.setDirent f (fs.dirent f).syncRaw).dirent p = fs.dirent p :=
      update_of_ne hne _ _
    have inv₁ : FatInv (fs.setDirent f (fs.dirent f).syncRaw) chains := by
      simpa only [update_eq_self] using sync.inv
    have ok₁ : InsideOk (fs.setDirent f (fs.dirent f).syncRaw) p (fs.dirent f).parentDirOff
        direntSize := ⟨ok.nonempty, by rw [hdir]; exact ok.inside, ok.arith⟩
    obtain ⟨data, hrun, wrote⟩ := hwrite _ chains p (fs.dirent f).syncRaw.rawDirent _ _ inv₁ hp ok₁
    have hinside : (fs.dirent f).parentDirOff + direntSize ≤ (chains p).length * fs.vol.clusSize :=
      ok.inside.trans (inv.size_le hp)
    have step := (inv.linked p hp).evolves_wrote inv.geometry.pos hinside wrote
    have hself : (fs.setDirent f (fs.dirent f).syncRaw).dirent f = (fs.dirent f).syncRaw :=
      update_self ..
    have write := Outcome.of_parent inv₁ hf hp hne (by rw [hself]; exact hparent) step
    rw [hself] at write
    refine ⟨_, ?_, sync.trans (by rw [update_eq_self]; exact write)⟩
    have hraw : (fs.dirent f).syncRaw.parentDirent = some p := hparent
    simp only [Fs.syncWith, hraw]
    exact hrun

theorem Outcome.parentOk {xs : List Nat} {size : Nat} {bytes : Nat → Byte}
    (h : Outcome fs fs' chains f xs size bytes) (parent : ParentOk fs f) : ParentOk fs' f := by
  intro p hp
  rw [h.parentDirent] at hp
  obtain ⟨hlt, hne, ok⟩ := parent p hp
  refine ⟨by rw [h.count]; exact hlt, hne, ok.nonempty, ?_, ?_⟩
  · rw [h.others p hne, h.parentDirOff]
    exact ok.inside
  · rw [Volume.clusters, h.clusSize, h.parentDirOff]
    exact ok.arith

/-- The last cluster of a file, through the pointer pages. -/
def Fs.lastClus (fs : Fs) (f : Nat) : Nat :=
  if (fs.dirent f).fileSize = 0 then 0
  else ((fs.dirent f).pointer.getclusbyno (fs.vol.clusters (fs.dirent f).fileSize - 1)).getD 0

/-- What `file_extend` needs: the arithmetic stays below 4 GiB, the pointer pages suffice,
and enough clusters are free above the last one of the file. -/
structure GrowOk (fs : Fs) (f upto : Nat) : Prop where
  arith : fs.vol.clusters upto * fs.vol.clusSize < 2 ^ 32
  pages : fs.vol.clusters upto ≤ pointerLimit
  free : fs.vol.clusters upto ≤
    fs.vol.clusters (fs.dirent f).fileSize + fs.vol.freeAbove (fs.lastClus f)
  parent : ParentOk fs f

theorem FatInv.lastClus_eq (inv : FatInv fs chains) (hf : f < fs.count) :
    fs.lastClus f = Linked.lastOf (chains f) := by
  have hlength := inv.length f hf
  have hsize := inv.size_le hf
  rw [Fs.lastClus, ← hlength]
  split
  · next hzero =>
    have hnil : (chains f).length ≤ 0 := by
      rw [hlength, hzero, Volume.clusters_le_iff inv.geometry.pos, Nat.zero_mul]
    rw [List.eq_nil_of_length_eq_zero (Nat.le_zero.mp hnil)]
    rfl
  · next hpos =>
    have hindex : (chains f).length - 1 < (chains f).length := by
      refine Nat.sub_lt (Nat.pos_of_ne_zero fun hzero => hpos ?_) Nat.one_pos
      rw [hzero, Nat.zero_mul] at hsize
      exact Nat.le_zero.mp hsize
    rw [(inv.linked f hf).table _ hindex, Linked.lastOf, List.getLast?_eq_getElem?,
      List.getElem?_eq_getElem hindex]

/-- The bytes of a file with clusters appended to it. -/
def grownBytes (v : Volume) (xs : List Nat) (k : Nat) : Byte :=
  if k < xs.length * v.clusSize then v.byteAt xs k else 0

theorem extendWith_spec {write : Fs → Nat → (Nat → Byte) → Nat → Nat → Option Fs}
    (hwrite : WritesInside write) (inv : FatInv fs chains) (hf : f < fs.count)
    (hmore : (fs.dirent f).fileSize < upto) (ok : GrowOk fs f upto) :
    ∃ fs' ys, Fs.extendWith (Fs.syncWith write) fs f upto = some fs' ∧
      Outcome fs fs' chains f (chains f ++ ys) upto (grownBytes fs.vol (chains f)) := by
  have room : RoomFor fs.vol (chains f) upto :=
    ⟨ok.arith, ok.pages, by rw [inv.length f hf, ← inv.lastClus_eq hf]; exact ok.free⟩
  obtain ⟨v, first, pointer, xs, hgrow, linked, hlen, grown⟩ :=
    growClusters_spec inv.geometry (inv.linked f hf) (inv.length f hf) hmore room
  have hclusters : v.clusters upto = fs.vol.clusters upto := by
    rw [Volume.clusters, Volume.clusters, grown.clusSize]
  obtain ⟨ys, rfl⟩ := grown.appended
  have outcome : Outcome fs ({ fs with vol := v }.setDirent f
      { fs.dirent f with firstClus := first, pointer, fileSize := upto }) chains f (chains f ++ ys)
      upto (grownBytes fs.vol (chains f)) := by
    refine Outcome.of_evolves inv hf grown.toEvolves linked (hlen.trans hclusters.symm) rfl rfl ?_
    intro k hk
    rw [grownBytes]
    split
    · next hlt => exact grown.kept k hlt
    · next hge => exact grown.zeroed k (by omega) hk
  obtain ⟨fs', hsync, synced⟩ := syncWith_spec hwrite outcome.inv hf (outcome.parentOk ok.parent)
  rw [update_self, outcome.size] at synced
  refine ⟨fs', ys, ?_, (outcome.trans synced).congr outcome.self⟩
  rw [Fs.extendWith, if_pos hmore, hgrow]
  exact hsync

/-- What `Fatfile_write` needs. -/
structure WriteOk (fs : Fs) (f off n : Nat) : Prop where
  nonempty : 0 < n
  arith : fs.vol.clusters (off + n) * fs.vol.clusSize < 2 ^ 32
  grow : (fs.dirent f).fileSize < off + n → GrowOk fs f (off + n)

/-- The bytes of a file after a write. -/
def writtenBytes (v : Volume) (xs : List Nat) (src : Nat → Byte) (off n k : Nat) : Byte :=
  if off ≤ k ∧ k < off + n then src (k - off) else grownBytes v xs k

theorem Outcome.of_write (inv : FatInv fs chains) (hf : f < fs.count) {data : Nat → Byte}
    (hinside : off + n ≤ (chains f).length * fs.vol.clusSize)
    (wrote : Wrote (fs.vol.filePos (chains f)) off n src fs.vol.data data) :
    Outcome fs { fs with vol := { fs.vol with data } } chains f (chains f) (fs.dirent f).fileSize
      fun k => if off ≤ k ∧ k < off + n then src (k - off) else fs.vol.byteAt (chains f) k := by
  have hpos := inv.geometry.pos
  have step := (inv.linked f hf).evolves_wrote hpos hinside wrote
  refine Outcome.of_volume inv hf step ((inv.linked f hf).with_data data) fun k hk => ?_
  exact wrote.apply fun j hj heq => (inv.linked f hf).filePos_inj hpos (by omega) hk heq

theorem reachWith_spec {write : Fs → Nat → (Nat → Byte) → Nat → Nat → Option Fs}
    (hwrite : WritesInside write) (inv : FatInv fs chains) (hf : f < fs.count)
    (ok : (fs.dirent f).fileSize < upto → GrowOk fs f upto) :
    ∃ fs' ys, fs.reachWith (Fs.extendWith (Fs.syncWith write)) f upto = some fs' ∧
      Outcome fs fs' chains f (chains f ++ ys) (max (fs.dirent f).fileSize upto)
        (grownBytes fs.vol (chains f)) := by
  rcases Nat.lt_or_ge (fs.dirent f).fileSize upto with hmore | hinside
  · obtain ⟨fs', ys, hrun, outcome⟩ := extendWith_spec hwrite inv hf hmore (ok hmore)
    refine ⟨fs', ys, (if_pos hmore).trans hrun, ?_⟩
    rw [Nat.max_eq_right hmore.le]
    exact outcome
  · refine ⟨fs, [], if_neg (by omega), ?_⟩
    rw [List.append_nil, Nat.max_eq_left hinside]
    exact Outcome.of_volume inv hf (.refl _ _) (inv.linked f hf) fun k hk => (if_pos hk).symm

/-- A write through the file interface. -/
theorem fatfileWrite_spec (inv : FatInv fs chains) (hf : f < fs.count) (ok : WriteOk fs f off n)
    (src : Nat → Byte) : ∃ fs' ys, fs.fatfileWrite f src off n = some fs' ∧
      Outcome fs fs' chains f (chains f ++ ys) (max (fs.dirent f).fileSize (off + n))
        (writtenBytes fs.vol (chains f) src off n) := by
  have hcover := fs.vol.le_clusters_mul inv.geometry (off + n)
  have hsmall : (off + n) % 2 ^ 32 = off + n := Nat.mod_eq_of_lt (hcover.trans_lt ok.arith)
  obtain ⟨fuel, hfuel⟩ : ∃ k, fs.count = k + 1 := ⟨fs.count - 1, by omega⟩
  obtain ⟨fs₁, ys, hreach, reached⟩ :=
    reachWith_spec (writesInside_writeWith fuel) inv hf ok.grow
  have hf₁ : f < fs₁.count := by rw [reached.count]; exact hf
  have hsize := reached.inv.size_le hf₁
  rw [reached.size, update_self] at hsize
  have linked := reached.inv.linked f hf₁
  rw [update_self] at linked
  obtain ⟨data, hwrite, wrote⟩ := @writeClusters_spec fs₁.vol _ _ _ src off n linked
    reached.inv.geometry ok.nonempty (by omega) (by
      rw [Volume.clusters, reached.clusSize]
      exact ok.arith)
  have hinside : off + n ≤ (chains f ++ ys).length * fs₁.vol.clusSize := by omega
  have hchain : update chains f (chains f ++ ys) f = chains f ++ ys := update_self ..
  have outcome := Outcome.of_write reached.inv hf₁ (hchain.symm ▸ hinside) (hchain.symm ▸ wrote)
  rw [hchain, reached.size] at outcome
  refine ⟨_, ys, ?_, (reached.trans outcome).congr fun k hk => ?_⟩
  · rw [Fs.fatfileWrite, hfuel, Fs.writeWith, if_neg (by have := ok.nonempty; omega),
      hsmall, hreach]
    simp only [Option.bind_eq_bind, Option.bind_some, hwrite]
    rfl
  · rw [writtenBytes, reached.self k hk]

end Write

end KernelTravel.Fat32

import KernelTravel.Fat32.Files
import KernelTravel.Lib.Run

/-!
# Runs of `file_extend` and `file_shrink`

Neither function checks what `clusterAlloc` answers, and `clusterAlloc` only searches
above the cluster it is given. `file_shrink` first fills the page of the new end with
zeros through `Fatfile_write`, which extends the file when a page is larger than the
clusters it has. The conditions below exclude these cases; under them the invariant of
the volume holds after every run.
-/

namespace KernelTravel.Fat32

/-- What `file_shrink` needs: the clusters of the file reach to the end of the page that
is cleared, or no page is cleared. -/
structure ShrinkOk (fs : Fs) (f newsize : Nat) : Prop where
  le : newsize ≤ (fs.dirent f).fileSize
  arith : fs.vol.clusters (fs.dirent f).fileSize * fs.vol.clusSize < 2 ^ 32
  tail : (fs.dirent f).fileSize % pageSize = 0 ∨ 2 ^ 31 ≤ newsize ∨
    fs.vol.clusters (pgroundup newsize) ≤ fs.vol.clusters (fs.dirent f).fileSize
  parent : ParentOk fs f

section Shrink

variable {fs : Fs} {chains : Nat → List Nat} {f upto newsize : Nat}

theorem Volume.clusters_mono (v : Volume) {a b : Nat} (h : a ≤ b) : v.clusters a ≤ v.clusters b :=
  Nat.div_le_div_right (by omega)

/-- A write inside the clusters that the file already has appends none. -/
theorem zeroWrite_spec (inv : FatInv fs chains) (hf : f < fs.count) (parent : ParentOk fs f)
    (harith : fs.vol.clusters (fs.dirent f).fileSize * fs.vol.clusSize < 2 ^ 32) {off n : Nat}
    (hn : 0 < n) (hreach : fs.vol.clusters (off + n) ≤ fs.vol.clusters (fs.dirent f).fileSize) :
    ∃ fs' size bytes, fs.fatfileWrite f (fun _ => 0) off n = some fs' ∧
      Outcome fs fs' chains f (chains f) size bytes := by
  have hsmall : fs.vol.clusters (off + n) * fs.vol.clusSize < 2 ^ 32 :=
    (Nat.mul_le_mul_right _ hreach).trans_lt harith
  have hpages := (inv.linked f hf).length_le_pointerLimit
  rw [inv.length f hf] at hpages
  have ok : WriteOk fs f off n :=
    ⟨hn, hsmall,
      fun _ => ⟨hsmall, hreach.trans hpages, hreach.trans (Nat.le_add_right _ _), parent⟩⟩
  obtain ⟨fs', ys, hrun, outcome⟩ := fatfileWrite_spec inv hf ok fun _ => 0
  have hlength := outcome.inv.length f (by rw [outcome.count]; exact hf)
  have hclusters : fs'.vol.clusters = fs.vol.clusters := by
    funext size
    rw [Volume.clusters, Volume.clusters, outcome.clusSize]
  have hmax : fs.vol.clusters (max (fs.dirent f).fileSize (off + n)) ≤
      fs.vol.clusters (fs.dirent f).fileSize := by
    rcases Nat.le_total (fs.dirent f).fileSize (off + n) with hle | hle
    · rw [Nat.max_eq_right hle]
      exact hreach
    · rw [Nat.max_eq_left hle]
  rw [Function.update_self, outcome.size, hclusters, List.length_append, inv.length f hf] at hlength
  obtain rfl : ys = [] := List.eq_nil_of_length_eq_zero (by omega)
  rw [List.append_nil] at outcome
  exact ⟨fs', _, _, hrun, outcome⟩

theorem Outcome.refl (inv : FatInv fs chains) (hf : f < fs.count) :
    Outcome fs fs chains f (chains f) (fs.dirent f).fileSize (fs.vol.byteAt (chains f)) :=
  .of_volume inv hf (.refl _ _) (inv.linked f hf) fun _ _ => rfl

theorem zeroLoop_spec (inv : FatInv fs chains) (hf : f < fs.count) (parent : ParentOk fs f)
    (harith : fs.vol.clusters (fs.dirent f).fileSize * fs.vol.clusSize < 2 ^ 32)
    (hreach : fs.vol.clusters upto ≤ fs.vol.clusters (fs.dirent f).fileSize) {fuel i : Nat}
    (hfuel : upto ≤ i + 1024 * fuel) :
    ∃ fs' size bytes, Fs.zeroLoop f upto (fuel + 1) i fs = some fs' ∧
      Outcome fs fs' chains f (chains f) size bytes := by
  induction fuel generalizing fs i with
  | zero =>
    exact ⟨fs, _, _, if_neg (by omega), .refl inv hf⟩
  | succ fuel ih =>
    rw [Fs.zeroLoop]
    split
    · next hmore =>
      have hend : i + min 1024 (upto - i) ≤ upto := by omega
      obtain ⟨fs₁, size₁, bytes₁, hwrite, outcome₁⟩ := @zeroWrite_spec fs chains f inv hf parent
        harith i (min 1024 (upto - i)) (by omega) ((fs.vol.clusters_mono hend).trans hreach)
      have inv₁ := outcome₁.inv
      rw [Function.update_eq_self] at inv₁
      have hf₁ : f < fs₁.count := by rw [outcome₁.count]; exact hf
      have hsame : fs₁.vol.clusters (fs₁.dirent f).fileSize =
          fs.vol.clusters (fs.dirent f).fileSize := by
        rw [← inv.length f hf, ← inv₁.length f hf₁]
      obtain ⟨fs', size, bytes, hrun, outcome⟩ := ih inv₁ hf₁ (outcome₁.parentOk parent)
        (by rw [hsame, outcome₁.clusSize]; exact harith)
        (by rw [hsame, Volume.clusters, outcome₁.clusSize]; exact hreach)
        (show upto ≤ i + 1024 + 1024 * fuel by omega)
      refine ⟨fs', size, bytes, ?_, outcome₁.trans ?_⟩
      · rw [hwrite, Option.bind_eq_bind, Option.bind_some]
        exact hrun
      · rw [Function.update_eq_self]
        exact outcome
    · exact ⟨fs, _, _, rfl, .refl inv hf⟩

theorem zeroTail_spec (inv : FatInv fs chains) (hf : f < fs.count) (ok : ShrinkOk fs f newsize) :
    ∃ fs' size bytes, fs.zeroTail f newsize = some fs' ∧
      Outcome fs fs' chains f (chains f) size bytes := by
  rw [Fs.zeroTail]
  split
  · next hpartial =>
    rcases ok.tail with haligned | hlarge | hreach
    · exact absurd haligned hpartial
    · exact ⟨fs, _, _, if_neg (by omega), .refl inv hf⟩
    · have hpage : pgroundup newsize ≤ newsize + 1024 * 4 := by
        rw [pgroundup, pageSize]
        omega
      exact zeroLoop_spec inv hf ok.parent ok.arith hreach hpage
  · exact ⟨fs, _, _, rfl, .refl inv hf⟩

theorem Volume.clusters_eq_zero_iff {v : Volume} (geometry : Geometry v) {size : Nat} :
    v.clusters size = 0 ↔ size = 0 := by
  rw [← Nat.le_zero, clusters_le_iff geometry.pos, Nat.zero_mul, Nat.le_zero]

/-- The entry and the clusters of a file after the second part of `file_shrink`. -/
theorem dropTail_spec (inv : FatInv fs chains) (hf : f < fs.count)
    (hle : fs.vol.clusters newsize ≤ (chains f).length) :
    ∃ v pointer bytes, Fs.dropClusters fs.vol (fs.dirent f).pointer (fs.vol.clusters newsize)
        (chains f).length = some (v, pointer) ∧
      Outcome fs ({ fs with vol := v }.setDirent f { fs.dirent f with
          fileSize := newsize, firstClus := if newsize = 0 then 0
            else (fs.dirent f).firstClus, pointer })
        chains f ((chains f).take (fs.vol.clusters newsize)) newsize bytes := by
  obtain ⟨v, pointer, hdrop, -, step, linked⟩ := dropClusters_spec (inv.linked f hf) hle
  simp only [Volume.clusters_eq_zero_iff inv.geometry] at linked
  refine ⟨v, pointer, v.byteAt ((chains f).take (fs.vol.clusters newsize)), hdrop, ?_⟩
  refine Outcome.of_evolves inv hf step linked ?_ rfl rfl fun _ _ => rfl
  rw [List.length_take, Nat.min_eq_left hle, Volume.clusters, Volume.clusters, step.clusSize]

theorem fileShrink_spec (inv : FatInv fs chains) (hf : f < fs.count) (ok : ShrinkOk fs f newsize) :
    ∃ fs' xs bytes, fs.fileShrink f newsize = some fs' ∧
      Outcome fs fs' chains f xs newsize bytes := by
  obtain ⟨fs₁, size₁, bytes₁, hzero, outcome₁⟩ := zeroTail_spec inv hf ok
  have inv₁ := outcome₁.inv
  rw [Function.update_eq_self] at inv₁
  have hf₁ : f < fs₁.count := by rw [outcome₁.count]; exact hf
  have hclusters : fs₁.vol.clusters newsize = fs.vol.clusters newsize := by
    rw [Volume.clusters, Volume.clusters, outcome₁.clusSize]
  have hold := inv.geometry.old_clusters ok.arith
  rw [← inv.length f hf] at hold
  have hnew : fs₁.vol.clusters newsize ≤ (chains f).length := by
    rw [hclusters, inv.length f hf]
    exact fs.vol.clusters_mono ok.le
  obtain ⟨v, pointer, bytes₂, hdrop, outcome₂⟩ := dropTail_spec inv₁ hf₁ hnew
  have outcome := outcome₁.trans (by rw [Function.update_eq_self]; exact outcome₂)
  obtain ⟨fs', hsync, synced⟩ := syncWith_spec writesInside_fatfileWrite outcome.inv
    (by rw [outcome.count]; exact hf) (outcome.parentOk ok.parent)
  rw [Function.update_self, outcome.size] at synced
  refine ⟨fs', _, _, ?_, outcome.trans synced⟩
  rw [hclusters] at hdrop
  rw [Fs.fileShrink, if_pos ok.le, hzero]
  simp only [Option.bind_eq_bind, Option.bind_some, hold]
  rw [show (newsize + fs.vol.clusSize - 1) / fs.vol.clusSize =
    fs.vol.clusters newsize from rfl, hdrop]
  exact hsync

end Shrink

/-! ## Runs -/

inductive FatOp where
  | extend (f newSize : Nat)
  | shrink (f newsize : Nat)

def fatStep (fs : Fs) : FatOp → Option Fs
  | .extend f newSize => fs.fileExtend f newSize
  | .shrink f newsize => fs.fileShrink f newsize

def FatSafe (fs : Fs) : FatOp → Prop
  | .extend f newSize =>
    f < fs.count ∧ (fs.dirent f).fileSize < newSize ∧ GrowOk fs f newSize
  | .shrink f newsize => f < fs.count ∧ ShrinkOk fs f newsize

instance (fs : Fs) (f off n : Nat) : Decidable (InsideOk fs f off n) :=
  decidable_of_iff (0 < n ∧ off + n ≤ (fs.dirent f).fileSize ∧
      fs.vol.clusters (off + n) * fs.vol.clusSize < 2 ^ 32)
    ⟨fun ⟨h₁, h₂, h₃⟩ => ⟨h₁, h₂, h₃⟩, fun ⟨h₁, h₂, h₃⟩ => ⟨h₁, h₂, h₃⟩⟩

instance (fs : Fs) (f : Nat) : Decidable (ParentOk fs f) :=
  inferInstanceAs (Decidable (∀ p ∈ (fs.dirent f).parentDirent, _ ∧ _ ∧ _))

instance (fs : Fs) (f upto : Nat) : Decidable (GrowOk fs f upto) :=
  decidable_of_iff (fs.vol.clusters upto * fs.vol.clusSize < 2 ^ 32 ∧
      fs.vol.clusters upto ≤ pointerLimit ∧
      fs.vol.clusters upto ≤
        fs.vol.clusters (fs.dirent f).fileSize + fs.vol.freeAbove (fs.lastClus f) ∧ ParentOk fs f)
    ⟨fun ⟨h₁, h₂, h₃, h₄⟩ => ⟨h₁, h₂, h₃, h₄⟩, fun ⟨h₁, h₂, h₃, h₄⟩ => ⟨h₁, h₂, h₃, h₄⟩⟩

instance (fs : Fs) (f newsize : Nat) : Decidable (ShrinkOk fs f newsize) :=
  decidable_of_iff (newsize ≤ (fs.dirent f).fileSize ∧
      fs.vol.clusters (fs.dirent f).fileSize * fs.vol.clusSize < 2 ^ 32 ∧
      ((fs.dirent f).fileSize % pageSize = 0 ∨ 2 ^ 31 ≤ newsize ∨
        fs.vol.clusters (pgroundup newsize) ≤ fs.vol.clusters (fs.dirent f).fileSize) ∧
      ParentOk fs f)
    ⟨fun ⟨h₁, h₂, h₃, h₄⟩ => ⟨h₁, h₂, h₃, h₄⟩, fun ⟨h₁, h₂, h₃, h₄⟩ => ⟨h₁, h₂, h₃, h₄⟩⟩

instance (fs : Fs) : ∀ op, Decidable (FatSafe fs op)
  | .extend _ _ => inferInstanceAs (Decidable (_ ∧ _ ∧ _))
  | .shrink _ _ => inferInstanceAs (Decidable (_ ∧ _))

theorem fatStep_inv {fs : Fs} {chains : Nat → List Nat} (inv : FatInv fs chains) (op : FatOp)
    (safe : FatSafe fs op) : ∃ fs' chains', fatStep fs op = some fs' ∧ FatInv fs' chains' := by
  cases op with
  | extend f newSize =>
    obtain ⟨hf, hmore, ok⟩ := safe
    obtain ⟨fs', ys, hrun, outcome⟩ := extendWith_spec writesInside_fatfileWrite inv hf hmore ok
    exact ⟨fs', _, hrun, outcome.inv⟩
  | shrink f newsize =>
    obtain ⟨hf, ok⟩ := safe
    obtain ⟨fs', xs, bytes, hrun, outcome⟩ := fileShrink_spec inv hf ok
    exact ⟨fs', _, hrun, outcome.inv⟩

/-- Every run of safe calls ends, and the chains, the pointer pages and the sizes agree in
the state it reaches. -/
theorem fat_runs {fs : Fs} {chains : Nat → List Nat} (inv : FatInv fs chains) (ops : List FatOp)
    (safe : Run.Meets fatStep FatSafe fs ops) :
    ∃ fs', Run.exec fatStep fs ops = some fs' ∧ ∃ chains', FatInv fs' chains' := by
  refine Run.total ⟨chains, inv⟩ safe fun fs op inv hsafe => ?_
  obtain ⟨chains, inv⟩ := inv
  obtain ⟨fs', chains', hstep, inv'⟩ := fatStep_inv inv op hsafe
  exact ⟨fs', hstep, chains', inv'⟩

/-- A pointer table with one entry. -/
def oneEntry (c : Nat) : DirentPointer :=
  ⟨fun i => if i = 0 then some fun j => if j = 0 then c else 0 else none⟩

/-- Eight clusters of 512 bytes: the root directory in cluster 2 and a file of 100 bytes in
cluster `c`. The others are free. -/
def smallVolume (c : Nat) : Fs where
  vol :=
    { clusSize := 512
      dataClusCnt := 8
      fat := fun d => if d = 2 ∨ d = c then fat32Eof else 0
      data := fun _ => 0 }
  count := 2
  dirent f :=
    if f = 0 then ⟨2, 512, oneEntry 2, 0, none, fun _ => 0⟩
    else ⟨c, 100, oneEntry c, 64, some 0, fun _ => 0⟩

theorem Linked.single {v : Volume} {d : Nat} (hmark : v.fat d = fat32Eof)
    (hcluster : v.IsCluster d) : Linked v d (oneEntry d) [d] where
  chain := by
    have hlow := hcluster.1
    refine ⟨if_neg (by omega), ?_⟩
    rw [Volume.next, hmark]
    rfl
  nodup := List.nodup_singleton d
  clusters e he := by
    rw [List.mem_singleton.mp he]
    exact hcluster
  table i hi := by
    obtain rfl : i = 0 := by simpa using hi
    rfl
  beyond i e hi hget := by
    simp only [DirentPointer.getclusbyno, Option.ite_none_right_eq_some, oneEntry,
      Option.map_eq_some_iff, Option.some.injEq] at hget
    obtain ⟨-, _, ⟨hpage, rfl⟩, rfl⟩ := hget
    refine if_neg ?_
    rw [List.length_singleton] at hi
    rw [pageNclusno] at hpage ⊢
    omega

theorem smallVolume_inv {c : Nat} (hlow : 3 ≤ c) (hhigh : c < 10) :
    FatInv (smallVolume c) fun f => if f = 0 then [2] else [c] where
  geometry := ⟨show 512 ∣ 2 ^ 32 by decide +kernel, show 8 + 2 ≤ 0x0ffffff8 by decide⟩
  linked f hf := by
    have hmark : ∀ d, d = 2 ∨ d = c → (smallVolume c).vol.fat d = fat32Eof := fun d hd => if_pos hd
    cases f with
    | zero => exact Linked.single (hmark 2 (.inl rfl)) (show 2 ≤ 2 ∧ 2 < 10 by decide)
    | succ f => exact Linked.single (hmark c (.inr rfl)) (show 2 ≤ c ∧ c < 10 by omega)
  length f hf := by
    cases f with
    | zero => exact show 1 = (512 + 512 - 1) / 512 by decide
    | succ f => exact show 1 = (100 + 512 - 1) / 512 by decide
  apart f hf g hg hne := by
    change f < 2 at hf
    change g < 2 at hg
    obtain ⟨rfl, rfl⟩ | ⟨rfl, rfl⟩ : f = 0 ∧ g = 1 ∨ f = 1 ∧ g = 0 := by omega
    · simp
      omega
    · simp
      omega

/-- Extend over several clusters, empty the file, extend it again. -/
def growAndEmpty : List FatOp := [.extend 1 1700, .shrink 1 0, .extend 1 3000]

theorem fat_runs_growAndEmpty :
    ∃ fs', Run.exec fatStep (smallVolume 5) growAndEmpty = some fs' ∧
    ∃ chains', FatInv fs' chains' :=
  fat_runs (smallVolume_inv (by decide) (by decide)) growAndEmpty (by decide +kernel)

/-- A file in the last cluster is extended although no cluster is found above it. Its size
asks for two clusters, and the second entry of its pointer pages is 0. -/
theorem extend_without_cluster_above :
    (∃ chains, FatInv (smallVolume 9) chains) ∧ (smallVolume 9).vol.fat 3 = 0 ∧
      ∃ fs', fatStep (smallVolume 9) (.extend 1 600) = some fs' ∧ ¬∃ chains, FatInv fs' chains := by
  refine ⟨⟨_, smallVolume_inv (by decide) (by decide)⟩, rfl, ?_⟩
  have hrun : (fatStep (smallVolume 9) (.extend 1 600)).map (fun fs => (fs.count, fs.vol.clusSize,
      (fs.dirent 1).fileSize, (fs.dirent 1).pointer.getclusbyno 1)) =
      some (2, 512, 600, some 0) := by
    decide +kernel
  obtain ⟨fs', hstep, hfields⟩ := Option.map_eq_some_iff.mp hrun
  obtain ⟨hcount, hclus, hsize, hentry⟩ : fs'.count = 2 ∧ fs'.vol.clusSize = 512 ∧
      (fs'.dirent 1).fileSize = 600 ∧ (fs'.dirent 1).pointer.getclusbyno 1 = some 0 := by
    simpa only [Prod.mk.injEq] using hfields
  refine ⟨fs', hstep, ?_⟩
  rintro ⟨chains, inv⟩
  have hf : 1 < fs'.count := by omega
  have hlength : (chains 1).length = 2 := by
    rw [inv.length 1 hf, Volume.clusters, hsize, hclus]
  have hsecond := (inv.linked 1 hf).table 1 (by omega)
  rw [hentry, Option.some.injEq] at hsecond
  have hcluster := (inv.linked 1 hf).clusters 0 (hsecond ▸ List.getElem_mem _)
  exact absurd hcluster.1 (by decide)

end KernelTravel.Fat32

import KernelTravel.Fat32.ChainRuns

/-!
# What a file holds

The abstract file is a byte sequence: a write replaces its range, and a gap between the
old end and the range is filled with zeros. `content_runs` relates `Fatfile_write` and
`Fatfile_read` to it.

The gap that lies in the last cluster of the file keeps what the cluster held, so it has
to be zero before such a write. A read is only right while the clusters of its range
follow each other on the disk, and while `off + n` does not wrap around.
-/

namespace KernelTravel.Fat32

structure Content where
  size : Nat
  byte : Nat → Byte

namespace Content

def write (c : Content) (src : Nat → Byte) (off n : Nat) : Content where
  size := max c.size (off + n)
  byte k := if off ≤ k ∧ k < off + n then src (k - off) else if k < c.size then c.byte k else 0

theorem write_byte (c : Content) (src : Nat → Byte) (off n k : Nat) :
    (c.write src off n).byte k =
      if off ≤ k ∧ k < off + n then src (k - off) else if k < c.size then c.byte k else 0 := rfl

/-- The number of bytes that a read of `n` bytes at `off` answers. -/
def span (c : Content) (off n : Nat) : Nat := min (off + n) c.size - off

end Content

structure WriteCall where
  file : Nat
  src : Nat → Byte
  off : Nat
  n : Nat

def writeStep (fs : Fs) (call : WriteCall) : Option Fs :=
  fs.fatfileWrite call.file call.src call.off call.n

/-- The content of `f` after a sequence of writes. -/
def Content.after (f : Nat) (c : Content) (calls : List WriteCall) : Content :=
  calls.foldl (fun c call => if call.file = f then c.write call.src call.off call.n else c) c

/-- Byte `k` of a file, through the pointer pages. -/
def Fs.byteOf (fs : Fs) (f k : Nat) : Byte :=
  fs.vol.data (fs.vol.clusterPos
    (((fs.dirent f).pointer.getclusbyno (k / fs.vol.clusSize)).getD 0) + k % fs.vol.clusSize)

/-- The bytes between the end of the file and `off` that its last cluster holds are zero. -/
def SlackZero (fs : Fs) (f off : Nat) : Prop :=
  ∀ k < fs.vol.clusters (fs.dirent f).fileSize * fs.vol.clusSize,
    (fs.dirent f).fileSize ≤ k → k < off → fs.byteOf f k = 0

def WriteSafe (fs : Fs) (call : WriteCall) : Prop :=
  call.file < fs.count ∧ WriteOk fs call.file call.off call.n ∧ SlackZero fs call.file call.off

/-- The clusters of the range are consecutive, and the arithmetic stays within 32 bits. -/
def ReadSafe (fs : Fs) (f off n : Nat) : Prop :=
  off < (fs.dirent f).fileSize → off + n < 2 ^ 32 ∧
    fs.vol.clusters (min (off + n) (fs.dirent f).fileSize) * fs.vol.clusSize < 2 ^ 32 ∧
    ∀ j < fs.vol.clusters (min (off + n) (fs.dirent f).fileSize), off / fs.vol.clusSize ≤ j →
      (fs.dirent f).pointer.getclusbyno j =
        ((fs.dirent f).pointer.getclusbyno (off / fs.vol.clusSize)).map
          (· + (j - off / fs.vol.clusSize))

/-- No entry has the file as its directory. -/
def Plain (fs : Fs) (f : Nat) : Prop := ∀ g < fs.count, (fs.dirent g).parentDirent ≠ some f

/-- The volume holds the content `c` as file `f`. -/
structure Holds (fs : Fs) (f : Nat) (c : Content) : Prop where
  file : f < fs.count
  plain : Plain fs f
  chains : ∃ chains, FatInv fs chains ∧ (fs.dirent f).fileSize = c.size ∧
    ∀ k < c.size, fs.vol.byteAt (chains f) k = c.byte k

/-- The same with the chains of the files, also for a directory. -/
structure Stores (fs : Fs) (chains : Nat → List Nat) (f : Nat) (c : Content) : Prop where
  inv : FatInv fs chains
  file : f < fs.count
  size : (fs.dirent f).fileSize = c.size
  bytes : ∀ k < c.size, fs.vol.byteAt (chains f) k = c.byte k

variable {fs : Fs} {chains : Nat → List Nat} {f : Nat} {c : Content}

theorem FatInv.byteOf_eq (inv : FatInv fs chains) (hf : f < fs.count) {k : Nat}
    (hk : k < (chains f).length * fs.vol.clusSize) :
    fs.byteOf f k = fs.vol.byteAt (chains f) k := by
  have hindex : k / fs.vol.clusSize < (chains f).length :=
    Nat.div_lt_of_lt_mul (by rwa [Nat.mul_comm])
  rw [Fs.byteOf, (inv.linked f hf).table _ hindex, Volume.byteAt, Volume.filePos,
    List.getD_eq_getElem _ _ hindex, Option.getD_some]

/-- The bytes after a write are those of the abstract file. -/
theorem writtenBytes_eq (inv : FatInv fs chains) (hf : f < fs.count)
    (hsize : (fs.dirent f).fileSize = c.size)
    (hbytes : ∀ k < c.size, fs.vol.byteAt (chains f) k = c.byte k) {off n : Nat} {src : Nat → Byte}
    (slack : SlackZero fs f off) {k : Nat} (hk : k < max c.size (off + n)) :
    writtenBytes fs.vol (chains f) src off n k = (c.write src off n).byte k := by
  have hle := inv.size_le hf
  rw [writtenBytes, Content.write_byte]
  split
  · rfl
  · next hout =>
    rcases Nat.lt_or_ge k c.size with hold | hgap
    · rw [if_pos hold, grownBytes, if_pos (by omega)]
      exact hbytes k hold
    · rw [if_neg (by omega), grownBytes]
      split
      · next hin =>
        rw [← inv.byteOf_eq hf hin]
        refine slack k ?_ (by omega) (by omega)
        rw [← inv.length f hf]
        exact hin
      · rfl

/-- A safe write to the file itself, or to one whose raw entry is not in it. -/
theorem Stores.step (stores : Stores fs chains f c) (call : WriteCall) (safe : WriteSafe fs call)
    (apart : call.file ≠ f → (fs.dirent call.file).parentDirent ≠ some f) :
    ∃ fs' chains', writeStep fs call = some fs' ∧
      Stores fs' chains' f (if call.file = f then c.write call.src call.off call.n else c) ∧
      fs'.count = fs.count ∧ fs'.vol.clusSize = fs.vol.clusSize ∧
      ∀ g, (fs'.dirent g).parentDirent = (fs.dirent g).parentDirent := by
  obtain ⟨inv, hf, hsize, hbytes⟩ := stores
  obtain ⟨hcall, ok, slack⟩ := safe
  obtain ⟨fs', ys, hrun, outcome⟩ := fatfileWrite_spec inv hcall ok call.src
  have hparents : ∀ g, (fs'.dirent g).parentDirent = (fs.dirent g).parentDirent := by
    intro g
    rcases eq_or_ne g call.file with rfl | hne
    · exact outcome.parentDirent
    · rw [outcome.others g hne]
  refine ⟨fs', Function.update chains call.file (chains call.file ++ ys), hrun, ?_, outcome.count,
    outcome.clusSize, hparents⟩
  have hcount : f < fs'.count := by
    rw [outcome.count]
    exact hf
  rcases eq_or_ne call.file f with rfl | hne
  · rw [if_pos rfl]
    refine ⟨outcome.inv, hcount, by rw [outcome.size, hsize]; rfl, fun k hk => ?_⟩
    have hreach := outcome.inv.size_le hcount
    rw [Function.update_self, outcome.size, outcome.clusSize, hsize] at hreach
    rw [Function.update_self, outcome.self k (lt_of_lt_of_le hk hreach)]
    exact writtenBytes_eq inv hf hsize hbytes slack hk
  · rw [if_neg hne]
    refine ⟨outcome.inv, hcount, by rw [outcome.others f hne.symm, hsize], fun k hk => ?_⟩
    have hlt := inv.size_le hf
    rw [Function.update_of_ne hne.symm, outcome.rest f hf hne.symm (apart hne) k (by omega)]
    exact hbytes k hk

theorem writeStep_holds (holds : Holds fs f c) (call : WriteCall) (safe : WriteSafe fs call) :
    ∃ fs', writeStep fs call = some fs' ∧
      Holds fs' f (if call.file = f then c.write call.src call.off call.n else c) := by
  obtain ⟨hf, plain, chains, inv, hsize, hbytes⟩ := holds
  have stores : Stores fs chains f c := ⟨inv, hf, hsize, hbytes⟩
  obtain ⟨fs', chains', hrun, stores', hcount, -, hparents⟩ :=
    stores.step call safe fun _ => plain _ safe.1
  refine ⟨fs', hrun, stores'.file, fun g hg => ?_, chains', stores'.inv, stores'.size,
    stores'.bytes⟩
  rw [hcount] at hg
  rw [hparents]
  exact plain g hg

theorem Stores.read (stores : Stores fs chains f c) (mem : Nat → Byte) (dst : Nat) {off n : Nat}
    (safe : ReadSafe fs f off n) : fs.fatfileRead f mem dst off n =
      some (c.span off n, Mem.blit mem dst (c.span off n) fun k => c.byte (off + k)) := by
  obtain ⟨inv, hf, hsize, hbytes⟩ := stores
  rw [Fs.fatfileRead, hsize]
  rcases Nat.lt_or_ge off c.size with hin | hout
  · obtain ⟨hsmall, harith, consecutive⟩ := safe (by omega)
    rw [hsize] at harith consecutive
    have hn : (if c.size < (off + n) % 2 ^ 32 then c.size - off else n) = c.span off n := by
      rw [Nat.mod_eq_of_lt hsmall, Content.span]
      split <;> omega
    rw [if_neg (by omega)]
    simp only [hn]
    split
    · next hzero => rw [hzero, Mem.blit_zero]
    · next hpos =>
      have hend : off + c.span off n = min (off + n) c.size := by
        rw [Content.span] at hpos ⊢
        omega
      have hle := inv.size_le hf
      have hclusters : fs.vol.clusters (off + c.span off n) ≤ (chains f).length := by
        rw [inv.length f hf, hend, hsize]
        exact fs.vol.clusters_mono (Nat.min_le_right _ _)
      have hrange : Consecutive fs.vol (chains f) (off / fs.vol.clusSize) (off + c.span off n) := by
        intro j hj hlt
        rw [hend] at hlt hclusters
        have hstep := consecutive j hlt hj
        rw [(inv.linked f hf).table j (by omega), (inv.linked f hf).table _ (by omega),
          Option.map_some, Option.some.injEq] at hstep
        rw [List.getD_eq_getElem _ _ (by omega), List.getD_eq_getElem _ _ (by omega), hstep]
      rw [readClusters_spec (inv.linked f hf) inv.geometry (Nat.pos_of_ne_zero hpos)
        ((Volume.clusters_le_iff inv.geometry.pos).mp hclusters) (hend ▸ harith) hrange,
        Option.map_some]
      congr 2
      refine Mem.blit_congr mem fun j hj => hbytes _ ?_
      omega
  · rw [if_pos hout, Content.span, show min (off + n) c.size - off = 0 by omega, Mem.blit_zero]

theorem read_of_holds (holds : Holds fs f c) (mem : Nat → Byte) (dst : Nat) {off n : Nat}
    (safe : ReadSafe fs f off n) : fs.fatfileRead f mem dst off n =
      some (c.span off n, Mem.blit mem dst (c.span off n) fun k => c.byte (off + k)) := by
  obtain ⟨hf, -, chains, inv, hsize, hbytes⟩ := holds
  exact Stores.read ⟨inv, hf, hsize, hbytes⟩ mem dst safe

theorem run_holds (holds : Holds fs f c) (calls : List WriteCall)
    (safe : Run.Meets writeStep WriteSafe fs calls) :
    ∃ fs', Run.exec writeStep fs calls = some fs' ∧ Holds fs' f (c.after f calls) := by
  induction calls generalizing fs c with
  | nil => exact ⟨fs, rfl, holds⟩
  | cons call calls ih =>
    obtain ⟨fs₁, hstep, holds₁⟩ := writeStep_holds holds call safe.1
    obtain ⟨fs', hrun, holds'⟩ := ih holds₁ (safe.2 fs₁ hstep)
    exact ⟨fs', Run.exec_cons_eq_some.mpr ⟨fs₁, hstep, hrun⟩, holds'⟩

/-- After every run of safe writes, every safe read answers with the bytes of the abstract
file. -/
theorem content_runs (holds : Holds fs f c) (calls : List WriteCall)
    (safe : Run.Meets writeStep WriteSafe fs calls) :
    ∃ fs', Run.exec writeStep fs calls = some fs' ∧ ∀ mem dst off n, ReadSafe fs' f off n →
        fs'.fatfileRead f mem dst off n = some ((c.after f calls).span off n,
          Mem.blit mem dst ((c.after f calls).span off n) fun k =>
          (c.after f calls).byte (off + k)) := by
  obtain ⟨fs', hrun, holds'⟩ := run_holds holds calls safe
  exact ⟨fs', hrun, fun mem dst off n hread => read_of_holds holds' mem dst hread⟩

instance (fs : Fs) (f off n : Nat) : Decidable (WriteOk fs f off n) :=
  decidable_of_iff (0 < n ∧ fs.vol.clusters (off + n) * fs.vol.clusSize < 2 ^ 32 ∧
      ((fs.dirent f).fileSize < off + n → GrowOk fs f (off + n)))
    ⟨fun ⟨h₁, h₂, h₃⟩ => ⟨h₁, h₂, h₃⟩, fun ⟨h₁, h₂, h₃⟩ => ⟨h₁, h₂, h₃⟩⟩

instance (fs : Fs) (call : WriteCall) : Decidable (WriteSafe fs call) :=
  inferInstanceAs (Decidable (_ ∧ _ ∧ ∀ k < _, _ → _ → _))

/-- Three entries with a cluster each: the root directory in cluster 2, a
file of 100 zeros in cluster 3 and a file of sevens in cluster 4. -/
def threeEntries : Fs where
  vol :=
    { clusSize := 512
      dataClusCnt := 8
      fat := fun d => if d = 2 ∨ d = 3 ∨ d = 4 then fat32Eof else 0
      data := fun a => if 1024 ≤ a ∧ a < 1536 then 7 else 0 }
  count := 3
  dirent f :=
    if f = 0 then ⟨2, 512, oneEntry 2, 0, none, fun _ => 0⟩
    else if f = 1 then ⟨3, 100, oneEntry 3, 64, some 0, fun _ => 0⟩
    else ⟨4, 512, oneEntry 4, 96, some 0, fun _ => 0⟩

theorem threeEntries_inv : FatInv threeEntries fun f => [f + 2] where
  geometry := ⟨show 512 ∣ 2 ^ 32 by decide +kernel, show 8 + 2 ≤ 0x0ffffff8 by decide⟩
  linked f hf := by
    have hsingle : ∀ d, 2 ≤ d ∧ d < 5 → Linked threeEntries.vol d (oneEntry d) [d] := by
      intro d hd
      have hmark : d = 2 ∨ d = 3 ∨ d = 4 := by omega
      exact Linked.single (if_pos hmark) (show 2 ≤ d ∧ d < 10 by omega)
    change f < 3 at hf
    obtain rfl | rfl | rfl : f = 0 ∨ f = 1 ∨ f = 2 := by omega
    · exact hsingle 2 (by decide)
    · exact hsingle 3 (by decide)
    · exact hsingle 4 (by decide)
  length f hf := by
    change f < 3 at hf
    obtain rfl | rfl | rfl : f = 0 ∨ f = 1 ∨ f = 2 := by omega
    all_goals rfl
  apart f hf g hg hne := by
    simpa using hne.symm

theorem threeEntries_holds : Holds threeEntries 1 ⟨100, fun _ => 0⟩ where
  file := by decide
  plain := by
    change ∀ g < 3, (threeEntries.dirent g).parentDirent ≠ some 1
    decide
  chains := by
    refine ⟨_, threeEntries_inv, rfl, fun k hk => ?_⟩
    change k < 100 at hk
    have hpos : threeEntries.vol.filePos [3] k = 512 + k := by
      have hadd := @Volume.filePos_add threeEntries.vol [3] 0 k (by decide) (show k < 512 by omega)
      rw [Nat.zero_mul, Nat.zero_add] at hadd
      exact hadd
    rw [Volume.byteAt, hpos]
    exact if_neg (by omega)

/-- Bytes at the end, bytes inside, and bytes after a gap. -/
def scatteredWrites : List WriteCall :=
  [⟨1, fun _ => 9, 100, 20⟩, ⟨1, fun k => BitVec.ofNat 8 k, 30, 40⟩, ⟨1, fun _ => 5, 511, 2⟩]

theorem scatteredWrites_safe : Run.Meets writeStep WriteSafe threeEntries scatteredWrites := by
  decide +kernel

theorem content_runs_scatteredWrites :
    ∃ fs', Run.exec writeStep threeEntries scatteredWrites = some fs' ∧
      ∀ mem dst off n, ReadSafe fs' 1 off n → fs'.fatfileRead 1 mem dst off n =
          some ((Content.after 1 ⟨100, fun _ => 0⟩ scatteredWrites).span off n,
            Mem.blit mem dst ((Content.after 1 ⟨100, fun _ => 0⟩ scatteredWrites).span off n)
              fun k =>
              (Content.after 1 ⟨100, fun _ => 0⟩ scatteredWrites).byte (off + k)) :=
  content_runs threeEntries_holds scatteredWrites scatteredWrites_safe

/-- The last write puts its two bytes into the clusters 3 and 5. Reading them back answers
with a byte of the other file, which lies in cluster 4. -/
theorem read_across_fragment_differs : Holds threeEntries 1 ⟨100, fun _ => 0⟩ ∧
      Run.Meets writeStep WriteSafe threeEntries scatteredWrites ∧
      (Content.after 1 ⟨100, fun _ => 0⟩ scatteredWrites).byte 512 = 5 ∧
      ((Run.exec writeStep threeEntries scatteredWrites).bind fun fs =>
        (fs.fatfileRead 1 (fun _ => 0) 0 511 2).map fun r => (r.1, r.2 0, r.2 1)) =
          some (2, 5, 7) :=
  ⟨threeEntries_holds, scatteredWrites_safe, by decide +kernel, by decide +kernel⟩

end KernelTravel.Fat32

import KernelTravel.Buf.Flat
import Mathlib.Data.Finset.Card

/-!
# The cache for a client that keeps its buffers

Much of ext4 reads a sector with `bufRead` and never releases the buffer. For such a client the
cache is an array of bytes together with the set of the sectors that have a buffer for ever. A
group has eight buffers, so a ninth sector of a group finds none, and `bufRead` follows the null
pointer.
-/

namespace KernelTravel.Buf

/-- The sectors can have a buffer each. -/
def Fits (sectors : Finset Nat) : Prop :=
  ∀ g, (sectors.filter (· % bgroupNum = g)).card ≤ bgroupBufNum

theorem Fits.mono {s t : Finset Nat} (h : Fits t) (hst : s ⊆ t) : Fits s :=
  fun g => (Finset.card_le_card (Finset.filter_subset_filter _ hst)).trans (h g)

/-- Another sector concerns its own group only. -/
theorem fits_insert_iff {s : Finset Nat} (h : Fits s) (sector : Nat) : Fits (insert sector s) ↔
    ((insert sector s).filter (· % bgroupNum = sector % bgroupNum)).card ≤ bgroupBufNum := by
  refine ⟨fun hfits => hfits _, fun hcard g => ?_⟩
  by_cases hg : sector % bgroupNum = g
  · exact hg ▸ hcard
  · rw [Finset.filter_insert, if_neg hg]
    exact h g

/-- The bytes of the disk as the cache shows them, the sectors whose buffer is not released, and
those among them that `bufWrite` has marked. -/
structure View where
  byte : Nat → Byte
  held : Finset Nat
  dirty : Finset Nat
  fits : Fits held

namespace View

/-- No buffer is held. -/
def unheld (byte : Nat → Byte) : View where
  byte := byte
  held := ∅
  dirty := ∅
  fits _ := by rw [Finset.filter_empty]; exact Nat.zero_le _

/-- The sector has a buffer that is held, or its group has one that is not. -/
def bufRead (v : View) (sector : Nat) : Option View :=
  if h : ((insert sector v.held).filter (· % bgroupNum = sector % bgroupNum)).card ≤ bgroupBufNum
  then some { v with held := insert sector v.held, fits := (fits_insert_iff v.fits sector).mpr h }
  else none

theorem bufRead_eq_some (v : View) (sector : Nat) (h : Fits (insert sector v.held)) :
    v.bufRead sector = some { v with held := insert sector v.held, fits := h } :=
  dif_pos ((fits_insert_iff v.fits sector).mp h)

theorem bufRead_eq_none (v : View) (sector : Nat) (h : ¬Fits (insert sector v.held)) :
    v.bufRead sector = none :=
  dif_neg (mt (fits_insert_iff v.fits sector).mpr h)

/-- The bytes of a sector. -/
def block (v : View) (b : Nat) : Block := Mem.window v.byte (b * bufSize) bufSize

end View

/-! ## The cache behind the view -/

/-- The view is the one of the cache: it has the bytes of every sector and the sectors of the
buffers that are referenced. The buffers that are not need no write back. -/
structure Shows (dev : Nat) (s : Cache) (v : View) : Prop where
  rep : Represents dev s v.block
  held : ∀ b, b ∈ v.held ↔ ∃ p, InRange p ∧ 0 < (s.buf p).refcnt ∧ (s.buf p).blockno = b
  clean : ∀ p, InRange p → (s.buf p).refcnt = 0 → ¬NeedsWriteBack s p

/-- A miss reuses a buffer that is not referenced. -/
theorem Inv.victim_free {s : Cache} (inv : Inv s) {i : Nat} {p : BufPtr} (hi : i < bgroupNum)
    (h : victim s i = some p) : InRange p ∧ (s.buf p).refcnt = 0 := by
  obtain ⟨xs, hlist⟩ := inv.lists i hi
  rw [victim_eq hlist] at h
  obtain ⟨j, hfind, rfl⟩ := Option.map_eq_some_iff.mp h
  have hj := List.mem_reverse.mp (List.mem_of_find?_eq_some hfind)
  exact ⟨⟨hi, hlist.mem_iff.mp hj⟩, by simpa using List.find?_some hfind⟩

namespace Shows

variable {dev : Nat} {s : Cache} {v : View} {b : Nat}

theorem and_bgroupMask (b : Nat) : b &&& bgroupMask = b % bgroupNum :=
  Nat.and_two_pow_sub_one_eq_mod b 14

/-- The sectors of a group are those of its referenced buffers. -/
theorem filter_held (shows : Shows dev s v) {g : Nat} (hg : g < bgroupNum) :
    v.held.filter (· % bgroupNum = g) =
      ((Finset.range bgroupBufNum).filter fun j => 0 < (s.buf (g, j)).refcnt).image
        fun j => (s.buf (g, j)).blockno := by
  ext b
  simp only [Finset.mem_filter, Finset.mem_image, Finset.mem_range, shows.held]
  constructor
  · rintro ⟨⟨⟨i, j⟩, hp, hpos, rfl⟩, hgroup⟩
    have hplaced := shows.rep.inv.placed _ hp (shows.rep.inv.referenced _ hp hpos)
    rw [and_bgroupMask, hgroup] at hplaced
    obtain rfl : g = i := hplaced
    exact ⟨j, ⟨hp.2, hpos⟩, rfl⟩
  · rintro ⟨j, ⟨hj, hpos⟩, rfl⟩
    refine ⟨⟨(g, j), ⟨hg, hj⟩, hpos, rfl⟩, ?_⟩
    rw [← and_bgroupMask]
    exact shows.rep.inv.placed _ ⟨hg, hj⟩ (shows.rep.inv.referenced _ ⟨hg, hj⟩ hpos)

theorem card_filter_held (shows : Shows dev s v) {g : Nat} (hg : g < bgroupNum) :
    (v.held.filter (· % bgroupNum = g)).card =
      ((Finset.range bgroupBufNum).filter fun j => 0 < (s.buf (g, j)).refcnt).card := by
  rw [shows.filter_held hg]
  refine Finset.card_image_of_injOn ?_
  intro j hj k hk heq
  obtain ⟨hj, hjpos⟩ := Finset.mem_filter.mp hj
  obtain ⟨hk, hkpos⟩ := Finset.mem_filter.mp hk
  have hjr : InRange (g, j) := ⟨hg, Finset.mem_range.mp hj⟩
  have hkr : InRange (g, k) := ⟨hg, Finset.mem_range.mp hk⟩
  have inv := shows.rep.inv
  exact congrArg Prod.snd (shows.rep.eq_of_blockno hjr hkr (inv.referenced _ hjr hjpos)
    (inv.referenced _ hkr hkpos) heq)

/-- There is room for a sector if its buffer is referenced, or if a buffer of its group is not. -/
theorem fits_insert_iff (shows : Shows dev s v) (b : Nat) : Fits (insert b v.held) ↔
    b ∈ v.held ∨ ∃ j < bgroupBufNum, (s.buf (b &&& bgroupMask, j)).refcnt = 0 := by
  by_cases hmem : b ∈ v.held
  · rw [Finset.insert_eq_of_mem hmem]
    exact iff_of_true v.fits (.inl hmem)
  · have hcard := shows.card_filter_held (group_lt b)
    rw [Buf.fits_insert_iff v.fits, Finset.filter_insert, if_pos rfl,
      Finset.card_insert_of_notMem (by simp [hmem]), ← and_bgroupMask, hcard, or_iff_right hmem,
      Nat.succ_le_iff]
    have hall := Finset.card_filter_eq_iff (s := Finset.range bgroupBufNum)
      (p := fun j => 0 < (s.buf (b &&& bgroupMask, j)).refcnt)
    have hle := Finset.card_filter_le (Finset.range bgroupBufNum)
      fun j => 0 < (s.buf (b &&& bgroupMask, j)).refcnt
    rw [Finset.card_range] at hall hle
    rw [hle.lt_iff_ne, ne_eq, hall]
    simp only [Finset.mem_range, not_forall, Nat.pos_iff_ne_zero, not_not, exists_prop]

/-- A sector for which there is room finds a buffer. -/
theorem exists_buffer (shows : Shows dev s v) (hdev : dev < 2 ^ 31)
    (hfits : Fits (insert b v.held)) : ∃ j < bgroupBufNum,
      (s.buf (b &&& bgroupMask, j)).refcnt = 0 ∨ Holds s dev b (b &&& bgroupMask, j) := by
  have inv := shows.rep.inv
  rcases (shows.fits_insert_iff b).mp hfits with hmem | ⟨j, hj, hfree⟩
  · obtain ⟨⟨i, j⟩, hp, hpos, hblock⟩ := (shows.held b).mp hmem
    have hassigned := inv.referenced _ hp hpos
    have hgroup : b &&& bgroupMask = i := hblock ▸ inv.placed _ hp hassigned
    refine ⟨j, hp.2, .inr ⟨?_, hgroup ▸ hblock⟩⟩
    rw [hgroup, toUInt64_eq_iff hdev (inv.dev _ hp)]
    exact shows.rep.device _ hp hassigned
  · exact ⟨j, hj, .inl hfree⟩

theorem bufRead_of_fits (shows : Shows dev s v) (hdev : dev < 2 ^ 31)
    (bounded : ∀ j < bgroupBufNum, Holds s dev b (b &&& bgroupMask, j) →
      (s.buf (b &&& bgroupMask, j)).refcnt + 1 < 2 ^ 16) (hfits : Fits (insert b v.held)) :
    ∃ p s', Buf.bufRead s dev b true = some (p, s') ∧ s'.bytes p = v.block b ∧
      Shows dev s' { v with held := insert b v.held, fits := hfits } := by
  have inv := shows.rep.inv
  have served : Served dev ⟨s, [], []⟩ (.read b) := by
    refine ⟨hdev, bounded, fun _ p hvictim => ?_⟩
    obtain ⟨hp, hzero⟩ := inv.victim_free (group_lt b) hvictim
    exact shows.clean p hp hzero
  obtain ⟨p, s', hread, rep, -, hp, hassigned, hblock, hother, hcnt⟩ :=
    shows.rep.read served (shows.exists_buffer hdev hfits)
  have hkept : 0 < (s.buf p).refcnt → (s.buf p).blockno = b := by
    intro hpos
    obtain ⟨-, -, ⟨holds, -⟩ | ⟨-, hzero, -⟩⟩ := inv.bufRead_cases hread
    · exact holds.2
    · omega
  refine ⟨p, s', hread, ?_, rep, ?_, ?_⟩
  · rw [rep.bytes p hp hassigned, hblock]
  · intro b'
    rw [Finset.mem_insert, shows.held]
    constructor
    · rintro (rfl | ⟨q, hq, hpos, rfl⟩)
      · exact ⟨p, hp, by rw [hcnt p, if_pos rfl]; omega, hblock⟩
      · refine ⟨q, hq, hpos.trans_le (hcnt q ▸ Nat.le_add_right _ _), ?_⟩
        by_cases hqp : q = p
        · subst hqp
          exact hblock.trans (hkept hpos).symm
        · rw [hother q hqp]
    · rintro ⟨q, hq, hpos, rfl⟩
      by_cases hqp : q = p
      · subst hqp
        exact .inl hblock
      · rw [hother q hqp] at hpos ⊢
        exact .inr ⟨q, hq, hpos, rfl⟩
  · intro q hq hzero
    have hne : q ≠ p := by
      rintro rfl
      rw [hcnt q, if_pos rfl] at hzero
      omega
    have hsame := hother q hne
    rw [NeedsWriteBack, hsame]
    exact shows.clean q hq (hsame ▸ hzero)

theorem bufRead_of_full (shows : Shows dev s v) (hfits : ¬Fits (insert b v.held)) :
    Buf.bufRead s dev b true = none := by
  rw [shows.fits_insert_iff, not_or] at hfits
  have hreferenced : ∀ p, InRange p → p.1 = b &&& bgroupMask → 0 < (s.buf p).refcnt := by
    rintro ⟨i, j⟩ hp rfl
    exact Nat.pos_of_ne_zero fun hzero => hfits.2 ⟨j, hp.2, hzero⟩
  rcases shows.rep.inv.bufAlloc_cases dev b with ⟨p, hp, hgroup, holds, -⟩ |
    ⟨p, hp, hgroup, -, hzero, -, -⟩ | ⟨-, -, halloc⟩
  · exact absurd ((shows.held b).mpr ⟨p, hp, hreferenced p hp hgroup, holds.2⟩) hfits.1
  · exact absurd hzero (hreferenced p hp hgroup).ne'
  · rw [bufRead_eq, halloc]
    rfl

/-- `bufRead` of the cache and of the view have the same outcome, as long as the number of
references of the sector does not overflow. -/
theorem bufRead (shows : Shows dev s v) (hdev : dev < 2 ^ 31)
    (bounded : ∀ j < bgroupBufNum, Holds s dev b (b &&& bgroupMask, j) →
      (s.buf (b &&& bgroupMask, j)).refcnt + 1 < 2 ^ 16) :
    match v.bufRead b with
    | none => Buf.bufRead s dev b true = none
    | some v' => ∃ p s', Buf.bufRead s dev b true = some (p, s') ∧ s'.bytes p = v'.block b ∧
        Shows dev s' v' := by
  by_cases hfits : Fits (insert b v.held)
  · rw [View.bufRead_eq_some v b hfits]
    exact shows.bufRead_of_fits hdev bounded hfits
  · rw [View.bufRead_eq_none v b hfits]
    exact shows.bufRead_of_full hfits

/-- After `bufInit` the view is the disk. -/
theorem initial (dev : Nat) (disk : Nat → Block) : Shows dev (Cache.initial disk)
    (.unheld fun a => disk (a / bufSize) ⟨a % bufSize, Nat.mod_lt a (by decide)⟩) := by
  have hfree : ∀ p, InRange p → ((Cache.initial disk).buf p).refcnt = 0 := by
    intro p hp
    rw [initial_buf disk hp]
  refine ⟨?_, fun b => ?_, fun p hp _ h => ?_⟩
  · have hblock : (View.unheld fun a =>
        disk (a / bufSize) ⟨a % bufSize, Nat.mod_lt a (by decide)⟩).block = disk := by
      funext b k
      have hdiv : (b * bufSize + k) / bufSize = b := by
        rw [Nat.mul_comm, Nat.mul_add_div (by decide), Nat.div_eq_of_lt k.isLt, Nat.add_zero]
      have hmod : (b * bufSize + k) % bufSize = k := by
        rw [Nat.mul_comm, Nat.mul_add_mod, Nat.mod_eq_of_lt k.isLt]
      simp only [View.block, View.unheld, Mem.window, hdiv, hmod]
    rw [hblock]
    exact (Sim.initial dev disk).rep
  · refine iff_of_false (Finset.notMem_empty b) ?_
    rintro ⟨p, hp, hpos, -⟩
    exact absurd (hfree p hp) hpos.ne'
  · rw [NeedsWriteBack, initial_buf disk hp] at h
    exact Bool.false_ne_true h.1

end Shows

end KernelTravel.Buf

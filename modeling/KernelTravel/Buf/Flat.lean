import KernelTravel.Buf.Invariant

/-!
# The cache as a flat array of blocks

A client of one device reads blocks, stores to the blocks it holds and releases
them. Its observations form a trace: the bytes a read returned, the bytes a store
left in a block and the bytes each `block_write` sent to the disk. `content` is the
flat array the client has in mind, the last bytes stored to each block, and
`Faithful` says that the cache is indistinguishable from it.

`check_uncached` writes a dirty buffer back under the number of the block it is
about to receive. The simulation below therefore holds for the runs in which no
miss reuses a buffer that has to be written back.
-/

namespace KernelTravel.Buf

open Function

inductive Event where
  | returned (blockno : Nat) (bytes : Block)
  | stored (blockno : Nat) (bytes : Block)
  | wrote (blockno : Nat) (bytes : Block)

/-- The bytes most recently stored to each block; traces are newest first. -/
def content (disk : Nat → Block) : List Event → Nat → Block
  | [] => disk
  | .stored b x :: tr => update (content disk tr) b x
  | .returned _ _ :: tr => content disk tr
  | .wrote _ _ :: tr => content disk tr

/-- Reads return, and disk writes carry, the bytes that belong to their block. -/
def Faithful (disk : Nat → Block) : List Event → Prop
  | [] => True
  | .stored _ _ :: tr => Faithful disk tr
  | .returned b x :: tr => x = content disk tr b ∧ Faithful disk tr
  | .wrote b x :: tr => x = content disk tr b ∧ Faithful disk tr

/-- The cache together with the references its client holds and what it observed. -/
structure World where
  cache : Cache
  held : List (BufPtr × Nat)
  trace : List Event

def World.initial (disk : Nat → Block) : World := ⟨Cache.initial disk, [], []⟩

inductive ClientOp where
  | read (blockno : Nat)
  | store (p : BufPtr) (blockno : Nat) (bytes : Block)
  | release (p : BufPtr) (blockno : Nat)
  | sync

/-- The `block_write` calls between two states, newest first. -/
def wroteSince (s s' : Cache) : List Event :=
  (s'.written.take (s'.written.length - s.written.length)).map fun w => .wrote w.1 w.2

/-- In-place modification of the 512 bytes of a buffer, followed by `bufWrite`. -/
def storeBytes (s : Cache) (p : BufPtr) (bytes : Block) : Cache :=
  bufWrite { s with mem := Mem.blit s.mem (s.buf p).data bufSize (Mem.ofBlock bytes) } p

def clientStep (dev : Nat) (w : World) : ClientOp → Option World
  | .read b => do
    let (p, s) ← bufRead w.cache dev b true
    return { cache := s
             held := (p, b) :: w.held
             trace := .returned b (s.bytes p) :: (wroteSince w.cache s ++ w.trace) }
  | .store p b bytes =>
    some { w with cache := storeBytes w.cache p bytes, trace := .stored b bytes :: w.trace }
  | .release p b => do
    let s ← bufRelease w.cache p
    return { cache := s, held := w.held.erase (p, b), trace := wroteSince w.cache s ++ w.trace }
  | .sync =>
    let s := bufSync w.cache
    some { w with cache := s, trace := wroteSince w.cache s ++ w.trace }

/-- What the client promises: it stores to and releases only what it holds, and it
reads a block only while it does not hold all eight buffers of the block's group. -/
def Polite (w : World) : ClientOp → Prop
  | .read b => ∃ j < bgroupBufNum, ∀ b', ((b &&& bgroupMask, j), b') ∉ w.held
  | .store p b _ => (p, b) ∈ w.held
  | .release p b => (p, b) ∈ w.held
  | .sync => True

/-- The reads that the cache serves correctly: the device number fits an `int`, the
reference count does not wrap, and a miss does not reuse a dirty buffer. -/
def Served (dev : Nat) (w : World) : ClientOp → Prop
  | .read b =>
    dev < 2 ^ 31 ∧
    (∀ k < bgroupBufNum, Holds w.cache dev b (b &&& bgroupMask, k) →
      (w.cache.buf (b &&& bgroupMask, k)).refcnt + 1 < 65536) ∧
    ((∀ k < bgroupBufNum, ¬Holds w.cache dev b (b &&& bgroupMask, k)) →
      ∀ p ∈ victim w.cache (b &&& bgroupMask), ¬NeedsWriteBack w.cache p)
  | _ => True

instance (w : World) : ∀ op, Decidable (Polite w op)
  | .read b => decidable_of_iff
      (∃ j < bgroupBufNum, ∀ h ∈ w.held, h.1 ≠ (b &&& bgroupMask, j)) (by
        simp only [Polite]
        refine exists_congr fun j => and_congr_right fun _ => ?_
        exact ⟨fun h b' hb => h _ hb rfl, fun h x hx hj => h x.2 (hj ▸ hx)⟩)
  | .store p b _ => inferInstanceAs (Decidable ((p, b) ∈ w.held))
  | .release p b => inferInstanceAs (Decidable ((p, b) ∈ w.held))
  | .sync => .isTrue trivial

instance (dev : Nat) (w : World) : ∀ op, Decidable (Served dev w op)
  | .read _ => inferInstanceAs (Decidable (_ ∧ _ ∧ (_ → _)))
  | .store _ _ _ => .isTrue trivial
  | .release _ _ => .isTrue trivial
  | .sync => .isTrue trivial

/-! ## The simulation relation -/

/-- How the cache represents the flat array `A`: every assigned buffer holds its
block's bytes, and a block with no dirty buffer is up to date on the disk. -/
structure Represents (dev : Nat) (s : Cache) (A : Nat → Block) : Prop where
  inv : Inv s
  device : ∀ p, InRange p → Assigned (s.buf p) → (s.buf p).dev = dev
  valid : ∀ p, InRange p → ((s.buf p).valid = true ↔ Assigned (s.buf p))
  bytes : ∀ p, InRange p → Assigned (s.buf p) → s.bytes p = A (s.buf p).blockno
  clean : ∀ b, (∀ p, InRange p → Assigned (s.buf p) → (s.buf p).blockno = b →
    (s.buf p).dirty = false) → s.disk b = A b

/-- The references the client holds are the ones the cache counts. -/
structure Counts (s : Cache) (held : List (BufPtr × Nat)) : Prop where
  assigned : ∀ p b, (p, b) ∈ held → InRange p ∧ Assigned (s.buf p) ∧ (s.buf p).blockno = b
  refcnt : ∀ p, InRange p → (s.buf p).refcnt = held.countP fun h => h.1 = p

theorem dataAddr_disjoint {p q : BufPtr} (hp : InRange p) (hq : InRange q) (hne : p ≠ q) :
    dataAddr p + bufSize ≤ dataAddr q ∨ dataAddr q + bufSize ≤ dataAddr p := by
  obtain ⟨i, j⟩ := p
  obtain ⟨k, l⟩ := q
  simp only [InRange, bgroupBufNum, ne_eq, Prod.mk.injEq, dataAddr, bufSize] at *
  omega

theorem Inv.bytes_eq {s : Cache} (inv : Inv s) {p : BufPtr} (hp : InRange p) :
    s.bytes p = Mem.window s.mem (dataAddr p) bufSize := by
  rw [Cache.bytes, inv.data p hp]

namespace Represents

variable {dev : Nat} {s s' : Cache} {A : Nat → Block} {p q : BufPtr} {b : Nat}

/-- Links and reference counts are not part of the representation. -/
theorem congr (rep : Represents dev s A) (inv : Inv s')
    (same : ∀ q, InRange q → (s'.buf q).dev = (s.buf q).dev ∧
      (s'.buf q).blockno = (s.buf q).blockno ∧ (s'.buf q).valid = (s.buf q).valid ∧
      (s'.buf q).dirty = (s.buf q).dirty)
    (hmem : s'.mem = s.mem) (hdisk : s'.disk = s.disk) : Represents dev s' A := by
  refine ⟨inv, ?_, ?_, ?_, ?_⟩
  · intro q hq hassigned
    unfold Assigned at hassigned
    rw [(same q hq).1] at hassigned ⊢
    exact rep.device q hq hassigned
  · intro q hq
    unfold Assigned
    rw [(same q hq).1, (same q hq).2.2.1]
    exact rep.valid q hq
  · intro q hq hassigned
    unfold Assigned at hassigned
    rw [(same q hq).1] at hassigned
    rw [inv.bytes_eq hq, hmem, ← rep.inv.bytes_eq hq, (same q hq).2.1]
    exact rep.bytes q hq hassigned
  · intro b hclean
    rw [hdisk]
    refine rep.clean b ?_
    intro q hq hassigned hblock
    rw [← (same q hq).2.2.2]
    refine hclean q hq ?_ ((same q hq).2.1.trans hblock)
    unfold Assigned
    rwa [(same q hq).1]

/-- Only one buffer carries a given block. -/
theorem eq_of_blockno (rep : Represents dev s A) (hp : InRange p) (hq : InRange q)
    (hpa : Assigned (s.buf p)) (hqa : Assigned (s.buf q))
    (hblock : (s.buf p).blockno = (s.buf q).blockno) : p = q :=
  rep.inv.unique p q hp hq hpa ((rep.device p hp hpa).trans (rep.device q hq hqa).symm) hblock

/-- A block that the hit search does not find is up to date on the disk. -/
theorem disk_of_miss (rep : Represents dev s A) (hdev : dev < 2 ^ 31)
    (miss : ∀ k < bgroupBufNum, ¬Holds s dev b (b &&& bgroupMask, k)) : s.disk b = A b := by
  refine rep.clean b ?_
  rintro ⟨i, k⟩ hq hassigned hblock
  have hgroup : b &&& bgroupMask = i := hblock ▸ rep.inv.placed _ hq hassigned
  have holds : Holds s dev b (i, k) :=
    ⟨(toUInt64_eq_iff hdev (rep.inv.dev _ hq)).mpr (rep.device _ hq hassigned), hblock⟩
  exact absurd holds (hgroup ▸ miss k hq.2)

/-- Reusing a buffer that needs no write-back and reading the block into it. -/
theorem load (rep : Represents dev s A) (hp : InRange p) (hdev : dev < 2 ^ 31)
    (hgroup : p.1 = b &&& bgroupMask)
    (miss : ∀ k < bgroupBufNum, ¬Holds s dev b (p.1, k)) (clean : ¬NeedsWriteBack s p)
    (hs' : s' = (blockRead s b (s.buf p).data).setBuf p
      { s.buf p with dev := toInt32 dev, blockno := b, valid := true, dirty := false, refcnt := 1 })
    (inv : Inv s') : Represents dev s' A := by
  have hother : ∀ q, q ≠ p → s'.buf q = s.buf q := by
    intro q hq
    simp [hs', hq, blockRead]
  have hself : s'.buf p =
      { s.buf p with
        dev := toInt32 dev, blockno := b, valid := true, dirty := false, refcnt := 1 } := by
    simp [hs']
  have hmem : s'.mem = Mem.blit s.mem (dataAddr p) bufSize (Mem.ofBlock (s.disk b)) := by
    simp [hs', blockRead, rep.inv.data p hp]
  refine ⟨inv, ?_, ?_, ?_, ?_⟩
  · intro q hq hassigned
    by_cases hqp : q = p
    · subst hqp
      rw [hself]
      exact toInt32_of_lt hdev
    · rw [hother q hqp] at hassigned ⊢
      exact rep.device q hq hassigned
  · intro q hq
    by_cases hqp : q = p
    · subst hqp
      simp only [hself, Assigned, toInt32_of_lt hdev, true_iff]
      omega
    · rw [hother q hqp]
      exact rep.valid q hq
  · intro q hq hassigned
    rw [inv.bytes_eq hq, hmem]
    by_cases hqp : q = p
    · subst hqp
      rw [Mem.window_blit_self, hself]
      exact rep.disk_of_miss hdev (hgroup ▸ miss)
    · rw [hother q hqp] at hassigned ⊢
      rw [Mem.window_blit_of_disjoint _ _ (dataAddr_disjoint hq hp hqp), ← rep.inv.bytes_eq hq]
      exact rep.bytes q hq hassigned
  · intro b' hclean
    have hdisk : s'.disk = s.disk := by rw [hs']; rfl
    rw [hdisk]
    refine rep.clean b' ?_
    intro q hq hassigned hblock
    by_cases hqp : q = p
    · -- an assigned buffer is valid, so the reused one was not dirty
      subst hqp
      by_contra hdirty
      exact clean ⟨(rep.valid q hq).mpr hassigned, by simpa using hdirty⟩
    · rw [← hother q hqp] at hassigned hblock ⊢
      exact hclean q hq hassigned hblock

/-- Storing to the buffer of block `b` updates the flat array at `b`. -/
theorem storeBytes (rep : Represents dev s A) (hp : InRange p) (hpa : Assigned (s.buf p))
    (hblock : (s.buf p).blockno = b) (x : Block) :
    Represents dev (storeBytes s p x) (update A b x) := by
  have hother : ∀ q, q ≠ p → (Buf.storeBytes s p x).buf q = s.buf q := by
    intro q hq
    simp [Buf.storeBytes, bufWrite, hq]
  have hself : (Buf.storeBytes s p x).buf p = { s.buf p with dirty := true } := by
    simp [Buf.storeBytes, bufWrite]
  have inv : Inv (Buf.storeBytes s p x) := Inv.bufWrite (rep.inv.congr rfl rfl) hp
  have apart : ∀ q, InRange q → Assigned (s.buf q) → q ≠ p → (s.buf q).blockno ≠ b := by
    intro q hq hqa hqp heq
    exact hqp (rep.eq_of_blockno hq hp hqa hpa (heq.trans hblock.symm))
  refine ⟨inv, ?_, ?_, ?_, ?_⟩
  · intro q hq hassigned
    by_cases hqp : q = p
    · subst hqp
      rw [hself]
      exact rep.device q hq hpa
    · rw [hother q hqp] at hassigned ⊢
      exact rep.device q hq hassigned
  · intro q hq
    by_cases hqp : q = p
    · subst hqp
      rw [hself]
      exact rep.valid q hq
    · rw [hother q hqp]
      exact rep.valid q hq
  · intro q hq hassigned
    have hmem : (Buf.storeBytes s p x).mem =
        Mem.blit s.mem (dataAddr p) bufSize (Mem.ofBlock x) := by
      simp [Buf.storeBytes, bufWrite, rep.inv.data p hp]
    rw [inv.bytes_eq hq, hmem]
    by_cases hqp : q = p
    · subst hqp
      rw [Mem.window_blit_self, hself, hblock, update_self]
    · rw [hother q hqp] at hassigned ⊢
      rw [Mem.window_blit_of_disjoint _ _ (dataAddr_disjoint hq hp hqp), ← rep.inv.bytes_eq hq,
        update_of_ne (apart q hq hassigned hqp)]
      exact rep.bytes q hq hassigned
  · intro b' hclean
    have hne : b' ≠ b := by
      rintro rfl
      have := hclean p hp (by rw [hself]; exact hpa) (by rw [hself]; exact hblock)
      simp [hself] at this
    rw [update_of_ne hne]
    refine rep.clean b' ?_
    intro q hq hassigned hq'
    have hqp : q ≠ p := by
      rintro rfl
      exact hne (hq'.symm.trans hblock)
    rw [← hother q hqp] at hassigned hq' ⊢
    exact hclean q hq hassigned hq'

/-- Writing one dirty buffer back: the disk receives the block's own bytes. -/
theorem syncBuffer (rep : Represents dev s A) {i j : Nat} (hi : i < bgroupNum)
    (hj : j < bgroupBufNum) : Represents dev (bufSyncBuffer i s j) A := by
  have hp : InRange (i, j) := ⟨hi, hj⟩
  have inv := rep.inv.bufSyncBuffer hi hj
  rw [bufSyncBuffer_eq] at inv ⊢
  split
  next needs =>
    rw [if_pos needs] at inv
    have hpa := (rep.valid _ hp).mp needs.1
    have hself : Mem.window s.mem (s.buf (i, j)).data bufSize = A (s.buf (i, j)).blockno :=
      rep.bytes _ hp hpa
    have same : ∀ q, SameIdentity (s.buf q) ((bufSyncBuffer i s j).buf q) :=
      bufSyncBuffer_identity s i j
    simp only [bufSyncBuffer_eq, if_pos needs] at same
    refine ⟨inv, ?_, ?_, ?_, ?_⟩
    · intro q hq hassigned
      unfold Assigned at hassigned
      rw [(same q).1] at hassigned ⊢
      exact rep.device q hq hassigned
    · intro q hq
      unfold Assigned
      rw [(same q).1]
      have hvalid := rep.valid q hq
      by_cases hqp : q = (i, j)
      · subst hqp
        simpa [Assigned] using hvalid
      · simpa [hqp, blockWrite, Assigned] using hvalid
    · intro q hq hassigned
      unfold Assigned at hassigned
      rw [(same q).1] at hassigned
      rw [inv.bytes_eq hq, (same q).2, ← rep.bytes q hq hassigned, rep.inv.bytes_eq hq]
      rfl
    · intro b hclean
      change update s.disk _ _ b = A b
      by_cases hb : b = (s.buf (i, j)).blockno
      · rw [hb, update_self, hself]
      · rw [update_of_ne hb]
        refine rep.clean b ?_
        intro q hq hassigned hblock
        have hqp : q ≠ (i, j) := by
          rintro rfl
          exact hb hblock.symm
        have := hclean q hq
        simp only [Cache.setBuf_buf, update_of_ne hqp, blockWrite] at this
        exact this hassigned hblock
  next => exact rep

end Represents

/-! ## The writes of a step -/

/-- Between `s` and `s'` the disk was only sent bytes that belong to their block. -/
def WritesOf (A : Nat → Block) (s s' : Cache) : Prop :=
  ∃ ws, s'.written = ws ++ s.written ∧ ∀ w ∈ ws, w.2 = A w.1

theorem WritesOf.of_eq {A : Nat → Block} {s s' : Cache} (h : s'.written = s.written) :
    WritesOf A s s' := ⟨[], h, by simp⟩

theorem WritesOf.trans {A : Nat → Block} {s t u : Cache} (h : WritesOf A s t)
    (h' : WritesOf A t u) : WritesOf A s u := by
  obtain ⟨ws, hws, own⟩ := h
  obtain ⟨ws', hws', own'⟩ := h'
  refine ⟨ws' ++ ws, by rw [hws', hws, List.append_assoc], ?_⟩
  intro w hw
  exact (List.mem_append.mp hw).elim (own' w) (own w)

theorem Represents.writesOf_syncBuffer {dev : Nat} {s : Cache} {A : Nat → Block}
    (rep : Represents dev s A) {i j : Nat} (hi : i < bgroupNum) (hj : j < bgroupBufNum) :
    WritesOf A s (bufSyncBuffer i s j) := by
  rw [bufSyncBuffer_eq]
  split
  next needs =>
    refine ⟨[((s.buf (i, j)).blockno, s.bytes (i, j))], rfl, ?_⟩
    intro w hw
    rw [List.mem_singleton.mp hw]
    exact rep.bytes _ ⟨hi, hj⟩ ((rep.valid _ ⟨hi, hj⟩).mp needs.1)
  next => exact .of_eq rfl

theorem Represents.sync {dev : Nat} {s : Cache} {A : Nat → Block} (rep : Represents dev s A) :
    Represents dev (bufSync s) A ∧ WritesOf A s (bufSync s) := by
  refine bufSync_induct (P := fun t => Represents dev t A ∧ WritesOf A s t) ⟨rep, .of_eq rfl⟩ ?_
  rintro t i j hi hj ⟨ht, hwrites⟩
  exact ⟨ht.syncBuffer hi hj, hwrites.trans (ht.writesOf_syncBuffer hi hj)⟩

theorem content_wrote_append (disk : Nat → Block) (ws : List (Nat × Block)) (tr : List Event) :
    content disk (ws.map (fun w => .wrote w.1 w.2) ++ tr) = content disk tr := by
  induction ws with
  | nil => rfl
  | cons w ws ih => exact ih

theorem Faithful.wrote_append {disk : Nat → Block} {ws : List (Nat × Block)} {tr : List Event}
    (h : Faithful disk tr) (own : ∀ w ∈ ws, w.2 = content disk tr w.1) :
    Faithful disk (ws.map (fun w => .wrote w.1 w.2) ++ tr) := by
  induction ws with
  | nil => exact h
  | cons w ws ih =>
    refine ⟨?_, ih fun w' hw' => own w' (List.mem_cons_of_mem _ hw')⟩
    have same := congrFun (content_wrote_append disk ws tr) w.1
    exact (own w List.mem_cons_self).trans same.symm

/-- The events of a step that wrote only what belongs to its blocks. -/
theorem WritesOf.faithful {disk : Nat → Block} {tr : List Event} {s s' : Cache}
    (writes : WritesOf (content disk tr) s s') (h : Faithful disk tr) :
    Faithful disk (wroteSince s s' ++ tr) ∧
      content disk (wroteSince s s' ++ tr) = content disk tr := by
  obtain ⟨ws, hws, own⟩ := writes
  have events : wroteSince s s' = ws.map fun w => .wrote w.1 w.2 := by
    simp [wroteSince, hws]
  rw [events]
  exact ⟨h.wrote_append own, content_wrote_append disk ws tr⟩

/-! ## References -/

namespace Counts

variable {s s' : Cache} {held : List (BufPtr × Nat)} {p : BufPtr} {b : Nat}

theorem pos (counts : Counts s held) (h : (p, b) ∈ held) : 0 < (s.buf p).refcnt := by
  rw [counts.refcnt p (counts.assigned p b h).1]
  exact List.countP_pos_iff.mpr ⟨_, h, by simp⟩

variable (counts : Counts s held)
  (same : ∀ q, 0 < (s.buf q).refcnt → SameIdentity (s.buf q) (s'.buf q))
include counts same

/-- Held buffers stay assigned as long as referenced buffers keep their identity. -/
theorem assigned_of_identity (h : (p, b) ∈ held) :
    InRange p ∧ Assigned (s'.buf p) ∧ (s'.buf p).blockno = b := by
  obtain ⟨hp, hassigned, hblock⟩ := counts.assigned p b h
  obtain ⟨hdev, hblock'⟩ := same p (counts.pos h)
  refine ⟨hp, ?_, hblock'.trans hblock⟩
  unfold Assigned
  rwa [hdev]

theorem cons (hp : InRange p) (hassigned : Assigned (s'.buf p)) (hblock : (s'.buf p).blockno = b)
    (hcnt : ∀ q, (s'.buf q).refcnt = (s.buf q).refcnt + if q = p then 1 else 0) :
    Counts s' ((p, b) :: held) := by
  refine ⟨?_, ?_⟩
  · intro q b' h
    rcases List.mem_cons.mp h with heq | h
    · obtain ⟨rfl, rfl⟩ := Prod.mk.inj heq
      exact ⟨hp, hassigned, hblock⟩
    · exact counts.assigned_of_identity same h
  · intro q hq
    rw [hcnt q, counts.refcnt q hq, List.countP_cons]
    simp [eq_comm]

theorem erase (h : (p, b) ∈ held)
    (hcnt : ∀ q, (s'.buf q).refcnt = (s.buf q).refcnt - if q = p then 1 else 0) :
    Counts s' (held.erase (p, b)) := by
  refine ⟨fun q b' h' => counts.assigned_of_identity same (List.mem_of_mem_erase h'), ?_⟩
  intro q hq
  rw [hcnt q, counts.refcnt q hq, List.countP_erase]
  simp [h, eq_comm]

theorem congr (hcnt : ∀ q, (s'.buf q).refcnt = (s.buf q).refcnt) : Counts s' held :=
  ⟨fun _ _ h => counts.assigned_of_identity same h, fun q hq => by rw [hcnt q, counts.refcnt q hq]⟩

end Counts

theorem bufSync_refcnt (s : Cache) (q : BufPtr) :
    ((bufSync s).buf q).refcnt = (s.buf q).refcnt := by
  refine bufSync_induct (P := fun t => (t.buf q).refcnt = (s.buf q).refcnt) rfl ?_
  intro t i j _ _ ht
  rw [bufSyncBuffer_eq]
  split
  · by_cases hq : q = (i, j)
    · subst hq
      simpa using ht
    · simpa [hq, blockWrite] using ht
  · exact ht

/-! ## The steps -/

theorem fill_of_valid {s : Cache} {p : BufPtr} (h : (s.buf p).valid = true) (b : Nat)
    (isRead : Bool) : fill s b isRead p = s := by
  rw [fill, if_pos h]

theorem fill_reassign {s : Cache} {p : BufPtr} (clean : ¬NeedsWriteBack s p) (dev b : Nat) :
    fill (reassign s dev b p) b true p = (blockRead s b (s.buf p).data).setBuf p
      { s.buf p with
        dev := toInt32 dev, blockno := b, valid := true, dirty := false, refcnt := 1 } := by
  simp [fill, reassign, clean, Cache.setBuf, blockRead]

/-- A served read finds a buffer, and the buffer represents the block. -/
theorem Represents.read {dev : Nat} {w : World} {A : Nat → Block} {b : Nat}
    (rep : Represents dev w.cache A) (served : Served dev w (.read b))
    (free : ∃ j < bgroupBufNum, (w.cache.buf (b &&& bgroupMask, j)).refcnt = 0 ∨
      Holds w.cache dev b (b &&& bgroupMask, j)) :
    ∃ p s', bufRead w.cache dev b true = some (p, s') ∧ Represents dev s' A ∧
      s'.written = w.cache.written ∧ InRange p ∧ Assigned (s'.buf p) ∧ (s'.buf p).blockno = b ∧
      (∀ q, q ≠ p → s'.buf q = w.cache.buf q) ∧
      ∀ q, (s'.buf q).refcnt = (w.cache.buf q).refcnt + if q = p then 1 else 0 := by
  obtain ⟨hdev, bounded, clean⟩ := served
  rcases rep.inv.bufAlloc_cases dev b with
    ⟨p, hp, hgroup, holds, halloc⟩ | ⟨p, hp, hgroup, miss, hzero, hvictim, halloc⟩ | ⟨miss, full, -⟩
  · have hpdev : (w.cache.buf p).dev = dev :=
      (toUInt64_eq_iff hdev (rep.inv.dev p hp)).mp holds.1
    have hassigned : Assigned (w.cache.buf p) := by
      unfold Assigned
      omega
    have hbound : (w.cache.buf p).refcnt + 1 < 65536 := by
      have := bounded p.2 hp.2
      rw [← hgroup] at this
      exact this holds
    have hvalid : ((takeRef w.cache p).buf p).valid = true := by
      simpa [takeRef] using (rep.valid p hp).mpr hassigned
    refine ⟨p, takeRef w.cache p,
      bufRead_eq_some.mpr ⟨_, halloc, (fill_of_valid hvalid b true).symm⟩, ?_, rfl, hp, ?_, ?_,
      fun q hq => by simp [takeRef, hq], ?_⟩
    · refine rep.congr (rep.inv.takeRef hdev holds) ?_ rfl rfl
      intro q _
      by_cases hq : q = p
      · subst hq
        simp [takeRef]
      · simp [takeRef, hq]
    · simpa [takeRef, Assigned] using hassigned
    · simpa [takeRef] using holds.2
    · intro q
      by_cases hq : q = p
      · subst hq
        simp [takeRef, Nat.mod_eq_of_lt hbound]
      · simp [takeRef, hq]
  · have hclean : ¬NeedsWriteBack w.cache p := by
      rw [hgroup] at miss hvictim
      exact clean miss p hvictim
    have hread : bufRead w.cache dev b true = some (p, fill (reassign w.cache dev b p) b true p) :=
      bufRead_eq_some.mpr ⟨_, halloc, rfl⟩
    have inv := rep.inv.bufRead hdev hread
    refine ⟨p, _, hread, rep.load hp hdev hgroup miss hclean (fill_reassign hclean dev b) inv, ?_⟩
    rw [fill_reassign hclean]
    refine ⟨rfl, hp, ?_, by simp, fun q hq => by simp [hq, blockRead], ?_⟩
    · simp only [Cache.setBuf_buf, update_self, Assigned, toInt32_of_lt hdev]
      omega
    · intro q
      by_cases hq : q = p
      · subst hq
        simp [hzero]
      · simp [hq, blockRead]
  · obtain ⟨j, hj, hfree | holds⟩ := free
    · exact absurd hfree (full j hj)
    · exact absurd holds (miss j hj)

theorem Represents.release {dev : Nat} {s : Cache} {A : Nat → Block} {p : BufPtr}
    (rep : Represents dev s A) (hp : InRange p) (hpos : 0 < (s.buf p).refcnt) :
    ∃ s', bufRelease s p = some s' ∧ Represents dev s' A ∧ s'.written = s.written ∧
      ∀ q, (s'.buf q).refcnt = (s.buf q).refcnt - if q = p then 1 else 0 := by
  obtain ⟨links, hrelease, inv⟩ := rep.inv.bufRelease hp hpos
  refine ⟨_, hrelease, rep.congr inv ?_ rfl rfl, rfl, ?_⟩
  · intro q _
    by_cases hq : q = p
    · subst hq
      simp
    · simp [hq]
  · intro q
    by_cases hq : q = p
    · subst hq
      simp
    · simp [hq]

/-- The cache represents the flat array of its trace. -/
structure Sim (dev : Nat) (disk : Nat → Block) (w : World) : Prop where
  rep : Represents dev w.cache (content disk w.trace)
  counts : Counts w.cache w.held
  faithful : Faithful disk w.trace

theorem Sim.initial (dev : Nat) (disk : Nat → Block) : Sim dev disk (World.initial disk) := by
  refine ⟨⟨Inv.initial disk, ?_, ?_, ?_, fun _ _ => rfl⟩, ⟨by simp [World.initial], ?_⟩, trivial⟩
  · intro p hp hassigned
    exact absurd hassigned (initial_unassigned disk hp)
  · intro p hp
    simp [World.initial, initial_buf disk hp, Assigned]
  · intro p hp hassigned
    exact absurd hassigned (initial_unassigned disk hp)
  · intro p hp
    simp [World.initial, initial_buf disk hp]

/-- Every served operation of a polite client succeeds and keeps the simulation. -/
theorem Sim.step {dev : Nat} {disk : Nat → Block} {w : World} (sim : Sim dev disk w)
    {op : ClientOp} (polite : Polite w op) (served : Served dev w op) :
    ∃ w', clientStep dev w op = some w' ∧ Sim dev disk w' := by
  obtain ⟨rep, counts, faithful⟩ := sim
  cases op with
  | read b =>
    obtain ⟨j, hj, unheld⟩ := polite
    have hzero : (w.cache.buf (b &&& bgroupMask, j)).refcnt = 0 := by
      rw [counts.refcnt _ ⟨group_lt b, hj⟩, List.countP_eq_zero]
      rintro ⟨p, b'⟩ hheld hp
      exact unheld b' (by simpa using (of_decide_eq_true hp) ▸ hheld)
    obtain ⟨p, s', hread, rep', hwritten, hp, hassigned, hblock, -, hcnt⟩ :=
      rep.read served ⟨j, hj, .inl hzero⟩
    obtain ⟨faithful', hcontent⟩ := (WritesOf.of_eq hwritten).faithful faithful
    refine ⟨_, by simp only [clientStep, hread]; rfl, ?_, ?_, ?_⟩
    · simpa only [content, hcontent] using rep'
    · have legal : Legal w.cache (.read dev b true) := by
        refine ⟨served.1, ?_⟩
        rintro ⟨i, k⟩ hq holds
        have hqdev := (toUInt64_eq_iff served.1 (rep.inv.dev _ hq)).mp holds.1
        have hqa : Assigned (w.cache.buf (i, k)) := by
          unfold Assigned
          omega
        have hgroup : b &&& bgroupMask = i := holds.2 ▸ rep.inv.placed _ hq hqa
        subst hgroup
        exact served.2.1 k hq.2 holds
      have hstep : Buf.step w.cache (.read dev b true) = some s' := by simp [Buf.step, hread]
      exact counts.cons (fun q hq => rep.inv.step_identity legal hstep hq) hp hassigned hblock hcnt
    · refine ⟨?_, faithful'⟩
      rw [hcontent, rep'.bytes p hp hassigned, hblock]
  | store p b x =>
    obtain ⟨hp, hassigned, hblock⟩ := counts.assigned p b polite
    have same : ∀ q, SameIdentity (w.cache.buf q) ((storeBytes w.cache p x).buf q) ∧
        ((storeBytes w.cache p x).buf q).refcnt = (w.cache.buf q).refcnt := by
      intro q
      by_cases hq : q = p
      · subst hq
        simp [storeBytes, bufWrite, SameIdentity]
      · simp [storeBytes, bufWrite, SameIdentity, hq]
    exact ⟨_, rfl, rep.storeBytes hp hassigned hblock x,
      counts.congr (fun q _ => (same q).1) (fun q => (same q).2), faithful⟩
  | release p b =>
    have legal : Legal w.cache (.release p) := ⟨(counts.assigned p b polite).1, counts.pos polite⟩
    obtain ⟨s', hrelease, rep', hwritten, hcnt⟩ := rep.release legal.1 legal.2
    obtain ⟨faithful', hcontent⟩ := (WritesOf.of_eq hwritten).faithful faithful
    refine ⟨_, by simp only [clientStep, hrelease]; rfl, ?_, ?_, faithful'⟩
    · simpa only [hcontent] using rep'
    · exact counts.erase (fun q hq => rep.inv.step_identity legal hrelease hq) polite hcnt
  | sync =>
    obtain ⟨rep', writes⟩ := rep.sync
    obtain ⟨faithful', hcontent⟩ := writes.faithful faithful
    have legal : Legal w.cache .sync := trivial
    have hstep : Buf.step w.cache .sync = some (bufSync w.cache) := by rw [Buf.step]
    have hcnt := bufSync_refcnt w.cache
    -- the state after `bufSync` is kept abstract from here on
    rw [clientStep]
    generalize bufSync w.cache = s' at *
    refine ⟨_, rfl, ?_, counts.congr (fun q hq => rep.inv.step_identity legal hstep hq) hcnt,
      faithful'⟩
    simpa only [hcontent] using rep'

/-! ## Runs -/

/-- After `bufInit`, a polite client whose misses never reuse a dirty buffer cannot
tell the cache from the flat array of its blocks, and its run does not fault. -/
theorem flat_runs {dev : Nat} {disk : Nat → Block} {s₀ : Cache} {ops : List ClientOp}
    (init : bufInit (Cache.zero disk) = some s₀)
    (meets : Run.Meets (clientStep dev) (fun w op => Polite w op ∧ Served dev w op)
      ⟨s₀, [], []⟩ ops) :
    ∃ w, Run.exec (clientStep dev) ⟨s₀, [], []⟩ ops = some w ∧ Faithful disk w.trace := by
  rw [bufInit_zero] at init
  obtain rfl := Option.some.inj init
  obtain ⟨w, run, sim⟩ := Run.total (Sim.initial dev disk) meets
    fun _ _ sim cond => sim.step cond.1 cond.2
  exact ⟨w, run, sim.faithful⟩

/-- Another block of the group takes the clean buffer of block 0, is stored to and
is read again. -/
def reuseClean : List ClientOp :=
  [.read 0, .release (0, 7) 0, .read bgroupNum, .store (0, 7) bgroupNum (fun _ => 1),
    .release (0, 7) bgroupNum, .read bgroupNum]

theorem flat_runs_reuseClean :
    ∃ w, Run.exec (clientStep 1) (World.initial fun _ _ => 0) reuseClean = some w ∧
      Faithful (fun _ _ => 0) w.trace :=
  flat_runs (bufInit_zero _) (by decide +kernel)

/-- Let another block of the group take the dirty buffer of block 0. -/
def reuseDirty : List ClientOp :=
  [.read 0, .store (0, 7) 0 (fun _ => 1), .release (0, 7) 0, .read bgroupNum]

theorem reuseDirty_not_faithful :
    Run.Meets (clientStep 1) Polite (World.initial fun _ _ => 0) reuseDirty ∧
      ∃ w, Run.exec (clientStep 1) (World.initial fun _ _ => 0) reuseDirty = some w ∧
        ¬Faithful (fun _ _ => 0) w.trace := by
  refine ⟨by decide +kernel, _, rfl, ?_⟩
  rintro ⟨returned, -⟩
  have first := congrFun returned ⟨0, by decide⟩
  revert first
  decide +kernel

end KernelTravel.Buf

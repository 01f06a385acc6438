import KernelTravel.Fat32.Scan

/-!
# The entries of a directory

A directory is scanned by calling `dirGetDentFrom` again and again, each time behind the entry
that it has returned. `entryLoop` is this loop with an arbitrary use of the entries. It
comes to its end exactly when the names of the whole directory fit, and then it has visited
the short entries of the directory, each with the text of the long entries before it.
-/

namespace KernelTravel.Fat32

section Except

variable {ε α β : Type} {x : Except ε α}

theorem except_bind_eq_ok {f : α → Except ε β} {b : β} :
    x.bind f = .ok b ↔ ∃ a, x = .ok a ∧ f a = .ok b := by
  cases x <;> simp [Except.bind]

theorem except_map_eq_ok {f : α → β} {b : β} : x.map f = .ok b ↔ ∃ a, x = .ok a ∧ f a = b := by
  cases x <;> simp [Except.map]

end Except

section Whole

/-- The names of the whole directory fit. After a short entry the collected name is empty. -/
def DirFits (ends : (Nat → Byte) → Prop) : List Wchar → List (Nat → Byte) → Prop
  | _, [] => True
  | p, f :: fs =>
    if isSkipped f then DirFits ends p fs
    else if f 11 = attrLongNameMask then
      p.length + bytesLongent < maxNameLen ∧ DirFits ends (collect p f) fs
    else NameFits ends p f ∧ DirFits ends [] fs

/-- A short entry with the text of the long entries before it, its offset and its bytes. -/
abbrev Short := List Wchar × Nat × (Nat → Byte)

def shorts : List Wchar → List (Nat × (Nat → Byte)) → List Short
  | _, [] => []
  | p, (j, f) :: rest =>
    if isSkipped f then shorts p rest
    else if f 11 = attrLongNameMask then shorts (collect p f) rest
    else (p, j, f) :: shorts [] rest

variable {ends : (Nat → Byte) → Prop} {p : List Wchar} {slots : List (Nat × (Nat → Byte))}

theorem DirFits.namesFit {fs : List (Nat → Byte)} (h : DirFits ends p fs) : NamesFit ends p fs := by
  induction fs generalizing p with
  | nil => trivial
  | cons f fs ih =>
    simp only [DirFits, NamesFit] at h ⊢
    split_ifs at h ⊢
    · exact ih h
    · exact ⟨h.1, ih h.2⟩
    · exact h.1

theorem firstShort_none (h : firstShort p slots = none) :
    shorts p slots = [] ∧
    (DirFits ends p (slots.map Prod.snd) ↔ NamesFit ends p (slots.map Prod.snd)) := by
  induction slots generalizing p with
  | nil => exact ⟨rfl, Iff.rfl⟩
  | cons slot slots ih =>
    obtain ⟨j, f⟩ := slot
    simp only [firstShort, List.map_cons, shorts, DirFits, NamesFit] at h ⊢
    split_ifs at h ⊢
    · exact ih h
    · exact ⟨(ih h).1, and_congr_right fun _ => (ih h).2⟩

/-- The scan goes on behind the first short entry. -/
theorem firstShort_some {q : List Wchar} {j : Nat} {f : Nat → Byte}
    (h : firstShort p slots = some (q, j, f)) :
    ∃ before rest, slots = before ++ (j, f) :: rest ∧ shorts p slots = (q, j, f) :: shorts [] rest ∧
      (DirFits ends p (slots.map Prod.snd) ↔
        NamesFit ends p (slots.map Prod.snd) ∧ DirFits ends [] (rest.map Prod.snd)) := by
  induction slots generalizing p with
  | nil => cases h
  | cons slot slots ih =>
    obtain ⟨i, g⟩ := slot
    simp only [firstShort, List.map_cons, shorts, DirFits, NamesFit] at h ⊢
    split_ifs at h ⊢
    · obtain ⟨before, rest, hsplit, hshorts, hfits⟩ := ih h
      exact ⟨(i, g) :: before, rest, by rw [hsplit, List.cons_append], hshorts, hfits⟩
    · obtain ⟨before, rest, hsplit, hshorts, hfits⟩ := ih h
      refine ⟨(i, g) :: before, rest, by rw [hsplit, List.cons_append], hshorts, ?_⟩
      rw [hfits, and_assoc]
    · obtain ⟨rfl, rfl, rfl⟩ : p = q ∧ i = j ∧ g = f := by simpa using h
      exact ⟨[], slots, rfl, rfl, Iff.rfl⟩

theorem dirFits_of_skipped {fs : List (Nat → Byte)} (h : ∀ f ∈ fs, isSkipped f = true) :
    DirFits ends p fs := by
  induction fs with
  | nil => trivial
  | cons f fs ih =>
    obtain ⟨hf, hfs⟩ := List.forall_mem_cons.mp h
    rw [DirFits, if_pos hf]
    exact ih hfs

theorem shorts_of_no_short (h : ∀ slot ∈ slots, isSkipped slot.2 = true ∨
    slot.2 11 = attrLongNameMask) : shorts p slots = [] := by
  induction slots generalizing p with
  | nil => rfl
  | cons slot slots ih =>
    obtain ⟨hf, hfs⟩ := List.forall_mem_cons.mp h
    rw [shorts]
    split
    · exact ih hfs
    · next hskip =>
      rw [if_pos (hf.resolve_left hskip)]
      exact ih hfs

theorem shorts_of_skipped (h : ∀ slot ∈ slots, isSkipped slot.2 = true) : shorts p slots = [] :=
  shorts_of_no_short fun slot hslot => .inl (h slot hslot)

theorem slotBufs_drop (behind : Nat → Byte) (slots : List (Nat → Byte)) (i k : Nat) :
    (slotBufs behind slots i).drop k = slotBufs behind slots (i + k) := by
  refine List.ext_getElem (by simp [slotBufs, Nat.sub_add_eq]) fun m _ _ => ?_
  simp only [slotBufs, List.getElem_drop, List.getElem_mapIdx, List.getElem_map, Nat.add_assoc]

/-- The first short entry of a directory stands at its offset, and the slots behind it are
those from the next offset on. -/
theorem slotBufs_split {behind : Nat → Byte} {slots : List (Nat → Byte)} {i j : Nat}
    {f : Nat → Byte} {before rest : List (Nat × (Nat → Byte))}
    (h : slotBufs behind slots i = before ++ (j, f) :: rest) :
    ∃ k, i ≤ k ∧ j = direntSize * k ∧ rest = slotBufs behind slots (k + 1) := by
  have hlt : before.length < (slotBufs behind slots i).length := by
    rw [h, List.length_append, List.length_cons]
    omega
  have hget : (slotBufs behind slots i)[before.length] = (j, f) := by
    simp only [h, List.getElem_append_right (Nat.le_refl _), Nat.sub_self, List.getElem_cons_zero]
  have hrest : rest = (slotBufs behind slots i).drop (before.length + 1) := by
    rw [h, List.drop_append, List.drop_eq_nil_of_le (by omega), List.nil_append,
      Nat.add_sub_cancel_left, List.drop_succ_cons, List.drop_zero]
  refine ⟨i + before.length, Nat.le_add_right _ _, ?_, ?_⟩
  · simp only [slotBufs, List.getElem_mapIdx, Prod.mk.injEq] at hget
    exact hget.1.symm
  · rw [hrest, slotBufs_drop, Nat.add_assoc]

end Whole

section Stack

/-- The 32 bytes of a slot hold a zero. -/
def EndsInSlot (s : Nat → Byte) : Prop := ∃ k < direntSize, s k = 0

variable {ends ends' : (Nat → Byte) → Prop} {slots : List (Nat → Byte)} {p : List Wchar}

theorem isSkipped_blit (behind s : Nat → Byte) :
    isSkipped (Mem.blit behind 0 direntSize s) = isSkipped s := by
  have hbyte : ∀ k < direntSize, Mem.blit behind 0 direntSize s k = s k := fun k hk => by
    rw [Mem.blit_apply, if_pos (by omega), Nat.sub_zero]
  have hname : (List.range 11).map (Mem.blit behind 0 direntSize s) = (List.range 11).map s :=
    List.map_congr_left fun k hk => hbyte k ((List.mem_range.mp hk).trans (by decide))
  simp only [isSkipped, nameIs, hname, hbyte 0 (by decide)]

theorem attr_blit (behind s : Nat → Byte) : Mem.blit behind 0 direntSize s 11 = s 11 := by
  rw [Mem.blit_apply, if_pos (by decide)]

theorem collect_blit (p : List Wchar) (behind s : Nat → Byte) :
    collect p (Mem.blit behind 0 direntSize s) = collect p s := by
  have hpiece : ∀ (m : Nat → Byte) (dst start n : Nat), start + n ≤ direntSize →
      Mem.blit m dst n (fun k => Mem.blit behind 0 direntSize s (start + k)) =
        Mem.blit m dst n fun k => s (start + k) := by
    intro m dst start n hn
    refine Mem.blit_congr m fun k hk => ?_
    rw [Mem.blit_apply, if_pos (by omega), Nat.sub_zero]
  have htmp : tmpBuf (Mem.blit behind 0 direntSize s) = tmpBuf s := by
    rw [tmpBuf, tmpBuf, hpiece _ _ 1 10 (by decide), hpiece _ _ 14 12 (by decide),
      hpiece _ _ 28 4 (by decide)]
  have hchar : longChar (Mem.blit behind 0 direntSize s) = longChar s := by
    funext i
    rw [longChar, longChar, htmp]
  rw [collect, collect, longText, longText, hchar]

/-- Only the end of a short name can depend on the bytes behind the buffer. -/
theorem namesFit_map (behind : Nat → Byte) :
    NamesFit ends p (slots.map (Mem.blit behind 0 direntSize)) ↔
      NamesFit (fun s => ends (Mem.blit behind 0 direntSize s)) p slots := by
  induction slots generalizing p with
  | nil => exact Iff.rfl
  | cons s slots ih =>
    simp only [List.map_cons, NamesFit, isSkipped_blit, attr_blit, collect_blit, ih, NameFits]

theorem dirFits_map (behind : Nat → Byte) :
    DirFits ends p (slots.map (Mem.blit behind 0 direntSize)) ↔
      DirFits (fun s => ends (Mem.blit behind 0 direntSize s)) p slots := by
  induction slots generalizing p with
  | nil => exact Iff.rfl
  | cons s slots ih =>
    simp only [List.map_cons, DirFits, isSkipped_blit, attr_blit, collect_blit, ih, NameFits]

theorem NamesFit.mono (himp : ∀ s, ends s → ends' s) (h : NamesFit ends p slots) :
    NamesFit ends' p slots := by
  induction slots generalizing p with
  | nil => trivial
  | cons s slots ih =>
    simp only [NamesFit] at h ⊢
    split_ifs at h ⊢
    · exact ih h
    · exact ⟨h.1, ih h.2⟩
    · exact fun hp => himp s (h hp)

theorem DirFits.mono (himp : ∀ s, ends s → ends' s) (h : DirFits ends p slots) :
    DirFits ends' p slots := by
  induction slots generalizing p with
  | nil => trivial
  | cons s slots ih =>
    simp only [DirFits] at h ⊢
    split_ifs at h ⊢
    · exact ih h
    · exact ⟨h.1, ih h.2⟩
    · exact ⟨fun hp => himp s (h.1 hp), ih h.2⟩

theorem EndsInSlot.endsInTime {s : Nat → Byte} (h : EndsInSlot s) (behind : Nat → Byte) :
    EndsInTime (Mem.blit behind 0 direntSize s) := by
  obtain ⟨k, hk, hzero⟩ := h
  refine ⟨k, hk.trans (by decide), ?_⟩
  rw [Mem.blit_apply, if_pos (by omega), Nat.sub_zero, hzero]

/-- With no zero behind the buffer, the end has to be in the slot. -/
theorem endsInSlot_of_ones {s : Nat → Byte}
    (h : EndsInTime (Mem.blit (fun _ => 1) 0 direntSize s)) : EndsInSlot s := by
  obtain ⟨k, -, hzero⟩ := h
  rw [Mem.blit_apply] at hzero
  split at hzero
  · next hin => exact ⟨k, by omega, by rwa [Nat.sub_zero] at hzero⟩
  · exact absurd hzero (by decide)

end Stack

section Loop

/-- Call `dirGetDentFrom` until it answers 0. `visit` uses an entry and what is left of the
pool; it answers with what it leaves of the pool and with how the entry is added to the
result of the rest. -/
def entryLoop {β : Type} (dir : Directory) (stack : ScanBufs)
    (visit : Entry → Nat → Except Trap (Nat × (β → β))) (stop : Nat → β) :
    Nat → Nat → Nat → Except Trap β
  | 0, _, _ => .error .stuck
  | rounds + 1, off, pool =>
    match dir.dirGetDentFrom pool stack off with
    | .error e => .error e
    | .ok none => .ok (stop pool)
    | .ok (some (child, off)) =>
      (visit child (pool - 1)).bind fun next =>
        (entryLoop dir stack visit stop rounds off next.1).map next.2

/-- All entries of a directory. -/
def Directory.scan (dir : Directory) (stack : ScanBufs) (rounds pool : Nat) :
    Except Trap (List Entry) :=
  entryLoop dir stack (fun child pool => .ok (pool, (child :: ·))) (fun _ => []) rounds 0 pool

/-- `entryLoop` over the short entries that the scan finds. -/
def entryShorts {β : Type} (dir : Directory) (visit : Entry → Nat → Except Trap (Nat × (β → β)))
    (stop : Nat → β) : List Short → Nat → Except Trap β
  | [], pool => .ok (stop pool)
  | (q, j, f) :: ss, pool =>
    match dir.fillEntry pool q j f with
    | .error e => .error e
    | .ok (child, _) =>
      (visit child (pool - 1)).bind fun next => (entryShorts dir visit stop ss next.1).map next.2

/-- The slots from index `i` on, as the buffer holds them. -/
abbrev bufsFrom (stack : ScanBufs) (slots : List (Nat → Byte)) (i : Nat) : List (Nat → Byte) :=
  (slots.drop i).map (Mem.blit stack.direntBuf 0 direntSize)

variable {β : Type} {dir : Directory} {slots : List (Nat → Byte)} {stack : ScanBufs}
  {visit : Entry → Nat → Except Trap (Nat × (β → β))} {stop : Nat → β} {rounds pool i : Nat}

/-- What a filled entry says of its slot. -/
theorem fillEntry_eq_ok {q : List Wchar} {j next : Nat} {f : Nat → Byte} {child : Entry}
    (h : dir.fillEntry pool q j f = .ok (child, next)) :
    pool ≠ 0 ∧ next = j + direntSize ∧ child.name = entryName q f ∧ child.isDir = isDirectory f ∧
      child.firstClus = slotClus f ∧ (isDirectory f = true → ∃ n, dir.count (slotClus f) = some n ∧
        child.fileSize = n * dir.clusSize % 2 ^ 32) := by
  rw [Directory.fillEntry] at h
  split at h
  · cases h
  · next hpool =>
    obtain ⟨entry, hentry, heq⟩ := except_map_eq_ok.mp h
    obtain ⟨fileSize, hsize, rfl⟩ := except_map_eq_ok.mp hentry
    cases heq
    refine ⟨hpool, rfl, rfl, rfl, rfl, fun hdir => ?_⟩
    rw [Directory.sizeOf, if_pos hdir] at hsize
    cases hcount : dir.count (slotClus f) with
    | none =>
      rw [hcount] at hsize
      cases hsize
    | some n =>
      rw [hcount] at hsize
      cases hsize
      exact ⟨n, rfl, rfl⟩

theorem fillEntry_ok {f : Nat → Byte}
    (hcount : isDirectory f = true → (dir.count (slotClus f)).isSome)
    (hpool : pool ≠ 0) (q : List Wchar) (j : Nat) :
    ∃ child, dir.fillEntry pool q j f = .ok (child, j + direntSize) := by
  rw [Directory.fillEntry, if_neg hpool, Directory.entryAt, Directory.sizeOf]
  split
  · next hdir =>
    obtain ⟨n, hn⟩ := Option.isSome_iff_exists.mp (hcount hdir)
    rw [hn]
    exact ⟨_, rfl⟩
  · exact ⟨_, rfl⟩

/-- A call of the loop that ends behind the last short entry. -/
theorem IsDirOf.call_none (h : IsDirOf dir slots) (pool : Nat)
    (hfit : NamesFit EndsInTime [] (bufsFrom stack slots i))
    (hnone : firstShort [] (slotBufs stack.direntBuf slots i) = none) :
    dir.dirGetDentFrom pool stack (direntSize * i) = .ok none := by
  rw [h.call_ok stack pool i hfit, hnone]

theorem IsDirOf.call_some (h : IsDirOf dir slots) (pool : Nat)
    (hfit : NamesFit EndsInTime [] (bufsFrom stack slots i)) {q : List Wchar} {j : Nat}
    {f : Nat → Byte} (hsome : firstShort [] (slotBufs stack.direntBuf slots i) = some (q, j, f)) :
    dir.dirGetDentFrom pool stack (direntSize * i) = (dir.fillEntry pool q j f).map some := by
  rw [h.call_ok stack pool i hfit, hsome]

/-- The loop from a slot on answers exactly when the names from there on fit, the rounds
suffice and the short entries can be used. -/
theorem entryLoop_eq_ok_iff (h : IsDirOf dir slots) {r : β} :
    entryLoop dir stack visit stop rounds (direntSize * i) pool = .ok r ↔
      DirFits EndsInTime [] (bufsFrom stack slots i) ∧
        (shorts [] (slotBufs stack.direntBuf slots i)).length < rounds ∧
          entryShorts dir visit stop (shorts [] (slotBufs stack.direntBuf slots i)) pool =
          .ok r := by
  induction rounds generalizing i pool r with
  | zero => exact ⟨nofun, fun h => absurd h.2.1 (Nat.not_lt_zero _)⟩
  | succ rounds ih =>
    rw [entryLoop]
    by_cases hfit : NamesFit EndsInTime [] (bufsFrom stack slots i)
    · cases hfirst : firstShort [] (slotBufs stack.direntBuf slots i) with
      | none =>
        obtain ⟨hshorts, hdir⟩ := @firstShort_none EndsInTime [] _ hfirst
        rw [slotBufs_bufs] at hdir
        rw [h.call_none pool hfit hfirst, hshorts, hdir]
        exact ⟨fun hok => ⟨hfit, Nat.succ_pos _, hok⟩, fun hok => hok.2.2⟩
      | some short =>
        obtain ⟨q, j, f⟩ := short
        obtain ⟨before, rest, hsplit, hshorts, hdir⟩ :=
          @firstShort_some EndsInTime [] _ q j f hfirst
        obtain ⟨k, -, rfl, rfl⟩ := slotBufs_split hsplit
        rw [slotBufs_bufs, slotBufs_bufs] at hdir
        rw [h.call_some pool hfit hfirst, hshorts, hdir, entryShorts, List.length_cons]
        cases hfill : dir.fillEntry pool q (direntSize * k) f with
        | error e => exact ⟨nofun, fun hok => nomatch hok.2.2⟩
        | ok answer =>
          obtain ⟨child, next⟩ := answer
          obtain rfl : next = direntSize * (k + 1) := (fillEntry_eq_ok hfill).2.1
          change (visit child (pool - 1)).bind _ = _ ↔ _
          simp only [hfit, true_and, Nat.succ_lt_succ_iff, except_bind_eq_ok, except_map_eq_ok, ih]
          constructor
          · rintro ⟨next, hvisit, rest, ⟨hdir, hlt, hrest⟩, hr⟩
            exact ⟨hdir, hlt, next, hvisit, rest, hrest, hr⟩
          · rintro ⟨hdir, hlt, next, hvisit, rest, hrest, hr⟩
            exact ⟨next, hvisit, rest, ⟨hdir, hlt, hrest⟩, hr⟩
    · have hsafe := (h.call_inside_iff stack pool i).not.mpr hfit
      rw [not_not.mp hsafe]
      exact ⟨nofun, fun hok => absurd hok.1.namesFit hfit⟩

/-- No array is left in a directory whose names fit. -/
theorem entryLoop_ne_overrun (h : IsDirOf dir slots)
    (hvisit : ∀ child pool, visit child pool ≠ .error .overrun)
    (hfit : DirFits EndsInTime [] (bufsFrom stack slots i)) :
    entryLoop dir stack visit stop rounds (direntSize * i) pool ≠ .error .overrun := by
  induction rounds generalizing i pool with
  | zero => exact nofun
  | succ rounds ih =>
    rw [entryLoop]
    cases hfirst : firstShort [] (slotBufs stack.direntBuf slots i) with
    | none =>
      rw [h.call_none pool hfit.namesFit hfirst]
      exact nofun
    | some short =>
      obtain ⟨q, j, f⟩ := short
      obtain ⟨before, rest, hsplit, -, hdir⟩ := @firstShort_some EndsInTime [] _ q j f hfirst
      obtain ⟨k, -, rfl, rfl⟩ := slotBufs_split hsplit
      rw [slotBufs_bufs, slotBufs_bufs] at hdir
      rw [h.call_some pool hfit.namesFit hfirst]
      cases hfill : dir.fillEntry pool q (direntSize * k) f with
      | error e =>
        intro herr
        cases herr
        exact fillEntry_ne_overrun _ _ hfill
      | ok answer =>
        obtain ⟨child, next⟩ := answer
        obtain rfl : next = direntSize * (k + 1) := (fillEntry_eq_ok hfill).2.1
        have hrest := fun pool => @ih pool (k + 1) (hdir.mp hfit).2
        change (visit child (pool - 1)).bind _ ≠ _
        cases hnext : visit child (pool - 1) with
        | error e =>
          intro herr
          cases herr
          exact hvisit _ _ hnext
        | ok next =>
          change Except.map _ (entryLoop ..) ≠ _
          cases hloop : entryLoop dir stack visit stop rounds (direntSize * (k + 1)) next.1 with
          | error e =>
            intro herr
            cases herr
            exact hrest _ hloop
          | ok r => exact nofun

/-- When nothing else stops the loop, it comes to the name that does not fit. -/
theorem entryLoop_overrun (h : IsDirOf dir slots) (hcount : ∀ c, (dir.count c).isSome)
    (hvisit : ∀ child pool, ∃ g, visit child pool = .ok (pool, g))
    (hfit : ¬DirFits EndsInTime [] (bufsFrom stack slots i)) (hrounds : slots.length - i < rounds)
    (hpool : slots.length - i ≤ pool) :
    entryLoop dir stack visit stop rounds (direntSize * i) pool = .error .overrun := by
  induction rounds generalizing i pool with
  | zero => exact absurd hrounds (Nat.not_lt_zero _)
  | succ rounds ih =>
    rw [entryLoop]
    by_cases hcall : NamesFit EndsInTime [] (bufsFrom stack slots i)
    · cases hfirst : firstShort [] (slotBufs stack.direntBuf slots i) with
      | none =>
        have hdir := (@firstShort_none EndsInTime [] _ hfirst).2
        rw [slotBufs_bufs] at hdir
        exact absurd (hdir.mpr hcall) hfit
      | some short =>
        obtain ⟨q, j, f⟩ := short
        obtain ⟨before, rest, hsplit, -, hdir⟩ := @firstShort_some EndsInTime [] _ q j f hfirst
        have hlen : 0 < slots.length - i := by
          have := congrArg List.length hsplit
          simp only [slotBufs, List.length_mapIdx, List.length_map, List.length_drop,
            List.length_append, List.length_cons] at this
          omega
        obtain ⟨k, hk, rfl, rfl⟩ := slotBufs_split hsplit
        rw [slotBufs_bufs, slotBufs_bufs] at hdir
        have hlater : ¬DirFits EndsInTime [] (bufsFrom stack slots (k + 1)) :=
          fun hlater => hfit (hdir.mpr ⟨hcall, hlater⟩)
        obtain ⟨child, hfill⟩ :=
          @fillEntry_ok dir pool f (fun _ => hcount _) (by omega) q (direntSize * k)
        obtain ⟨g, hnext⟩ := hvisit child (pool - 1)
        have hloop := @ih (pool - 1) (k + 1) hlater (by omega) (by omega)
        rw [h.call_some pool hcall hfirst, hfill]
        change (visit child (pool - 1)).bind _ = _
        rw [hnext]
        change Except.map g (entryLoop _ _ _ _ _ (direntSize * (k + 1)) _) = _
        rw [hloop]
        rfl
    · rw [not_not.mp ((h.call_inside_iff stack pool i).not.mpr hcall)]

end Loop

end KernelTravel.Fat32

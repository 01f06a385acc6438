import KernelTravel.Fs.Pipe
import KernelTravel.Lib.Run

/-!
# Runs of a pipe

Under `PipeSafe` every character goes through the pipe once and in order, and an end of file
is reported only on an empty pipe without a write end. The two loops are described by what
they do to the list of characters that the queue holds.
-/

namespace KernelTravel.Pipe

section Loops

variable {q : Ioqueue} {xs ys : List Char8}

/-- The loop of `pipe_read` takes characters other than `'@'` as long as there are some. -/
theorem pipeRead_consume (h : Holds q (xs ++ ys)) (hclean : endChar ∉ xs) (left : Nat)
    (buffer : List Char8) :
    ∃ q', pipeRead (xs.length + left) q buffer = pipeRead left q' (buffer ++ xs) ∧
      Holds q' ys ∧ q'.flag = q.flag := by
  induction xs generalizing q buffer with
  | nil =>
    refine ⟨q, ?_, h, rfl⟩
    rw [List.length_nil, Nat.zero_add, List.append_nil]
  | cons x xs ih =>
    rw [List.mem_cons, not_or] at hclean
    obtain ⟨hx, hxs⟩ := hclean
    obtain ⟨q₁, hget, hq₁, hflag₁⟩ := ioqGetchar_cons h
    obtain ⟨q₂, hread, hq₂, hflag₂⟩ := ih hq₁ hxs (buffer ++ [x])
    refine ⟨q₂, ?_, hq₂, hflag₂.trans hflag₁⟩
    have hstep : pipeRead (xs.length + left + 1) q buffer =
        pipeRead (xs.length + left) q₁ (buffer ++ [x]) := by
      simp only [pipeRead, hget, if_neg (Ne.symm hx)]
    rw [List.length_cons, Nat.add_right_comm, hstep, hread, List.append_assoc,
      List.singleton_append]

/-- A read of no more than there is returns what it asked for. -/
theorem pipeRead_of_le {left : Nat} (h : Holds q xs) (hclean : endChar ∉ xs)
    (hleft : left ≤ xs.length) (buffer : List Char8) : ∃ q', pipeRead left q buffer =
        (.returned (buffer.length + left) (buffer ++ xs.take left), q') ∧
      Holds q' (xs.drop left) ∧ q'.flag = q.flag := by
  rw [← List.take_append_drop left xs] at h
  obtain ⟨q', hread, hq', hflag⟩ :=
    pipeRead_consume h (fun hmem => hclean (List.mem_of_mem_take hmem)) 0 buffer
  have hlen : (xs.take left).length = left := List.length_take_of_le hleft
  refine ⟨q', ?_, hq', hflag⟩
  rw [hlen, Nat.add_zero] at hread
  rw [hread, pipeRead, List.length_append, hlen]

/-- A read of more than there is takes everything, and then sleeps or meets `'@'`. -/
theorem pipeRead_of_lt {left : Nat} (h : Holds q xs) (hclean : endChar ∉ xs)
    (hleft : xs.length < left) (buffer : List Char8) : ∃ q', pipeRead left q buffer =
        ((if q.flag = 0 then .returned minusOne (buffer ++ xs ++ [endChar])
          else .blocked (buffer ++ xs)), q') ∧ Holds q' [] ∧ q'.flag = q.flag := by
  rw [← List.append_nil xs] at h
  obtain ⟨k, hk⟩ := Nat.exists_eq_add_of_lt hleft
  obtain ⟨q', hread, hq', hflag⟩ := pipeRead_consume h hclean (k + 1) buffer
  refine ⟨q', ?_, hq', hflag⟩
  rw [hk, Nat.add_assoc, hread, pipeRead, ioqGetchar_nil hq', hflag]
  by_cases hzero : q.flag = 0
  · simp only [if_pos hzero, if_pos]
  · simp only [if_neg hzero]

/-- The loop of `pipe_write` on characters that fit. -/
theorem pipeWriteLoop_of_open (h : Holds q xs) (hopen : q.flag ≠ 0)
    (hroom : xs.length + ys.length < bufsize) (bytesWrite : Nat) :
    ∃ q', pipeWriteLoop q bytesWrite ys = some (bytesWrite + ys.length, q') ∧
      Holds q' (xs ++ ys) ∧ q'.flag = q.flag := by
  induction ys generalizing q xs bytesWrite with
  | nil =>
    refine ⟨q, rfl, ?_, rfl⟩
    rw [List.append_nil]
    exact h
  | cons y ys ih =>
    rw [List.length_cons] at hroom
    obtain ⟨q₁, hput, hq₁, hflag₁⟩ := ioqPutchar_of_room h (by omega) y
    have hroom₁ : (xs ++ [y]).length + ys.length < bufsize := by
      rw [List.length_append, List.length_singleton]
      omega
    obtain ⟨q₂, hloop, hq₂, hflag₂⟩ :=
      ih hq₁ (by rw [hflag₁]; exact hopen) hroom₁ (bytesWrite + 1)
    rw [List.append_assoc, List.singleton_append] at hq₂
    refine ⟨q₂, ?_, hq₂, hflag₂.trans hflag₁⟩
    rw [pipeWriteLoop, if_neg hopen, hput, Option.bind_some, hloop, List.length_cons,
      Nat.add_assoc, Nat.add_comm 1]

/-- A write never sleeps: it puts in what fits, or nothing after the queue was cleared. -/
theorem pipeWrite_spec (h : Holds q xs) (bytes : List Char8) :
    ∃ ret q', pipeWrite q bytes = some (ret, q') ∧ Holds q' (xs ++ bytes.take ret) ∧
      q'.flag = q.flag ∧ (q.flag = 0 → bytes.take ret = []) ∧ (ret ≠ 0 → bytes.take ret ≠ []) := by
  have hlen := h.length
  generalize hsize : (if bytes.length < bufsize - ioqLength q - 1 then bytes.length
    else bufsize - ioqLength q - 1) = size
  have hfit : size ≤ bytes.length ∧ xs.length + size < bufsize := by
    rw [ioqLength_eq h] at hsize
    split at hsize <;> omega
  have htake : (bytes.take size).length = size := List.length_take_of_le hfit.1
  have hwrite : pipeWrite q bytes = pipeWriteLoop q 0 (bytes.take size) := by
    rw [← hsize]
    rfl
  have hzero : Holds q (xs ++ bytes.take 0) := by
    rw [List.take_zero, List.append_nil]
    exact h
  by_cases hflag : q.flag = 0
  · refine ⟨0, q, ?_, hzero, rfl, fun _ => rfl, fun hne => absurd rfl hne⟩
    rw [hwrite]
    cases bytes.take size with
    | nil => rfl
    | cons byte rest => rw [pipeWriteLoop, if_pos hflag]
  · have hroom : xs.length + (bytes.take size).length < bufsize := by
      rw [htake]
      exact hfit.2
    obtain ⟨q', hloop, hq', hflag'⟩ := pipeWriteLoop_of_open h hflag hroom 0
    rw [htake, Nat.zero_add] at hloop
    refine ⟨size, q', hwrite.trans hloop, hq', hflag', fun h0 => absurd h0 hflag, ?_⟩
    intro hne hnil
    rw [hnil, List.length_nil] at htake
    exact hne htake.symm

end Loops

/-- A sleeping read is one that `PipeSafe` lets start, and it was woken only for a character. -/
structure CallOk (c : ReadCall) (xs : List Char8) : Prop where
  got : c.got.length ≤ c.old.length
  count : c.old.length < 2 ^ 31
  fd : readError c.fd = false
  woken : c.woken = true → xs ≠ []

structure PipeInv (s : PipeSys) (xs : List Char8) : Prop where
  holds : Holds s.ioq xs
  clean : endChar ∉ xs
  sent : s.delivered ++ s.got <+: s.accepted
  kept : 0 < s.readers → s.delivered ++ s.got ++ xs = s.accepted
  cleared : s.ioq.flag = 0 → xs = [] ∧ (0 < s.readers → s.writers = 0)
  call : ∀ c, s.call = some c → 0 < s.readers ∧ CallOk c xs
  eofs : ∀ e ∈ s.eofs, e.empty = true ∧ e.writers = 0

theorem init_pipeInv (buf : Nat → Char8) : PipeInv (PipeSys.init buf) [] where
  holds := holds_init buf
  clean := List.not_mem_nil
  sent := List.prefix_rfl
  kept _ := rfl
  cleared h := absurd h Nat.one_ne_zero
  call c hc := by cases hc
  eofs e he := by cases he

section Steps

variable {s s' : PipeSys} {xs : List Char8}

theorem PipeInv.write (inv : PipeInv s xs) {bytes : List Char8} (hclean : endChar ∉ bytes)
    (hstep : pipeStep s (.write bytes) = some s') : ∃ xs', PipeInv s' xs' := by
  obtain ⟨ret, q, hwrite, hq, hflag, hcleared, hput⟩ := pipeWrite_spec inv.holds bytes
  simp only [pipeStep, hwrite, Option.map_some] at hstep
  split at hstep
  case isFalse => cases hstep
  case isTrue =>
    cases hstep
    -- the sleeping read keeps what it took, whether it is woken or not
    have hgot : PipeSys.got { s with
        ioq := q
        accepted := s.accepted ++ bytes.take ret
        call := if ret = 0 then s.call else s.call.map fun c => { c with woken := true } } =
          s.got := by
      simp only [PipeSys.got]
      split
      · rfl
      · cases s.call <;> rfl
    refine ⟨xs ++ bytes.take ret, hq, ?_, ?_, ?_, ?_, ?_, inv.eofs⟩
    · rw [List.mem_append, not_or]
      exact ⟨inv.clean, fun hmem => hclean (List.mem_of_mem_take hmem)⟩
    · rw [hgot]
      exact inv.sent.trans (List.prefix_append _ _)
    · intro hreaders
      rw [hgot, ← List.append_assoc, inv.kept hreaders]
    · intro hzero
      have hzero' : s.ioq.flag = 0 := hflag ▸ hzero
      rw [hcleared hzero', List.append_nil]
      exact inv.cleared hzero'
    · intro c hc
      by_cases hret : ret = 0
      · have hc' : s.call = some c := by
          rw [← hc]
          exact (if_pos hret).symm
        have hnil : xs ++ bytes.take ret = xs := by rw [hret, List.take_zero, List.append_nil]
        rw [hnil]
        exact inv.call c hc'
      · have hc' : s.call.map (fun c => { c with woken := true }) = some c := by
          rw [← hc]
          exact (if_neg hret).symm
        obtain ⟨c₀, hc₀, rfl⟩ := Option.map_eq_some_iff.mp hc'
        obtain ⟨hreaders, hok⟩ := inv.call c₀ hc₀
        refine ⟨hreaders, hok.got, hok.count, hok.fd, fun _ hnil => ?_⟩
        exact hput hret (List.append_eq_nil_iff.mp hnil).2

/-- A read that ended with all it asked for. -/
theorem sysReadRet_of_lt {fd count ret : Nat} (hcount : count < 2 ^ 31) (hret : ret = count) :
    sysReadRet fd count ret = count := by
  have hne : ret ≠ minusOne := by
    rw [minusOne]
    omega
  rw [sysReadRet, if_neg fun h => hne h.2.2, toInt32, if_pos hcount]

/-- A read that has taken the front of `xs` and left `ys` in the pipe. -/
theorem PipeInv.taken (inv : PipeInv s xs) {ys : List Char8} (hreaders : 0 < s.readers)
    (hq : Holds s'.ioq ys) (hflag : s'.ioq.flag = s.ioq.flag) (hsub : ys ⊆ xs)
    (hends : s'.readers = s.readers ∧ s'.writers = s.writers)
    (hsent : s'.delivered ++ s'.got ++ ys = s'.accepted)
    (hcall : ∀ c, s'.call = some c → CallOk c ys)
    (heofs : ∀ e ∈ s'.eofs, e.empty = true ∧ e.writers = 0) : PipeInv s' ys where
  holds := hq
  clean hmem := inv.clean (hsub hmem)
  sent := ⟨ys, hsent⟩
  kept _ := hsent
  cleared hzero := by
    rw [hflag] at hzero
    obtain ⟨hnil, hwriters⟩ := inv.cleared hzero
    refine ⟨List.subset_nil.mp (hnil ▸ hsub), fun _ => ?_⟩
    rw [hends.2]
    exact hwriters hreaders
  call c hc := by
    rw [hends.1]
    exact ⟨hreaders, hcall c hc⟩
  eofs := heofs

/-- The read goes on from a state in which it has taken `c.got`. -/
theorem PipeInv.sysRead {c : ReadCall} (inv : PipeInv s xs) (hgot : s.got = c.got)
    (hreaders : 0 < s.readers) (hok : CallOk c xs) (hfresh : s.ioq.flag = 0 → c.got = [])
    (hstdin : c.fd = stdin → s.ioq.flag ≠ 0 ∨ c.old = []) : ∃ ys, PipeInv (s.sysRead c) ys := by
  have hlen := hok.got
  have hsent := inv.kept hreaders
  rw [hgot, List.append_assoc] at hsent
  rcases Nat.lt_or_ge xs.length (c.old.length - c.got.length) with hlt | hle
  · obtain ⟨q, hread, hq, hflag⟩ := pipeRead_of_lt inv.holds inv.clean hlt c.got
    by_cases hzero : s.ioq.flag = 0
    · -- the pipe was cleared and gives the end character at once
      obtain ⟨rfl, hwriters⟩ := inv.cleared hzero
      rw [if_pos hzero] at hread
      have hold : c.old ≠ [] := by
        intro hnil
        rw [hnil, List.length_nil, Nat.zero_sub] at hlt
        exact Nat.not_lt_zero _ hlt
      have hfd : c.fd ≠ stdin := fun h => (hstdin h).elim (absurd hzero) hold
      have hvalue : sysReadRet c.fd c.old.length minusOne = 0 := by
        rw [sysReadRet, if_pos ⟨hfd, by rw [hok.fd]; exact Bool.false_ne_true, rfl⟩]
      rw [hfresh hzero, List.nil_append] at hsent
      refine ⟨[], inv.taken hreaders ?_ ?_ (List.Subset.refl _) ?_ ?_ ?_ ?_⟩
      all_goals simp only [PipeSys.sysRead, hok.fd, hread, Bool.false_eq_true, if_false,
        PipeSys.sysReadReturn, hvalue, PipeSys.got]
      case refine_1 => exact hq
      case refine_2 => exact hflag
      case refine_3 => exact ⟨trivial, trivial⟩
      case refine_4 => simpa using hsent
      case refine_5 =>
        intro d hd
        cases hd
      case refine_6 =>
        rw [if_pos ⟨trivial, hold⟩]
        intro e he
        rcases List.mem_append.mp he with he | he
        · exact inv.eofs e he
        · rw [List.mem_singleton.mp he]
          exact ⟨(ioqEmpty_iff hq).mpr rfl, hwriters hreaders⟩
    · -- the read takes everything and sleeps
      rw [if_neg hzero] at hread
      refine ⟨[], inv.taken hreaders ?_ ?_ (List.nil_subset _) ?_ ?_ ?_ ?_⟩
      all_goals simp only [PipeSys.sysRead, hok.fd, hread, Bool.false_eq_true, if_false,
        PipeSys.got]
      case refine_1 => exact hq
      case refine_2 => exact hflag
      case refine_3 => exact ⟨trivial, trivial⟩
      case refine_4 => simpa using hsent
      case refine_5 =>
        intro d hd
        cases hd
        refine ⟨?_, hok.count, hok.fd, fun h => absurd h Bool.false_ne_true⟩
        change (c.got ++ xs).length ≤ c.old.length
        rw [List.length_append]
        omega
      case refine_6 => exact inv.eofs
  · -- all that was asked for is there
    obtain ⟨q, hread, hq, hflag⟩ := pipeRead_of_le inv.holds inv.clean hle c.got
    generalize hleft : c.old.length - c.got.length = left at hread hq hle
    have hbuf : (c.got ++ xs.take left).length = c.old.length := by
      rw [List.length_append, List.length_take_of_le hle]
      omega
    have hvalue : sysReadRet c.fd c.old.length (c.got.length + left) = c.old.length :=
      sysReadRet_of_lt hok.count (by omega)
    refine ⟨xs.drop left, inv.taken hreaders ?_ ?_ (List.drop_subset _ _) ?_ ?_ ?_ ?_⟩
    all_goals simp only [PipeSys.sysRead, hok.fd, hleft, hread, Bool.false_eq_true, if_false,
      PipeSys.sysReadReturn, hvalue, PipeSys.got]
    case refine_1 => exact hq
    case refine_2 => exact hflag
    case refine_3 => exact ⟨trivial, trivial⟩
    case refine_4 =>
      rw [Int.toNat_natCast, List.take_append_of_le_length (Nat.le_of_eq hbuf.symm),
        List.take_of_length_le (Nat.le_of_eq hbuf)]
      simpa using hsent
    case refine_5 =>
      intro d hd
      cases hd
    case refine_6 =>
      rw [if_neg]
      · exact inv.eofs
      · rintro ⟨hzero, hold⟩
        exact hold (List.eq_nil_of_length_eq_zero (Int.ofNat.inj hzero))

/-- Descriptors come and go without a change to the queue. -/
theorem PipeInv.ends (inv : PipeInv s xs) {offset readers writers : Nat}
    (hreaders : 0 < readers → 0 < s.readers) (hheld : s.heldReaders ≤ readers)
    (hwriters : s.writers = 0 → writers = 0) :
    PipeInv { s with offset := offset, readers := readers, writers := writers } xs where
  holds := inv.holds
  clean := inv.clean
  sent := inv.sent
  kept hpos := inv.kept (hreaders hpos)
  cleared hzero :=
    ⟨(inv.cleared hzero).1, fun hpos => hwriters ((inv.cleared hzero).2 (hreaders hpos))⟩
  call c hc := by
    have hc' : s.call = some c := hc
    refine ⟨Nat.lt_of_lt_of_le Nat.zero_lt_one ?_, (inv.call c hc').2⟩
    rw [PipeSys.heldReaders, hc'] at hheld
    exact hheld
  eofs := inv.eofs

/-- The queue is cleared when no read end is left, or when there is nothing to lose. -/
theorem PipeInv.clear (inv : PipeInv s xs) {offset readers writers : Nat}
    (hreaders : 0 < readers → 0 < s.readers) (hheld : s.heldReaders ≤ readers)
    (hsafe : readers = 0 ∨ xs = [] ∧ writers = 0) :
    PipeInv { s with ioq := ioqueueClear, offset := offset, readers := readers,
                     writers := writers } [] where
  holds := holds_clear
  clean := List.not_mem_nil
  sent := inv.sent
  kept hpos := by
    have hnil := (hsafe.resolve_left (Nat.ne_of_gt hpos)).1
    have hkept := inv.kept (hreaders hpos)
    rw [hnil] at hkept
    exact hkept
  cleared _ := ⟨rfl, fun hpos => (hsafe.resolve_left (Nat.ne_of_gt hpos)).2⟩
  call c hc := by
    have hc' : s.call = some c := hc
    have hpos : 0 < readers := by
      rw [PipeSys.heldReaders, hc'] at hheld
      exact Nat.lt_of_lt_of_le Nat.zero_lt_one hheld
    have hok := (inv.call c hc').2
    rw [(hsafe.resolve_left (Nat.ne_of_gt hpos)).1] at hok
    exact ⟨hpos, hok⟩
  eofs := inv.eofs

theorem PipeInv.close (inv : PipeInv s xs) {readers writers : Nat}
    (hreaders : 0 < readers → 0 < s.readers) (hheld : s.heldReaders ≤ readers)
    (hwriters : s.writers = 0 → writers = 0)
    (hsafe : s.offset = 1 → readers = 0 ∨ ioqEmpty s.ioq = true ∧ writers = 0) :
    ∃ ys, PipeInv { s.sysClose with readers := readers, writers := writers } ys := by
  rw [PipeSys.sysClose]
  split
  · exact ⟨xs, inv.ends hreaders hheld hwriters⟩
  · split
    · rename_i hone
      rw [ioqEmpty_iff inv.holds] at hsafe
      exact ⟨[], inv.clear hreaders hheld (hsafe hone)⟩
    · exact ⟨xs, inv.ends hreaders hheld hwriters⟩

theorem PipeSys.sysClose_readers : s.sysClose.readers = s.readers := by
  rw [sysClose]
  split
  · rfl
  · split <;> rfl

theorem PipeSys.sysClose_writers : s.sysClose.writers = s.writers := by
  rw [sysClose]
  split
  · rfl
  · split <;> rfl

theorem pipeStep_inv (inv : PipeInv s xs) (op : PipeOp) (safe : PipeSafe s op)
    (hstep : pipeStep s op = some s') : ∃ ys, PipeInv s' ys := by
  have hheld : s.heldReaders ≤ s.readers := by
    rw [PipeSys.heldReaders]
    split
    · rename_i hsome
      obtain ⟨c, hc⟩ := Option.isSome_iff_exists.mp hsome
      exact (inv.call c hc).1
    · exact Nat.zero_le _
  cases op with
  | write bytes => exact inv.write safe hstep
  | read fd old =>
    obtain ⟨hcount, hfd, hstdin⟩ := safe
    simp only [pipeStep, Option.ite_none_right_eq_some, Option.some.injEq] at hstep
    obtain ⟨⟨hpos, hnone⟩, rfl⟩ := hstep
    rw [Option.isNone_iff_eq_none] at hnone
    refine inv.sysRead ?_ hpos ⟨Nat.zero_le _, hcount, hfd, ?_⟩ (fun _ => rfl) hstdin
    · rw [PipeSys.got, hnone]
      rfl
    · exact fun h => absurd h Bool.false_ne_true
  | resume =>
    obtain ⟨c, hc, hresume⟩ := Option.bind_eq_some_iff.mp hstep
    rw [Option.ite_none_right_eq_some, Option.some.injEq] at hresume
    obtain ⟨hwoken, rfl⟩ := hresume
    obtain ⟨hpos, hok⟩ := inv.call c hc
    -- a woken read finds a character, so the queue was not cleared
    have hopen : s.ioq.flag ≠ 0 := fun hzero => hok.woken hwoken (inv.cleared hzero).1
    refine inv.sysRead ?_ hpos hok (fun hzero => absurd hzero hopen) fun _ => .inl hopen
    rw [PipeSys.got, hc]
    rfl
  | addWriter counted =>
    simp only [pipeStep, Option.ite_none_right_eq_some, Option.some.injEq] at hstep
    obtain ⟨hpos, rfl⟩ := hstep
    exact ⟨xs, inv.ends id hheld fun hzero => absurd hzero (Nat.ne_of_gt hpos)⟩
  | addReader counted =>
    simp only [pipeStep, Option.ite_none_right_eq_some, Option.some.injEq] at hstep
    obtain ⟨hpos, rfl⟩ := hstep
    exact ⟨xs, inv.ends (fun _ => hpos) (Nat.le_succ_of_le hheld) id⟩
  | closeWriter pid =>
    simp only [pipeStep, Option.ite_none_right_eq_some, Option.some.injEq] at hstep
    obtain ⟨⟨hpos, -⟩, rfl⟩ := hstep
    rw [PipeSys.sysClose_readers]
    refine inv.close id hheld (fun hzero => by rw [hzero]) fun hone => ?_
    exact (safe hone).imp id fun h => ⟨h.1, by rw [h.2]⟩
  | closeReader pid =>
    simp only [pipeStep, Option.ite_none_right_eq_some, Option.some.injEq] at hstep
    obtain ⟨⟨hlt, -⟩, rfl⟩ := hstep
    rw [PipeSys.sysClose_writers]
    refine inv.close (fun _ => by omega) (by omega) id fun hone => ?_
    exact (safe hone).imp (fun h => by rw [h]) id
  | dropWriter =>
    simp only [pipeStep, Option.ite_none_right_eq_some, Option.some.injEq] at hstep
    obtain ⟨-, rfl⟩ := hstep
    exact ⟨xs, inv.ends id hheld fun hzero => by rw [hzero]⟩
  | dropReader =>
    simp only [pipeStep, Option.ite_none_right_eq_some, Option.some.injEq] at hstep
    obtain ⟨hlt, rfl⟩ := hstep
    exact ⟨xs, inv.ends (fun _ => by omega) (by omega) id⟩

end Steps

/-- What was delivered is the front of what was accepted; while a read end is open, what is
missing is in the pipe or in the buffer of the sleeping read; and every end of file was
reported on an empty pipe without a write end. -/
structure EndToEnd (s : PipeSys) : Prop where
  isPrefix : s.delivered <+: s.accepted
  nothingLost : 0 < s.readers → s.delivered ++ s.got ++ contents s.ioq = s.accepted
  eofs : ∀ e ∈ s.eofs, e.empty = true ∧ e.writers = 0

theorem PipeInv.endToEnd {s : PipeSys} {xs : List Char8} (inv : PipeInv s xs) : EndToEnd s where
  isPrefix := (List.prefix_append _ _).trans inv.sent
  nothingLost hreaders := by
    rw [contents_eq inv.holds]
    exact inv.kept hreaders
  eofs := inv.eofs

theorem pipe_runs (buf : Nat → Char8) (ops : List PipeOp)
    (safe : Run.Meets pipeStep PipeSafe (PipeSys.init buf) ops) (s : PipeSys)
    (run : Run.exec pipeStep (PipeSys.init buf) ops = some s) : EndToEnd s := by
  have hinv : ∃ xs, PipeInv s xs := by
    refine Run.invariant (I := fun t => ∃ xs, PipeInv t xs) ⟨[], init_pipeInv buf⟩ safe
      (fun t op t' inv hsafe hstep => ?_) run
    obtain ⟨xs, hxs⟩ := inv
    exact pipeStep_inv hxs op hsafe hstep
  obtain ⟨xs, hxs⟩ := hinv
  exact hxs.endToEnd

/-- A read sleeps, is woken by a write through a descriptor of a second process, and a later
read gets the rest. Both descriptors of the writers are closed, and the read end is closed last. -/
def sleepAndRest : List PipeOp :=
  [.read 3 [0, 0], .addWriter true, .write [97], .resume, .write [98, 99, 100], .resume,
    .closeWriter 1, .read 0 [0, 0], .closeWriter 2, .closeReader 1]

theorem pipe_runs_sleepAndRest :
    ∃ s, Run.exec pipeStep (PipeSys.init fun _ => 0) sleepAndRest = some s ∧
      s.delivered = [97, 98, 99, 100] ∧ EndToEnd s := by
  have hrun : ((Run.exec pipeStep (PipeSys.init fun _ => 0) sleepAndRest).map
      PipeSys.delivered) = some [97, 98, 99, 100] := by decide +kernel
  obtain ⟨s, hs, hdelivered⟩ := Option.map_eq_some_iff.mp hrun
  exact ⟨s, hs, hdelivered, pipe_runs (fun _ => 0) sleepAndRest (by decide +kernel) s hs⟩

/-- `"a@b"` is written and read back: the read reports the end of the file while `'b'` is in the
pipe and its write end is open, and `'a'` is gone. -/
theorem pipe_loses_at_sign :
    (Run.exec pipeStep (PipeSys.init fun _ => 0) [.write [97, 64, 98], .read 3 [0, 0, 0]]).map
        (fun s => (s.accepted, s.delivered, contents s.ioq,
          s.eofs.map fun e => (e.empty, e.writers))) =
      some ([97, 64, 98], [], [98], [(false, 1)]) := by
  decide +kernel

end KernelTravel.Pipe

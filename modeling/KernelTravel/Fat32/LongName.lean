import KernelTravel.Fat32.Create

/-!
# Names in long entries

`dir_alloc_file` cuts a name into long entries of thirteen characters and writes them from the
short entry towards the start of the directory; `dirGetDentFrom` meets them in the other order
and puts the text of each before what it has. The last piece of a name ends with a zero, and
behind the zero an entry holds whatever the stack held.
-/

namespace KernelTravel.Fat32

open Function

open KernelTravel.Fs (Name)

section Slots

/-- The long entries that the loop of `dir_alloc_file` writes. -/
def longSlots (junk : Nat → Nat → Wchar) : List Nat → Name → List (Nat → Byte)
  | [], _ => []
  | i :: is, name =>
    update (fillLongEntry (junk i) name).1 0 (ldirOrd i) ::
      match (fillLongEntry (junk i) name).2 with
      | none => []
      | some name => longSlots junk is name

/-- The loop writes these entries, the `i`th one `i` slots before the short entry. -/
theorem longLoop_eq (write : Writer) (junk : Nat → Nat → Wchar) (dir off : Nat) (is : List Nat)
    (name : Name)
    (fs : Fs) : longLoop write junk dir off is name fs = (is.zip (longSlots junk is name)).foldlM
      (fun fs slot => write fs dir slot.2 (slotBefore off slot.1) direntSize) fs := by
  induction is generalizing name fs with
  | nil => rfl
  | cons i is ih =>
    rw [longLoop, longSlots, List.zip_cons_cons, List.foldlM_cons]
    obtain ⟨longDir, rest⟩ := fillLongEntry (junk i) name
    refine bind_congr fun fs => ?_
    cases rest with
    | none => rw [List.zip_nil_right]; rfl
    | some rest => exact ih rest fs

/-- The rounds of `dirGetDentFrom` over long entries. -/
def ScanBufs.insertAll (b : ScanBufs) (slots : List (Nat → Byte)) : Except Trap ScanBufs :=
  slots.foldlM (fun b direntBuf => { b with direntBuf }.insertLong) b

theorem insertAll_append (b : ScanBufs) (slots slots' : List (Nat → Byte)) :
    b.insertAll (slots ++ slots') = (b.insertAll slots >>= fun b => b.insertAll slots') :=
  List.foldlM_append

theorem insertAll_singleton (b : ScanBufs) (direntBuf : Nat → Byte) :
    b.insertAll [direntBuf] = { b with direntBuf }.insertLong := by
  rw [ScanBufs.insertAll, List.foldlM_cons]
  exact bind_pure _

end Slots

section Pieces

variable {junk : Nat → Wchar} {r : Name} {t : Nat}

/-- The entry with the first of its three pieces, the first two, and all. -/
def onePiece (junk : Nat → Wchar) (r : Name) : Nat → Byte :=
  Mem.blit (update (fun _ => 0) 11 attrLongNameMask) 1 10 (wideBytes junk r)

def twoPieces (junk : Nat → Wchar) (r : Name) : Nat → Byte :=
  Mem.blit (onePiece junk r) 14 12 fun k => wideBytes junk r (10 + k)

def threePieces (junk : Nat → Wchar) (r : Name) : Nat → Byte :=
  Mem.blit (twoPieces junk r) 28 4 fun k => wideBytes junk r (22 + k)

theorem fillLongEntry_cases (junk : Nat → Wchar) (r : Name) :
    (r.length < 5 ∧ fillLongEntry junk r = (onePiece junk r, none)) ∨
      (5 ≤ r.length ∧ r.length < 11 ∧ fillLongEntry junk r = (twoPieces junk r, none)) ∨
      (11 ≤ r.length ∧ fillLongEntry junk r =
        (threePieces junk r, if r.length + 1 ≤ bytesLongent then none
          else some (r.drop bytesLongent))) := by
  rcases Nat.lt_or_ge r.length 5 with hone | hmore
  · exact .inl ⟨hone, if_pos hone⟩
  · rcases Nat.lt_or_ge r.length 11 with htwo | hall
    · exact .inr (.inl ⟨hmore, htwo, (if_neg (by omega)).trans (if_pos htwo)⟩)
    · exact .inr (.inr ⟨hall, (if_neg (by omega)).trans (if_neg (by omega))⟩)

theorem fillLongEntry_last (h : r.length < bytesLongent) : (fillLongEntry junk r).2 = none := by
  obtain ⟨-, heq⟩ | ⟨-, -, heq⟩ | ⟨-, heq⟩ := fillLongEntry_cases junk r
  · rw [heq]
  · rw [heq]
  · rw [heq]
    exact if_pos h

theorem fillLongEntry_more (h : bytesLongent ≤ r.length) :
    (fillLongEntry junk r).2 = some (r.drop bytesLongent) := by
  have hbytes : bytesLongent = 13 := rfl
  obtain ⟨hlen, -⟩ | ⟨-, hlen, -⟩ | ⟨-, heq⟩ := fillLongEntry_cases junk r
  · omega
  · omega
  · rw [heq]
    exact if_neg (by omega)

/-- Where byte `t` of the characters is in a long entry. -/
def piecePos (t : Nat) : Nat := if t < 10 then 1 + t else if t < 22 then 4 + t else 6 + t

theorem piecePos_middle (hlow : 10 ≤ t) (ht : t < 22) : piecePos t = 4 + t :=
  (if_neg (by omega)).trans (if_pos ht)

theorem piecePos_high (ht : 22 ≤ t) : piecePos t = 6 + t :=
  (if_neg (by omega)).trans (if_neg (by omega))

theorem piecePos_ne_zero (t : Nat) : piecePos t ≠ 0 := by
  rw [piecePos]
  split_ifs <;> omega

theorem tmpBuf_eq (f : Nat → Byte) (ht : t < 26) : tmpBuf f t = f (piecePos t) := by
  rw [tmpBuf, Mem.blit_apply, Mem.blit_apply, Mem.blit_apply, piecePos]
  split_ifs <;> first | omega | exact congrArg f (by omega)

theorem onePiece_apply (ht : t < 10) : onePiece junk r (piecePos t) = wideBytes junk r t := by
  rw [onePiece, piecePos, if_pos ht, Mem.blit_apply, if_pos (by omega), Nat.add_sub_cancel_left]

theorem twoPieces_apply (ht : t < 22) : twoPieces junk r (piecePos t) = wideBytes junk r t := by
  rw [twoPieces, Mem.blit_apply]
  rcases Nat.lt_or_ge t 10 with hlow | hhigh
  · rw [← onePiece_apply hlow, piecePos, if_pos hlow, if_neg (by omega)]
  · rw [piecePos_middle hhigh ht, if_pos (by omega)]
    exact congrArg _ (by omega)

theorem threePieces_apply (ht : t < 26) : threePieces junk r (piecePos t) = wideBytes junk r t := by
  rw [threePieces, Mem.blit_apply]
  rcases Nat.lt_or_ge t 22 with hlow | hhigh
  · have hbefore : piecePos t < 28 := by
      rw [piecePos]
      split_ifs <;> omega
    rw [if_neg (by omega), twoPieces_apply hlow]
  · rw [piecePos_high hhigh, if_pos (by omega)]
    exact congrArg _ (by omega)

/-- The pieces that are filled in reach up to the zero behind the name. -/
theorem tmpBuf_fillLongEntry (ord : Byte) (ht : t < 26) (hreach : t / 2 ≤ r.length) :
    tmpBuf (update (fillLongEntry junk r).1 0 ord) t = wideBytes junk r t := by
  rw [tmpBuf_eq _ ht, update_of_ne (piecePos_ne_zero t)]
  obtain ⟨hlen, heq⟩ | ⟨-, hlen, heq⟩ | ⟨-, heq⟩ := fillLongEntry_cases junk r
  · rw [heq]
    exact onePiece_apply (by omega)
  · rw [heq]
    exact twoPieces_apply (by omega)
  · rw [heq]
    exact threePieces_apply ht

theorem longChar_fillLongEntry (ord : Byte) (ht : t < bytesLongent) (hreach : t ≤ r.length) :
    longChar (update (fillLongEntry junk r).1 0 ord) t = wideName junk r t := by
  rw [bytesLongent] at ht
  have hlow := @tmpBuf_fillLongEntry junk r (2 * t) ord (by omega) (by omega)
  have hhigh := @tmpBuf_fillLongEntry junk r (2 * t + 1) ord (by omega) (by omega)
  have hword := (wideName junk r t).isLt
  rw [longChar, Mem.leNum, Mem.leNum, Mem.leNum, hlow, hhigh, wideBytes, wideBytes,
    show 2 * t / 2 = t by omega, show (2 * t + 1) / 2 = t by omega, show 2 * t % 2 = 0 by omega,
    show (2 * t + 1) % 2 = 1 by omega, Nat.pow_zero, Nat.pow_one, Nat.div_one, BitVec.toNat_ofNat,
    BitVec.toNat_ofNat]
  refine BitVec.eq_of_toNat_eq ?_
  rw [BitVec.toNat_ofNat]
  omega

end Pieces

section Texts

/-- The characters of a name, as `str2wstr` gives them. -/
def wide (name : Name) : List Wchar := name.map (·.setWidth 16)

variable {junk : Nat → Wchar} {r : Name} {q : List Wchar} {t : Nat}

theorem setWidth_setWidth_byte (b : Byte) : (b.setWidth 16).setWidth 8 = b := by
  revert b
  decide

theorem ne_zero_of_mem_wide (h : (0 : Byte) ∉ r) : ∀ c ∈ wide r, c ≠ 0 := by
  rintro c hc rfl
  obtain ⟨b, hb, hzero⟩ := List.mem_map.mp hc
  have hback := setWidth_setWidth_byte b
  rw [hzero] at hback
  exact h ((show b = 0 from hback.symm) ▸ hb)

theorem lowBytes_wide (h : (0 : Byte) ∉ r) : lowBytes (wide r) = r := by
  have hmap : (wide r).map (·.setWidth 8) = r := by
    rw [wide, List.map_map]
    exact (List.map_congr_left fun b _ => setWidth_setWidth_byte b).trans (List.map_id r)
  rw [lowBytes, hmap]
  exact CStr.cut_eq_self fun b hb hzero => h (hzero ▸ hb)

theorem wideName_of_lt (h : t < r.length) : wideName junk r t = r[t].setWidth 16 := by
  rw [wideName, if_neg (by omega), List.getElem?_eq_getElem h, Option.map_some, Option.getD_some]

/-- The characters of an entry up to the end of the name. -/
theorem map_longChar (junk : Nat → Wchar) (ord : Byte) {n : Nat} (hn : n ≤ bytesLongent)
    (hr : n ≤ r.length) :
    (List.range n).map (longChar (update (fillLongEntry junk r).1 0 ord)) = wide (r.take n) := by
  refine List.ext_getElem (by simp [wide, hr]) fun i hi _ => ?_
  rw [List.length_map, List.length_range] at hi
  simp only [wide, List.getElem_map, List.getElem_range, List.getElem_take]
  rw [longChar_fillLongEntry ord (by omega) (by omega), wideName_of_lt (by omega)]

/-- A long entry that the name fills. -/
theorem collect_full (junk : Nat → Wchar) (ord : Byte) (hr : (0 : Byte) ∉ r)
    (hlen : bytesLongent ≤ r.length) :
    collect (wide (r.drop bytesLongent)) (update (fillLongEntry junk r).1 0 ord) = wide r := by
  have hjoin : wide (r.take bytesLongent) ++ wide (r.drop bytesLongent) = wide r := by
    rw [wide, wide, ← List.map_append, List.take_append_drop]
    rfl
  rw [collect, longText, map_longChar junk ord (Nat.le_refl _) hlen, hjoin]
  exact CStr.cut_eq_self (ne_zero_of_mem_wide hr)

/-- A long entry with the end of the name. -/
theorem collect_last (junk : Nat → Wchar) (ord : Byte) (hr : (0 : Byte) ∉ r)
    (hlen : r.length < bytesLongent) :
    collect q (update (fillLongEntry junk r).1 0 ord) = wide r := by
  have hstop : longChar (update (fillLongEntry junk r).1 0 ord) r.length = 0 := by
    rw [longChar_fillLongEntry ord hlen (Nat.le_refl _)]
    exact if_pos rfl
  obtain ⟨m, hm⟩ : ∃ m, bytesLongent = r.length + (m + 1) := ⟨bytesLongent - r.length - 1, by omega⟩
  -- the zero behind the name ends the text, whatever the entry holds behind it
  rw [collect, longText, hm, List.range_add, List.map_append,
    map_longChar junk ord (by omega) (Nat.le_refl _), List.take_length, List.range_succ_eq_map,
    List.map_cons, List.map_cons, Nat.add_zero, hstop, List.append_assoc, List.cons_append,
    CStr.cut_append_of_ne (ne_zero_of_mem_wide hr), CStr.cut_cons_zero, List.append_nil]

end Texts

section Codec

variable {name : Name}

/-- With enough numbers the loop ends with the name. -/
theorem length_longSlots (junk : Nat → Nat → Wchar) {is : List Nat}
    (his : (name.length + bytesLongent) / bytesLongent ≤ is.length) :
    (longSlots junk is name).length = (name.length + bytesLongent) / bytesLongent := by
  rw [bytesLongent] at his ⊢
  induction is generalizing name with
  | nil => exact absurd his (by rw [List.length_nil]; omega)
  | cons i is ih =>
    rw [List.length_cons] at his
    rcases Nat.lt_or_ge name.length bytesLongent with hlast | hmore
    · rw [longSlots, fillLongEntry_last hlast, List.length_singleton]
      rw [bytesLongent] at hlast
      omega
    · rw [longSlots, fillLongEntry_more hmore]
      rw [bytesLongent] at hmore
      have hrest := @ih (name.drop bytesLongent) (by rw [List.length_drop, bytesLongent]; omega)
      rw [List.length_drop, bytesLongent] at hrest
      rw [List.length_cons, bytesLongent, hrest]
      omega

/-- The entries of a name, put before one another from the last one on. -/
theorem insertAll_longSlots (junk : Nat → Nat → Wchar) {is : List Nat} {b : ScanBufs}
    (his : (name.length + bytesLongent) / bytesLongent ≤ is.length) (hname : (0 : Byte) ∉ name)
    (hlen : name.length < maxNameLen) (hb : CStr.Holds b.fullName []) :
    ∃ b', b.insertAll (longSlots junk is name).reverse = .ok b' ∧
      CStr.Holds b'.fullName (wide name) := by
  have hbytes : bytesLongent = 13 := rfl
  have hmax : maxNameLen = 128 := rfl
  induction is generalizing name with
  | nil => exact absurd his (by rw [List.length_nil, hbytes]; omega)
  | cons i is ih =>
    rw [List.length_cons] at his
    rcases Nat.lt_or_ge name.length bytesLongent with hlast | hmore
    · obtain ⟨b', hrun, -, holds⟩ := insertLong_ok
        (b := { b with direntBuf := update (fillLongEntry (junk i) name).1 0 (ldirOrd i) }) hb
        (by rw [List.length_nil]; omega)
      rw [collect_last (junk i) _ hname hlast] at holds
      refine ⟨b', ?_, holds⟩
      rw [longSlots, fillLongEntry_last hlast, List.reverse_singleton, insertAll_singleton, hrun]
    · have hdrop : (name.drop bytesLongent).length = name.length - bytesLongent :=
        List.length_drop ..
      obtain ⟨mid, hmid, hrest⟩ := @ih (name.drop bytesLongent) (by rw [hdrop, hbytes] at *; omega)
        (fun hmem => hname (List.mem_of_mem_drop hmem)) (by omega)
      obtain ⟨b', hrun, -, holds⟩ := insertLong_ok
        (b := { mid with direntBuf := update (fillLongEntry (junk i) name).1 0 (ldirOrd i) }) hrest
        (by rw [wide, List.length_map]; omega)
      rw [collect_full (junk i) _ hname hmore] at holds
      refine ⟨b', ?_, holds⟩
      rw [longSlots, fillLongEntry_more hmore, List.reverse_cons, insertAll_append, hmid]
      exact (insertAll_singleton mid _).trans hrun

/-- Every name comes back from its long entries, whatever the arrays of both functions hold
before. -/
theorem takeName_longSlots (junk : Nat → Nat → Wchar) (stack : ScanBufs) (short : Nat → Byte)
    (hname : (0 : Byte) ∉ name) (hpos : 1 ≤ name.length) (hlen : name.length ≤ 127) :
    (longSlots junk (List.range' 1 (getEntryCountByName name - 1)) name).length =
      getEntryCountByName name - 1 ∧
      ∃ b, { stack with fullName := update stack.fullName 0 0 }.insertAll
          (longSlots junk (List.range' 1 (getEntryCountByName name - 1)) name).reverse = .ok b ∧
        ∃ out, { b with direntBuf := short }.takeName = .ok out ∧ CStr.Holds out name := by
  have hcount : getEntryCountByName name - 1 = (name.length + bytesLongent) / bytesLongent := by
    rw [getEntryCountByName_eq, Nat.add_sub_cancel_left]
  have hmax : name.length < maxNameLen := Nat.lt_succ_of_le hlen
  have hrounds : (name.length + bytesLongent) / bytesLongent ≤
      (List.range' 1 (getEntryCountByName name - 1)).length := by
    rw [List.length_range', hcount]
  have hwide : (wide name).length = name.length := List.length_map ..
  have hsome : wide name ≠ [] := List.ne_nil_of_length_pos (by omega)
  obtain ⟨b, hrun, holds⟩ := insertAll_longSlots junk hrounds hname hmax
    (b := { stack with fullName := update stack.fullName 0 0 }) (holds_empty stack)
  obtain ⟨out, htake, hout⟩ := takeName_ok (b := { b with direntBuf := short }) holds (by omega)
    fun hnil => absurd hnil hsome
  rw [entryName, if_neg hsome, lowBytes_wide hname] at hout
  exact ⟨(length_longSlots junk hrounds).trans hcount.symm, b, hrun, out, htake, hout⟩

/-- A stack full of ones. -/
def stackOfOnes : ScanBufs := ⟨fun _ => 0xFF, fun _ => 0xFF, fun _ => 0xFFFF⟩

/-- Thirteen characters, the length at which the zero needs an entry of its own. -/
theorem takeName_longSlots_thirteen :
    (longSlots (fun _ _ => 0xFFFF) (List.range' 1 2) (List.replicate 13 0x61)).length = 2 ∧
      ∃ b, { stackOfOnes with fullName := update stackOfOnes.fullName 0 0 }.insertAll
          (longSlots (fun _ _ => 0xFFFF) (List.range' 1 2) (List.replicate 13 0x61)).reverse =
          .ok b ∧
        ∃ out, { b with direntBuf := fun _ => 0xFF }.takeName = .ok out ∧
          CStr.Holds out (List.replicate 13 (0x61 : Byte)) :=
  @takeName_longSlots (List.replicate 13 0x61) (fun _ _ => 0xFFFF) stackOfOnes
    (fun _ => 0xFF) (by decide) (by decide) (by decide)

end Codec

end KernelTravel.Fat32

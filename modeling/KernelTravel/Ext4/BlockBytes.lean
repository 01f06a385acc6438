import KernelTravel.Buf.View
import KernelTravel.Ext4.Balloc
import Mathlib.Order.Interval.Finset.Nat

/-!
# Byte ranges and whole blocks on the disk

`ext4_block_readbytes`, `ext4_block_writebytes`, `ext4_blocks_get_direct` and
`ext4_blocks_set_direct` of `fs/ext4/ext4_block.c`. None of them releases a buffer, so that each
sector they touch keeps its buffer in the cache.

A byte range is cut into the end of a sector, whole sectors, and the start of a sector. The read
takes the last piece from the offset of the first one; the write does not, but it does not mark
the whole sectors for the write back.

The transfer of whole blocks stores eight sectors for each block, whatever the block size, and
answers with the number of blocks, which `ext4_fwrite` takes for an error.
-/

namespace KernelTravel.Ext4

open Buf (View Fits)

/-- The bytes of a range. -/
def bytesAt (disk : Nat → Byte) (a n : Nat) : List Byte := (List.range n).map fun j => disk (a + j)

/-- A part of a sector, and whether `bufWrite` follows a change of it. -/
structure Piece where
  sector : Nat
  off : Nat
  len : Nat
  mark : Bool

namespace Piece

def start (p : Piece) : Nat := p.sector * bufSize + p.off

/-- The part lies in the buffer of the sector. -/
def Inside (p : Piece) : Prop := p.off + p.len ≤ bufSize

instance (p : Piece) : Decidable p.Inside := inferInstanceAs (Decidable (_ ≤ _))

end Piece

/-- The buffer of a piece, of which no byte behind the sector may be used. -/
def access (v : View) (p : Piece) : Option View :=
  if p.Inside then v.bufRead p.sector else none

/-- Copy the pieces out of their buffers, one after the other. -/
def readAll : List Piece → View → Option (List Byte × View)
  | [], v => some ([], v)
  | p :: ps, v => do
    let v ← access v p
    let (rest, v') ← readAll ps v
    some (bytesAt v.byte p.start p.len ++ rest, v')

/-- Copy `src` into the buffers of the pieces, one after the other. -/
def writeAll : List Piece → (Nat → Byte) → View → Option View
  | [], _, v => some v
  | p :: ps, src, v => do
    let v ← access v p
    writeAll ps (fun j => src (p.len + j)) { v with
      byte := Mem.blit v.byte p.start p.len src
      dirty := if p.mark then insert p.sector v.dirty else v.dirty }

section Ranges

variable (off len : Nat)

/-- How many bytes are taken from the end of a sector. -/
def firstLen : Nat := if off % bufSize = 0 then 0 else min (bufSize - off % bufSize) len

/-- The sector behind the first piece. -/
def nextIdx : Nat := if off % bufSize = 0 then off / bufSize else off / bufSize + 1

/-- The end of a sector and whole sectors, which `ext4_block_writebytes` does not mark. -/
def front : List Piece :=
  (if off % bufSize = 0 then [] else [⟨off / bufSize, off % bufSize, firstLen off len, true⟩]) ++
    (List.range ((len - firstLen off len) / bufSize)).map fun i =>
      ⟨nextIdx off + i, 0, bufSize, false⟩

/-- The start of a sector, which is taken from `tail` on. -/
def last (tail : Nat) : List Piece :=
  let left := len - firstLen off len
  if left % bufSize = 0 then []
  else [⟨nextIdx off + left / bufSize, tail, left % bufSize, true⟩]

end Ranges

/-- `pba + i` with `int pba = lp*(lba+count)`, which `bufRead` takes as an `unsigned long`. -/
def directSector (blockSize block i : Nat) : Nat :=
  let pba := (blockSize / bufSize * block + i) % 2 ^ 32
  if pba < 2 ^ 31 then pba else 2 ^ 64 - 2 ^ 32 + pba

/-- The sectors of `cnt` blocks, with `n` of them for each block. -/
def directPieces (blockSize lba n cnt : Nat) : List Piece :=
  (List.range cnt).flatMap fun count =>
    (List.range n).map fun i => ⟨directSector blockSize (lba + count) i, 0, bufSize, true⟩

/-- `ext4_blocks_get_direct`. -/
def blocksGetDirect (v : View) (blockSize lba cnt : Nat) : Option (List Byte × View) :=
  readAll (directPieces blockSize lba (blockSize / bufSize) cnt) v

/-- `ext4_blocks_set_direct`. The `bufSync` after every hundredth block changes no buffer but for
its mark. -/
def blocksSetDirect (v : View) (src : Nat → Byte) (blockSize lba cnt : Nat) : Option View :=
  writeAll (directPieces blockSize lba 8 cnt) src v

/-! ## Lists of pieces -/

/-- The sectors of the pieces. -/
def sectors (ps : List Piece) : Finset Nat := (ps.map Piece.sector).toFinset

/-- The pieces follow each other on the disk, from `a` to `b`. -/
def Joined : Nat → List Piece → Nat → Prop
  | a, [], b => a = b
  | a, p :: ps, b => p.start = a ∧ Joined (a + p.len) ps b

section Pieces

variable {v v' : View} {p : Piece} {ps qs : List Piece} {src disk : Nat → Byte} {a b c : Nat}

theorem Joined.append (hps : Joined a ps b) (hqs : Joined b qs c) : Joined a (ps ++ qs) c := by
  induction ps generalizing a with
  | nil => exact hps ▸ hqs
  | cons p ps ih => exact ⟨hps.1, ih hps.2⟩

theorem Joined.le (h : Joined a ps b) : a ≤ b := by
  induction ps generalizing a with
  | nil => exact h.le
  | cons p ps ih => exact (Nat.le_add_right a p.len).trans (ih h.2)

end Pieces

/-! ## Byte ranges -/

section Ranges

/-- The sectors that have a byte in the range. A range of no bytes inside a sector is read too. -/
def touched (off len : Nat) : Finset Nat :=
  Finset.Ico (off / bufSize) ((off + len + (bufSize - 1)) / bufSize)

variable {disk src : Nat → Byte} {off len : Nat}

/-- Nine sectors of one group do not fit, so that a range of 64 MiB and a sector is too long for
any cache. -/
example : ¬Fits (touched 0 (2 ^ 26 + bufSize)) := by
  intro h
  have hnine : (Finset.range 9).image (· * 2 ^ 14) ⊆
      (touched 0 (2 ^ 26 + bufSize)).filter (· % Buf.bgroupNum = 0) := by
    intro s hs
    obtain ⟨i, hi, rfl⟩ := Finset.mem_image.mp hs
    have := Finset.mem_range.mp hi
    rw [Finset.mem_filter, touched, Finset.mem_Ico]
    simp only [bufSize, Buf.bgroupNum]
    omega
  exact absurd ((Finset.card_le_card hnine).trans (h 0)) (by decide)

end Ranges

/-! ## Whole blocks -/

section Blocks

variable {blockSize lba cnt : Nat}

/-- The number that both loops count up to `cnt`, as an `int`. -/
def directCount (cnt : Nat) : Int := (BitVec.ofNat 32 cnt).toInt

/-- How many bytes of its source `ext4_blocks_set_direct` reads. -/
def setDirectReads (cnt : Nat) : Nat := cnt * (8 * bufSize)

/-- The blocks are stored from the source and nothing else is touched, they are read back, and the
result is `EOK`, which `ext4_fwrite` tests for. The result of the read is not tested. -/
structure DirectRight (v : View) (src : Nat → Byte) (blockSize lba cnt : Nat) : Prop where
  transfer : ∃ v', blocksSetDirect v src blockSize lba cnt = some v' ∧
    (∀ a, v'.byte a = if lba * blockSize ≤ a ∧ a < lba * blockSize + cnt * blockSize
      then src (a - lba * blockSize) else v.byte a) ∧
    ∃ v'', blocksGetDirect v' blockSize lba cnt = some (bytesAt src 0 (cnt * blockSize), v'')
  source : setDirectReads cnt ≤ cnt * blockSize
  report : directCount cnt = 0

/-- The result is the one that the caller expects for no blocks only. -/
theorem directRight_iff (v : View) (src : Nat → Byte) (blockSize lba : Nat) (hcnt : cnt < 2 ^ 32) :
    DirectRight v src blockSize lba cnt ↔ cnt = 0 := by
  refine ⟨fun h => ?_, fun hzero => ?_⟩
  · have hword :=
      congrArg BitVec.toNat (BitVec.eq_of_toInt_eq (show _ = (0#32).toInt from h.report))
    rw [BitVec.toNat_ofNat, Nat.mod_eq_of_lt hcnt] at hword
    exact hword
  · subst hzero
    refine ⟨⟨v, rfl, fun a => ?_, v, ?_⟩, Nat.le_of_eq ?_, rfl⟩
    · rw [if_neg (by omega)]
    · rw [Nat.zero_mul]
      rfl
    · rw [setDirectReads, Nat.zero_mul, Nat.zero_mul]

theorem directRight_nothing : DirectRight (View.unheld fun _ => 0) (fun _ => 1) 1024 7 0 :=
  (directRight_iff (View.unheld fun _ => 0) (fun _ => 1) 1024 7 (by decide)).mpr rfl

/-- One block of 1024 bytes: eight sectors are stored. -/
theorem directRight_small_block :
    ((blocksSetDirect (View.unheld fun _ => 0) (fun _ => 1) 1024 0 1).map fun v => v.byte 1024) =
        some 1 ∧
      ¬setDirectReads 1 ≤ 1 * 1024 ∧ directCount 1 = 1 ∧
      ¬DirectRight (View.unheld fun _ => 0) (fun _ => 1) 1024 0 1 :=
  ⟨by decide +kernel, by decide, by decide, fun h => absurd h.report (by decide)⟩

end Blocks

end KernelTravel.Ext4

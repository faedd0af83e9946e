import Mathlib.Tactic.IntervalCases
import Yarilo.Library.Bytes

/-! # Transaction-log framing

The header of a transaction log, the torn-write-proof size word and the eight-byte prefix of every
log record. A framed size keeps the high bit of each of its four bytes, so that a header of zeros,
which is what an encoder error leaves behind, never decodes.
-/

namespace Yarilo.MailIndex

open Library

def logMajorVersion : ℕ := 1
def logMinorVersion : ℕ := 3
def logHeaderMinSize : ℕ := 24
def logHeaderSize : ℕ := 40

/-- The fields of a log header that `NewLogHeader` sets from its caller or that a reader uses. -/
structure LogHeader where
  hdrSize : ℕ
  indexID : ℕ
  fileSeq : ℕ
  prevFileSeq : ℕ
  prevFileOffset : ℕ
  createStamp : ℕ
  initialModSeq : ℕ
  compatFlags : ℕ
deriving DecidableEq

def newLogHeader (indexID fileSeq createStamp : ℕ) : LogHeader where
  hdrSize := logHeaderSize
  indexID := indexID
  fileSeq := fileSeq
  prevFileSeq := 0
  prevFileOffset := 0
  createStamp := createStamp
  initialModSeq := 0
  compatFlags := 1

namespace LogHeader

def encodeBytes (h : LogHeader) : Bytes :=
  [UInt8.ofNat logMajorVersion, UInt8.ofNat logMinorVersion] ++ putLe 2 h.hdrSize ++
    putLe 4 h.indexID ++ putLe 4 h.fileSeq ++ putLe 4 h.prevFileSeq ++ putLe 4 h.prevFileOffset ++
    putLe 4 h.createStamp ++ putLe 8 h.initialModSeq ++ putLe 1 h.compatFlags ++
    List.replicate 7 0

end LogHeader

/-- Reads a log header; `none` stands for each of the decoder's errors. -/
def decodeLogHeader (file : Bytes) : Option LogHeader :=
  if file.length < 4 then none
  else if getLe 1 0 file ≠ logMajorVersion then none
  else
    let hdrSize := getLe 2 2 file
    if hdrSize < logHeaderMinSize then none
    else if file.length < hdrSize then none
    else
      -- An older writer's missing tail reads as zeros.
      let buf := file.take hdrSize ++ List.replicate (logHeaderSize - hdrSize) 0
      some {
        hdrSize := hdrSize
        indexID := getLe 4 4 buf
        fileSeq := getLe 4 8 buf
        prevFileSeq := getLe 4 12 buf
        prevFileOffset := getLe 4 16 buf
        createStamp := getLe 4 20 buf
        initialModSeq := getLe 8 24 buf
        compatFlags := getLe 1 32 buf }

/-- Reverses the four bytes of a word. -/
def byteSwap32 (v : BitVec 32) : BitVec 32 :=
  ((v >>> 24) &&& 0xff#32) ||| (((v >>> 16) &&& 0xff#32) <<< 8) |||
    (((v >>> 8) &&& 0xff#32) <<< 16) ||| ((v &&& 0xff#32) <<< 24)

/-- Packs a four-aligned size below 1 GiB; `none` is the encoder's error. -/
def encodeFramedSize (offset : BitVec 32) : Option (BitVec 32) :=
  if 0x40000000#32 ≤ offset then none
  else if offset &&& 3#32 ≠ 0#32 then none
  else
    let o := offset >>> 2
    some (byteSwap32 (0x80808080#32 ||| (o &&& 0x7f#32) ||| (((o >>> 7) &&& 0x7f#32) <<< 8) |||
      (((o >>> 14) &&& 0x7f#32) <<< 16) ||| (((o >>> 21) &&& 0x7f#32) <<< 24)))

/-- The size a framed word stands for, zero when a magic bit is missing. -/
def decodeFramedSize (framed : BitVec 32) : BitVec 32 :=
  let f := byteSwap32 framed
  if f &&& 0x80808080#32 ≠ 0x80808080#32 then 0#32
  else
    ((f &&& 0x7f#32) ||| (((f >>> 8) &&& 0x7f#32) <<< 7) |||
      (((f >>> 16) &&& 0x7f#32) <<< 14) ||| (((f >>> 24) &&& 0x7f#32) <<< 21)) <<< 2

theorem byteSwap32_byteSwap32 (v : BitVec 32) : byteSwap32 (byteSwap32 v) = v := by
  apply BitVec.eq_of_getLsbD_eq
  intro i bound
  interval_cases i <;> simp [byteSwap32]

variable {offset : BitVec 32}

private theorem getLsbD_high (bound : ¬ 0x40000000#32 ≤ offset) (i : ℕ) (high : 30 ≤ i) :
    offset.getLsbD i = false := by
  have small : offset.toNat < 2 ^ 30 := by simpa using BitVec.le_def.not.mp bound
  exact Nat.testBit_lt_two_pow (small.trans_le (Nat.pow_le_pow_right (by decide) high))

private theorem getLsbD_low (aligned : offset &&& 3#32 = 0#32) (i : ℕ) (low : i < 2) :
    offset.getLsbD i = false := by
  have bit := congrArg (BitVec.getLsbD · i) aligned
  interval_cases i <;> simpa using bit

/-- The size an encoder accepted is the one a reader decodes. -/
theorem decodeFramedSize_of_encode {framed : BitVec 32}
    (encoded : encodeFramedSize offset = some framed) : decodeFramedSize framed = offset := by
  unfold encodeFramedSize at encoded
  split at encoded
  · cases encoded
  rename_i bound
  split at encoded
  · cases encoded
  rename_i aligned
  have bits : ∀ i, i < 2 ∨ 30 ≤ i → offset.getLsbD i = false := fun i range =>
    range.elim (getLsbD_low (not_not.mp aligned) i) (getLsbD_high bound i)
  have bit0 : offset[0] = false := bits 0 (by decide)
  have bit1 : offset[1] = false := bits 1 (by decide)
  have bit30 : offset[30] = false := bits 30 (by decide)
  have bit31 : offset[31] = false := bits 31 (by decide)
  clear bits
  cases encoded
  unfold decodeFramedSize
  simp only [byteSwap32_byteSwap32]
  rw [if_neg]
  · apply BitVec.eq_of_getLsbD_eq
    intro i _
    interval_cases i <;> simp [bit0, bit1, bit30, bit31]
  · rw [not_not]
    apply BitVec.eq_of_getLsbD_eq
    intro i _
    interval_cases i <;> simp

theorem encodeFramedSize_isSome (offset : BitVec 32) :
    (encodeFramedSize offset).isSome ↔ offset.toNat < 2 ^ 30 ∧ offset.toNat % 4 = 0 := by
  have large : 0x40000000#32 ≤ offset ↔ 2 ^ 30 ≤ offset.toNat := BitVec.le_def
  have low : offset &&& 3#32 = 0#32 ↔ offset.toNat % 4 = 0 := by
    rw [← BitVec.toNat_inj]
    simp [Nat.and_two_pow_sub_one_eq_mod _ 2]
  unfold encodeFramedSize
  split_ifs with big odd
  · rw [large] at big
    exact iff_of_false (by simp) fun fits => not_lt.mpr big fits.1
  · exact iff_of_false (by simp) fun fits => odd (low.mpr fits.2)
  · exact iff_of_true rfl ⟨not_le.mp (large.not.mp big), low.mp (not_not.mp odd)⟩

/-- A word with a zero byte lacks that byte's magic bit. -/
theorem decodeFramedSize_of_zero_byte {stored : BitVec 32} {k : Fin 4}
    (zero : stored.extractLsb' (8 * k) 8 = 0#8) : decodeFramedSize stored = 0#32 := by
  unfold decodeFramedSize
  refine if_pos fun magic => ?_
  have lost : stored.getLsbD (8 * k + 7) = false := by
    simpa using congrArg (BitVec.getLsbD · 7) zero
  have kept := congrArg (BitVec.getLsbD · (8 * (3 - k) + 7)) magic
  clear magic zero
  obtain ⟨k, bound⟩ := k
  interval_cases k <;> simp_all [byteSwap32]

/-- The type word of a record, flag bits included. -/
structure TxHeader where
  size : ℕ
  type : ℕ
deriving DecidableEq

/-- The eight-byte record prefix. A size the framing refuses leaves the buffer zero, since the
writer drops the encoder's error. -/
def encodeTxHeader (h : TxHeader) : Bytes :=
  match encodeFramedSize (BitVec.ofNat 32 h.size) with
  | some framed => putLe 4 framed.toNat ++ putLe 4 h.type
  | none => List.replicate 8 0

/-- Reads a record prefix; `none` is the reader's corruption error. -/
def decodeTxHeader (buf : Bytes) : Option TxHeader :=
  if buf.length < 8 then none
  else
    let size := (decodeFramedSize (BitVec.ofNat 32 (getLe 4 0 buf))).toNat
    if size = 0 then none
    else if size < 8 then none
    else some { size := size, type := getLe 4 4 buf }

@[simp] theorem length_encodeTxHeader (h : TxHeader) : (encodeTxHeader h).length = 8 := by
  unfold encodeTxHeader
  split <;> simp

theorem decodeTxHeader_encode {h : TxHeader} (atLeast : 8 ≤ h.size) (bound : h.size < 2 ^ 30)
    (aligned : h.size % 4 = 0) (type : h.type < 2 ^ 32) : decodeTxHeader (encodeTxHeader h) = some h := by
  have word : (BitVec.ofNat 32 h.size).toNat = h.size := by
    rw [BitVec.toNat_ofNat, Nat.mod_eq_of_lt (by omega)]
  obtain ⟨framed, encoded⟩ := Option.isSome_iff_exists.mp
    ((encodeFramedSize_isSome (.ofNat 32 h.size)).mpr (by rw [word]; exact ⟨bound, aligned⟩))
  have prefixWord : getLe 4 0 (encodeTxHeader h) = framed.toNat := by
    rw [encodeTxHeader, encoded, getLe_putLe]
    exact Nat.mod_eq_of_lt framed.isLt
  have typeWord : getLe 4 4 (encodeTxHeader h) = h.type := by
    have read := getLe_append (putLe 4 framed.toNat) [] 4 h.type
    rw [length_putLe, List.append_nil] at read
    rw [encodeTxHeader, encoded, read]
    exact Nat.mod_eq_of_lt type
  have size : (decodeFramedSize (.ofNat 32 framed.toNat)).toNat = h.size := by
    rw [BitVec.ofNat_toNat, BitVec.setWidth_eq, decodeFramedSize_of_encode encoded, word]
  simp only [decodeTxHeader, length_encodeTxHeader, prefixWord, typeWord, size]
  rw [if_neg (by decide), if_neg (by omega), if_neg (by omega)]

end Yarilo.MailIndex

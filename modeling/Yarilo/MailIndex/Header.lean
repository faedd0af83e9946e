import Yarilo.Library.Bytes

/-! # The base header of an index file

The 120 bytes every index file starts with. The fields have the fixed widths they have on disk, so
that a header is a value the file can hold.
-/

namespace Yarilo.MailIndex

open Library

def majorVersion : UInt8 := 7
def headerMinSize : ℕ := 120
def compatLittleEndian : UInt8 := 1

/-- What keeps an index file from being read or written. -/
inductive FileErr where
  | headerTruncated
  | majorMismatch
  | endian
  | headerSizeBelowBase
  | extHeaderTruncated
  | entryTruncated
  | nameSize
  | nameTruncated
  | dataTruncated
  | zeroRecordSize
  | recordSizeMismatch
  | headerSizeMismatch
  | partialRecord
  | emptyName
  | nameTooLong
  | zeroAlign
  | invalidAlign
  | hdrDataSize
  | recordOffsetOverflow
  | bufferSize
  | extValueSize
  /-- the runtime's panic on slice bounds -/
  | sliceBounds
deriving DecidableEq

structure Header where
  majorVersion : UInt8
  minorVersion : UInt8
  baseHeaderSize : UInt16
  headerSize : UInt32
  recordSize : UInt32
  compatFlags : UInt8
  indexID : UInt32
  flags : UInt32
  uidValidity : UInt32
  nextUID : UInt32
  messagesCount : UInt32
  unusedOldRecentMessagesCount : UInt32
  seenMessagesCount : UInt32
  deletedMessagesCount : UInt32
  firstRecentUID : UInt32
  firstUnseenUIDLowwater : UInt32
  firstDeletedUIDLowwater : UInt32
  logFileSeq : UInt32
  logFileTailOffset : UInt32
  logFileHeadOffset : UInt32
  unusedOldSyncSizePart1 : UInt32
  log2RotateTime : UInt32
  lastTempFileScan : UInt32
  dayStamp : UInt32
  dayFirstUID : Vector UInt32 8
deriving DecidableEq

/-- Writes a 32-bit field. -/
def put32 (n : UInt32) : Bytes := putLe 4 n.toNat

/-- Reads the 32-bit field at `offset`. -/
def get32 (offset : ℕ) (buf : Bytes) : UInt32 := UInt32.ofNat (getLe 4 offset buf)

def put16 (n : UInt16) : Bytes := putLe 2 n.toNat

def get16 (offset : ℕ) (buf : Bytes) : UInt16 := UInt16.ofNat (getLe 2 offset buf)

def put8 (n : UInt8) : Bytes := putLe 1 n.toNat

def get8 (offset : ℕ) (buf : Bytes) : UInt8 := UInt8.ofNat (getLe 1 offset buf)

namespace Header

/-- The fields in front of the eight-day window. -/
def encodeFields (h : Header) : Bytes :=
  put8 h.majorVersion ++ put8 h.minorVersion ++ put16 h.baseHeaderSize ++ put32 h.headerSize ++
    put32 h.recordSize ++ put8 h.compatFlags ++ putLe 3 0 ++ put32 h.indexID ++ put32 h.flags ++
    put32 h.uidValidity ++ put32 h.nextUID ++ put32 h.messagesCount ++
    put32 h.unusedOldRecentMessagesCount ++ put32 h.seenMessagesCount ++
    put32 h.deletedMessagesCount ++ put32 h.firstRecentUID ++ put32 h.firstUnseenUIDLowwater ++
    put32 h.firstDeletedUIDLowwater ++ put32 h.logFileSeq ++ put32 h.logFileTailOffset ++
    put32 h.logFileHeadOffset ++ put32 h.unusedOldSyncSizePart1 ++ put32 h.log2RotateTime ++
    put32 h.lastTempFileScan ++ put32 h.dayStamp

def encodeBytes (h : Header) : Bytes := h.encodeFields ++ h.dayFirstUID.toList.flatMap put32

end Header

def decodeHeaderBytes (buf : Bytes) : Except FileErr Header :=
  if buf.length < headerMinSize then .error .headerTruncated
  else if get8 0 buf ≠ majorVersion then .error .majorMismatch
  else if get8 12 buf &&& compatLittleEndian = 0 then .error .endian
  else
    .ok {
      majorVersion := get8 0 buf
      minorVersion := get8 1 buf
      baseHeaderSize := get16 2 buf
      headerSize := get32 4 buf
      recordSize := get32 8 buf
      compatFlags := get8 12 buf
      indexID := get32 16 buf
      flags := get32 20 buf
      uidValidity := get32 24 buf
      nextUID := get32 28 buf
      messagesCount := get32 32 buf
      unusedOldRecentMessagesCount := get32 36 buf
      seenMessagesCount := get32 40 buf
      deletedMessagesCount := get32 44 buf
      firstRecentUID := get32 48 buf
      firstUnseenUIDLowwater := get32 52 buf
      firstDeletedUIDLowwater := get32 56 buf
      logFileSeq := get32 60 buf
      logFileTailOffset := get32 64 buf
      logFileHeadOffset := get32 68 buf
      unusedOldSyncSizePart1 := get32 72 buf
      log2RotateTime := get32 76 buf
      lastTempFileScan := get32 80 buf
      dayStamp := get32 84 buf
      dayFirstUID := Vector.ofFn fun i => get32 (88 + i * 4) buf }

/-! ## Fields behind fields -/

@[simp] theorem length_put32 (n : UInt32) : (put32 n).length = 4 := length_putLe _ _
@[simp] theorem length_put16 (n : UInt16) : (put16 n).length = 2 := length_putLe _ _
@[simp] theorem length_put8 (n : UInt8) : (put8 n).length = 1 := length_putLe _ _

theorem get32_put32 (n : UInt32) (after : Bytes) : get32 0 (put32 n ++ after) = n := by
  have bound : n.toNat < 256 ^ 4 := n.toNat_lt
  rw [get32, put32, getLe_putLe, Nat.mod_eq_of_lt bound, UInt32.ofNat_toNat]

theorem get16_put16 (n : UInt16) (after : Bytes) : get16 0 (put16 n ++ after) = n := by
  have bound : n.toNat < 256 ^ 2 := n.toNat_lt
  rw [get16, put16, getLe_putLe, Nat.mod_eq_of_lt bound, UInt16.ofNat_toNat]

theorem get8_put8 (n : UInt8) (after : Bytes) : get8 0 (put8 n ++ after) = n := by
  have bound : n.toNat < 256 ^ 1 := n.toNat_lt
  rw [get8, put8, getLe_putLe, Nat.mod_eq_of_lt bound, UInt8.ofNat_toNat]

variable {field : Bytes} {offset : ℕ}

section

variable (after : Bytes) (behind : field.length ≤ offset)

include behind

theorem getLe_behind {width : ℕ} :
    getLe width offset (field ++ after) = getLe width (offset - field.length) after := by
  have read := getLe_add_length width (offset - field.length) field after
  rwa [Nat.add_sub_cancel' behind] at read

theorem get32_behind : get32 offset (field ++ after) = get32 (offset - field.length) after := by
  rw [get32, get32, getLe_behind after behind]

theorem get16_behind : get16 offset (field ++ after) = get16 (offset - field.length) after := by
  rw [get16, get16, getLe_behind after behind]

theorem get8_behind : get8 offset (field ++ after) = get8 (offset - field.length) after := by
  rw [get8, get8, getLe_behind after behind]

end

theorem length_flatMap_put32 (words : List UInt32) : (words.flatMap put32).length = 4 * words.length := by
  simp [List.length_flatMap, length_put32, mul_comm]

/-- A word of a row of words. -/
theorem get32_flatMap (words : List UInt32) {i : ℕ} (inside : i < words.length) (after : Bytes) :
    get32 (i * 4) (words.flatMap put32 ++ after) = words[i] := by
  induction words generalizing i with
  | nil => cases inside
  | cons n rest ih =>
    rw [List.flatMap_cons, List.append_assoc]
    cases i with
    | zero => exact get32_put32 n _
    | succ i =>
      rw [get32_behind _ (by rw [length_put32]; omega), length_put32, Nat.succ_mul,
        Nat.add_sub_cancel, ih (by simpa using inside), List.getElem_cons_succ]

theorem Header.length_encodeFields (h : Header) : h.encodeFields.length = 88 := by
  unfold Header.encodeFields
  simp [length_put32, length_put16, length_put8, length_putLe]

theorem Header.length_encodeBytes (h : Header) : h.encodeBytes.length = headerMinSize := by
  rw [Header.encodeBytes, List.length_append, length_encodeFields, length_flatMap_put32,
    Vector.length_toList]
  rfl

theorem Header.get32_dayFirstUID (h : Header) (i : Fin 8) :
    get32 (88 + i * 4) h.encodeBytes = h.dayFirstUID[i] := by
  have inside : (i : ℕ) < h.dayFirstUID.toList.length := by
    rw [Vector.length_toList]
    exact i.isLt
  have read := get32_flatMap h.dayFirstUID.toList inside []
  rw [List.append_nil] at read
  rw [Header.encodeBytes, get32_behind _ (by rw [length_encodeFields]; omega), length_encodeFields,
    Nat.add_sub_cancel_left, read, Vector.getElem_toList]
  rfl

theorem decodeHeaderBytes_encodeBytes {h : Header} (major : h.majorVersion = MailIndex.majorVersion)
    (little : h.compatFlags &&& compatLittleEndian ≠ 0) : decodeHeaderBytes h.encodeBytes = .ok h := by
  rw [decodeHeaderBytes, if_neg (by rw [h.length_encodeBytes]; omega)]
  simp only [h.get32_dayFirstUID]
  unfold Header.encodeBytes Header.encodeFields
  -- each field is read behind the fields in front of it
  simp (disch := simp) only [List.append_assoc, get8_behind, get16_behind, get32_behind,
    length_put32, length_put16, length_put8, length_putLe, Nat.reduceSub, get32_put32, get16_put16,
    get8_put8]
  rw [if_neg (not_not.mpr major), if_neg little]
  have window : Vector.ofFn (fun i : Fin 8 => h.dayFirstUID[i]) = h.dayFirstUID := by
    apply Vector.ext
    intro i inside
    rw [Vector.getElem_ofFn]
    rfl
  rw [window]

end Yarilo.MailIndex

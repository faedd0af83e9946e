import Mathlib.Algebra.BigOperators.Group.List.Basic
import Mathlib.Algebra.Order.BigOperators.Group.List
import Yarilo.MailIndex.Record

/-! # Writing and reading the index file

`recreate` lays the file out in memory and writes header, extended header and records; `read` takes
the extended header from the file, derives the layout again and keeps the one on disk if the two
disagree. The bytes are the content of the file; how it is put in place is not part of this.
-/

namespace Yarilo.MailIndex

open Library Extension
open List hiding rec

structure File where
  header : Header
  extensions : List Extension
  records : List Record
  layout : RecordLayout

def recreate (s : Sorter) (h : Header) (exts : List Extension) (records : List Record) :
    Except FileErr Bytes :=
  match computeRecordLayout s exts with
  | .error err => .error err
  | .ok layout =>
    if layout.recordSize ≠ h.recordSize.toNat then .error .recordSizeMismatch
    else
      match encodeExtHeaders layout.extensions with
      | .error err => .error err
      | .ok extBytes =>
        if h.headerSize.toNat ≠ u32 (headerMinSize + u32 extBytes.length) then
          .error .headerSizeMismatch
        else
          match records.mapM (encodeRecord (zeros layout.recordSize) layout) with
          | .error err => .error err
          | .ok encoded => .ok (h.encodeBytes ++ extBytes ++ encoded.flatten)

/-- Whether the offsets on disk are those of the derived layout; the last of two equal names
counts. -/
def layoutOffsetsMatch (onDisk computed : List Extension) : Bool := onDisk.length = computed.length &&
    onDisk.all fun e =>
      match computed.reverse.find? fun c => c.name = e.name with
      | none => false
      | some c => c.recordOffset = e.recordOffset ∧ c.recordSize = e.recordSize

/-- The records up to the end of the file. Each takes a byte at least, so `fuel` of the length is
never used up. -/
def readRecords (layout : RecordLayout) (size : ℕ) : (fuel : ℕ) → Bytes → Except FileErr (List Record)
  | 0, _ => .error .sliceBounds
  | fuel + 1, bs =>
    if bs = [] then .ok []
    else if bs.length < size then .error .partialRecord
    else
      match decodeRecord (bs.take size) layout with
      | .error err => .error err
      | .ok rec =>
        match readRecords layout size fuel (bs.drop size) with
        | .error err => .error err
        | .ok rest => .ok (rec :: rest)

/-- The extended header of `extLen` bytes in front of the rest of the file. -/
def readExtensions (extLen : ℕ) (bs : Bytes) : Except FileErr (List Extension) :=
  if extLen = 0 then .ok []
  else if bs.length < extLen then .error .extHeaderTruncated
  else decodeExtHeaders (bs.take extLen)

/-- The layout the records are read with. -/
def readLayout (s : Sorter) (recordSize : ℕ) (exts : List Extension) : Except FileErr RecordLayout :=
  if recordSize = 0 then .error .zeroRecordSize
  else
    match computeRecordLayout s exts with
    | .error err => .error err
    | .ok layout =>
      if ¬layoutOffsetsMatch exts layout.extensions then
        .ok { recordSize := recordSize, extensions := exts }
      else if layout.recordSize ≠ recordSize then .error .recordSizeMismatch
      else .ok layout

def read (s : Sorter) (bs : Bytes) : Except FileErr File :=
  if bs.length < headerMinSize then .error .headerTruncated
  else
    match decodeHeaderBytes (bs.take headerMinSize) with
    | .error err => .error err
    | .ok h =>
      if h.headerSize.toNat < h.baseHeaderSize.toNat then .error .headerSizeBelowBase
      else
        let extLen := h.headerSize.toNat - h.baseHeaderSize.toNat
        let rest := bs.drop headerMinSize
        match readExtensions extLen rest with
        | .error err => .error err
        | .ok exts =>
          match readLayout s h.recordSize.toNat exts with
          | .error err => .error err
          | .ok layout =>
            let body := rest.drop extLen
            match readRecords layout h.recordSize.toNat (body.length + 1) body with
            | .error err => .error err
            | .ok records =>
              .ok { header := h, extensions := exts, records := records, layout := layout }

/-! ## What was done if it succeeded -/

variable {bs : Bytes} {file : File} {e : Extension} {size fuel : ℕ} {s : Sorter} {h : Header}
  {exts : List Extension} {records : List Record} {layout : RecordLayout} {bytes : Bytes}

theorem read_ok (done : read s bs = .ok file) :
    file.header.baseHeaderSize.toNat ≤ file.header.headerSize.toNat ∧
      readExtensions (file.header.headerSize.toNat - file.header.baseHeaderSize.toNat)
        (bs.drop headerMinSize) = .ok file.extensions ∧
      ∃ fuel body, readRecords file.layout file.header.recordSize.toNat fuel body = .ok file.records := by
  unfold read at done
  split at done
  · cases done
  split at done
  · cases done
  split at done
  · cases done
  rename_i enough
  simp only at done
  split at done
  · cases done
  rename_i exts extensions
  split at done
  · cases done
  split at done
  · cases done
  rename_i records read
  cases done
  exact ⟨not_lt.mp enough, extensions, _, _, read⟩

theorem layoutOffsetsMatch_self (distinct : (exts.map name).Nodup) : layoutOffsetsMatch exts exts = true := by
  have reversed : (exts.reverse.map name).Nodup := by
    rw [map_reverse]
    exact nodup_reverse.mpr distinct
  simp only [layoutOffsetsMatch, decide_true, Bool.true_and, all_eq_true]
  intro e member
  rw [find?_name reversed (mem_reverse.mpr member)]
  simp

/-! ## A written file -/

theorem Extension.encodable_of_check (fine : e.check = none) (small : e.hdrData.length < 2 ^ 32) :
    e.Encodable := by
  unfold check at fine
  split_ifs at fine with named short align power data
  refine ⟨named, not_lt.mp short, ?_⟩
  rw [← not_not.mp data, UInt32.toNat_ofNat', Nat.mod_eq_of_lt small]

theorem extHeadersLength_perm {exts exts' : List Extension}
    (same : (exts.map unplaced).Perm (exts'.map unplaced)) :
    extHeadersLength exts = extHeadersLength exts' := by
  have lengths := (same.map entryLength).sum_eq
  rw [map_map, map_map] at lengths
  exact lengths

theorem hdrData_length_le (member : e ∈ exts) : e.hdrData.length ≤ extHeadersLength exts := by
  have outer := e.entryLength_ge
  have single : e.entryLength ≤ (exts.map entryLength).sum :=
    single_le_sum (by simp) _ (mem_map_of_mem member)
  simp only [extHeadersLength]
  omega

theorem length_le_length_flatten {bytes : Record → Bytes} (positive : 0 < size)
    (each : ∀ r ∈ records, (bytes r).length = size) :
    records.length ≤ (records.map bytes).flatten.length := by
  induction records with
  | nil => simp
  | cons r rest ih =>
    have first := each r (by simp)
    have later := ih fun q member => each q (by simp [member])
    rw [map_cons, flatten_cons, length_append, length_cons]
    omega

theorem readRecords_flatten (positive : 0 < size) {bytes : Record → Bytes} {back : Record → Record}
    (enough : records.length < fuel)
    (each : ∀ r ∈ records, (bytes r).length = size ∧ decodeRecord (bytes r) layout = .ok (back r)) :
    readRecords layout size fuel (records.map bytes).flatten = .ok (records.map back) := by
  induction records generalizing fuel with
  | nil =>
    obtain ⟨fuel, rfl⟩ : ∃ k, fuel = k + 1 := ⟨fuel - 1, by simp at enough; omega⟩
    rfl
  | cons r rest ih =>
    obtain ⟨fuel, rfl⟩ : ∃ k, fuel = k + 1 := ⟨fuel - 1, by simp at enough; omega⟩
    obtain ⟨length, decoded⟩ := each r (by simp)
    have later := ih (by simpa using enough) fun q member => each q (by simp [member])
    have some : bytes r ++ (rest.map bytes).flatten ≠ [] := by
      intro none
      rw [(append_eq_nil_iff.mp none).1] at length
      simp only [length_nil] at length
      omega
    rw [map_cons, flatten_cons, readRecords, if_neg some,
      if_neg (by rw [length_append]; omega), take_left' length, drop_left' length,
      decoded, later]
    rfl

/-! ## The round trip -/

theorem Extension.declared_eq {f : Extension} (same : e.unplaced = f.unplaced) :
    e.name = f.name ∧ e.recordSize = f.recordSize := by
  have name := congrArg name same
  have size := congrArg recordSize same
  exact ⟨name, size⟩

section Placed

variable (distinct : (exts.map name).Nodup)
  (placed : computeRecordLayout s exts = .ok layout)
include placed

theorem recreate_ok (accepted : recreate s h exts records = .ok bytes) :
    layout.recordSize = h.recordSize.toNat ∧ ∃ extBytes encoded,
      encodeExtHeaders layout.extensions = .ok extBytes ∧
      h.headerSize.toNat = u32 (headerMinSize + u32 extBytes.length) ∧
      records.mapM (encodeRecord (zeros layout.recordSize) layout) = .ok encoded ∧
      bytes = h.encodeBytes ++ extBytes ++ encoded.flatten := by
  simp only [recreate, placed] at accepted
  split at accepted
  · cases accepted
  rename_i size
  split at accepted
  · cases accepted
  rename_i extBytes encodedExts
  split at accepted
  · cases accepted
  rename_i headerSize
  split at accepted
  · cases accepted
  rename_i encoded written
  exact ⟨not_not.mp size, extBytes, encoded, encodedExts, not_not.mp headerSize, written,
    (Except.ok.inj accepted).symm⟩

/-- The extensions of a layout encode whenever their entries stay below four gigabytes. -/
theorem layout_encodable (small : extHeadersLength exts < 2 ^ 32) : ∀ e ∈ layout.extensions, e.Encodable := by
  intro e member
  have same := computeRecordLayout_perm placed
  have bound := hdrData_length_le member
  rw [extHeadersLength_perm same] at bound
  obtain ⟨f, origin, eq⟩ := mem_map.mp (same.subset (mem_map_of_mem member))
  refine encodable_of_check ?_ (by omega)
  rw [← e.check_unplaced, ← eq, f.check_unplaced]
  exact (computeRecordLayout_ok placed).1 f origin

theorem fits_layout {rec : Record} (fits : rec.Fits exts) : rec.Fits layout.extensions := by
  intro name brought
  obtain ⟨e, member, named, length⟩ := fits name brought
  have same := (computeRecordLayout_perm placed).symm
  obtain ⟨f, inLayout, eq⟩ := mem_map.mp (same.subset (mem_map_of_mem member))
  obtain ⟨sameName, sameSize⟩ := declared_eq eq
  exact ⟨f, inLayout, by rw [sameName, named], by rw [sameSize, length]⟩

/-- A file that is read back as it was written has its entries below four gigabytes. -/
theorem small_of_read (base : h.baseHeaderSize.toNat = headerMinSize)
    (accepted : recreate s h exts records = .ok bytes) (done : read s bytes = .ok file)
    (header : file.header = h) (extensions : file.extensions = layout.extensions) :
    headerMinSize + extHeadersLength exts < 2 ^ 32 := by
  obtain ⟨-, extBytes, -, written, headerSize, -⟩ := recreate_ok placed accepted
  obtain ⟨enough, region, -⟩ := read_ok done
  rw [header, base] at enough region
  rw [extensions] at region
  rw [← extHeadersLength_perm (computeRecordLayout_perm placed)]
  have word := h.headerSize.toNat_lt
  unfold readExtensions at region
  split at region
  · rw [← Except.ok.inj region]
    simp [extHeadersLength, headerMinSize]
  split at region
  · cases region
  simp only [headerMinSize] at *
  -- the region of the header's own size held all the entries
  have length : ((bytes.drop 120).take (h.headerSize.toNat - 120)).length ≤
      h.headerSize.toNat - 120 := length_take_le _ _
  obtain ⟨encodable, total⟩ := decodeExtHeaders_ok (by simp [headerMinSize]; omega) region
  have small : extHeadersLength layout.extensions + 7 < 2 ^ 32 := by omega
  have inner : u32 (extHeadersLength layout.extensions) = extHeadersLength layout.extensions :=
    u32_eq (by omega)
  rw [length_encodeExtHeaders written, extHeadersTotal_eq encodable small, inner, u32]
    at headerSize
  omega

include distinct

/-- The layout of a written file is derived again as it was. -/
theorem readLayout_self : readLayout s layout.recordSize layout.extensions = .ok layout := by
  have sound := computeRecordLayout_sound distinct placed
  have base := sound.base
  simp only [recordMinSize] at base
  rw [readLayout, if_neg (by omega), computeRecordLayout_self distinct placed]
  simp [layoutOffsetsMatch_self sound.names]

/-- Reading gets through header and extended header of a written file to its records. -/
theorem read_written (base : h.baseHeaderSize.toNat = headerMinSize) (major : h.majorVersion = majorVersion)
    (little : h.compatFlags &&& compatLittleEndian ≠ 0) (recordSize : layout.recordSize = h.recordSize.toNat)
    (small : headerMinSize + extHeadersLength exts < 2 ^ 32)
    (headerSize : h.headerSize.toNat = headerMinSize + extHeadersLength exts) (body : Bytes) :
    read s (h.encodeBytes ++ layout.extensions.flatMap entryBytes ++ body) =
      match readRecords layout layout.recordSize (body.length + 1) body with
      | .error err => .error err
      | .ok records =>
        .ok { header := h, extensions := layout.extensions, records := records, layout := layout } := by
  have total := extHeadersLength_perm (computeRecordLayout_perm placed)
  have encodable := layout_encodable placed (by omega)
  have length : (layout.extensions.flatMap entryBytes).length = extHeadersLength exts := by
    rw [length_flatMap_entryBytes, total]
  have extLen : h.headerSize.toNat - h.baseHeaderSize.toNat = extHeadersLength exts := by omega
  have extensions : readExtensions (extHeadersLength exts)
      (layout.extensions.flatMap entryBytes ++ body) = .ok layout.extensions := by
    unfold readExtensions
    split
    · rename_i none
      have few := length_le_extHeadersLength layout.extensions
      rw [eq_nil_of_length_eq_zero (by omega : layout.extensions.length = 0)]
    · rw [if_neg (by rw [length_append]; omega), take_left' length,
        decodeExtHeaders_flatMap encodable (by simp [headerMinSize] at small; omega)]
  have front : (h.encodeBytes ++ (layout.extensions.flatMap entryBytes ++ body)).take
      headerMinSize = h.encodeBytes := take_left' h.length_encodeBytes
  have behind : (h.encodeBytes ++ (layout.extensions.flatMap entryBytes ++ body)).drop
      headerMinSize = layout.extensions.flatMap entryBytes ++ body :=
    drop_left' h.length_encodeBytes
  have enough : ¬(h.encodeBytes ++ (layout.extensions.flatMap entryBytes ++ body)).length <
      headerMinSize := by
    rw [length_append, h.length_encodeBytes]
    omega
  rw [append_assoc, read, if_neg enough, front, decodeHeaderBytes_encodeBytes major little]
  simp only [extLen, behind, extensions, ← recordSize, readLayout_self distinct placed,
    drop_left' length]
  rw [if_neg (by omega)]

theorem filled_layout (rec : Record) : rec.filled layout.extensions = rec.filled exts := by
  have same := computeRecordLayout_perm placed
  have sound := computeRecordLayout_sound distinct placed
  have names : ∀ name, (∃ e ∈ exts, e.name = name) ↔ ∃ e ∈ layout.extensions, e.name = name := by
    intro name
    have members := (same.map Extension.name).mem_iff (a := name)
    rw [map_name_unplaced, map_name_unplaced] at members
    simpa using members.symm
  simp only [Record.filled, Record.mk.injEq, true_and]
  funext name
  by_cases declared : ∃ e ∈ exts, e.name = name
  · obtain ⟨f, inLayout, rfl⟩ := (names name).mp declared
    obtain ⟨e, inExts, eq⟩ := mem_map.mp (same.subset (mem_map_of_mem inLayout))
    obtain ⟨sameName, sameSize⟩ := declared_eq eq
    have found := find?_name distinct inExts
    rw [sameName] at found
    simp [find?_name sound.names inLayout, found, sameSize]
  · have absent : exts.find? (fun e => e.name = name) = none := by
      simpa using fun e member same => declared ⟨e, member, same⟩
    have absent' : layout.extensions.find? (fun e => e.name = name) = none := by
      have elsewhere := mt (names name).mpr declared
      simpa using fun e member same => elsewhere ⟨e, member, same⟩
    rw [absent, absent']

/-- A record that is read back shows that the record size is a 16-bit word. -/
theorem recordSize_lt_of_read {body : Bytes} (read : readRecords layout size fuel body = .ok records)
    (some : records ≠ []) : layout.recordSize < 65536 := by
  have sound := computeRecordLayout_sound distinct placed
  cases fuel with
  | zero => cases read
  | succ fuel =>
    rw [readRecords] at read
    split at read
    · exact absurd (Except.ok.inj read).symm some
    split at read
    · cases read
    split at read
    · cases read
    rename_i rec decoded
    have below := (decodeRecord_ok_iff.mp ⟨rec, decoded⟩).2.2
    rcases sound.last with same | ⟨e, member, room, stops⟩
    · rw [same, recordMinSize]
      omega
    · rw [← stops]
      exact (below e member room).1

end Placed

/-- A file that was accepted is read back as it was given, with zeros for absent values, if and only
if it has no records or records of at most 65535 bytes, and the extended header ends below four
gigabytes. -/
theorem read_recreate_iff (base : h.baseHeaderSize.toNat = headerMinSize)
    (major : h.majorVersion = majorVersion) (little : h.compatFlags &&& compatLittleEndian ≠ 0)
    (distinct : (exts.map Extension.name).Nodup) (fits : ∀ r ∈ records, r.Fits exts)
    (placed : computeRecordLayout s exts = .ok layout) (accepted : recreate s h exts records = .ok bytes) :
    read s bytes = .ok {
        header := h
        extensions := layout.extensions
        records := records.map (Record.filled exts)
        layout := layout } ↔
      (records = [] ∨ h.recordSize.toNat < 65536) ∧ headerMinSize + extHeadersLength exts < 2 ^ 32 := by
  obtain ⟨recordSize, extBytes, encoded, written, headerSize, stored, content⟩ :=
    recreate_ok placed accepted
  have sound := computeRecordLayout_sound distinct placed
  constructor
  · intro done
    refine ⟨?_, small_of_read placed base accepted done rfl rfl⟩
    rw [← recordSize]
    by_cases none : records = []
    · exact .inl none
    · obtain ⟨-, -, fuel, body, back⟩ := read_ok done
      exact .inr (recordSize_lt_of_read distinct placed back (by simpa using none))
  · rintro ⟨short, small⟩
    have total := extHeadersLength_perm (computeRecordLayout_perm placed)
    have encodable := layout_encodable placed (by omega)
    have entries : extBytes = layout.extensions.flatMap entryBytes := by
      have equal := encodeExtHeaders_eq encodable (by simp [headerMinSize] at small; omega)
      rw [written] at equal
      exact Except.ok.inj equal
    have header : h.headerSize.toNat = headerMinSize + extHeadersLength exts := by
      have inner : u32 (extHeadersLength exts) = extHeadersLength exts := u32_eq (by omega)
      rw [headerSize, entries, length_flatMap_entryBytes, total, inner, u32_eq small]
    rw [content, entries,
      read_written distinct placed base major little recordSize small header encoded.flatten]
    rcases short with rfl | short
    · cases stored
      rfl
    rw [← recordSize] at short
    have apart := computeRecordLayout_placed placed
    have sized : ∀ r ∈ records, r.Sized layout.extensions :=
      fun r member => (fits_layout placed (fits r member)).sized sound.names
    have each : records.mapM (encodeRecord (zeros layout.recordSize) layout) = _ :=
      mapM_eq_pure fun r member =>
        encodeRecord_eq apart (sized r member) short (length_zeros layout.recordSize)
    rw [stored] at each
    have positive : 0 < layout.recordSize := by
      have base := sound.base
      simp only [recordMinSize] at base
      omega
    have back : ∀ r ∈ records, (r.bytes layout).length = layout.recordSize ∧
        decodeRecord (r.bytes layout) layout = .ok (r.filled exts) := by
      intro r member
      refine ⟨Record.length_bytes apart (sized r member), ?_⟩
      rw [← filled_layout distinct placed r]
      exact decodeRecord_filled apart short (fits_layout placed (fits r member)) sound.names
    have count := length_le_length_flatten positive fun r member => (back r member).1
    rw [Except.ok.inj each, readRecords_flatten positive (by omega) back]

/-- A header for records of this size behind an extended header of `extLen` bytes. -/
def sampleHeader (recordSize extLen : UInt32) : Header where
  majorVersion := 7
  minorVersion := 3
  baseHeaderSize := 120
  headerSize := 120 + extLen
  recordSize := recordSize
  compatFlags := 1
  indexID := 9
  flags := 0
  uidValidity := 5
  nextUID := 2
  messagesCount := 1
  unusedOldRecentMessagesCount := 0
  seenMessagesCount := 0
  deletedMessagesCount := 0
  firstRecentUID := 0
  firstUnseenUIDLowwater := 0
  firstDeletedUIDLowwater := 0
  logFileSeq := 1
  logFileTailOffset := 40
  logFileHeadOffset := 40
  unusedOldSyncSizePart1 := 0
  log2RotateTime := 0
  lastTempFileScan := 0
  dayStamp := 0
  dayFirstUID := Vector.replicate 8 0

/-- An extension named `x`, one byte aligned, with this much room in each record. -/
def sampleExtension (recordSize : UInt16) : Extension where
  name := [120]
  hdrSize := 0
  recordSize := recordSize
  recordAlign := 1
  resetID := 0
  recordOffset := 0
  hdrData := []

/-- A record that brings no value. -/
def blankRecord : Record where
  uid := 1
  flags := 0
  ext _ := []

theorem blankRecord_fits (exts : List Extension) : blankRecord.Fits exts :=
  fun _ brought => absurd rfl brought

theorem read_recreate_iff_sample :
    ∃ bytes, recreate .insertion (sampleHeader 9 24) [sampleExtension 4] [blankRecord] = .ok bytes ∧
      read .insertion bytes = .ok {
        header := sampleHeader 9 24
        extensions := [{ sampleExtension 4 with recordOffset := 5 }]
        records := [blankRecord.filled [sampleExtension 4]]
        layout := { recordSize := 9, extensions := [{ sampleExtension 4 with recordOffset := 5 }] } } := by
  have placed : computeRecordLayout .insertion [sampleExtension 4] =
      .ok { recordSize := 9, extensions := [{ sampleExtension 4 with recordOffset := 5 }] } := by
    decide
  obtain ⟨bytes, accepted⟩ : ∃ bytes, recreate .insertion (sampleHeader 9 24) [sampleExtension 4]
      [blankRecord] = .ok bytes := ⟨_, rfl⟩
  refine ⟨bytes, accepted, ?_⟩
  refine (read_recreate_iff (by decide) (by decide) (by decide) (by decide) ?_ placed accepted).mpr
    ⟨.inr (by decide), by decide⟩
  exact fun r member => by rw [mem_singleton.mp member]; exact blankRecord_fits _

theorem readRecords_error {err : FileErr} (fuel : ℕ) (positive : 0 < size)
    (length : bs.length = size) (failed : decodeRecord bs layout = .error err) :
    readRecords layout size (fuel + 1) bs = .error err := by
  have some : bs ≠ [] := by
    intro none
    rw [none, length_nil] at length
    omega
  rw [readRecords, if_neg some, if_neg (by omega), take_of_length_le (by omega), failed]

/-- The layout of an extension that leaves a record of 65540 bytes. -/
def wideLayout : RecordLayout where
  recordSize := 65540
  extensions := [{ sampleExtension 65535 with recordOffset := 5 }]

theorem wide_unreadable {buf : Bytes} (length : buf.length = wideLayout.recordSize) :
    decodeRecord buf wideLayout = .error .sliceBounds := by
  have out : inBounds { sampleExtension 65535 with recordOffset := 5 }
      wideLayout.recordSize = false := by decide
  have first : decodeExt buf (fun _ => []) { sampleExtension 65535 with recordOffset := 5 } =
      .error .sliceBounds := by
    rw [decodeExt, if_neg (by decide), length, out]
    rfl
  rw [decodeRecord, if_neg (not_not.mpr length), if_neg (by rw [length]; decide)]
  rfl

theorem wide_encoded : encodeRecord (zeros wideLayout.recordSize) wideLayout blankRecord =
    .ok (blankRecord.start wideLayout.recordSize) := by
  rw [encodeRecord, if_neg (not_not.mpr (length_zeros _)),
    if_neg (by rw [length_zeros]; decide), length_zeros]
  rfl

/-- A stretch that ends beyond 65535: the file is written, and its first record cannot be read. -/
theorem read_recreate_wide :
    ∃ bytes, recreate .insertion (sampleHeader 65540 24) [sampleExtension 65535] [blankRecord] = .ok bytes ∧
      read .insertion bytes = .error .sliceBounds := by
  have placed : computeRecordLayout .insertion [sampleExtension 65535] = .ok wideLayout := by decide
  have written : encodeExtHeaders wideLayout.extensions =
      .ok (wideLayout.extensions.flatMap entryBytes) := by decide
  have length : (blankRecord.start wideLayout.recordSize).length = wideLayout.recordSize :=
    Record.length_start (by decide)
  have stored : [blankRecord].mapM (encodeRecord (zeros wideLayout.recordSize) wideLayout) =
      .ok [blankRecord.start wideLayout.recordSize] := by
    rw [mapM_cons, wide_encoded]
    rfl
  refine ⟨(sampleHeader 65540 24).encodeBytes ++ wideLayout.extensions.flatMap entryBytes ++
    [blankRecord.start wideLayout.recordSize].flatten, ?_, ?_⟩
  · have size : wideLayout.recordSize = (sampleHeader 65540 24).recordSize.toNat := by decide
    have header : (sampleHeader 65540 24).headerSize.toNat =
        u32 (headerMinSize + u32 (wideLayout.extensions.flatMap entryBytes).length) := by
      decide
    simp only [recreate, placed, written, stored, if_neg (not_not.mpr size), if_neg (not_not.mpr header)]
  · have stop := readRecords_error (blankRecord.start wideLayout.recordSize).length
      (by decide) length (wide_unreadable length)
    rw [read_written (by decide) placed (by decide) (by decide) (by decide) (by decide) (by decide)
      (by decide), flatten_singleton, stop]
end Yarilo.MailIndex

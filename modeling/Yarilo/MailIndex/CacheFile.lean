import Yarilo.MailIndex.CacheFormat

/-! # An open cache file

The handle keeps the header, the newest field table and, after a preload, a copy of the file as it
stood then. Reads that lie inside the copy are served from it. Writes go to the file and leave the
copy as it is.
-/

namespace Yarilo.MailIndex

open Library

def cacheMajorVersion : UInt8 := 1
def cacheMinorVersion : UInt8 := 1
def cacheCompatSizeofUoffT : UInt8 := 8
def cacheProducerGen : UInt8 := 1

def preloadLimit : ℕ := 64 * 2 ^ 20

structure CacheFile where
  hdr : CacheHeader
  fields : List CacheField
  /-- the ids of the names -/
  byName : Bytes → Option UInt32
  /-- the file at the time of the preload -/
  snap : Option Bytes

namespace CacheFile

/-- `io.ReaderAt` on the file: all of the range or an error. -/
def readFile (file : Bytes) (off length : ℕ) : Option Bytes :=
  if length = 0 ∨ off + length ≤ file.length then some (slice off length file) else none

variable (c : CacheFile)

def readAt (file : Bytes) (off length : ℕ) : Option Bytes :=
  match c.snap with
  | some snap => if off + length ≤ snap.length then some (slice off length snap)
    else readFile file off length
  | none => readFile file off length

def preload (file : Bytes) : CacheFile :=
  if c.snap.isSome then c
  else if file.length = 0 ∨ preloadLimit < file.length then c
  else { c with snap := some file }

def writeHeader (file : Bytes) : Bytes := blit 0 c.hdr.encode file

/-- Appends at a four-aligned end. The padding stays when the end is out of reach of packed
offsets. -/
def appendAligned (file buf : Bytes) : Except CacheErr ℕ × Bytes :=
  let file := file ++ zeros (pad4 file.length)
  if 0x3fffffff < file.length then (.error .full, file)
  else (.ok file.length, file ++ buf)

/-! ## Field tables -/

def readFieldTable (file : Bytes) (off : ℕ) : Except CacheErr (ℕ × List CacheField) :=
  match c.readAt file off 12 with
  | none => .error .invalid
  | some fixed =>
    let next := linkTarget (getLe 4 0 fixed)
    let size := getLe 4 4 fixed
    let count := getLe 4 8 fixed
    if size < 12 ∨ (size - 12) / 10 < count then .error .invalid
    else
      match c.readAt file (off + 12) (size - 12) with
      | none => .error .invalid
      | some body =>
        match decodeFields count body with
        | .error err => .error err
        | .ok fields => .ok (next, fields)

/-- The walk over the tables. It has no bound in the source; `endless` stands for a walk that does
not come to a table without successor. -/
def loadTables (c : CacheFile) (file : Bytes) : (fuel off : ℕ) → Except CacheErr (List CacheField)
  | 0, _ => .error .endless
  | fuel + 1, off =>
    match c.readFieldTable file off with
    | .error err => .error err
    | .ok (next, fields) => if next = 0 then .ok fields else loadTables c file fuel next

/-- The ids of a table's names, the last of a repeated name. -/
def nameIDs (fields : List CacheField) : Bytes → Option UInt32 := (fields.zipIdx).foldl
    (fun ids entry => Function.update ids entry.1.name (some (UInt32.ofNat entry.2))) fun _ => none

def loadFields (file : Bytes) : Except CacheErr CacheFile :=
  if c.hdr.fieldHeaderOffset = 0 then .ok c
  else
    match c.loadTables file file.length c.hdr.fieldHeaderOffset.toNat with
    | .error err => .error err
    | .ok fields => .ok { c with fields := fields, byName := nameIDs fields }

def newestTable (c : CacheFile) (file : Bytes) : (fuel off : ℕ) → Except CacheErr ℕ
  | 0, _ => .error .endless
  | fuel + 1, off =>
    match c.readAt file off 4 with
    | none => .error .invalid
    | some word =>
      let next := linkTarget (getLe 4 0 word)
      if next = 0 then .ok off else newestTable c file fuel next

def newestTableOffset (file : Bytes) : Except CacheErr ℕ :=
  c.newestTable file file.length c.hdr.fieldHeaderOffset.toNat

def createCache (indexID fileSeq : UInt32) : CacheFile × Bytes :=
  let hdr : CacheHeader := {
    majorVersion := cacheMajorVersion
    compatSizeofUoffT := cacheCompatSizeofUoffT
    minorVersion := cacheMinorVersion
    producerGen := cacheProducerGen
    indexID := indexID
    fileSeq := fileSeq
    continuedRecordCount := 0
    recordCount := 0
    backwardsCompatUsedFileSize := 0
    deletedRecordCount := 0
    fieldHeaderOffset := 0 }
  ({ hdr := hdr, fields := [], byName := fun _ => none, snap := none }, hdr.encode)

def openCache (file : Bytes) (indexID expectFileSeq : UInt32) : Except CacheErr CacheFile :=
  if file.length < cacheHeaderSize then .error .invalid
  else
    match decodeCacheHeader (file.take cacheHeaderSize) with
    | none => .error .invalid
    | some hdr =>
      if hdr.majorVersion ≠ cacheMajorVersion then .error .invalid
      else if hdr.compatSizeofUoffT ≠ cacheCompatSizeofUoffT then .error .invalid
      else if hdr.indexID ≠ indexID then .error .invalid
      else if hdr.fileSeq ≠ expectFileSeq then .error .invalid
      else if hdr.producerGen ≠ cacheProducerGen then .error .invalid
      else loadFields { hdr := hdr, fields := [], byName := fun _ => none, snap := none } file

/-- A field of a type without fixed size is stored with the mark for that. -/
def widen (fl : CacheField) : CacheField :=
  if fl.type = 1 ∨ fl.type = 2 ∨ fl.type = 4 then { fl with size := variableSize } else fl

def mergeField (held : List CacheField × (Bytes → Option UInt32)) (fl : CacheField) :
    List CacheField × (Bytes → Option UInt32) :=
  if (held.2 fl.name).isSome then held
  else (held.1 ++ [widen fl], Function.update held.2 fl.name (some (UInt32.ofNat held.1.length)))

/-- The fields held and those of the new ones whose names are not known, with the ids of both. -/
def mergeFields (add : List CacheField) : List CacheField × (Bytes → Option UInt32) :=
  add.foldl mergeField (c.fields, c.byName)

/-- Links a table at `off`: from the header when it is the first, else from the newest table. -/
def linkTable (file : Bytes) (off : ℕ) : Except CacheErr (CacheFile × Bytes) :=
  if c.hdr.fieldHeaderOffset = 0 then
    let c := { c with hdr := { c.hdr with fieldHeaderOffset := UInt32.ofNat off } }
    .ok (c, c.writeHeader file)
  else
    match c.newestTableOffset file with
    | .error err => .error err
    | .ok tail => .ok (c, blit tail (putLe 4 (packCacheOffset (BitVec.ofNat 32 off)).toNat) file)

def addFields (file : Bytes) (add : List CacheField) :
    Except CacheErr ℕ × CacheFile × Bytes :=
  let firstNew := u32 c.fields.length
  let (merged, byName) := c.mergeFields add
  let c := { c with byName := byName }
  if u32 merged.length = firstNew then (.ok firstNew, c, file)
  else
    match encodeTable merged with
    | .error err => (.error err, c, file)
    | .ok buf =>
      match appendAligned file buf with
      | (.error err, file) => (.error err, c, file)
      | (.ok off, file) =>
        match c.linkTable file off with
        | .error err => (.error err, c, file)
        | .ok (c, file) => (.ok firstNew, { c with fields := merged }, file)

/-! ## Records -/

def appendRecord (file : Bytes) (prevOffset : UInt32)
    (values : List CacheFieldValue) : Except CacheErr ℕ × CacheFile × Bytes :=
  match encodeBody c.fields values with
  | .error err => (.error err, c, file)
  | .ok body =>
    match appendAligned file (put32 prevOffset ++ (putLe 4 (8 + body.length) ++ body)) with
    | (.error err, file) => (.error err, c, file)
    | (.ok off, file) =>
      let hdr := { c.hdr with recordCount := c.hdr.recordCount + 1 }
      let hdr := if prevOffset ≠ 0
        then { hdr with continuedRecordCount := hdr.continuedRecordCount + 1 } else hdr
      let c := { c with hdr := hdr }
      (.ok off, c, c.writeHeader file)

/-- The loop over a chain of records, with the number of links still allowed. -/
def readChain (c : CacheFile) (file : Bytes) : (links : ℕ) → (offset : UInt32) → CacheValues →
    Except CacheErr CacheValues
  | 0, offset, out => if offset = 0 then .ok out else .error .invalid
  | links + 1, offset, out =>
    if offset = 0 then .ok out
    else
      match c.readAt file offset.toNat 8 with
      | none => .error .invalid
      | some head =>
        let size := getLe 4 4 head
        if size < 8 ∨ 2 ^ 26 < size then .error .invalid
        else
          match c.readAt file (offset.toNat + 8) (size - 8) with
          | none => .error .invalid
          | some body =>
            match decodeBody c.fields body.length body out with
            | .error err => .error err
            | .ok out => readChain c file links (get32 0 head) out

def readRecord (file : Bytes) (offset : UInt32) : Except CacheErr CacheValues :=
  c.readChain file 1024 offset fun _ => none

def markDeleted (file : Bytes) : CacheFile × Bytes :=
  let c := { c with hdr := { c.hdr with deletedRecordCount := c.hdr.deletedRecordCount + 1 } }
  (c, c.writeHeader file)

end CacheFile

/-! ## Runs -/

inductive CacheOp where
  | addFields (add : List CacheField)
  | appendRecord (prevOffset : UInt32) (values : List CacheFieldValue)
  | preload
  | markDeleted
  /-- close and open again -/
  | reopen

/-- A record with the offset its append returned. -/
structure Appended where
  offset : UInt32
  prevOffset : UInt32
  values : List CacheFieldValue

/-- The handle, the file and the records appended so far, newest first. -/
structure CacheRun where
  handle : CacheFile
  file : Bytes
  records : List Appended

namespace CacheRun

def create (indexID fileSeq : UInt32) : CacheRun :=
  let (handle, file) := CacheFile.createCache indexID fileSeq
  { handle := handle, file := file, records := [] }

/-- A file that does not open leaves no handle; the run stays with the old one. -/
def step (indexID fileSeq : UInt32) (s : CacheRun) : CacheOp → CacheRun
  | .addFields add =>
    let (_, handle, file) := s.handle.addFields s.file add
    { s with handle := handle, file := file }
  | .appendRecord prevOffset values =>
    let (answer, handle, file) := s.handle.appendRecord s.file prevOffset values
    { handle := handle
      file := file
      records := match answer with
        | .ok off => { offset := UInt32.ofNat off, prevOffset := prevOffset, values := values } :: s.records
        | .error _ => s.records }
  | .preload => { s with handle := s.handle.preload s.file }
  | .markDeleted =>
    let (handle, file) := s.handle.markDeleted s.file
    { s with handle := handle, file := file }
  | .reopen =>
    match CacheFile.openCache s.file indexID fileSeq with
    | .ok handle => { s with handle := handle }
    | .error _ => s

def run (indexID fileSeq : UInt32) (s : CacheRun) (ops : List CacheOp) : CacheRun :=
  ops.foldl (step indexID fileSeq) s

end CacheRun

/-- The records of a chain, newest first. A record can only point at an older one. -/
def prevChain : List Appended → UInt32 → List Appended
  | [], _ => []
  | r :: older, offset =>
    if r.offset = offset then r :: prevChain older r.prevOffset else prevChain older offset

end Yarilo.MailIndex

import Yarilo.FileIndex.Transaction

/-! # Reading and writing a folder's files

The files of one folder and the primitives every operation is made of: reading the base, replaying
the log behind an offset, rewriting the base, appending a group to the log and replacing the log.
Each primitive runs under the folder lock, so it acts on the files and one handle's state.
-/

namespace Yarilo.FileIndex

open Library MailIndex

structure BaseFile where
  ident : ℕ
  file : File
deriving DecidableEq

structure LogFile where
  ident : ℕ
  indexID : ℕ
  fileSeq : ℕ
  groups : List Group
deriving DecidableEq

/-- A line of the filename sidecar. -/
structure NameLine where
  uid : ℕ
  name : Bytes
  size : ℕ
deriving DecidableEq

structure NamesFile where
  ident : ℕ
  lines : List NameLine
deriving DecidableEq

/-- The files of one folder. `nextIdent` is an identity no file has had. -/
structure Disk where
  base : Option BaseFile
  log : Option LogFile
  names : Option NamesFile
  nextIdent : ℕ
deriving DecidableEq

/-- The files and the handle an operation runs on. -/
structure Local where
  disk : Disk
  fs : FolderState
deriving DecidableEq

inductive Err where
  | notExist | keywordRegistryFull | uidZero | uidSpaceInUse | uidValidityZero
  | notOpen
deriving DecidableEq

def LogFile.size (log : LogFile) : ℕ := logHeaderSize + (log.groups.map groupSize).sum

/-- The groups at and behind byte `off`, where the first group starts at `pos`. -/
def groupsFrom (off : ℕ) : (pos : ℕ) → List Group → List Group
  | _, [] => []
  | pos, g :: rest => if off ≤ pos then g :: rest else groupsFrom off (pos + groupSize g) rest

/-- The lineage a log announces; zero when there is no log. -/
def logLineage (log : Option LogFile) : ℕ := (log.map (·.fileSeq)).getD lineageUnknown

def logFileSize (log : Option LogFile) : ℕ := (log.map (·.size)).getD 0

/-- Where to begin applying a log of lineage `logLineage` to a base that records `h`. -/
def replayStart (h : LineageHdr) (logLineage : ℕ) : Option ℕ :=
  if h.lineage = lineageUnknown ∨ logLineage = lineageUnknown then none
  else if logLineage = h.lineage then some logHeaderSize
  else if logLineage = h.foldedLineage then some (max h.foldedOffset logHeaderSize)
  else none

/-- The sidecar's maps: the last line of a UID wins. -/
def loadNames (names : Option NamesFile) : List (ℕ × Bytes) × List (ℕ × ℕ) :=
  (((names.map (·.lines)).getD []).foldl (fun m l => (mapSet m.1 l.uid l.name, mapSet m.2 l.uid l.size))
    ([], []))

namespace FolderState

variable (fs : FolderState)

def setContent (c : Content) : FolderState := { fs with toContent := c }

def recalcVsize : FolderState :=
  { fs with vsize := {
      vsize := u64 ((fs.file.records.map fun r =>
        if r.vsize = 0 then mapGet 0 fs.sizes r.uid else r.vsize).sum)
      highestUID := (fs.file.records.map (·.uid)).foldl max 0
      messageCount := u32 fs.file.records.length } }

def ensureVsize : FolderState :=
  if fs.vsize.messageCount = fs.file.header.messagesCount ∧
      u32 (fs.vsize.highestUID + 1) = fs.file.header.nextUID then fs
  else fs.recalcVsize

def closeFDs : FolderState := { fs with logFD := none, namesFD := none }

def mapFile (change : File → File) : FolderState :=
  { fs with file := change fs.file }

def setHighestModSeq (n : ℕ) : FolderState :=
  fs.mapFile fun f => { f with ext := { f.ext with highestModSeq := n } }

def setNextUID (n : ℕ) : FolderState :=
  fs.mapFile fun f => { f with header := { f.header with nextUID := n } }

def highestModSeq (fs : FolderState) : ℕ := fs.file.ext.highestModSeq

def bumpModSeqHeader : FolderState := fs.setHighestModSeq (u64 (fs.highestModSeq + 1))

def advanceModSeqAtLeast (target : ℕ) : FolderState :=
  fs.setHighestModSeq (max fs.highestModSeq target)

/-- Takes a registry over and encodes it into the keywords extension header. -/
def persistKeywordRegistry (registry : Registry) : FolderState :=
  { fs with
    keywords := registry
    file := { fs.file with ext := { fs.file.ext with keywords := storedRegistry registry } } }

/-- Records how far back the expunge history reaches, before a path that drops the log. -/
def stampExpungeFloor : FolderState :=
  fs.mapFile fun f => { f with ext :=
    match f.ext.expungeFloor with
    | none => { f.ext with
        expungeFloor := some f.ext.highestModSeq
        order := f.ext.order ++ [.expungeFloor] }
    | some floor => { f.ext with expungeFloor := some (max floor f.ext.highestModSeq) } }

def expungeFloor (fs : FolderState) : ℕ := fs.file.ext.expungeFloor.getD 0

end FolderState

/-- Replays the log behind `off` over a handle. The result is the confirmed offset, or nothing when
a record was refused. The log of another index id is the caller's case. -/
def applyLogFrom (disk : Disk) (log : LogFile) (fs : FolderState) (off : ℕ) :
    FolderState × Option ℕ :=
  let groups := groupsFrom off logHeaderSize log.groups
  let (content, ok) := fs.toContent.replay groups
  let fs' := fs.setContent content
  if ok then
    let appended := (applyTxs fs.toContent.startReplay groups.flatten).1.appendedMsgs
    let fs' := if appended then
        { fs' with filenames := (loadNames disk.names).1, sizes := (loadNames disk.names).2 }
      else fs'
    (fs', some (if groups = [] then max off logHeaderSize else log.size))
  else (fs', none)

/-- The file as a reader decodes it from the base just written. -/
def File.stored (f : File) : File :=
  { f with
    ext := { f.ext with order := layoutOrder.filter (· ∈ f.ext.order) }
    records := f.records.map Record.stored }

namespace Local

variable (s : Local)

def mapFs (change : FolderState → FolderState) : Local := { s with fs := change s.fs }

/-- The pairing the next base records about itself. -/
def nextLineage : LineageHdr :=
  let prev := readLineage s.fs.file
  { lineage := max (u32 (prev.lineage + 1)) (legacyLogLineage + 1)
    foldedLineage := if logLineage s.disk.log = lineageUnknown then prev.lineage
      else logLineage s.disk.log
    foldedOffset := s.fs.logSize
    recordsDigest := digestRecords s.fs.file }

/-- Rewrites the sidecar: a name from memory, else from disk, for every record and for lines at or
above the next UID. -/
def saveNames : Local :=
  let (onDisk, diskSizes) := loadNames s.disk.names
  let live := s.fs.file.records.map (·.uid)
  let extra := (onDisk.map (·.1)).filter fun uid => uid ∉ live ∧ s.fs.file.header.nextUID ≤ uid
  let line := fun uid =>
    let name := mapGet [] s.fs.filenames uid
    let size := mapGet 0 s.fs.sizes uid
    if name = [] then
      { uid := uid, name := mapGet [] onDisk uid
        size := if size = 0 then mapGet 0 diskSizes uid else size }
    else { uid := uid, name := name, size := size }
  { disk := { s.disk with
      names := some { ident := s.disk.nextIdent, lines := ((live ++ extra).dedup).map line }
      nextIdent := s.disk.nextIdent + 1 }
    fs := { s.fs with namesFD := none } }

/-- Rewrites the base from the handle. The log is not touched. -/
def flush (wholeNames : Bool) (s : Local) : Local :=
  let s := s.mapFs (·.recalcVsize)
  let s := s.mapFs fun fs => fs.mapFile fun f => { f with ext := { f.ext with hdrVsize := fs.vsize } }
  let next := s.nextLineage
  let s := s.mapFs (·.mapFile fun f => (setLineage f next).recount)
  let s : Local :=
    { disk := { s.disk with
        base := some { ident := s.disk.nextIdent, file := s.fs.file.stored }
        nextIdent := s.disk.nextIdent + 1 }
      fs := { s.fs with lineage := next, baseIdent := s.disk.nextIdent } }
  if wholeNames then s.saveNames else s

/-- Replaces the log with an empty one of the base's lineage. -/
def truncateLog : Local :=
  { disk := { s.disk with
      log := some {
        ident := s.disk.nextIdent
        indexID := s.fs.file.header.indexID
        fileSeq := s.fs.lineage.lineage
        groups := [] }
      nextIdent := s.disk.nextIdent + 1 }
    fs := { s.fs.closeFDs with logSize := 0 } }

/-- Writes an empty log when there is none. -/
def ensureLogStub : Local :=
  if s.disk.log.isSome then s
  else { s with disk := { s.disk with
    log := some {
      ident := s.disk.nextIdent
      indexID := s.fs.file.header.indexID
      fileSeq := s.fs.lineage.lineage
      groups := [] }
    nextIdent := s.disk.nextIdent + 1 } }

/-- Appends one group. A handle without a descriptor opens the log first and takes its size; a
descriptor on a replaced file writes where nobody reads. -/
def appendMutLog (group : Group) (s : Local) : Local :=
  let s :=
    match s.fs.logFD with
    | some _ => s
    | none =>
      match s.disk.log with
      | some log => s.mapFs fun fs => { fs with logSize := log.size, logFD := some log.ident }
      | none =>
        let log : LogFile := {
          ident := s.disk.nextIdent
          indexID := s.fs.file.header.indexID
          fileSeq := s.fs.lineage.lineage
          groups := [] }
        { disk := { s.disk with log := some log, nextIdent := s.disk.nextIdent + 1 }
          fs := { s.fs with logFD := some log.ident } }
  { disk := { s.disk with
      log := s.disk.log.map fun log =>
        if s.fs.logFD = some log.ident then { log with groups := log.groups ++ [group] } else log }
    fs := { s.fs with logSize := s.fs.logSize + groupSize group } }

/-- Appends a line to the sidecar; a record without a filename names its own storage. -/
def appendName (uid : ℕ) (name : Bytes) (size : ℕ) (s : Local) : Local :=
  if name = [] then s
  else
    let s : Local :=
      match s.fs.namesFD with
      | some _ => s
      | none =>
        match s.disk.names with
        | some names => s.mapFs fun fs => { fs with namesFD := some names.ident }
        | none =>
          { disk := { s.disk with
              names := some { ident := s.disk.nextIdent, lines := [] }
              nextIdent := s.disk.nextIdent + 1 }
            fs := { s.fs with namesFD := some s.disk.nextIdent } }
    { s with disk := { s.disk with
      names := s.disk.names.map fun names =>
        if s.fs.namesFD = some names.ident then
          { names with lines := names.lines ++ [⟨uid, name, size⟩] }
        else names } }

end Local

end Yarilo.FileIndex

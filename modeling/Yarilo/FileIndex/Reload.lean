import Yarilo.FileIndex.Folder

/-! # Reloading and opening a folder

A handle reloads under the folder lock before every operation. When nothing moved it keeps what it
has; when only the log grew it replays the tail; when the base was rewritten it either adopts the
new base, if the pairing and the digest say that its own records are in it, or reads it again. A
fresh open reads the base and replays the whole log over it.
-/

namespace Yarilo.FileIndex

open Library MailIndex

namespace Local

variable (s : Local)

/-- The log was replaced under the descriptor this handle appends with. -/
def logReplaced : Bool :=
  match s.fs.logFD, s.disk.log with
  | some fd, some log => fd ≠ log.ident
  | _, _ => false

/-- The new base holds exactly the records this handle has. -/
def adoptable (base : BaseFile) : Bool :=
  let h := readLineage base.file
  h.lineage ≠ lineageUnknown ∧ h.foldedLineage = s.fs.lineage.lineage ∧
    h.foldedOffset ≤ s.fs.logSize ∧ h.recordsDigest = digestRecords s.fs.file

/-- Folds in what the log gained behind this handle's offset. -/
def applyLogTail : Except Err Unit × Local :=
  match s.disk.log with
  | none => (.ok (), s)
  | some log =>
    if log.size ≤ s.fs.logSize then (.ok (), s)
    else if log.indexID ≠ s.fs.file.header.indexID then
      -- The log of another mailbox at this path: rewrite the base and start a log of our own.
      let s := (s.mapFs (·.stampExpungeFloor)).flush false
      (.ok (), { (s.truncateLog) with fs := { s.fs with logSize := 0 } })
    else
      match applyLogFrom s.disk log s.fs s.fs.logSize with
      | (fs, some confirmedEnd) => (.ok (), { s with fs := { fs with logSize := confirmedEnd } })
      | (fs, none) => (.error .keywordRegistryFull, { s with fs := fs })

/-- Keeps the handle's own file, its extension headers included, and takes over the typed copies of
the new base's headers. -/
def adopt (base : BaseFile) : Except Err Unit × Local :=
  (s.mapFs fun fs =>
    { fs with
      lineage := readLineage base.file
      baseIdent := base.ident
      logSize := 0
      keywords := base.file.ext.keywords
      vsize := base.file.ext.hdrVsize }).applyLogTail

/-- Reads the base again and resumes the log where the base's pairing says. -/
def reread (base : BaseFile) : Except Err Unit × Local :=
  (s.mapFs fun fs =>
    { fs with
      file := base.file
      keywords := base.file.ext.keywords
      vsize := base.file.ext.hdrVsize
      filenames := (loadNames s.disk.names).1
      sizes := (loadNames s.disk.names).2
      baseIdent := base.ident
      lineage := readLineage base.file
      logSize := (replayStart (readLineage base.file) (logLineage s.disk.log)).getD 0 }).applyLogTail

def ensureVsize (result : Except Err Unit × Local) : Except Err Unit × Local :=
  match result with
  | (.ok (), s) => (.ok (), s.mapFs (·.ensureVsize))
  | failed => failed

def reload : Except Err Unit × Local :=
  let replaced := s.logReplaced
  let s := if replaced then s.mapFs (·.closeFDs) else s
  match s.disk.base with
  | none => (.error .notExist, s)
  | some base =>
    if ¬ replaced ∧ s.fs.baseIdent = base.ident ∧ logFileSize s.disk.log = s.fs.logSize then
      (.ok (), s)
    else if s.fs.baseIdent ≠ base.ident ∨ replaced then
      if ¬ replaced ∧ s.adoptable base then s.adopt base
      else ensureVsize (s.reread base)
    else ensureVsize s.applyLogTail

/-- Runs an operation's body on the state the reload found. -/
def withFolder {β : Type} (s : Local) (body : Local → Except Err β × Local) :
    Except Err β × Local :=
  match s.reload with
  | (.error e, s) => (.error e, s)
  | (.ok (), s) => body s

end Local

/-- A handle before it has read anything. -/
def FolderState.unread (disk : Disk) (base : BaseFile) : FolderState where
  file := base.file
  keywords := []
  filenames := (loadNames disk.names).1
  sizes := (loadNames disk.names).2
  vsize := ⟨0, 0, 0⟩
  lineage := readLineage base.file
  logSize := 0
  baseIdent := base.ident
  logFD := none
  namesFD := none

/-- Opens the base and replays the whole log over it. The typed keyword registry is read from the
extension header only after the replay. -/
def openFolder (disk : Disk) : Except Err FolderState × Disk :=
  match disk.base with
  | none => (.error .notExist, disk)
  | some base =>
    let fs := FolderState.unread disk base
    let replayed : Except Err FolderState × Disk :=
      match disk.log with
      | none => (.ok fs, disk)
      | some log =>
        if log.indexID ≠ fs.file.header.indexID then
          let s := Local.truncateLog { disk := disk, fs := fs }
          (.ok s.fs, s.disk)
        else
          match applyLogFrom disk log fs 0 with
          | (fs, some confirmedEnd) => (.ok { fs with logSize := confirmedEnd }, disk)
          | (_, none) => (.error .keywordRegistryFull, disk)
    match replayed with
    | (.error e, disk) => (.error e, disk)
    | (.ok fs, disk) =>
      let s := Local.ensureLogStub
        { disk := disk
          fs := { fs with
            keywords := fs.file.ext.keywords
            vsize := fs.file.ext.hdrVsize }.ensureVsize }
      (.ok s.fs, s.disk)

/-- A new folder: an empty base, and a log stub of its lineage. -/
def createFresh (uidValidity indexID : ℕ) : Local :=
  let file : File := {
    header := {
      indexID := indexID
      flags := 0
      uidValidity := uidValidity
      nextUID := 1
      messagesCount := 0
      seenMessagesCount := 0
      deletedMessagesCount := 0 }
    ext := {
      highestModSeq := 1
      keywords := []
      hdrVsize := ⟨0, 0, 0⟩
      lineage := none
      expungeFloor := none
      guidState := guidStateComplete
      uidNames := none
      cacheResetID := uidValidity
      order := layoutOrder.filter (· ∉ [.lineage, .expungeFloor, .uidNames]) }
    records := [] }
  let s : Local := {
    disk := { base := none, log := none, names := none, nextIdent := 1 }
    fs := {
      file := file
      keywords := []
      filenames := []
      sizes := []
      vsize := ⟨0, 0, 0⟩
      lineage := .unknown
      logSize := 0
      baseIdent := 0
      logFD := none
      namesFD := none } }
  (s.flush true).ensureLogStub

end Yarilo.FileIndex

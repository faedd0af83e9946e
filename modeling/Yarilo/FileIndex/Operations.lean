import Yarilo.FileIndex.Reload

/-! # Folder operations

The operations a handle offers on one folder, as they run under the folder lock once the reload has
succeeded. Time enters in one place: whether a commit crosses the compaction thresholds is an
argument of the operation.
-/

namespace Yarilo.FileIndex

open Library MailIndex

/-- The message description callers hand to the index. -/
structure MessageMeta where
  uid : ℕ
  filename : Bytes
  mapUID : ℕ
  saveDate : ℕ
  flags : List ImapFlag
  keywords : List Keyword
  modSeq : ℕ
  size : ℕ
  vsize : ℕ
  internalDate : ℕ
  guid : Guid
  altTier : Bool
deriving DecidableEq

def MessageMeta.rfc822Size (m : MessageMeta) : ℕ := if m.vsize ≠ 0 then m.vsize else m.size

inductive FlagWriteMode where
  | replace | add | remove
deriving DecidableEq

/-- The flag byte a write leaves; the tier marker is not the client's to clear. -/
def FlagWriteMode.newFlags (mode : FlagWriteMode) (old given : MailFlag) : MailFlag :=
  match mode with
  | .replace => given ||| (old &&& flagBackend)
  | .add => given ||| (old &&& flagBackend) ||| old
  | .remove => old &&& ~~~given

/-- The keyword list a write asks for, given the record's own. -/
def FlagWriteMode.wanted (mode : FlagWriteMode) (have_ given : List Keyword) : List Keyword :=
  match mode with
  | .replace => given
  | .add => unionStrings have_ given
  | .remove => subtractStrings have_ given

structure FlagsUpdate where
  flags : List ImapFlag
  keywords : List Keyword
  mode : FlagWriteMode
deriving DecidableEq

/-- What an operation reports to its caller. -/
inductive Answer where
  | done
  | uid (uid : ℕ)
  | modSeq (modseq : ℕ)
  | uidModSeq (uid modseq : ℕ)
  | uids (uids : List ℕ)
deriving DecidableEq

abbrev Result := Except Err Answer × Local

/-- A folded counter follows a flag that changed from `old` to `new`. -/
def countChange (old new : Bool) (n : ℕ) : ℕ := countUp (!old && new) (countDown (old && !new) n)

def Header.countFlags (h : Header) (old new : Record) : Header :=
  { h with
    seenMessagesCount := countChange old.seen new.seen h.seenMessagesCount
    deletedMessagesCount := countChange old.deleted new.deleted h.deletedMessagesCount }

/-- The log records of a keyword change, each with the name inside. -/
def keywordLogRecords (uid : ℕ) (have_ want : List Keyword) : List TxRecord :=
  let added := subtractStrings want have_
  let removed := subtractStrings have_ want
  if added = [] ∧ removed = [] then []
  else if want = [] then [.keywordReset uid uid]
  else added.map (.keywordUpdate .add · uid uid) ++ removed.map (.keywordUpdate .remove · uid uid)

namespace Record

/-- An assigned identity is never rewritten. -/
def stampGUID (r : Record) (guids : List (ℕ × Guid)) : Record :=
  if r.guid = 0 then { r with guid := mapGet 0 guids r.uid } else r

/-- An offset is overwritten only with a non-zero one. -/
def stampCache (r : Record) (offsets : List (ℕ × ℕ)) : Record :=
  if mapGet 0 offsets r.uid = 0 then r else { r with cache := some (mapGet 0 offsets r.uid) }

/-- The offset in the next cache generation, if the record was carried over. -/
def moveCache (r : Record) (moved : List (ℕ × ℕ)) : Record := { r with cache := moved.lookup r.uid }

/-- Sets or clears the tier marker of a record whose filename is listed. -/
def setTier (r : Record) (names : List (ℕ × Bytes)) (filenames : List Bytes) (altTier : Bool) : Record :=
  if mapGet [] names r.uid ∈ filenames then
    { r with flags := if altTier then r.flags ||| flagBackend else r.flags &&& ~~~flagBackend }
  else r

end Record

namespace FolderState

def recordFor (m : MessageMeta) (modseq : ℕ) (bits : BitVec 32) : Record where
  uid := m.uid
  flags := imapFlagsToIndex m.flags ||| (if m.altTier then flagBackend else 0)
  modseq := modseq
  keywords := bits
  vsize := m.rfc822Size
  guid := m.guid
  idate := some m.internalDate
  mdbox := if m.mapUID ≠ 0 then some (m.mapUID, m.saveDate) else none
  cache := none

variable (fs : FolderState)

def addRecord (m : MessageMeta) (r : Record) : FolderState :=
  { fs with
    file := { fs.file with
      header := { fs.file.header.countAppend r with
        nextUID := if fs.file.header.nextUID ≤ m.uid then u32 (m.uid + 1)
          else fs.file.header.nextUID }
      records := fs.file.records ++ [r] }
    filenames := if m.filename ≠ [] then mapSet fs.filenames m.uid m.filename else fs.filenames
    sizes := mapSet fs.sizes m.uid m.size
    vsize := {
      vsize := u64 (fs.vsize.vsize + m.rfc822Size)
      highestUID := max fs.vsize.highestUID m.uid
      messageCount := u32 (fs.vsize.messageCount + 1) } }

/-- The record a flag write targets. -/
def target (uid : ℕ) : Option Record := fs.file.records.find? (·.uid = uid)

/-- The keyword names of the targeted record. -/
def namesOf (uid : ℕ) : List Keyword :=
  ((fs.target uid).map fun r => keywordsFromBitmask fs.keywords r.keywords).getD []

/-- The flag byte a write leaves; without a record it is the client's. -/
def newFlags (fs : FolderState) (mode : FlagWriteMode) (uid : ℕ) (given : MailFlag) : MailFlag :=
  ((fs.target uid).map fun r => mode.newFlags r.flags given).getD given

/-- Writes flags and keyword bits into the targeted record, stamped with the folder's counter. -/
def writeRecord (uid : ℕ) (flags : MailFlag) (bits : BitVec 32) : FolderState :=
  let change := fun r : Record =>
    { r with flags := flags, modseq := fs.highestModSeq, keywords := bits }
  fs.mapFile fun f => { f with
    header := ((fs.target uid).map fun r => f.header.countFlags r (change r)).getD f.header
    records := updateFirst uid change f.records }

/-- The log group of a flag write. -/
def flagGroup (uid : ℕ) (flags : MailFlag) (have_ want : List Keyword) : Group :=
  [.modseqUpdate [(uid, fs.highestModSeq)], .flagUpdate [⟨uid, uid, flags, ~~~flags⟩]] ++
    keywordLogRecords uid have_ want ++
    [.headerUpdate 40 fs.file.header.seenMessagesCount,
      .headerUpdate 44 fs.file.header.deletedMessagesCount]

/-- Drops a record from the file, the size header and the sidecar maps. -/
def removeRecord (r : Record) : FolderState :=
  let expungedVSize := if r.vsize = 0 then mapGet 0 fs.sizes r.uid else r.vsize
  { fs with
    file := { fs.file with
      header := fs.file.header.countExpunge r
      records := removeFirst r.uid fs.file.records }
    vsize := { fs.vsize with
      vsize := fs.vsize.vsize - expungedVSize
      messageCount := fs.vsize.messageCount - 1 }
    filenames := mapDelete fs.filenames r.uid
    sizes := mapDelete fs.sizes r.uid }

/-- The log group of an expunge. -/
def expungeGroup (r : Record) : Group :=
  [.expungeGUID [⟨r.uid, r.guid, some fs.highestModSeq⟩], .headerUpdate 32 fs.file.header.messagesCount,
    .headerUpdate 40 fs.file.header.seenMessagesCount,
    .headerUpdate 44 fs.file.header.deletedMessagesCount]

end FolderState

namespace Local

variable (m : MessageMeta)

/-- An append with a claimed modseq raises the counter to it; one without takes the next. -/
def stampModSeq (s : Local) : Local :=
  s.mapFs fun fs => if m.modSeq ≠ 0 then fs.advanceModSeqAtLeast m.modSeq else fs.bumpModSeqHeader

theorem stampModSeq_fs (s : Local) : ∃ n, (s.stampModSeq m).fs = s.fs.setHighestModSeq n := by
  unfold stampModSeq mapFs
  split <;> exact ⟨_, rfl⟩

/-- Takes a registry over; one that grew is written out. -/
def growRegistry (registry : Registry) (s : Local) : Local :=
  let grew := s.fs.keywords.length < registry.length
  let s := s.mapFs (·.persistKeywordRegistry registry)
  if grew then s.flush false else s

/-- The in-memory half of an append. The registry is settled before the record is added. -/
def appendLocked (s : Local) : Except Err Record × Local :=
  if m.uid = 0 then (.error .uidZero, s)
  else
    let s := s.stampModSeq m
    let modseq := if m.modSeq ≠ 0 then m.modSeq else s.fs.highestModSeq
    match keywordsBitmaskFor s.fs.keywords m.keywords with
    | none => (.error .keywordRegistryFull, s)
    | some (bits, registry) =>
      let r := FolderState.recordFor m modseq bits
      (.ok r, (s.growRegistry registry).mapFs (·.addRecord m r))

/-- The log group of an append. -/
def appendGroup (fs : FolderState) (r : Record) : Group :=
  [.append [r], .modseqUpdate [(r.uid, r.modseq)], .headerUpdate 28 fs.file.header.nextUID,
    .headerUpdate 32 fs.file.header.messagesCount, .headerUpdate 40 fs.file.header.seenMessagesCount,
    .headerUpdate 44 fs.file.header.deletedMessagesCount]

def flushAppend (r : Record) (s : Local) : Local :=
  let s := s.appendName r.uid (mapGet [] s.fs.filenames r.uid) (mapGet 0 s.fs.sizes r.uid)
  s.appendMutLog (appendGroup s.fs r)

/-- Folds the log into the base and starts a new one. -/
def compact (wholeNames : Bool) (s : Local) : Local :=
  ((s.mapFs (·.stampExpungeFloor)).flush wholeNames).truncateLog

def compactLogIfNeeded (rotate : Bool) (s : Local) : Local :=
  if rotate then s.compact false else s

/-- Commits an append whose UID is settled. -/
def commitAppend (rotate : Bool) (s : Local) : Result :=
  match s.appendLocked m with
  | (.error e, s) => (.error e, s)
  | (.ok r, s) => (.ok .done, (s.flushAppend r).compactLogIfNeeded rotate)

/-- What an append can do: refuse the UID, refuse the keywords after the counter has moved, or
commit its record. -/
theorem commitAppend_cases (rotate : Bool) (s : Local) :
    s.commitAppend m rotate = (.error .uidZero, s) ∨
      s.commitAppend m rotate = (.error .keywordRegistryFull, s.stampModSeq m) ∨
      ∃ bits registry modseq r,
        keywordsBitmaskFor s.fs.keywords m.keywords = some (bits, registry) ∧
        modseq = (if m.modSeq ≠ 0 then m.modSeq else (s.stampModSeq m).fs.highestModSeq) ∧
        r = FolderState.recordFor m modseq bits ∧
        s.commitAppend m rotate = (.ok .done,
          (((s.stampModSeq m).growRegistry registry).mapFs (·.addRecord m r)
            |>.flushAppend r).compactLogIfNeeded rotate) := by
  obtain ⟨_, stamped⟩ := s.stampModSeq_fs m
  have keywords : (s.stampModSeq m).fs.keywords = s.fs.keywords := congrArg (·.keywords) stamped
  unfold commitAppend appendLocked
  by_cases zero : m.uid = 0
  · exact .inl (by rw [if_pos zero])
  rw [if_neg zero]
  dsimp only
  rw [keywords]
  cases known : keywordsBitmaskFor s.fs.keywords m.keywords with
  | none => exact .inr (.inl rfl)
  | some found => exact .inr (.inr ⟨found.1, found.2, _, _, rfl, rfl, rfl, rfl⟩)

def appendMessage (rotate : Bool) (s : Local) : Result := s.commitAppend m rotate

/-- The UID an allocation hands out. -/
def nextUID (s : Local) : ℕ :=
  if s.fs.file.header.nextUID = 0 then 1 else s.fs.file.header.nextUID

def allocateUID (s : Local) : Result :=
  let uid := s.nextUID
  let s := s.mapFs (·.setNextUID (u32 (uid + 1)))
  (.ok (.uid uid), s.appendMutLog [.headerUpdate 28 s.fs.file.header.nextUID])

def allocateUIDWithModSeq (s : Local) : Result :=
  let uid := s.nextUID
  let s := s.mapFs fun fs => (fs.setNextUID (u32 (uid + 1))).bumpModSeqHeader
  (.ok (.uidModSeq uid s.fs.highestModSeq), s.appendMutLog [.headerUpdate 28 s.fs.file.header.nextUID])

/-- `name` is the outcome of the naming callback: absent, refused, or a filename. -/
def allocateAndAppendNamed (name : Option (Except Err Bytes)) (rotate : Bool)
    (s : Local) : Result :=
  let uid := s.nextUID
  let s := s.mapFs (·.setNextUID (u32 (uid + 1)))
  match name with
  | some (.error e) => (.error e, s)
  | some (.ok filename) =>
    let (result, s) := s.commitAppend { m with uid := uid, filename := filename } rotate
    (result.map fun _ => .uid uid, s)
  | none =>
    let (result, s) := s.commitAppend { m with uid := uid } rotate
    (result.map fun _ => .uid uid, s)

def nextModSeq (s : Local) : Result :=
  let s := s.mapFs (·.bumpModSeqHeader)
  (.ok (.modSeq s.fs.highestModSeq), s)

/-- Replaces, extends or reduces one record's flags and keywords. The change is journalled even
when the folder has no such record. -/
def writeFlags (mode : FlagWriteMode) (uid : ℕ) (flags : List ImapFlag) (keywords : List Keyword)
    (s : Local) : Result :=
  let s := s.mapFs (·.bumpModSeqHeader)
  let have_ := s.fs.namesOf uid
  let want := mode.wanted have_ keywords
  match keywordsBitmaskFor s.fs.keywords want with
  | none => (.error .keywordRegistryFull, s)
  | some (bits, registry) =>
    let newFlags := s.fs.newFlags mode uid (imapFlagsToIndex flags)
    let s := s.mapFs fun fs => (fs.persistKeywordRegistry registry).writeRecord uid newFlags bits
    (.ok .done, s.appendMutLog (s.fs.flagGroup uid newFlags have_ want))

end Local

/-- The batch loop's accumulators: the counter and registry it moves, the header counts, the records
it has passed, and the log records it has collected. -/
structure Batch where
  highest : ℕ
  registry : Registry
  header : Header
  passed : List Record
  modseqUpdates : List (ℕ × ℕ)
  flagUpdates : List FlagUpdate
  keywordRecs : List TxRecord
deriving DecidableEq

/-- One record of the batch; the flag is false when the registry is full. -/
def Batch.step (updates : List (ℕ × FlagsUpdate)) (b : Batch) (r : Record) : Batch × Bool :=
  match updates.lookup r.uid with
  | none => ({ b with passed := b.passed ++ [r] }, true)
  | some upd =>
    let modseq := u64 (b.highest + 1)
    let have_ := keywordsFromBitmask b.registry r.keywords
    let want := upd.mode.wanted have_ upd.keywords
    match keywordsBitmaskFor b.registry want with
    | none => ({ b with highest := modseq, passed := b.passed ++ [r] }, false)
    | some (bits, registry) =>
      let newFlags := upd.mode.newFlags r.flags (imapFlagsToIndex upd.flags)
      let r' := { r with flags := newFlags, modseq := modseq, keywords := bits }
      ({ highest := modseq
         registry := registry
         header := b.header.countFlags r r'
         passed := b.passed ++ [r']
         modseqUpdates := b.modseqUpdates ++ [(r.uid, modseq)]
         flagUpdates := b.flagUpdates ++ [⟨r.uid, r.uid, newFlags, ~~~newFlags⟩]
         keywordRecs := b.keywordRecs ++ keywordLogRecords r.uid have_ want }, true)

def Batch.loop (updates : List (ℕ × FlagsUpdate)) (b : Batch) : List Record → Batch × Bool
  | [] => (b, true)
  | r :: rest =>
    match b.step updates r with
    | (b, true) => b.loop updates rest
    | (b, false) => ({ b with passed := b.passed ++ rest }, false)

variable (fs : FolderState)

/-- The batch before its first record. -/
def Batch.start : Batch where
  highest := fs.highestModSeq
  registry := fs.keywords
  header := fs.file.header
  passed := []
  modseqUpdates := []
  flagUpdates := []
  keywordRecs := []

/-- The handle after the batch. -/
def FolderState.batched (b : Batch) : FolderState :=
  { fs with
    keywords := b.registry
    file := { fs.file with
      header := b.header
      ext := { fs.file.ext with highestModSeq := b.highest }
      records := b.passed } }

/-- The log group of a batch. -/
def Batch.group (b : Batch) : Group :=
  [.modseqUpdate b.modseqUpdates, .flagUpdate b.flagUpdates] ++ b.keywordRecs ++
    [.headerUpdate 40 b.header.seenMessagesCount, .headerUpdate 44 b.header.deletedMessagesCount]

namespace Local

/-- Every name of the batch, in the order the iteration over the updates meets them. -/
def batchKeywords (updates : List (ℕ × FlagsUpdate)) : List Keyword :=
  (updates.flatMap (·.2.keywords)).reverse.dedup.reverse

/-- `updates` lists the batch in the order the map iteration yields it. -/
def updateFlagsMulti (updates : List (ℕ × FlagsUpdate)) (s : Local) : Result :=
  match keywordsBitmaskFor s.fs.keywords (batchKeywords updates) with
  | none => (.error .keywordRegistryFull, s)
  | some (_, registry) =>
    let s := if batchKeywords updates = [] then s else s.mapFs (·.persistKeywordRegistry registry)
    let (b, ok) := (Batch.start s.fs).loop updates s.fs.file.records
    let s := s.mapFs (·.batched b)
    if !ok then (.error .keywordRegistryFull, s)
    else if b.modseqUpdates = [] then (.ok .done, s)
    else (.ok .done, s.appendMutLog b.group)

/-- The counter moves before the record is looked for. -/
def expungeMessage (uid : ℕ) (s : Local) : Result :=
  let s := s.mapFs (·.bumpModSeqHeader)
  match s.fs.target uid with
  | none => (.ok .done, s)
  | some r =>
    let s := s.mapFs (·.removeRecord r)
    (.ok .done, s.appendMutLog (s.fs.expungeGroup r))

def saveFolder (s : Local) : Result := (.ok .done, s.flush false)

def recomputeVSize (s : Local) : Result := (.ok .done, s.flush false)

def adoptUIDSpace (uidValidity nextUID : ℕ) (s : Local) : Result :=
  if s.fs.file.records ≠ [] then (.error .uidSpaceInUse, s)
  else
    let s := s.mapFs (·.mapFile fun f => { f with header := { f.header with
      uidValidity := uidValidity
      nextUID := max f.header.nextUID nextUID } })
    (.ok .done, s.flush false)

def setGUIDs (guids : List (ℕ × Guid)) (s : Local) : Result :=
  let s := s.mapFs (·.mapFile fun f => { f with
    ext := { f.ext with guidState := guidStateComplete }
    records := f.records.map (·.stampGUID guids) })
  (.ok .done, s.flush true)

def setCacheOffsets (offsets : List (ℕ × ℕ)) (s : Local) : Result :=
  let s := s.mapFs (·.mapFile fun f => { f with records := f.records.map (·.stampCache offsets) })
  (.ok .done, s.flush true)

/-- A generation no live stamp can belong to, from the clock. -/
def newCacheGeneration (now prev : ℕ) : ℕ := if now ≤ prev then u32 (prev + 1) else now

/-- `PurgeCache` and `BumpCacheGeneration`: `moved` are the offsets the purge carried over, none when
the generation is abandoned. -/
def leaveCacheGeneration (now : ℕ) (moved : List (ℕ × ℕ)) (s : Local) : Result :=
  let s := s.mapFs (·.mapFile fun f => { f with
    ext := { f.ext with cacheResetID := newCacheGeneration now f.ext.cacheResetID }
    records := f.records.map (·.moveCache moved) })
  (.ok .done, s.flush true)

def setAltTier (filenames : List Bytes) (altTier : Bool) (s : Local) : Result :=
  let records := s.fs.file.records.map (·.setTier s.fs.filenames filenames altTier)
  if records = s.fs.file.records then (.ok .done, s)
  else
    let s := s.mapFs (·.mapFile fun f => { f with records := records })
    (.ok .done, s.flush false)

def optimizeIndex (s : Local) : Result := (.ok .done, s.compact true)

end Local

/-- The reset loop's accumulators. -/
structure Rebuild where
  registry : Registry
  fresh : ℕ
  maxModseq : ℕ
  maxUID : ℕ
  records : List Record
  header : Header
  filenames : List (ℕ × Bytes)
  sizes : List (ℕ × ℕ)
deriving DecidableEq

/-- One message of the new set; `none` is the full registry. -/
def Rebuild.step (b : Rebuild) (m : MessageMeta) : Option Rebuild :=
  if m.uid = 0 then some b
  else
    (keywordsBitmaskFor b.registry m.keywords).map fun (bits, registry) =>
      let fresh := if m.modSeq = 0 then u64 (b.fresh + 1) else b.fresh
      let modseq := if m.modSeq = 0 then fresh else m.modSeq
      let r : Record := {
        uid := m.uid
        flags := imapFlagsToIndex m.flags
        modseq := modseq
        keywords := bits
        vsize := m.rfc822Size
        guid := m.guid
        idate := none
        mdbox := none
        cache := none }
      { registry := registry
        fresh := fresh
        maxModseq := max b.maxModseq modseq
        maxUID := max b.maxUID m.uid
        records := b.records ++ [r]
        header := b.header.countAppend r
        filenames := if m.filename ≠ [] then mapSet b.filenames m.uid m.filename else b.filenames
        sizes := mapSet b.sizes m.uid m.size }

def Rebuild.loop (b : Rebuild) : List MessageMeta → Rebuild × Bool
  | [] => (b, true)
  | m :: rest =>
    match b.step m with
    | none => (b, false)
    | some b => b.loop rest

/-- The reset before its first message. -/
def Rebuild.start : Rebuild where
  registry := fs.keywords
  fresh := fs.highestModSeq
  maxModseq := fs.highestModSeq
  maxUID := 0
  records := []
  header := { fs.file.header with
    messagesCount := 0, seenMessagesCount := 0, deletedMessagesCount := 0 }
  filenames := []
  sizes := []

/-- The handle with the set the loop has built so far. -/
def FolderState.rebuilt (b : Rebuild) : FolderState :=
  { fs with
    file := { fs.file with header := b.header, records := b.records }
    keywords := b.registry
    filenames := b.filenames
    sizes := b.sizes }

/-- Raises the counters over the new set and writes its registry out. -/
def FolderState.settled (b : Rebuild) : FolderState :=
  let fs := fs.advanceModSeqAtLeast b.maxModseq
  let fs := if fs.file.header.nextUID ≤ b.maxUID then fs.setNextUID (u32 (b.maxUID + 1)) else fs
  fs.persistKeywordRegistry fs.keywords

namespace Local

/-- Replaces every record. A failure leaves the half-built set in memory. -/
def resetFolder (metas : List MessageMeta) (s : Local) : Result :=
  let before := s.fs.file.records.map (·.uid)
  let (b, ok) := (Rebuild.start s.fs).loop metas
  let s := s.mapFs (·.rebuilt b)
  if !ok then (.error .keywordRegistryFull, s)
  else
    let s := s.mapFs (·.settled b)
    let kept := b.records.map (·.uid)
    (.ok (.uids (before.filter (· ∉ kept))), s.compact true)

def markFolderCorrupt (s : Local) : Result :=
  if s.fs.file.header.flags &&& hdrFlagFsckd ≠ 0 then (.ok .done, s)
  else
    let s := s.mapFs (·.mapFile fun f => { f with header := { f.header with
      flags := f.header.flags ||| hdrFlagFsckd } })
    (.ok .done, s.appendMutLog [.headerUpdate 20 s.fs.file.header.flags.toNat])

def clearFolderCorrupt (s : Local) : Result :=
  if s.fs.file.header.flags &&& hdrFlagFsckd = 0 then (.ok .done, s)
  else
    let s := s.mapFs (·.mapFile fun f => { f with header := { f.header with
      flags := f.header.flags &&& ~~~hdrFlagFsckd } })
    (.ok .done, s.appendMutLog [.headerUpdate 20 s.fs.file.header.flags.toNat])

/-- A read answers from memory. -/
def read (s : Local) : Result := (.ok .done, s)

end Local

end Yarilo.FileIndex

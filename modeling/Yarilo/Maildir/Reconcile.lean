import Yarilo.FileIndex.Ledger
import Yarilo.Mailbox.Maildir

/-! # Bringing the index up to date with a maildir

A folder's messages are the files of `cur/`; deliveries wait in `new/`. The part of a file's name in
front of the colon names the message, what follows are its flags. `ReconcileIndex` moves deliveries
in, lists the directories, and makes the records of the index agree with the listing.

What a file's name and its metadata say, the hash of a base name and the clock are arguments
(`Host`). A directory entry is a file or a directory; the listings pass over directories, a check for
one name does not.
-/

namespace Yarilo.Maildir

open Library FileIndex
open Mailbox (DirEntry MailDir)

/-- The part of a file's name that a flag change keeps. -/
def maildirBase (name : Bytes) : Bytes := name.takeWhile (· ≠ 58)

/-! ## The folder -/

structure UidRecord where
  uid : ℕ
  base : Bytes
  guid : Option Guid
deriving DecidableEq

/-- A uidlist as its readers parse it. `behind` are the records after a torn line: they are found
when a UID is looked up, and lost when the list is rewritten. -/
structure UidList where
  uidValidity : ℕ
  nextUID : ℕ
  records : List UidRecord
  behind : List UidRecord
deriving DecidableEq

/-- The names of a directory are distinct, and none is empty. -/
structure Folder where
  cur : MailDir
  new : MailDir
  uidList : Option UidList
  distinct : (cur.map (·.name)).Nodup
  named : ∀ e ∈ cur, e.name ≠ []

/-- What a file's name, read with the folder's keyword file, and its metadata say. -/
structure FileFacts where
  size : ℕ
  vsize : ℕ
  internalDate : ℕ
  flags : List ImapFlag
  keywords : List Keyword
deriving DecidableEq

/-- `rotate` tells for each message whether its append crosses the compaction thresholds. -/
structure Host where
  facts : Bytes → FileFacts
  guidFromBase : Bytes → Guid
  now : ℕ
  rotate : Bytes → Bool

structure ScanRecord extends FileFacts where
  filename : Bytes
  guid : Guid
deriving DecidableEq

inductive Fault where
  | rename (name : Bytes)
  | index (e : Err)
deriving DecidableEq

/-- The result of a call to the index. -/
def call : Result → Except Fault (Answer × Local)
  | (.ok answer, s) => .ok (answer, s)
  | (.error e, _) => .error (.index e)

namespace UidList

/-- The records `readUIDList` reads, the last one of a base first. -/
def latest (l : UidList) (base : Bytes) : List UidRecord :=
  (l.records ++ l.behind).reverse.filter fun r => maildirBase r.base = base

/-- Replaces the record of a base, or adds one. -/
def setRecord (records : List UidRecord) (r : UidRecord) : List UidRecord :=
  match records.reverse.findIdx? (·.base = r.base) with
  | some i => records.set (records.length - 1 - i) r
  | none => records ++ [r]

/-- `writeUIDList`: the header's next UID is recomputed. -/
def write (now : ℕ) (l : UidList) : UidList :=
  let next := l.records.foldl (fun next r => if next ≤ r.uid then u32 (r.uid + 1) else next) l.nextUID
  { l with
    uidValidity := if l.uidValidity = 0 then now else l.uidValidity
    nextUID := if next = 0 then 1 else next
    behind := [] }

end UidList

namespace Folder

variable (f : Folder)

def guidFor (host : Host) (name : Bytes) : Guid :=
  ((f.uidList.bind fun l => (l.latest (maildirBase name)).findSome? (·.guid))).getD
    (host.guidFromBase (maildirBase name))

/-- `Scan`: the files of `cur/`, then those of `new/`, each sorted by name. -/
def scan (host : Host) : List ScanRecord :=
  ((f.cur.readDir ++ f.new.readDir).filter (!·.isDir)).map fun e =>
    { host.facts e.name with filename := e.name, guid := f.guidFor host e.name }

def hasNewMail : Bool := f.new.any (!·.isDir)

/-- The name a file of `new/` gets in `cur/`. -/
def curName (name : Bytes) : Bytes := if 58 ∈ name then name else name ++ [58, 50, 44]

theorem curName_ne (name : Bytes) : curName name ≠ [] := by
  unfold curName
  split
  · rename_i colon
    rintro rfl
    cases colon
  · simp

theorem filter_concat_distinct {cur : MailDir} (distinct : (cur.map (·.name)).Nodup) (name : Bytes) :
    ((cur.filter (fun e => e.name ≠ name) ++ [⟨name, false⟩] : List DirEntry).map (·.name)).Nodup := by
  rw [List.map_append]
  refine nodup_concat (distinct.sublist (List.filter_sublist.map _)) fun inside => ?_
  obtain ⟨e, kept, same⟩ := List.mem_map.mp inside
  have other : e.name ≠ name := by simpa using (List.mem_filter.mp kept).2
  exact other same

/-- One round of `moveNewToCurLocked`. A file in the way is replaced, a directory is an error. -/
def moveIn (name : Bytes) : Except Fault Folder :=
  if (⟨curName name, true⟩ : DirEntry) ∈ f.cur then .error (.rename name)
  else .ok {
    f with
    cur := f.cur.filter (·.name ≠ curName name) ++ [⟨curName name, false⟩]
    new := f.new.filter (·.name ≠ name)
    distinct := filter_concat_distinct f.distinct _
    named := forall_mem_concat (fun e old => f.named e (List.mem_filter.mp old).1) (curName_ne name) }

def moveNewToCurLocked : Except Fault Folder :=
  f.new.readDir.foldlM (fun g e => if e.isDir then .ok g else g.moveIn e.name) f

/-- The first phase of a reconciliation. -/
def fetchNew : Except Fault Folder :=
  if f.hasNewMail then f.moveNewToCurLocked else .ok f

def stillOnDisk (name : Bytes) : Bool := f.cur.any (·.name = name) || f.new.any (·.name = name)

def inCurDir (name : Bytes) : Bool := f.cur.any (·.name = name)

def uidSpace : Option (ℕ × ℕ) :=
  f.uidList.bind fun l => if l.uidValidity ≠ 0 then some (l.uidValidity, l.nextUID) else none

def uidFor (name : Bytes) : Option ℕ :=
  f.uidList.bind fun l => (l.latest (maildirBase name)).head?.map (·.uid)

/-- A folder without a list is given one. The new records carry no GUID. -/
def recordUIDsLocked (host : Host) (entries : List (ℕ × Bytes)) : Folder :=
  let l := f.uidList.getD (UidList.write host.now ⟨0, 0, [], []⟩)
  let records := entries.foldl (fun records e =>
    UidList.setRecord records ⟨e.1, maildirBase e.2, none⟩) l.records
  { f with uidList := some (UidList.write host.now { l with records := records }) }

end Folder

/-! ## The pass -/

/-- The record of a base in the map over the listing: the last one wins. -/
def onDisk (scanned : List ScanRecord) (base : Bytes) : Option ScanRecord :=
  scanned.reverse.find? fun r => maildirBase r.filename = base

/-- `reconcileIsClean`: record by record and file by file the same names. -/
def reconcileIsClean (existing : List MessageMeta) (scanned : List ScanRecord) : Bool :=
  existing ≠ [] ∧ (∀ m ∈ existing, m.filename ≠ []) ∧ (existing.map (·.filename)).Nodup ∧
    existing.length = scanned.length ∧
    ∀ r ∈ scanned, r.filename ≠ [] ∧
      ∃ m ∈ existing, m.filename = r.filename ∧ ¬(m.guid = 0 ∧ r.guid ≠ 0)

/-- `sameFlags`: equal up to the order. -/
def sameFlags {α : Type} [BEq α] (a b : List α) : Bool := a.isPerm b

structure SyncStats where
  imported : ℕ
  updated : ℕ
  expunged : ℕ
deriving DecidableEq

namespace SyncStats

def none : SyncStats := ⟨0, 0, 0⟩

def changed (st : SyncStats) : Bool := 0 < st.imported ∨ 0 < st.expunged ∨ 0 < st.updated

end SyncStats

/-- The state of the locked section: the index, the bases that have their record, the GUIDs to
stamp, the UIDs to write into the list, and the counts. -/
structure Pass extends SyncStats where
  index : Local
  tracked : List Bytes
  restamp : List (ℕ × Guid)
  recorded : List (ℕ × Bytes)
deriving DecidableEq

namespace Pass

variable (p : Pass)

def start (index : Local) : Pass := { SyncStats.none with index, tracked := [], restamp := [], recorded := [] }

def expunge (uid : ℕ) : Except Fault Pass := do
  let (_, index) ← call (p.index.expungeMessage uid)
  return { p with index, expunged := p.expunged + 1 }

/-- The flags a name carries go into the record if they differ from its own. -/
def adoptFlags (m : MessageMeta) (r : ScanRecord) : Except Fault Local :=
  if sameFlags r.flags m.flags && sameFlags r.keywords m.keywords then .ok p.index
  else (call (p.index.writeFlags .replace m.uid r.flags r.keywords)).map (·.2)

/-- A message renamed by somebody else: the flags of the new name, then the name. -/
def follow (m : MessageMeta) (r : ScanRecord) : Except Fault Pass := do
  let index ← p.adoptFlags m r
  let (_, index) ← call (index.updateFilename m.uid r.filename)
  return { p with index, updated := p.updated + 1 }

/-- A base gets its record, which is stamped if it has no GUID. -/
def track (m : MessageMeta) (r : ScanRecord) : Pass :=
  { p with
    tracked := maildirBase m.filename :: p.tracked
    restamp := if m.guid = 0 ∧ r.guid ≠ 0 then p.restamp ++ [(m.uid, r.guid)] else p.restamp }

/-- One record of the index, held against the listing. `present` is the answer `stillOnDisk` gives
while this record is looked at. -/
def visit (scanned : List ScanRecord) (present : Bytes → Bool) (m : MessageMeta) : Except Fault Pass :=
  if m.filename = [] then .ok p
  else
    match onDisk scanned (maildirBase m.filename) with
    | .none => if present m.filename then .ok p else p.expunge m.uid
    | .some r =>
      if maildirBase m.filename ∈ p.tracked then p.expunge m.uid
      else if r.filename = m.filename ∨ present r.filename = false then .ok (p.track m r)
      else (p.track m r).follow m r

def metaFor (r : ScanRecord) (uid : ℕ) : MessageMeta where
  uid := uid
  filename := r.filename
  mapUID := 0
  saveDate := 0
  flags := r.flags
  keywords := r.keywords
  modSeq := 0
  size := r.size
  vsize := r.vsize
  internalDate := r.internalDate
  guid := r.guid
  altTier := false

/-- The append of a message without a record: at the UID the list has for it if the folder's UID
space was just taken over, else at the next UID, which goes into the list. -/
def append (rotate : Bytes → Bool) (recordedUID : Option ℕ) (r : ScanRecord) : Except Fault Pass :=
  match recordedUID with
  | .some uid => do
    let (_, index) ← call (p.index.appendMessage (metaFor r uid) (rotate r.filename))
    return { p with
      index
      tracked := maildirBase r.filename :: p.tracked
      imported := p.imported + 1 }
  | .none => do
    let (answer, index) ←
      call (p.index.allocateAndAppendNamed (metaFor r 0) Option.none (rotate r.filename))
    let uid := match answer with
      | .uid uid => uid
      | _ => 0
    return { p with
      index
      tracked := maildirBase r.filename :: p.tracked
      recorded := p.recorded ++ [(uid, r.filename)]
      imported := p.imported + 1 }

/-- One record of the listing that may need a record in the index. -/
def bringIn (rotate : Bytes → Bool) (uidFor : Bytes → Option ℕ) (inCur : Bytes → Bool)
    (r : ScanRecord) : Except Fault Pass :=
  if r.filename = [] ∨ maildirBase r.filename ∈ p.tracked ∨ inCur r.filename = false then .ok p
  else p.append rotate (uidFor r.filename) r

end Pass

/-- The UID space of the list, for an index without messages. -/
def adopt (f : Folder) (s : Local) : Except Fault (Bool × Local) :=
  match f.uidSpace with
  | none => .ok (false, s)
  | some (uidValidity, nextUID) =>
    match s.adoptUIDSpace uidValidity nextUID with
    | (.ok _, s) => .ok (true, s)
    | (.error .uidSpaceInUse, s) => .ok (false, s)
    | (.error e, _) => .error (.index e)

/-- The index with the missing GUIDs stamped. -/
def Pass.stamped (p : Pass) : Except Fault Local :=
  if p.restamp = [] then .ok p.index else (call (p.index.setGUIDs p.restamp)).map (·.2)

/-- The locked section on a folder where nothing else runs. -/
def applyLocked (host : Host) (f : Folder) (scanned : List ScanRecord) (s : Local) :
    Except Fault (SyncStats × Folder × Local) := do
  let (adopted, s) ← adopt f s
  let p ← s.fs.getMessages.foldlM (fun p m => p.visit scanned f.stillOnDisk m) (Pass.start s)
  let p ← scanned.foldlM (fun p r =>
    p.bringIn host.rotate (fun name => if adopted then f.uidFor name else none) f.inCurDir r) p
  let f := if p.recorded = [] then f else f.recordUIDsLocked host p.recorded
  let index ← p.stamped
  return (p.toSyncStats, f, index)

/-- `ReconcileIndex` on a folder where nothing else runs. -/
def reconcileIndex (host : Host) (f : Folder) (s : Local) : Except Fault (SyncStats × Folder × Local) := do
  let f ← f.fetchNew
  let scanned := f.scan host
  if reconcileIsClean s.fs.getMessages scanned then return (SyncStats.none, f, s)
  applyLocked host f scanned s

end Yarilo.Maildir

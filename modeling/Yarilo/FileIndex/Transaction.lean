import Yarilo.FileIndex.State

/-! # Log transactions

The transaction records a folder's log is made of, their payload bytes, and what replaying one does
to the file in memory. A writer appends groups of records, each group behind a BOUNDARY record that
states the group's size.
-/

namespace Yarilo.FileIndex

open Library MailIndex

/-- Flags added to and removed from every record of a UID range. -/
structure FlagUpdate where
  uid1 : ℕ
  uid2 : ℕ
  add : MailFlag
  remove : MailFlag
deriving DecidableEq

/-- One expunge. The 20-byte form carries no modseq. -/
structure Expunge where
  uid : ℕ
  guid : Guid
  modseq : Option ℕ
deriving DecidableEq

inductive KeywordModify where
  | add | remove
deriving DecidableEq

inductive TxRecord where
  | modseqUpdate (updates : List (ℕ × ℕ))
  | flagUpdate (updates : List FlagUpdate)
  | expungeGUID (expunges : List Expunge)
  | headerUpdate (offset value : ℕ)
  | append (records : List Record)
  | keywordUpdate (modify : KeywordModify) (name : Keyword) (uid1 uid2 : ℕ)
  | keywordReset (uid1 uid2 : ℕ)
deriving DecidableEq

/-- The records one `appendMutLog` call writes. -/
abbrev Group := List TxRecord

def encodeRecord (r : Record) : Bytes :=
  putLe 4 r.uid ++ putLe 1 r.flags.toNat ++ [0, 0, 0] ++ putLe 8 r.modseq ++
    putLe 4 (r.cache.getD 0) ++ putLe 4 (r.idate.getD 0) ++ putLe 4 r.keywords.toNat ++
    putLe 4 (r.mdbox.getD (0, 0)).1 ++ putLe 4 (r.mdbox.getD (0, 0)).2 ++ putLe 4 r.vsize ++
    putLe 16 r.guid.toNat

def txTypeAppend : ℕ := 0x2
def txTypeFlagUpdate : ℕ := 0x4
def txTypeHeaderUpdate : ℕ := 0x20
def txTypeKeywordUpdate : ℕ := 0x400
def txTypeKeywordReset : ℕ := 0x800
def txTypeModseqUpdate : ℕ := 0x8000
def txTypeBoundary : ℕ := 0x80000
def txTypeExpunge : ℕ := 0x1
def txTypeExpungeGUID : ℕ := 0x2000

/-- The type word of an expunge with its defence bits: `0x2000 | 0xcd90`. -/
def txTypeExpungeGUIDProt : ℕ := 0xed90

namespace TxRecord

def type : TxRecord → ℕ
  | modseqUpdate _ => txTypeModseqUpdate
  | flagUpdate _ => txTypeFlagUpdate
  | expungeGUID _ => txTypeExpungeGUIDProt
  | headerUpdate .. => txTypeHeaderUpdate
  | append _ => txTypeAppend
  | keywordUpdate .. => txTypeKeywordUpdate
  | keywordReset .. => txTypeKeywordReset

def payload : TxRecord → Bytes
  | modseqUpdate updates => updates.flatMap fun u => putLe 4 u.1 ++ putLe 8 u.2
  | flagUpdate updates => updates.flatMap fun u =>
      putLe 4 u.uid1 ++ putLe 4 u.uid2 ++ putLe 1 u.add.toNat ++ putLe 1 u.remove.toNat ++ [0, 0]
  | expungeGUID expunges => expunges.flatMap fun e =>
      putLe 4 e.uid ++ putLe 16 e.guid.toNat ++ (e.modseq.map (putLe 8)).getD []
  | headerUpdate offset value => putLe 2 offset ++ putLe 2 4 ++ putLe 4 value
  | append records => records.flatMap encodeRecord
  | keywordUpdate modify name uid1 uid2 =>
      [if modify = .remove then 1 else 0, 0] ++ putLe 2 name.length ++ name ++
        List.replicate (pad4 (4 + name.length)) 0 ++ putLe 4 uid1 ++ putLe 4 uid2
  | keywordReset uid1 uid2 => putLe 4 uid1 ++ putLe 4 uid2

/-- A complete log record: the framed header and the payload. -/
def encode (tx : TxRecord) : Bytes :=
  encodeTxHeader { size := 8 + tx.payload.length, type := tx.type } ++ tx.payload

def size (tx : TxRecord) : ℕ := 8 + tx.payload.length

end TxRecord

def boundarySize : ℕ := 12

/-- The bytes a group takes in the log. -/
def groupSize (group : Group) : ℕ := boundarySize + (group.map TxRecord.size).sum

/-- The state of a replay: what it has changed so far, the greatest modseq it has met, and whether
it has appended a record. -/
structure Replay extends Content where
  maxModseq : ℕ
  appendedMsgs : Bool
deriving DecidableEq

/-- Changes the first record with this UID. -/
def updateFirst (uid : ℕ) (change : Record → Record) : List Record → List Record
  | [] => []
  | r :: rest => if r.uid = uid then change r :: rest else r :: updateFirst uid change rest

/-- Removes the first record with this UID. -/
def removeFirst (uid : ℕ) : List Record → List Record
  | [] => []
  | r :: rest => if r.uid = uid then rest else r :: removeFirst uid rest

def inRange (uid1 uid2 : ℕ) (r : Record) : Bool := uid1 ≤ r.uid ∧ r.uid ≤ uid2

/-- A 32-bit counter moved by one for a record that has the property. -/
def countUp (flag : Bool) (n : ℕ) : ℕ := if flag then u32 (n + 1) else n
def countDown (flag : Bool) (n : ℕ) : ℕ :=
  if flag then (if n = 0 then 2 ^ 32 - 1 else n - 1) else n

def Header.countAppend (h : Header) (r : Record) : Header :=
  { h with
    messagesCount := u32 (h.messagesCount + 1)
    seenMessagesCount := countUp r.seen h.seenMessagesCount
    deletedMessagesCount := countUp r.deleted h.deletedMessagesCount }

def Header.countExpunge (h : Header) (r : Record) : Header :=
  { h with
    messagesCount := countDown true h.messagesCount
    seenMessagesCount := countDown r.seen h.seenMessagesCount
    deletedMessagesCount := countDown r.deleted h.deletedMessagesCount }

/-- Counts recomputed from the records. -/
def File.recount (f : File) : File :=
  { f with header := { f.header with
    messagesCount := u32 f.records.length
    seenMessagesCount := u32 (f.records.countP (·.seen))
    deletedMessagesCount := u32 (f.records.countP (·.deleted)) } }

namespace Replay

variable (s : Replay)

def mapFile (change : File → File) : Replay := { s with file := change s.file }

def mapRecords (change : List Record → List Record) : Replay :=
  s.mapFile fun f => { f with records := change f.records }

def applyModseq (u : ℕ × ℕ) : Replay :=
  { s.mapRecords (updateFirst u.1 fun r => { r with modseq := u.2 }) with
    maxModseq := max s.maxModseq u.2 }

def applyFlags (u : FlagUpdate) : Replay :=
  s.mapRecords (·.map fun r =>
    if inRange u.uid1 u.uid2 r then { r with flags := (r.flags ||| u.add) &&& ~~~u.remove } else r)

def applyExpunge (e : Expunge) : Replay :=
  let s := { s with maxModseq := max s.maxModseq (e.modseq.getD 0) }
  match s.file.records.find? (·.uid = e.uid) with
  | none => s
  | some r => s.mapFile fun f =>
      { f with header := f.header.countExpunge r, records := removeFirst e.uid f.records }

def applyHeader (offset value : ℕ) : Replay :=
  s.mapFile fun f => { f with header :=
    if offset = 20 then { f.header with flags := BitVec.ofNat 32 value }
    else if offset = 28 then { f.header with nextUID := value }
    else if offset = 32 then { f.header with messagesCount := value }
    else if offset = 40 then { f.header with seenMessagesCount := value }
    else if offset = 44 then { f.header with deletedMessagesCount := value }
    else f.header }

/-- A record whose UID is already present came from the base or an earlier replay. -/
def applyAppend (r : Record) : Replay :=
  if s.file.records.any (·.uid = r.uid) then s
  else { s.mapFile (fun f =>
    { f with header := f.header.countAppend r, records := f.records ++ [r.stored] }) with
      appendedMsgs := true }

/-- The name arrives with the record, so the registry grows from the log itself. -/
def applyKeyword (modify : KeywordModify) (name : Keyword) (uid1 uid2 : ℕ) :
    Option Replay :=
  (keywordsBitmaskFor s.keywords [name]).map fun (bits, registry) =>
    { s with
      keywords := registry
      file := { s.file with
        ext := { s.file.ext with keywords := storedRegistry registry }
        records := s.file.records.map fun r =>
          if inRange uid1 uid2 r then
            { r with keywords :=
              if modify = .remove then r.keywords &&& ~~~bits else r.keywords ||| bits }
          else r } }

def applyKeywordReset (uid1 uid2 : ℕ) : Replay :=
  s.mapRecords (·.map fun r => if inRange uid1 uid2 r then { r with keywords := 0 } else r)

end Replay

/-- Replays one record; `none` is a keyword the full registry cannot take. -/
def applyTx (s : Replay) : TxRecord → Option Replay
  | .modseqUpdate updates => some (updates.foldl Replay.applyModseq s)
  | .flagUpdate updates => some (updates.foldl Replay.applyFlags s)
  | .expungeGUID expunges => some (expunges.foldl Replay.applyExpunge s)
  | .headerUpdate offset value => some (s.applyHeader offset value)
  | .append records => some (records.foldl Replay.applyAppend s)
  | .keywordUpdate modify name uid1 uid2 => s.applyKeyword modify name uid1 uid2
  | .keywordReset uid1 uid2 => some (s.applyKeywordReset uid1 uid2)

/-- Replays records in order. A failure leaves what the records before it did. -/
def applyTxs (s : Replay) : List TxRecord → Replay × Bool
  | [] => (s, true)
  | tx :: rest =>
    match applyTx s tx with
    | none => (s, false)
    | some s => applyTxs s rest

/-- The end of a replay: the folder's highest modseq follows the log, the counts the records. -/
def Replay.finish (s : Replay) : Content :=
  { file := ({ s.file with ext := { s.file.ext with
      highestModSeq := max s.file.ext.highestModSeq s.maxModseq } } : File).recount
    keywords := s.keywords }

def Content.startReplay (c : Content) : Replay := { c with maxModseq := 0, appendedMsgs := false }

/-- Replays whole groups over a file in memory. The flag is false when a record was refused, and
then the counters and the highest modseq are left as the records before it made them. -/
def Content.replay (c : Content) (groups : List Group) : Content × Bool :=
  match applyTxs c.startReplay groups.flatten with
  | (s, true) => (s.finish, true)
  | (s, false) => (s.toContent, false)

end Yarilo.FileIndex

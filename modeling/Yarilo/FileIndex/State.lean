import Yarilo.FileIndex.Keywords
import Yarilo.MailIndex.Log

/-! # Folder index state

The base file, the transaction log and the filename sidecar of one folder, and the state one open
handle keeps in memory. The model covers folders created by this version, which carry every
default record extension, so a record is a structure and not a map of extension bytes. Words of 32
and 64 bits are naturals that the arithmetic of the operations reduces.
-/

namespace Yarilo.FileIndex

open Library

def u32 (n : ℕ) : ℕ := n % 2 ^ 32
def u64 (n : ℕ) : ℕ := n % 2 ^ 64

abbrev MailFlag := BitVec 8

def flagAnswered : MailFlag := 0x01#8
def flagFlagged : MailFlag := 0x02#8
def flagDeleted : MailFlag := 0x04#8
def flagSeen : MailFlag := 0x08#8
def flagDraft : MailFlag := 0x10#8
def flagBackend : MailFlag := 0x40#8

/-- An IMAP flag as a command names it; anything but the five system flags is ignored here. -/
inductive ImapFlag where
  | answered | flagged | deleted | seen | draft
  | other (name : Bytes)
deriving DecidableEq

def ImapFlag.bit : ImapFlag → MailFlag
  | .answered => flagAnswered
  | .flagged => flagFlagged
  | .deleted => flagDeleted
  | .seen => flagSeen
  | .draft => flagDraft
  | .other _ => 0

def imapFlagsToIndex (flags : List ImapFlag) : MailFlag := flags.foldl (fun b f => b ||| f.bit) 0

abbrev Guid := BitVec 128

/-- An index record. An extension slot a record in memory has no bytes for is `none`. -/
structure Record where
  uid : ℕ
  flags : MailFlag
  modseq : ℕ
  keywords : BitVec 32
  vsize : ℕ
  guid : Guid
  idate : Option ℕ
  mdbox : Option (ℕ × ℕ)
  cache : Option ℕ
deriving DecidableEq

namespace Record

def seen (r : Record) : Bool := r.flags &&& flagSeen ≠ 0
def deleted (r : Record) : Bool := r.flags &&& flagDeleted ≠ 0

/-- The record as a reader of the file decodes it: missing slots were written as zeros. -/
def stored (r : Record) : Record :=
  { r with
    idate := some (r.idate.getD 0)
    mdbox := some (r.mdbox.getD (0, 0))
    cache := some (r.cache.getD 0) }

@[simp] theorem stored_uid (r : Record) : r.stored.uid = r.uid := rfl

end Record

/-- The fields of the base header the folder operations use. -/
structure Header where
  indexID : ℕ
  flags : BitVec 32
  uidValidity : ℕ
  nextUID : ℕ
  messagesCount : ℕ
  seenMessagesCount : ℕ
  deletedMessagesCount : ℕ
deriving DecidableEq

def hdrFlagFsckd : BitVec 32 := 0x4#32

/-- The pairing a base records about itself and the log it absorbed. -/
structure LineageHdr where
  lineage : ℕ
  foldedLineage : ℕ
  foldedOffset : ℕ
  recordsDigest : BitVec 64
deriving DecidableEq

/-- The value of a missing lineage extension. -/
def LineageHdr.unknown : LineageHdr := ⟨0, 0, 0, 0⟩

def lineageUnknown : ℕ := 0
def legacyLogLineage : ℕ := 1

structure HdrVsize where
  vsize : ℕ
  highestUID : ℕ
  messageCount : ℕ
deriving DecidableEq

inductive ExtName where
  | dboxHdr | modSeq | keywords | expungeFloor | internalDate | hdrVsize | vsize | guid | cache
  | lineage | mdbox | uidNames
deriving DecidableEq

/-- The name as the digest hashes it. -/
def ExtName.bytes : ExtName → Bytes
  | .dboxHdr => [100, 98, 111, 120, 45, 104, 100, 114]
  | .modSeq => [109, 111, 100, 115, 101, 113]
  | .keywords => [107, 101, 121, 119, 111, 114, 100, 115]
  | .expungeFloor => [101, 120, 112, 117, 110, 103, 101, 45, 102, 108, 111, 111, 114]
  | .internalDate => [105, 100, 97, 116, 101]
  | .hdrVsize => [104, 100, 114, 45, 118, 115, 105, 122, 101]
  | .vsize => [118, 115, 105, 122, 101]
  | .guid => [103, 117, 105, 100]
  | .cache => [99, 97, 99, 104, 101]
  | .lineage => [108, 105, 110, 101, 97, 103, 101]
  | .mdbox => [109, 100, 98, 111, 120]
  | .uidNames => [117, 105, 100, 45, 110, 97, 109, 101, 115]

/-- The order `ComputeRecordLayout` gives the extensions: header-only ones first, then by record
offset, ties broken by alignment and name. -/
def layoutOrder : List ExtName :=
  [.expungeFloor, .hdrVsize, .lineage, .uidNames, .dboxHdr, .modSeq, .cache, .internalDate, .keywords, .mdbox,
    .vsize, .guid]

def guidStateComplete : ℕ := 1

/-- The extension headers of a file. `keywords` is the registry a reader decodes from the keywords
header, `uidNames` the pass the marker records, `cacheResetID` the generation the cache file must
carry, `order` the order of the extension list in memory. -/
structure Extensions where
  highestModSeq : ℕ
  keywords : Registry
  hdrVsize : HdrVsize
  lineage : Option LineageHdr
  expungeFloor : Option ℕ
  guidState : ℕ
  uidNames : Option ℕ
  cacheResetID : ℕ
  order : List ExtName
deriving DecidableEq

structure File where
  header : Header
  ext : Extensions
  records : List Record
deriving DecidableEq

/-- What replaying a log changes: the file in memory and the typed keyword registry. -/
structure Content where
  file : File
  keywords : Registry
deriving DecidableEq

/-- The state of one open handle. `baseIdent` stands for the base's identity and modification time
together; `logFD` and `namesFD` are the files the handle keeps open for appending. -/
structure FolderState extends Content where
  filenames : List (ℕ × Bytes)
  sizes : List (ℕ × ℕ)
  vsize : HdrVsize
  lineage : LineageHdr
  logSize : ℕ
  baseIdent : ℕ
  logFD : Option ℕ
  namesFD : Option ℕ
deriving DecidableEq

/-- The value a Go map with unsigned integer keys holds at `key`. -/
def mapGet {β : Type} (zero : β) (m : List (ℕ × β)) (key : ℕ) : β := (m.lookup key).getD zero

def mapSet {β : Type} (m : List (ℕ × β)) (key : ℕ) (value : β) : List (ℕ × β) :=
  (key, value) :: m.filter (·.1 ≠ key)

def mapDelete {β : Type} (m : List (ℕ × β)) (key : ℕ) : List (ℕ × β) := m.filter (·.1 ≠ key)

def fnvOffset64 : BitVec 64 := 14695981039346656037#64
def fnvPrime64 : BitVec 64 := 1099511628211#64

/-- FNV-1a over `bytes`, continuing from `h`. -/
def fnvWrite (h : BitVec 64) (bytes : Bytes) : BitVec 64 :=
  bytes.foldl (fun h c => (h ^^^ BitVec.ofNat 64 c.toNat) * fnvPrime64) h

/-- The bytes a record carries for an extension, none for a header-only one. -/
def Record.extBytes (r : Record) : ExtName → Bytes
  | .modSeq => putLe 8 r.modseq
  | .keywords => putLe 4 r.keywords.toNat
  | .vsize => putLe 4 r.vsize
  | .guid => putLe 16 r.guid.toNat
  | .internalDate => (r.idate.map (putLe 4)).getD []
  | .mdbox => (r.mdbox.map fun key => putLe 4 key.1 ++ putLe 4 key.2).getD []
  | .cache => (r.cache.map (putLe 4)).getD []
  | .dboxHdr | .expungeFloor | .hdrVsize | .lineage | .uidNames => []

def digestRecords (f : File) : BitVec 64 :=
  f.records.foldl (fun h r =>
    f.ext.order.foldl (fun h name => fnvWrite (fnvWrite h name.bytes) (r.extBytes name))
      (fnvWrite h (putLe 4 r.uid ++ putLe 4 r.flags.toNat))) fnvOffset64

/-- The pairing recorded in a file. -/
def readLineage (f : File) : LineageHdr := f.ext.lineage.getD .unknown

/-- Writes the pairing; adding the extension sorts the extension list. -/
def setLineage (f : File) (h : LineageHdr) : File :=
  { f with ext := { f.ext with
    lineage := some h
    order := if f.ext.lineage.isSome then f.ext.order
      else layoutOrder.filter (fun name => name = .lineage ∨ name ∈ f.ext.order) } }

end Yarilo.FileIndex

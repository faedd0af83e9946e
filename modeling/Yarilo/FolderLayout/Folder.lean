import Yarilo.Library.Outcome
import Yarilo.MailIndex.BaseFile
import Yarilo.MailIndex.Geometry

/-! # A folder's extensions and its base file

The part of the folder code that decides how wide a record is: the extension list a handle keeps in
memory, the two sizes in its header, and the steps that add an extension, rewrite the base or
journal a new record. Indexes written by earlier versions lack some of the extensions. What the
values mean is left out; only their sizes count here.
-/

namespace Yarilo.FolderLayout

open Library MailIndex

/-- The extensions this package writes. -/
inductive Ext where
  | dboxHdr | modSeq | keywords | internalDate | vsize
  | cache | mdbox | guid
  | hdrVsize | lineage | expungeFloor | uidNames
deriving DecidableEq

namespace Ext

def all : List Ext :=
  [dboxHdr, modSeq, keywords, internalDate, vsize, cache, mdbox, guid, hdrVsize, lineage,
    expungeFloor, uidNames]

/-- Those of the first version, in every index. -/
def core : List Ext := [dboxHdr, modSeq, keywords, internalDate, vsize]

def name : Ext → Bytes
  | dboxHdr => [100, 98, 111, 120, 45, 104, 100, 114]
  | modSeq => [109, 111, 100, 115, 101, 113]
  | keywords => [107, 101, 121, 119, 111, 114, 100, 115]
  | internalDate => [105, 100, 97, 116, 101]
  | vsize => [118, 115, 105, 122, 101]
  | cache => [99, 97, 99, 104, 101]
  | mdbox => [109, 100, 98, 111, 120]
  | guid => [103, 117, 105, 100]
  | hdrVsize => [104, 100, 114, 45, 118, 115, 105, 122, 101]
  | lineage => [108, 105, 110, 101, 97, 103, 101]
  | expungeFloor => [101, 120, 112, 117, 110, 103, 101, 45, 102, 108, 111, 111, 114]
  | uidNames => [117, 105, 100, 45, 110, 97, 109, 101, 115]

def recordSize : Ext → UInt16
  | modSeq | mdbox => 8
  | keywords | internalDate | vsize | cache => 4
  | guid => 16
  | dboxHdr | hdrVsize | lineage | expungeFloor | uidNames => 0

def recordAlign : Ext → UInt16
  | dboxHdr => 0
  | modSeq | hdrVsize | expungeFloor => 8
  | keywords | internalDate | vsize | cache | mdbox | lineage | uidNames => 4
  | guid => 1

end Ext

/-- A message's values as the folder code writes them, each by its encoder. -/
structure Values where
  uid : UInt32
  flags : UInt8
  modseq : Option UInt64
  keywords : Option UInt32
  internalDate : Option UInt32
  vsize : Option UInt32
  guid : Option (BitVec 128)
  mdbox : Option (UInt32 × UInt32)
  cache : Option UInt32

/-- The value for one extension; an absent one has no bytes. -/
def Values.bytes (v : Values) : Ext → Bytes
  | .modSeq => (v.modseq.map fun n => putLe 8 n.toNat).getD []
  | .keywords => (v.keywords.map put32).getD []
  | .internalDate => (v.internalDate.map put32).getD []
  | .vsize => (v.vsize.map put32).getD []
  | .guid => (v.guid.map fun n => putLe 16 n.toNat).getD []
  | .mdbox => (v.mdbox.map fun key => put32 key.1 ++ put32 key.2).getD []
  | .cache => (v.cache.map put32).getD []
  | .dboxHdr | .hdrVsize | .lineage | .expungeFloor | .uidNames => []

def Values.record (v : Values) : Record where
  uid := v.uid
  flags := v.flags
  ext name :=
    match Ext.all.find? fun x => x.name = name with
    | some x => v.bytes x
    | none => []

/-- The open file: what `mailindex.File` keeps, without the layout, which nobody reads. -/
structure Folder where
  header : Header
  extensions : List Extension
  records : List Record

namespace Folder

variable (f : Folder)

def findExt (x : Ext) : Option Extension := f.extensions.find? fun e => e.name = x.name

def has (x : Ext) : Bool := (f.findExt x).isSome

/-- New header data for the extension, if it is there. -/
def setHdr (x : Ext) (data : Bytes) : Folder :=
  { f with extensions := f.extensions.map fun e =>
      if e.name = x.name then { e with hdrData := data, hdrSize := UInt32.ofNat data.length } else e }

def setResetID (x : Ext) (resetID : UInt32) : Folder :=
  { f with extensions := f.extensions.map fun e =>
      if e.name = x.name then { e with resetID := resetID } else e }

def setHeaderSize (extBytes : Bytes) : Folder :=
  { f with header := { f.header with
      headerSize := UInt32.ofNat (headerMinSize + extBytes.length) } }

def syncHeaderSize : Except FileErr Folder :=
  match encodeExtHeaders f.extensions with
  | .error err => .error err
  | .ok extBytes => .ok (f.setHeaderSize extBytes)

/-- The extension as a list is extended with it, before it is given a place. -/
def declare (x : Ext) (data : Bytes) (resetID : UInt32) : Extension where
  name := x.name
  hdrSize := UInt32.ofNat data.length
  recordSize := x.recordSize
  recordAlign := x.recordAlign
  resetID := resetID
  recordOffset := 0
  hdrData := data

/-- Appends without looking at the record size, and brings the header size up to date. -/
def appendExt (x : Ext) (data : Bytes) (resetID : UInt32) : Except FileErr Folder :=
  syncHeaderSize { f with extensions := f.extensions ++ [declare x data resetID] }

/-- The extensions of a layout, with its record size. -/
def relaid (layout : RecordLayout) : Folder where
  header := { f.header with recordSize := UInt32.ofNat layout.recordSize }
  extensions := layout.extensions
  records := f.records

variable (s : Sorter)

/-- `AddHeaderExtension` and `AddRecordExtension`. -/
def addExtension (f : Folder) (x : Ext) (data : Bytes) (resetID : UInt32) :
    Except FileErr Folder :=
  if f.has x then .ok f
  else
    match computeRecordLayout s (f.extensions ++ [declare x data resetID]) with
    | .error err => .error err
    | .ok layout =>
      match encodeExtHeaders layout.extensions with
      | .error err => .error err
      | .ok extBytes => .ok ((f.relaid layout).setHeaderSize extBytes)

inductive Err where
  | file (err : FileErr)
  | keywordsMissing
  | modseqMissing
deriving DecidableEq

def ofFile {α : Type} : Except FileErr α → Except Err α
  | .ok a => .ok a
  | .error err => .error (.file err)

def bumpModSeqHeader (data : Bytes) : Except Err Folder :=
  if f.has .modSeq then .ok (f.setHdr .modSeq data) else .error .modseqMissing

def persistKeywordRegistry (data : Bytes) : Except Err Folder :=
  if f.has .keywords then ofFile (f.setHdr .keywords data).syncHeaderSize else .error .keywordsMissing

/-- The error is logged only; the extension stays. -/
def ensureMdboxExt : Folder :=
  if f.has .mdbox then f
  else
    match f.appendExt .mdbox [] 0 with
    | .ok f' => f'
    | .error _ => { f with extensions := f.extensions ++ [declare .mdbox [] 0] }

def stampExpungeFloor (modseq : UInt64) : Except FileErr Folder :=
  match f.findExt .expungeFloor with
  | none => f.appendExt .expungeFloor (putLe 8 modseq.toNat) f.header.uidValidity
  | some e =>
    if modseq.toNat ≤ getLe 8 0 e.hdrData then .ok f
    else (f.setHdr .expungeFloor (putLe 8 modseq.toNat)).syncHeaderSize

def uidNamesPass : ℕ := 2

def uidNamed : Bool :=
  match f.findExt .uidNames with
  | none => false
  | some e => 4 ≤ e.hdrData.length ∧ uidNamesPass ≤ getLe 4 0 e.hdrData

def markUIDNamed : Except FileErr Folder :=
  if f.uidNamed then .ok f
  else if f.has .uidNames then .ok (f.setHdr .uidNames (putLe 4 uidNamesPass))
  else f.appendExt .uidNames (putLe 4 uidNamesPass) f.header.uidValidity

/-- What a rewrite of the base writes into the headers of `hdr-vsize` and `lineage`. -/
structure Minted where
  vsize : UInt64
  highestUID : UInt32
  messageCount : UInt32
  lineage : UInt32
  foldedLineage : UInt32
  foldedOffset : UInt64
  recordsDigest : UInt64

def Minted.hdrVsize (m : Minted) : Bytes :=
  putLe 8 m.vsize.toNat ++ put32 m.highestUID ++ put32 m.messageCount

def Minted.lineageHdr (m : Minted) : Bytes :=
  put32 m.lineage ++ put32 m.foldedLineage ++ putLe 8 m.foldedOffset.toNat ++
    putLe 8 m.recordsDigest.toNat

/-- A failure to add the extension is logged only. -/
def persistVsize (f : Folder) (m : Minted) : Folder :=
  if f.has .hdrVsize then f.setHdr .hdrVsize m.hdrVsize
  else
    match f.addExtension s .hdrVsize m.hdrVsize f.header.uidValidity with
    | .ok f' => f'
    | .error _ => f

def setLineage (f : Folder) (m : Minted) : Except FileErr Folder :=
  if f.has .lineage then .ok (f.setHdr .lineage m.lineageHdr)
  else f.addExtension s .lineage m.lineageHdr 0

def recount : Folder :=
  { f with header := { f.header with
      messagesCount := UInt32.ofNat f.records.length
      seenMessagesCount := UInt32.ofNat (f.records.countP fun r => r.flags &&& 0x08 ≠ 0)
      deletedMessagesCount := UInt32.ofNat (f.records.countP fun r => r.flags &&& 0x04 ≠ 0) } }

/-- Rewrites the base: the folder afterwards and the bytes of the file. -/
def flush (m : Minted) (f : Folder) : Except Err (Folder × Bytes) :=
  match (f.persistVsize s m).setLineage s m with
  | .error err => .error (.file err)
  | .ok f =>
    match f.syncHeaderSize with
    | .error err => .error (.file err)
    | .ok f =>
      let f := f.recount
      match recreate s f.header f.extensions f.records with
      | .error err => .error (.file err)
      | .ok bytes => .ok (f, bytes)

/-- The payload that journals a new record. -/
def appendPayload (f : Folder) (rec : Record) : Except Err Bytes :=
  match computeRecordLayout s f.extensions with
  | .error err => .error (.file err)
  | .ok layout => ofFile (encodeRecord (zeros layout.recordSize) layout rec)

end Folder

end Yarilo.FolderLayout

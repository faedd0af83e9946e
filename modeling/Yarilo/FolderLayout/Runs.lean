import Yarilo.FolderLayout.Steps

/-! # Runs on one folder

Several handles work on one base file and its log. Before an operation a handle reloads: it keeps
its list when the base is the one it knows, keeps it too when the pairing and the digest say that
the new base holds its records, and reads the base otherwise. Whether the digest agrees, what the
log's tail brings and what an operation does to the values of records are arguments here, since a
layout depends on none of it. An operation either journals or rewrites the base.
-/

namespace Yarilo.FolderLayout

open Library MailIndex

/-- The header of the modseq extension. -/
structure ModseqHdr where
  highestModSeq : UInt64
  logSeq : UInt32
  logOffset : UInt32

def ModseqHdr.bytes (h : ModseqHdr) : Bytes :=
  putLe 8 h.highestModSeq.toNat ++ put32 h.logSeq ++ put32 h.logOffset

def encodeGUIDHdr (state : UInt32) : Bytes := put32 state

/-- The base on disk and one handle. `ident` tells the versions of the base apart. -/
structure Local where
  base : Bytes
  ident : ℕ
  folder : Folder
  baseIdent : ℕ

/-- A journalled record with the base it was journalled next to. -/
structure Appended where
  payload : Bytes
  record : Record
  base : Bytes

structure Append where
  modseq : ModseqHdr
  keywords : Bytes
  /-- the rewrite that saves a grown keyword registry -/
  registry : Option Folder.Minted
  values : Values
  /-- the floor and the rewrite of a compaction -/
  compaction : Option (UInt64 × Folder.Minted)

inductive Op where
  /-- `SaveFolder`, `AdoptUIDSpace`, `RecomputeVSize`, `SetAltTier`, and the stamp of a first
  lineage -/
  | rewrite (records : Option (List Values)) (m : Folder.Minted)
  /-- `AppendMessage` and `AllocateAndAppend` -/
  | append (a : Append)
  /-- what changes flags, expunges, allocates or marks in the log alone -/
  | journal (modseq : Option ModseqHdr) (keywords : Option Bytes) (records : Option (List Values))
  | setGUIDs (records : List Values) (m : Folder.Minted)
  | setCacheOffsets (records : List Values) (m : Folder.Minted)
  | ensureCacheExtension (resetID : UInt32) (m : Folder.Minted)
  /-- `PurgeCache` and `BumpCacheGeneration` -/
  | leaveCacheGeneration (resetID : UInt32) (records : List Values) (m : Folder.Minted)
  | markUIDNamed (m : Folder.Minted)
  | adoptStoredNames (stamped : Bool) (records : List Values) (m : Folder.Minted)
  /-- `OptimizeIndex`, and the rewrite when the log is another index's -/
  | fold (modseq : UInt64) (m : Folder.Minted)
  | resetFolder (modseq : ModseqHdr) (keywords : Bytes) (floor : UInt64) (records : List Values)
      (m : Folder.Minted)

open Folder (Err)

namespace Local

def setFolder (l : Local) (f : Folder) : Local := { l with folder := f }

def flush (s : Sorter) (m : Folder.Minted) (l : Local) : Except Err Local := do
  let (f, bytes) ← l.folder.flush s m
  return { base := bytes, ident := l.ident + 1, folder := f, baseIdent := l.ident + 1 }

def saveRegistry (s : Sorter) (registry : Option Folder.Minted) (l : Local) : Except Err Local :=
  match registry with
  | some m => l.flush s m
  | none => .ok l

/-- The record in memory and its payload in the log. -/
def journalRecord (s : Sorter) (v : Values) (l : Local) : Except Err (Local × Appended) := do
  let f := if v.mdbox.isSome then l.folder.ensureMdboxExt else l.folder
  let f := { f with records := f.records ++ [v.record] }
  let payload ← f.appendPayload s v.record
  return (l.setFolder f, { payload := payload, record := v.record, base := l.base })

/-- The source logs a failure and goes on; here it is the outcome. -/
def compact (s : Sorter) (compaction : Option (UInt64 × Folder.Minted)) (l : Local) : Except Err Local :=
  match compaction with
  | some (modseq, m) => do
    let f ← Folder.ofFile (l.folder.stampExpungeFloor modseq)
    (l.setFolder f).flush s m
  | none => .ok l

def append (s : Sorter) (a : Append) (l : Local) : Except Err (Local × Option Appended) := do
  let f ← l.folder.bumpModSeqHeader a.modseq.bytes
  let f ← f.persistKeywordRegistry a.keywords
  let l ← (l.setFolder f).saveRegistry s a.registry
  let (l, entry) ← l.journalRecord s a.values
  let l ← l.compact s a.compaction
  return (l, some entry)

end Local

/-- The records after an edit of their values. -/
def Folder.edit (f : Folder) (records : Option (List Values)) : Folder :=
  match records with
  | some values => { f with records := values.map Values.record }
  | none => f

def Folder.setModseq (f : Folder) (modseq : Option ModseqHdr) : Folder :=
  match modseq with
  | some h => f.setHdr .modSeq h.bytes
  | none => f

def Folder.setKeywords (f : Folder) (keywords : Option Bytes) : Except Err Folder :=
  match keywords with
  | some data => f.persistKeywordRegistry data
  | none => .ok f

/-- The extension, added if it is missing. -/
def Folder.ensureExtension (s : Sorter) (f : Folder) (x : Ext) (data : Bytes) (resetID : UInt32) :
    Except Err Folder :=
  if f.has x then .ok f else Folder.ofFile (f.addExtension s x data resetID)

def Op.run (s : Sorter) (l : Local) : Op → Except Err (Local × Option Appended)
  | .rewrite records m => do
    let l ← (l.setFolder (l.folder.edit records)).flush s m
    return (l, none)
  | .append a => l.append s a
  | .journal modseq keywords records => do
    let f ← (l.folder.setModseq modseq).setKeywords keywords
    return (l.setFolder (f.edit records), none)
  | .setGUIDs records m => do
    let f ← l.folder.ensureExtension s .guid (encodeGUIDHdr 0) l.folder.header.uidValidity
    let f := (f.edit (some records)).setHdr .guid (encodeGUIDHdr 1)
    let l ← (l.setFolder f).flush s m
    return (l, none)
  | .setCacheOffsets records m => do
    let f ← l.folder.ensureExtension s .cache [] l.folder.header.uidValidity
    let l ← (l.setFolder (f.edit (some records))).flush s m
    return (l, none)
  | .ensureCacheExtension resetID m =>
    if l.folder.has .cache then .ok (l, none)
    else do
      let f ← l.folder.ensureExtension s .cache [] resetID
      let l ← (l.setFolder f).flush s m
      return (l, none)
  | .leaveCacheGeneration resetID records m =>
    if l.folder.has .cache then do
      let f := (l.folder.setResetID .cache resetID).edit (some records)
      let l ← (l.setFolder f).flush s m
      return (l, none)
    else .ok (l, none)
  | .markUIDNamed m => do
    let f ← Folder.ofFile l.folder.markUIDNamed
    let l ← (l.setFolder f).flush s m
    return (l, none)
  | .adoptStoredNames stamped records m =>
    if l.folder.uidNamed then .ok (l, none)
    else do
      let f := l.folder.edit (some records)
      let f := if stamped then f.ensureMdboxExt else f
      let f ← Folder.ofFile f.markUIDNamed
      let l ← (l.setFolder f).flush s m
      return (l, none)
  | .fold modseq m => do
    let f ← Folder.ofFile (l.folder.stampExpungeFloor modseq)
    let l ← (l.setFolder f).flush s m
    return (l, none)
  | .resetFolder modseq keywords floor records m => do
    let f := (l.folder.edit (some records)).setHdr .modSeq modseq.bytes
    let f ← f.persistKeywordRegistry keywords
    let f ← Folder.ofFile (f.stampExpungeFloor floor)
    let l ← (l.setFolder f).flush s m
    return (l, none)

/-- What replaying the tail of the log changes. -/
structure Tail where
  modseq : Option ModseqHdr
  keywords : Option Bytes
  records : Option (List Values)

def Tail.apply (tail : Tail) (f : Folder) : Except Err Folder := do
  let f ← (f.setModseq tail.modseq).setKeywords tail.keywords
  return f.edit tail.records

/-- The folder as the base on disk has it. -/
def readFolder (s : Sorter) (base : Bytes) : Except Err Folder :=
  match read s base with
  | .ok file => .ok ⟨file.header, file.extensions, file.records⟩
  | .error err => .error (.file err)

/-- The folder before the tail; `adopts` is the answer of the pairing and the digest. -/
def Local.current (s : Sorter) (adopts : Bool) (l : Local) : Except Err Folder :=
  if l.baseIdent = l.ident ∨ adopts then .ok l.folder else readFolder s l.base

def Local.reload (s : Sorter) (adopts : Bool) (tail : Tail) (l : Local) : Except Err Local := do
  let f ← l.current s adopts
  let f ← tail.apply f
  return { l with folder := f, baseIdent := l.ident }

structure Handle where
  folder : Folder
  baseIdent : ℕ

structure Sys where
  base : Bytes
  ident : ℕ
  handles : ℕ → Option Handle

inductive Event where
  | openFolder (who : ℕ) (tail : Tail)
  | run (who : ℕ) (adopts : Bool) (tail : Tail) (op : Op)

namespace Sys

def start (base : Bytes) : Sys := { base := base, ident := 0, handles := fun _ => none }

def put (sys : Sys) (who : ℕ) (l : Local) : Sys where
  base := l.base
  ident := l.ident
  handles := Function.update sys.handles who (some ⟨l.folder, l.baseIdent⟩)

/-- One event with its outcome. A run that is refused is not followed further into what it left
half done in memory. -/
def step (s : Sorter) (sys : Sys) : Event → Except Err (Option Appended) × Sys
  | .openFolder who tail =>
    let opened : Except Err Folder := do
      let f ← readFolder s sys.base
      tail.apply f
    match opened with
    | .error err => (.error err, sys)
    | .ok f => (.ok none, sys.put who ⟨sys.base, sys.ident, f, sys.ident⟩)
  | .run who adopts tail op =>
    match sys.handles who with
    | none => (.ok none, sys)
    | some h =>
      let done : Except Err (Local × Option Appended) := do
        let l ← Local.reload s adopts tail ⟨sys.base, sys.ident, h.folder, h.baseIdent⟩
        op.run s l
      match done with
      | .error err => (.error err, sys)
      | .ok (l, entry) => (.ok entry, sys.put who l)

/-- The outcomes of the events in order, and the state they lead to. -/
def run (s : Sorter) : Sys → List Event → List (Except Err (Option Appended)) × Sys
  | sys, [] => ([], sys)
  | sys, ev :: rest =>
    let (outcome, next) := sys.step s ev
    let (outcomes, final) := run s next rest
    (outcome :: outcomes, final)

end Sys

/-! ## One operation -/

/-- What a replay makes of the payload: it is cut by the record size of the reader's layout. -/
def decodeAppended (layout : RecordLayout) : ℕ → Bytes → List Record
  | 0, _ => []
  | fuel + 1, payload =>
    if layout.recordSize = 0 ∨ payload.length < layout.recordSize then []
    else
      match decodeRecord (payload.take layout.recordSize) layout with
      | .error _ => []
      | .ok r => r :: decodeAppended layout fuel (payload.drop layout.recordSize)

/-- The records another handle finds in the payload next to the base it was journalled for. -/
def Appended.found (s : Sorter) (entry : Appended) : Except FileErr (List Record) :=
  match read s entry.base with
  | .error err => .error err
  | .ok file => .ok (decodeAppended file.layout entry.payload.length entry.payload)

/-- They are the one that was journalled. -/
def Appended.Decodes (s : Sorter) (entry : Appended) : Prop :=
  ∃ file, read s entry.base = .ok file ∧
    entry.found s = .ok [readBack file.extensions entry.record]

private theorem decodeAppended_eq {layout : RecordLayout} {payload : Bytes} {r : Record}
    (positive : 0 < layout.recordSize) (length : payload.length = layout.recordSize)
    (decoded : decodeRecord payload layout = .ok r) : decodeAppended layout payload.length payload = [r] := by
  have taken : payload.take layout.recordSize = payload := List.take_of_length_le length.le
  have dropped : payload.drop layout.recordSize = [] := List.drop_of_length_le length.le
  have rest : ∀ fuel, decodeAppended layout fuel [] = [] := by
    intro fuel
    cases fuel with
    | zero => rfl
    | succ fuel => rw [decodeAppended, if_pos (.inr positive)]
  obtain ⟨fuel, counted⟩ : ∃ fuel, payload.length = fuel + 1 := ⟨payload.length - 1, by omega⟩
  rw [counted, decodeAppended, if_neg (by omega), taken, decoded]
  simp [dropped, rest]

/-- The keyword registry's encoding is within what a header can declare. -/
def KeywordsFit (data : Bytes) : Prop := data.length < 2 ^ 31

def Op.KeywordsFit : Op → Prop
  | .append a => FolderLayout.KeywordsFit a.keywords
  | .journal _ keywords _ => ∀ data ∈ keywords, FolderLayout.KeywordsFit data
  | .resetFolder _ keywords _ _ _ => FolderLayout.KeywordsFit keywords
  | _ => True

def Tail.KeywordsFit (tail : Tail) : Prop := ∀ data ∈ tail.keywords, FolderLayout.KeywordsFit data

/-- The operation brings a record its first map uid: `AppendMessage` with one, and stored names with
map keys to stamp. -/
def Op.bringsMapUID : Op → Bool
  | .append a => a.values.mdbox.isSome
  | .adoptStoredNames stamped _ _ => stamped
  | _ => false

namespace Folder

variable {f : Folder} {s : Sorter}

private theorem sized_values (values : List Values) : ∀ r ∈ values.map Values.record, Sized r := by
  intro r member
  obtain ⟨v, -, rfl⟩ := List.mem_map.mp member
  exact v.sized

private theorem Kept.edit (kept : f.Kept) (records : Option (List Values)) : f.Keeps (f.edit records) := by
  cases records with
  | none => exact kept.keeps
  | some values => exact kept.setRecords (sized_values values)

private theorem length_modseqHdr (h : ModseqHdr) : h.bytes.length = 16 := by simp [ModseqHdr.bytes]

private theorem modseqHdr_bounded (h : ModseqHdr) : h.bytes.length < Ext.dataLimit .modSeq := by
  rw [length_modseqHdr]
  decide

private theorem Kept.setModseq (kept : f.Kept) (modseq : Option ModseqHdr) :
    f.Keeps (f.setModseq modseq) := by
  cases modseq with
  | none => exact kept.keeps
  | some h => exact kept.setHdr (modseqHdr_bounded h)

private theorem Kept.setKeywords (kept : f.Kept) {keywords : Option Bytes}
    (fits : ∀ data ∈ keywords, FolderLayout.KeywordsFit data) : Yields (f.setKeywords keywords) f.Keeps := by
  cases keywords with
  | none => exact .ok kept.keeps
  | some data => exact kept.persistKeywordRegistry (fits data rfl)

private theorem Kept.ensureExtension (kept : f.Kept) (x : Ext) {data : Bytes}
    (bounded : data.length < x.dataLimit) (resetID : UInt32) :
    Yields (f.ensureExtension s x data resetID) Kept := by
  unfold Folder.ensureExtension
  cases present : f.has x with
  | true => exact .ok kept
  | false =>
    exact yields_ofFile ((kept.addExtension (has_false present) bounded resetID s).mono fun _ => And.left)

private theorem Kept.tail (kept : f.Kept) {tail : Tail} (fits : tail.KeywordsFit) :
    Yields (tail.apply f) f.Keeps := by
  have first := kept.setModseq tail.modseq
  refine (first.kept.setKeywords fits).bind fun f second => .ok ?_
  exact (first.trans second).trans (second.kept.edit tail.records)

end Folder

namespace Local

variable {s : Sorter} {l : Local}

/-- The handle knows the base on disk and declares the record extensions it does. -/
structure Synced (s : Sorter) (l : Local) : Prop where
  kept : l.folder.Kept
  onDisk : ∃ file, OnDisk s l.base file ∧ SameRecords l.folder.extensions file.extensions
  known : l.baseIdent = l.ident

/-- A new version of the base, or the one there was. -/
def Later (l l' : Local) : Prop := l.ident < l'.ident ∨ l'.ident = l.ident ∧ l'.base = l.base

private theorem Later.trans {l' l'' : Local} (first : l.Later l') (second : l'.Later l'') : l.Later l'' := by
  rcases first with earlier | ⟨ident, base⟩ <;> rcases second with later | ⟨ident', base'⟩
  · exact .inl (lt_trans earlier later)
  · exact .inl (by omega)
  · exact .inl (by omega)
  · exact .inr ⟨ident'.trans ident, base'.trans base⟩

/-- The operation succeeded, and what it journalled can be read. -/
def Done (s : Sorter) (l : Local) (outcome : Except Err (Local × Option Appended)) : Prop :=
  ∃ l' entry, outcome = .ok (l', entry) ∧ l'.Synced s ∧ l.Later l' ∧ ∀ e ∈ entry, e.Decodes s

private theorem Done.bind {α : Type} {x : Except Err α} {P : α → Prop}
    {k : α → Except Err (Local × Option Appended)}
    (first : Yields x P) (next : ∀ a, P a → Done s l (k a)) : Done s l (x >>= k) := by
  obtain ⟨a, rfl, holds⟩ := first
  exact next a holds

private theorem Synced.setFolder (synced : l.Synced s) {f : Folder} (keeps : l.folder.Keeps f) :
    (l.setFolder f).Synced s := by
  obtain ⟨file, onDisk, same⟩ := synced.onDisk
  exact ⟨keeps.kept, ⟨file, onDisk, keeps.same.symm.trans same⟩, synced.known⟩

private theorem flush_ok (kept : l.folder.Kept) (m : Folder.Minted) :
    Yields (l.flush s m) fun l' => l'.Synced s ∧ l.ident < l'.ident ∧
      SameRecords l.folder.extensions l'.folder.extensions := by
  refine (kept.flush m).bind fun done ⟨keeps, file, onDisk, same⟩ => .ok ?_
  exact ⟨⟨keeps.kept, ⟨file, onDisk, keeps.same.symm.trans same⟩, rfl⟩, Nat.lt_succ_self _, keeps.same⟩

/-- An operation that ends by rewriting the base. -/
private theorem done_flush {f : Folder} (kept : f.Kept) (m : Folder.Minted) : Done s l (do
      let l' ← (l.setFolder f).flush s m
      return (l', none)) := by
  refine .bind (flush_ok (l := l.setFolder f) kept m) fun l' ⟨synced, later, _⟩ => ?_
  exact ⟨l', none, rfl, synced, .inl later, by simp⟩

private theorem Synced.done_idle (synced : l.Synced s) : Done s l (.ok (l, none)) :=
  ⟨l, none, rfl, synced, .inr ⟨rfl, rfl⟩, by simp⟩

private theorem Synced.saveRegistry (synced : l.Synced s) (registry : Option Folder.Minted) :
    Yields (l.saveRegistry s registry) fun l' => l'.Synced s ∧ l.Later l' ∧
      SameRecords l.folder.extensions l'.folder.extensions := by
  cases registry with
  | none => exact .ok ⟨synced, .inr ⟨rfl, rfl⟩, .refl _⟩
  | some m => exact (flush_ok synced.kept m).mono fun l' flushed => ⟨flushed.1, .inl flushed.2.1, flushed.2.2⟩

/-- With the extension already declared, nothing is appended to the list. -/
private theorem ensureMdboxExt_if {f : Folder} {b : Bool} (declared : b → declares f.extensions .mdbox) :
    (if b then f.ensureMdboxExt else f) = f := by
  split
  · exact Folder.ensureMdboxExt_eq (declared ‹_›)
  · rfl

private theorem Synced.journalRecord (synced : l.Synced s) {v : Values}
    (declared : v.mdbox.isSome → declares l.folder.extensions .mdbox) :
    Yields (l.journalRecord s v) fun (l', entry) => l'.Synced s ∧ l.Later l' ∧ entry.Decodes s := by
  have grown : l.folder.Keeps { l.folder with records := l.folder.records ++ [v.record] } :=
    synced.kept.setRecords (forall_mem_concat synced.kept.sized v.sized)
  obtain ⟨file, onDisk, alike⟩ := synced.onDisk
  obtain ⟨payload, encoded, length, decoded⟩ := grown.kept.appendPayload v.sized onDisk alike
  have positive : 0 < file.layout.recordSize := by
    have sound := computeRecordLayout_sound onDisk.kept.declared.distinct onDisk.layout
    exact lt_of_lt_of_le (by decide) sound.base
  have found : Appended.found s ⟨payload, v.record, l.base⟩ = .ok [readBack file.extensions v.record] := by
    simp [Appended.found, onDisk.read, decodeAppended_eq positive length decoded]
  simp only [Local.journalRecord, ensureMdboxExt_if declared, encoded]
  exact .ok ⟨synced.setFolder grown, .inr ⟨rfl, rfl⟩, file, onDisk.read, found⟩

private theorem Synced.compact (synced : l.Synced s) (compaction : Option (UInt64 × Folder.Minted)) :
    Yields (l.compact s compaction) fun l' => l'.Synced s ∧ l.Later l' := by
  cases compaction with
  | none => exact .ok ⟨synced, .inr ⟨rfl, rfl⟩⟩
  | some fold =>
    refine (Folder.yields_ofFile (synced.kept.stampExpungeFloor fold.1)).bind fun f keeps => ?_
    exact (flush_ok (l := l.setFolder f) keeps.kept fold.2).mono fun l' flushed => ⟨flushed.1, .inl flushed.2.1⟩

private theorem Synced.append (synced : l.Synced s) {a : Append} (fits : FolderLayout.KeywordsFit a.keywords)
    (declared : a.values.mdbox.isSome → declares l.folder.extensions .mdbox) : Done s l (l.append s a) := by
  refine .bind (synced.kept.bumpModSeqHeader (Folder.modseqHdr_bounded a.modseq)) fun f₁ first => ?_
  refine .bind (first.kept.persistKeywordRegistry fits) fun f₂ second => ?_
  have marked := first.trans second
  refine .bind ((synced.setFolder marked).saveRegistry a.registry) fun l₁ ⟨synced₁, later₁, same⟩ => ?_
  refine .bind (synced₁.journalRecord fun brought =>
    ((marked.same.trans same) _ (by decide)).mp (declared brought))
      fun ⟨l₂, entry⟩ ⟨synced₂, later₂, decodes⟩ => ?_
  refine .bind (synced₂.compact a.compaction) fun l₃ ⟨synced₃, later₃⟩ => ?_
  have later : l.Later l₁ := later₁
  exact ⟨l₃, some entry, rfl, synced₃, (later.trans later₂).trans later₃, by simpa using decodes⟩

/-- Every operation succeeds and leaves handle and base in step. -/
private theorem Synced.op (synced : l.Synced s) {op : Op} (fits : op.KeywordsFit)
    (declared : op.bringsMapUID → declares l.folder.extensions .mdbox) : Done s l (op.run s l) := by
  have kept := synced.kept
  cases op with
  | rewrite records m => exact done_flush (kept.edit records).kept m
  | append a => exact synced.append fits declared
  | journal modseq keywords records =>
    have first := kept.setModseq modseq
    refine .bind (first.kept.setKeywords fits) fun f second => ?_
    have keeps := (first.trans second).trans (second.kept.edit records)
    exact ⟨_, none, rfl, synced.setFolder keeps, .inr ⟨rfl, rfl⟩, by simp⟩
  | setGUIDs records m =>
    refine .bind (kept.ensureExtension .guid (by decide) _) fun f kept' => ?_
    exact done_flush ((kept'.edit (some records)).kept.setHdr (by decide)).kept m
  | setCacheOffsets records m =>
    refine .bind (kept.ensureExtension .cache (by decide) _) fun f kept' => ?_
    exact done_flush (kept'.edit (some records)).kept m
  | ensureCacheExtension resetID m =>
    simp only [Op.run]
    split
    · exact synced.done_idle
    exact .bind (kept.ensureExtension .cache (by decide) _) fun f kept' => done_flush kept' m
  | leaveCacheGeneration resetID records m =>
    simp only [Op.run]
    split
    · exact done_flush ((kept.setResetID .cache resetID).kept.edit (some records)).kept m
    · exact synced.done_idle
  | markUIDNamed m =>
    exact .bind (Folder.yields_ofFile kept.markUIDNamed) fun f keeps => done_flush keeps.kept m
  | adoptStoredNames stamped records m =>
    simp only [Op.run]
    split
    · exact synced.done_idle
    have edited := kept.edit (some records)
    have ensured := ensureMdboxExt_if (f := l.folder.edit (some records)) (b := stamped) declared
    simp only [ensured]
    exact .bind (Folder.yields_ofFile edited.kept.markUIDNamed) fun f keeps => done_flush keeps.kept m
  | fold modseq m =>
    exact .bind (Folder.yields_ofFile (kept.stampExpungeFloor modseq)) fun f keeps =>
      done_flush keeps.kept m
  | resetFolder modseq keywords floor records m =>
    have marked := (kept.edit (some records)).kept.setHdr (Folder.modseqHdr_bounded modseq)
    refine .bind (marked.kept.persistKeywordRegistry fits) fun f second => ?_
    exact .bind (Folder.yields_ofFile (second.kept.stampExpungeFloor floor)) fun f third =>
      done_flush third.kept m

end Local

/-! ## Runs -/

namespace Sys

variable {s : Sorter} {sys : Sys} {base : Bytes} {file : File}

/-- The base is in order, and so is every handle; one that knows the base declares the record
extensions it does. -/
def Sound (s : Sorter) (sys : Sys) : Prop :=
  ∃ file, OnDisk s sys.base file ∧ ∀ who h, sys.handles who = some h →
    h.folder.Kept ∧ h.baseIdent ≤ sys.ident ∧
      (h.baseIdent = sys.ident → SameRecords h.folder.extensions file.extensions)

/-- The condition on one event in the state before it: stored map uids only where the base declares
their extension; a base taken over by digest declares the record extensions the handle does. -/
def Meets (s : Sorter) (sys : Sys) : Event → Prop
  | .openFolder _ tail => tail.KeywordsFit
  | .run who adopts tail op =>
    tail.KeywordsFit ∧ op.KeywordsFit ∧
    (adopts → ∀ h, sys.handles who = some h → h.baseIdent ≠ sys.ident →
      ∀ file, read s sys.base = .ok file → SameRecords h.folder.extensions file.extensions) ∧
    (op.bringsMapUID → ∀ file, read s sys.base = .ok file → declares file.extensions .mdbox)

def Obeys (s : Sorter) : Sys → List Event → Prop
  | _, [] => True
  | sys, ev :: rest => sys.Meets s ev ∧ Obeys s (sys.step s ev).2 rest

/-- Both sizes of the base on disk are those of its list, and a handle's record size that of its
own. -/
def Matched (s : Sorter) (sys : Sys) : Prop := (∃ file extBytes, read s sys.base = .ok file ∧
    computeRecordLayout s file.extensions = .ok file.layout ∧
    file.header.recordSize.toNat = file.layout.recordSize ∧
    encodeExtHeaders file.extensions = .ok extBytes ∧
    file.header.headerSize.toNat = headerMinSize + extBytes.length) ∧
  ∀ who h, sys.handles who = some h → ∃ layout, computeRecordLayout s h.folder.extensions = .ok layout ∧
    h.folder.header.recordSize.toNat = layout.recordSize

private theorem Sound.matched (sound : sys.Sound s) : sys.Matched s := by
  obtain ⟨file, onDisk, handles⟩ := sound
  constructor
  · refine ⟨file, _, onDisk.read, onDisk.layout, onDisk.recordSize,
      onDisk.kept.declared.encodeExtHeaders, ?_⟩
    rw [length_flatMap_entryBytes]
    exact onDisk.headerSize
  · intro who h opened
    have kept := (handles who h opened).1
    obtain ⟨layout, done, size⟩ := kept.declared.layout s
    exact ⟨layout, done, kept.recordSize.trans size.symm⟩

private theorem readFolder_ok (onDisk : OnDisk s base file) :
    readFolder s base = .ok ⟨file.header, file.extensions, file.records⟩ := by
  rw [readFolder, onDisk.read]

/-- After its reload a handle is in step with the base. -/
private theorem Sound.reload (onDisk : OnDisk s sys.base file) {h : Handle} (kept : h.folder.Kept)
    (known : h.baseIdent = sys.ident → SameRecords h.folder.extensions file.extensions) {adopts : Bool}
    {tail : Tail} (fits : tail.KeywordsFit)
    (adopted : adopts → h.baseIdent ≠ sys.ident → SameRecords h.folder.extensions file.extensions) :
    Yields (Local.reload s adopts tail ⟨sys.base, sys.ident, h.folder, h.baseIdent⟩) fun l =>
      l.Synced s ∧ l.base = sys.base ∧ l.ident = sys.ident := by
  have taken : Yields (Local.current s adopts ⟨sys.base, sys.ident, h.folder, h.baseIdent⟩) fun f =>
      f.Kept ∧ SameRecords f.extensions file.extensions := by
    unfold Local.current
    split
    · rename_i keeps
      refine .ok ⟨kept, ?_⟩
      by_cases same : h.baseIdent = sys.ident
      · exact known same
      · exact adopted (keeps.resolve_left same) same
    · exact ⟨_, readFolder_ok onDisk, onDisk.kept, .refl _⟩
  refine taken.bind fun f ⟨kept', same⟩ => (kept'.tail fits).bind fun f' keeps => .ok ?_
  exact ⟨⟨keeps.kept, ⟨file, onDisk, keeps.same.symm.trans same⟩, rfl⟩, rfl, rfl⟩

private theorem Sound.put (sound : sys.Sound s) {l : Local} (synced : l.Synced s)
    (later : sys.ident < l.ident ∨ l.ident = sys.ident ∧ l.base = sys.base) (who : ℕ) :
    (sys.put who l).Sound s := by
  obtain ⟨file, onDisk, handles⟩ := sound
  obtain ⟨file', onDisk', same⟩ := synced.onDisk
  refine ⟨file', onDisk', ?_⟩
  intro other h opened
  by_cases self : other = who
  · subst self
    simp only [Sys.put, Function.update_self, Option.some.injEq] at opened
    subst opened
    exact ⟨synced.kept, synced.known.le, fun _ => same⟩
  · simp only [Sys.put, Function.update_of_ne self] at opened
    obtain ⟨kept, bound, known⟩ := handles other h opened
    refine ⟨kept, ?_, ?_⟩
    · simp only [Sys.put]
      omega
    · intro current
      -- Another handle's base is current only if nothing was rewritten.
      simp only [Sys.put] at current
      rcases later with grown | ⟨ident, base⟩
      · omega
      rw [base] at onDisk'
      cases onDisk.read.symm.trans onDisk'.read
      exact known (current.trans ident)

/-- One event that meets the condition succeeds and keeps everything in step. -/
private theorem Sound.step (sound : sys.Sound s) {ev : Event} (meets : sys.Meets s ev) :
    (∃ entry, (sys.step s ev).1 = .ok entry ∧ ∀ e ∈ entry, e.Decodes s) ∧ (sys.step s ev).2.Sound s := by
  obtain ⟨file, onDisk, handles⟩ := sound
  cases ev with
  | openFolder who tail =>
    obtain ⟨f, applied, keeps⟩ := onDisk.kept.tail meets
    have opened : sys.step s (.openFolder who tail) =
        (.ok none, sys.put who ⟨sys.base, sys.ident, f, sys.ident⟩) := by
      simp [Sys.step, readFolder_ok onDisk, applied, bind, Except.bind]
    rw [opened]
    refine ⟨⟨none, rfl, by simp⟩, .put ⟨file, onDisk, handles⟩ ?_ (.inr ⟨rfl, rfl⟩) who⟩
    exact ⟨keeps.kept, ⟨file, onDisk, keeps.same.symm⟩, rfl⟩
  | run who adopts tail op =>
    obtain ⟨tailFits, fits, adopted, mapped⟩ := meets
    cases held : sys.handles who with
    | none =>
      simp only [Sys.step, held]
      exact ⟨⟨none, rfl, by simp⟩, file, onDisk, handles⟩
    | some h =>
      obtain ⟨kept, -, known⟩ := handles who h held
      obtain ⟨l, reloaded, synced, base, ident⟩ := Sound.reload onDisk kept known tailFits
        fun took stale => adopted took h held stale file onDisk.read
      have declared : op.bringsMapUID → declares l.folder.extensions .mdbox := by
        intro brings
        obtain ⟨file', onDisk', same⟩ := synced.onDisk
        rw [base] at onDisk'
        exact (same _ (by decide)).mpr (mapped brings file' onDisk'.read)
      obtain ⟨l', entry, done, synced', later, decodes⟩ := synced.op fits declared
      have ran : sys.step s (.run who adopts tail op) = (.ok entry, sys.put who l') := by
        simp [Sys.step, held, reloaded, done, bind, Except.bind]
      rw [ran]
      rw [Local.Later, base, ident] at later
      exact ⟨⟨entry, rfl, decodes⟩, .put ⟨file, onDisk, handles⟩ synced' later who⟩

private theorem Sound.run {events : List Event} (sound : sys.Sound s) (obeys : sys.Obeys s events) :
    (∀ outcome ∈ (sys.run s events).1, ∃ entry, outcome = .ok entry ∧ ∀ e ∈ entry, e.Decodes s) ∧
      (sys.run s events).2.Sound s := by
  induction events generalizing sys with
  | nil => exact ⟨by simp [Sys.run], sound⟩
  | cons ev rest ih =>
    obtain ⟨first, next⟩ := sound.step obeys.1
    obtain ⟨others, final⟩ := ih next obeys.2
    exact ⟨List.forall_mem_cons.mpr ⟨first, others⟩, final⟩

private theorem sound_start (onDisk : OnDisk s base file) : (Sys.start base).Sound s :=
  ⟨file, onDisk, fun _ _ opened => absurd opened (by simp [Sys.start])⟩

/-- From every base this package can have written, in every run whose events meet the condition,
nothing is refused, whatever is journalled can be read next to its base, and all sizes match. -/
theorem run_matched (s : Sorter) {f : Folder} (kept : f.Kept)
    (headerSize : f.header.headerSize.toNat = headerMinSize + extHeadersLength f.extensions)
    {base : Bytes} (written : MailIndex.recreate s f.header f.extensions f.records = .ok base)
    {events : List Event} (obeys : (Sys.start base).Obeys s events) :
    (∀ outcome ∈ ((Sys.start base).run s events).1,
      ∃ entry, outcome = .ok entry ∧ ∀ e ∈ entry, e.Decodes s) ∧
    ((Sys.start base).run s events).2.Matched s := by
  obtain ⟨bytes, file, accepted, onDisk, -⟩ := kept.recreate (s := s) headerSize
  cases written.symm.trans accepted
  obtain ⟨outcomes, final⟩ := (sound_start onDisk).run obeys
  exact ⟨outcomes, final.matched⟩

end Sys

/-! ## An index of an earlier version -/

/-- The header data of an extension: no map, modseq 1, no keyword, no size, and the first lineage. -/
def olderData : Ext → Bytes
  | .dboxHdr => List.replicate 24 0
  | .modSeq => ModseqHdr.bytes ⟨1, 1, 0⟩
  | .keywords => put32 0
  | .hdrVsize => List.replicate 16 0
  | .lineage => put32 1 ++ List.replicate 20 0
  | _ => []

/-- An empty folder with the first extensions and the two every rewrite wants, with the mdbox
extension or without it. -/
def olderFolder (mapped : Bool) : Folder where
  header := {
    majorVersion := majorVersion, minorVersion := 3, baseHeaderSize := 120
    headerSize := if mapped then 408 else 384, recordSize := if mapped then 36 else 28
    compatFlags := 1
    indexID := 9, flags := 0, uidValidity := 5, nextUID := 1, messagesCount := 0
    unusedOldRecentMessagesCount := 0, seenMessagesCount := 0, deletedMessagesCount := 0
    firstRecentUID := 0, firstUnseenUIDLowwater := 0, firstDeletedUIDLowwater := 0
    logFileSeq := 1, logFileTailOffset := 0, logFileHeadOffset := 0
    unusedOldSyncSizePart1 := 0, log2RotateTime := 0, lastTempFileScan := 0, dayStamp := 0
    dayFirstUID := Vector.replicate 8 0 }
  extensions := (Ext.core ++ [Ext.hdrVsize, Ext.lineage] ++ if mapped then [Ext.mdbox] else []).map
    fun x => Folder.declare x (olderData x) 0
  records := []

private theorem olderFolder_kept (mapped : Bool) : (olderFolder mapped).Kept := by
  refine ⟨rfl, rfl, by simp [olderFolder, compatLittleEndian], ⟨?_, ?_, ?_⟩, ?_, by simp [olderFolder]⟩
  · intro e member
    obtain ⟨x, -, rfl⟩ := List.mem_map.mp member
    exact ⟨x, rfl, rfl, rfl, rfl, by cases x <;> decide⟩
  all_goals cases mapped <;> decide

/-- Its base. -/
def olderBase (mapped : Bool) : Bytes :=
  let f := olderFolder mapped
  match recreate .insertion f.header f.extensions f.records with
  | .ok bytes => bytes
  | .error _ => []

private theorem olderBase_written (mapped : Bool) :
    recreate .insertion (olderFolder mapped).header (olderFolder mapped).extensions
      (olderFolder mapped).records = .ok (olderBase mapped) ∧
    ∀ file, read .insertion (olderBase mapped) = .ok file →
      SameRecords (olderFolder mapped).extensions file.extensions := by
  obtain ⟨bytes, file, accepted, onDisk, same⟩ := (olderFolder_kept mapped).recreate
    (s := .insertion) (by cases mapped <;> decide)
  have base : olderBase mapped = bytes := by simp [olderBase, accepted]
  refine ⟨by rw [accepted, base], ?_⟩
  intro file' read
  rw [base, onDisk.read] at read
  cases read
  exact same

def quietTail : Tail := { modseq := none, keywords := none, records := none }

def sampleMinted : Folder.Minted where
  vsize := 7
  highestUID := 1
  messageCount := 1
  lineage := 2
  foldedLineage := 1
  foldedOffset := 40
  recordsDigest := 0

/-- A message of seven bytes that is stored under map uid 5. -/
def mappedAppend : Append where
  modseq := { highestModSeq := 1, logSeq := 1, logOffset := 0 }
  keywords := []
  registry := none
  values := {
    uid := 1, flags := 0, modseq := some 1, keywords := none, internalDate := some 9
    vsize := some 7, guid := none, mdbox := some (5, 0), cache := none }
  compaction := none

def mappedEvents : List Event := [.openFolder 0 quietTail, .run 0 false quietTail (.append mappedAppend),
    .run 0 false quietTail (.rewrite none sampleMinted)]

/-- The value of an extension in each record another handle finds. -/
def Appended.foundValues (s : Sorter) (entry : Appended) (x : Ext) : Option (List Bytes) :=
  match entry.found s with
  | .ok records => some (records.map fun r => r.ext x.name)
  | .error _ => none

def refusals (outcomes : List (Except Err (Option Appended))) : List (Option Err) := outcomes.map fun
    | .ok _ => none
    | .error err => some err

def journalled (outcomes : List (Except Err (Option Appended))) : List Appended := outcomes.filterMap fun
    | .ok entry => entry
    | .error _ => none

/-- Bringing the first map uid widens the record in memory only: another handle reads the map uid
where the size of seven was written, and the next rewrite of the base is refused. -/
theorem append_mapUID_shifts : (olderFolder false).Kept ∧
    MailIndex.recreate .insertion (olderFolder false).header (olderFolder false).extensions
      (olderFolder false).records = .ok (olderBase false) ∧
    refusals ((Sys.start (olderBase false)).run .insertion mappedEvents).1 =
      [none, none, some (.file .recordSizeMismatch)] ∧
    (journalled ((Sys.start (olderBase false)).run .insertion mappedEvents).1).map
        (fun entry => (entry.record.ext Ext.vsize.name, entry.foundValues .insertion .vsize)) =
      [([7, 0, 0, 0], some [[5, 0, 0, 0]])] :=
  ⟨olderFolder_kept false, (olderBase_written false).1, by decide +kernel, by decide +kernel⟩

/-- The same run on a base that declares the extension. -/
theorem run_matched_mapped :
    (journalled ((Sys.start (olderBase true)).run .insertion mappedEvents).1).length = 1 ∧
    (∀ outcome ∈ ((Sys.start (olderBase true)).run .insertion mappedEvents).1,
      ∃ entry, outcome = .ok entry ∧ ∀ e ∈ entry, e.Decodes .insertion) ∧
    ((Sys.start (olderBase true)).run .insertion mappedEvents).2.Matched .insertion := by
  have quiet : quietTail.KeywordsFit := by simp [Tail.KeywordsFit, quietTail]
  have opened : ((Sys.start (olderBase true)).step .insertion (.openFolder 0 quietTail)).2.base =
      olderBase true := by decide +kernel
  have obeys : (Sys.start (olderBase true)).Obeys .insertion mappedEvents := by
    have names : FolderLayout.KeywordsFit mappedAppend.keywords := Nat.two_pow_pos 31
    refine ⟨quiet, ⟨quiet, names, nofun, ?_⟩, ⟨quiet, trivial, nofun, nofun⟩, trivial⟩
    intro _ file read
    rw [opened] at read
    exact ((olderBase_written true).2 file read _ (by decide)).mp (by decide)
  exact ⟨by decide +kernel, Sys.run_matched .insertion (olderFolder_kept true) (by decide)
    (olderBase_written true).1 obeys⟩

end Yarilo.FolderLayout

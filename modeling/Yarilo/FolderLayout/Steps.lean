import Yarilo.FolderLayout.Kept

/-! # The steps of the folder code

Every step but two leaves the record extensions as they are and the header's record size in step
with them. `addExtension` brings both up to date together. Declaring the mdbox extension changes the
list alone.
-/

namespace Yarilo.FolderLayout

open Library MailIndex Extension Record

/-- Every value has the size of its extension. -/
def Sized (r : Record) : Prop := ∀ x : Ext, r.ext x.name ≠ [] → (r.ext x.name).length = x.recordSize.toNat

theorem length_brought {α : Type} {encode : α → Bytes} {n : ℕ}
    (each : ∀ a, (encode a).length = n) {value : Option α}
    (brought : (value.map encode).getD [] ≠ []) : ((value.map encode).getD []).length = n := by
  cases value with
  | none => exact absurd rfl brought
  | some a => exact each a

theorem Values.sized (v : Values) : Sized v.record := by
  intro x brought
  have found : Ext.all.find? (fun y => y.name = x.name) = some x := by
    have all : ∀ x ∈ Ext.all, Ext.all.find? (fun y => y.name = x.name) = some x := by decide
    exact all x x.mem_all
  have bytes : v.record.ext x.name = v.bytes x := by simp [Values.record, found]
  rw [bytes] at brought ⊢
  cases x <;> simp [Values.bytes] at brought ⊢
  case modSeq => exact length_brought (fun n : UInt64 => length_putLe 8 n.toNat) brought
  case keywords => exact length_brought length_put32 brought
  case internalDate => exact length_brought length_put32 brought
  case vsize => exact length_brought length_put32 brought
  case guid => exact length_brought (fun n : BitVec 128 => length_putLe 16 n.toNat) brought
  case mdbox => exact length_brought (fun key : UInt32 × UInt32 => by simp [Ext.recordSize]) brought
  case cache => exact length_brought length_put32 brought

/-- Two lists declare the same record extensions. -/
def SameRecords (exts exts' : List Extension) : Prop := ∀ x ∈ Ext.later, declares exts x ↔ declares exts' x

theorem SameRecords.refl (exts : List Extension) : SameRecords exts exts := fun _ _ => .rfl

variable {exts' : List Extension}

section

variable {exts : List Extension} (same : SameRecords exts exts')

include same

theorem SameRecords.symm : SameRecords exts' exts := fun x later => (same x later).symm

theorem SameRecords.trans {exts'' : List Extension} (next : SameRecords exts' exts'') :
    SameRecords exts exts'' :=
  fun x later => (same x later).trans (next x later)

theorem SameRecords.width_eq : width exts = width exts' := by
  have bit : ∀ x ∈ Ext.later, decide (declares exts x) = decide (declares exts' x) :=
    fun x later => decide_eq_decide.mpr (same x later)
  unfold width
  rw [bit .cache (by decide), bit .mdbox (by decide), bit .guid (by decide)]

end

namespace Folder

/-- The folder as every rewrite of the base needs it. -/
structure Kept (f : Folder) : Prop where
  base : f.header.baseHeaderSize.toNat = headerMinSize
  major : f.header.majorVersion = majorVersion
  little : f.header.compatFlags &&& compatLittleEndian ≠ 0
  declared : Declared f.extensions
  recordSize : f.header.recordSize.toNat = width f.extensions
  sized : ∀ r ∈ f.records, Sized r

variable {f : Folder} {x : Ext} {data : Bytes}

theorem has_iff : f.has x = true ↔ declares f.extensions x := by
  unfold has findExt
  rw [List.find?_isSome, mem_names]
  simp

theorem has_false (absent : f.has x = false) : ¬ declares f.extensions x := by
  rw [← has_iff, absent]
  decide

/-- What a step that leaves the record extensions alone keeps. -/
structure Keeps (f f' : Folder) : Prop where
  kept : f'.Kept
  same : SameRecords f.extensions f'.extensions

theorem Keeps.trans {f' f'' : Folder} (first : f.Keeps f') (second : f'.Keeps f'') : f.Keeps f'' :=
  ⟨second.kept, first.same.trans second.same⟩

section

variable (kept : f.Kept)

include kept

theorem Kept.keeps : f.Keeps f := ⟨kept, .refl _⟩

/-- Another list with the same record extensions. -/
theorem Kept.relist {exts : List Extension} (declared : Declared exts)
    (same : SameRecords f.extensions exts) : f.Keeps { f with extensions := exts } :=
  ⟨⟨kept.base, kept.major, kept.little, declared, kept.recordSize.trans same.width_eq, kept.sized⟩, same⟩

theorem Kept.remap {change : Extension → Extension} (name : ∀ e, (change e).name = e.name)
    (still : ∀ e x, IsExt e x → IsExt (change e) x) :
    f.Keeps { f with extensions := f.extensions.map change } := by
  obtain ⟨declared, names⟩ := kept.declared.map name still
  exact kept.relist declared fun x _ => (names x).symm

theorem Kept.setHdr (bounded : data.length < x.dataLimit) : f.Keeps (f.setHdr x data) := by
  apply kept.remap
  · intro e
    split <;> rfl
  · intro e y is
    split
    · rename_i same
      obtain rfl : x = y := Ext.name_injective (same.symm.trans is.name)
      exact ⟨is.name, is.recordSize, is.recordAlign, rfl, bounded⟩
    · exact is

theorem Kept.setResetID (x : Ext) (resetID : UInt32) : f.Keeps (f.setResetID x resetID) := by
  apply kept.remap
  · intro e
    split <;> rfl
  · intro e y is
    split
    · exact ⟨is.name, is.recordSize, is.recordAlign, is.hdrSize, is.bounded⟩
    · exact is

theorem Kept.setRecords {records : List Record} (sized : ∀ r ∈ records, Sized r) :
    f.Keeps { f with records := records } :=
  ⟨⟨kept.base, kept.major, kept.little, kept.declared, kept.recordSize, sized⟩, .refl _⟩

/-- Header fields other than those the layout depends on. -/
theorem Kept.setHeader {header : Header} (base : header.baseHeaderSize = f.header.baseHeaderSize)
    (major : header.majorVersion = f.header.majorVersion) (compat : header.compatFlags = f.header.compatFlags)
    (size : header.recordSize = f.header.recordSize) : f.Keeps { f with header := header } :=
  ⟨⟨base ▸ kept.base, major ▸ kept.major, compat ▸ kept.little, kept.declared,
    size ▸ kept.recordSize, kept.sized⟩, .refl _⟩

end

theorem syncHeaderSize_eq (declared : Declared f.extensions) : f.syncHeaderSize =
    .ok (f.setHeaderSize (f.extensions.flatMap Extension.entryBytes)) := by
  rw [syncHeaderSize, declared.encodeExtHeaders]

theorem Kept.setHeaderSize (kept : f.Kept) (extBytes : Bytes) :
    f.Keeps (f.setHeaderSize extBytes) := kept.setHeader rfl rfl rfl rfl

theorem Keeps.syncHeaderSize {f' : Folder} (first : f.Keeps f') : Yields f'.syncHeaderSize f.Keeps :=
  ⟨_, syncHeaderSize_eq first.kept.declared, first.trans (first.kept.setHeaderSize _)⟩

theorem yields_ofFile {α : Type} {x : Except FileErr α} {P : α → Prop} (yields : Yields x P) :
    Yields (ofFile x) P := by
  obtain ⟨a, rfl, holds⟩ := yields
  exact .ok holds

section

variable (kept : f.Kept) (absent : ¬ declares f.extensions x) (bounded : data.length < x.dataLimit)
  (resetID : UInt32)

include kept absent bounded

/-- A header-only extension at the end of the list. -/
theorem Kept.appendExt (headerOnly : x ∉ Ext.later) : Yields (f.appendExt x data resetID) f.Keeps := by
  have pushed := kept.declared.push absent bounded resetID
  have same : SameRecords f.extensions (f.extensions ++ [declare x data resetID]) := by
    intro y later
    rw [declares_push]
    constructor
    · exact .inl
    · rintro (held | rfl)
      · exact held
      · exact absurd later headerOnly
  exact (kept.relist pushed same).syncHeaderSize

/-- Adding an extension that is missing brings the record size along. -/
theorem Kept.addExtension (s : Sorter) :
    Yields (f.addExtension s x data resetID) fun f' => f'.Kept ∧
      ∀ y, declares f'.extensions y ↔ declares f.extensions y ∨ y = x := by
  have pushed := kept.declared.push absent bounded resetID
  obtain ⟨layout, done, size⟩ := pushed.layout s
  obtain ⟨declared, names⟩ := pushed.placed done
  have lacks : f.has x = false := by
    rw [← Bool.not_eq_true, has_iff]
    exact absent
  have small := width_lt (f.extensions ++ [declare x data resetID])
  have added : f.addExtension s x data resetID =
      .ok ((f.relaid layout).setHeaderSize (layout.extensions.flatMap entryBytes)) := by
    rw [Folder.addExtension, lacks]
    simp [done, declared.encodeExtHeaders]
  have relaid : (f.relaid layout).Kept := by
    refine ⟨kept.base, kept.major, kept.little, declared, ?_, kept.sized⟩
    have same : SameRecords (f.extensions ++ [declare x data resetID]) layout.extensions :=
      fun y _ => (names y).symm
    simp only [Folder.relaid]
    rw [UInt32.toNat_ofNat', Nat.mod_eq_of_lt (by omega), size, same.width_eq]
  refine ⟨_, added, (relaid.setHeaderSize _).kept, ?_⟩
  intro y
  simp only [Folder.setHeaderSize, Folder.relaid]
  rw [names, declares_push]

/-- Adding a header-only extension if it is missing. -/
theorem Kept.addHeaderExtension (s : Sorter) (headerOnly : x ∉ Ext.later) :
    Yields (f.addExtension s x data resetID) f.Keeps := by
  obtain ⟨f', done, kept', names⟩ := kept.addExtension absent bounded resetID s
  refine ⟨f', done, kept', ?_⟩
  intro y later
  rw [names]
  constructor
  · exact .inl
  · rintro (held | rfl)
    · exact held
    · exact absurd later headerOnly

end

theorem Kept.bumpModSeqHeader (kept : f.Kept) (bounded : data.length < 2 ^ 16) :
    Yields (f.bumpModSeqHeader data) f.Keeps := by
  have present : f.has .modSeq = true := has_iff.mpr (kept.declared.core _ (by decide))
  exact ⟨_, by rw [Folder.bumpModSeqHeader, if_pos present], kept.setHdr bounded⟩

theorem Kept.persistKeywordRegistry (kept : f.Kept) (bounded : data.length < 2 ^ 31) :
    Yields (f.persistKeywordRegistry data) f.Keeps := by
  have present : f.has .keywords = true := has_iff.mpr (kept.declared.core _ (by decide))
  have first : f.Keeps (f.setHdr .keywords data) := kept.setHdr bounded
  rw [Folder.persistKeywordRegistry, if_pos present]
  exact yields_ofFile first.syncHeaderSize

theorem ensureMdboxExt_eq (declared : declares f.extensions .mdbox) : f.ensureMdboxExt = f := by
  rw [ensureMdboxExt, if_pos (has_iff.mpr declared)]

theorem Kept.stampExpungeFloor (kept : f.Kept) (modseq : UInt64) :
    Yields (f.stampExpungeFloor modseq) f.Keeps := by
  have data : (putLe 8 modseq.toNat).length < Ext.dataLimit .expungeFloor := by
    rw [length_putLe]
    decide
  unfold Folder.stampExpungeFloor
  cases found : f.findExt .expungeFloor with
  | none =>
    have absent : ¬ declares f.extensions .expungeFloor := has_false (by rw [has, found]; rfl)
    exact kept.appendExt absent data _ (by decide)
  | some e =>
    simp only
    split
    · exact .ok kept.keeps
    · exact (kept.setHdr data).syncHeaderSize

theorem Kept.markUIDNamed (kept : f.Kept) : Yields f.markUIDNamed f.Keeps := by
  have data : (putLe 4 uidNamesPass).length < Ext.dataLimit .uidNames := by
    rw [length_putLe]
    decide
  unfold Folder.markUIDNamed
  split
  · exact .ok kept.keeps
  cases present : f.has .uidNames with
  | true => exact .ok (kept.setHdr data)
  | false =>
    rw [if_neg (by decide)]
    exact kept.appendExt (has_false present) data _ (by decide)

/-! ## Rewriting the base -/

theorem Minted.length_hdrVsize (m : Minted) : m.hdrVsize.length = 16 := by
  simp [Minted.hdrVsize]

theorem Minted.length_lineageHdr (m : Minted) : m.lineageHdr.length = 24 := by
  simp [Minted.lineageHdr]

theorem Kept.persistVsize (s : Sorter) (kept : f.Kept) (m : Minted) : f.Keeps (f.persistVsize s m) := by
  have data : m.hdrVsize.length < Ext.dataLimit .hdrVsize := by
    rw [m.length_hdrVsize]
    decide
  unfold Folder.persistVsize
  cases present : f.has .hdrVsize with
  | true => exact kept.setHdr data
  | false =>
    obtain ⟨f', done, keeps⟩ := kept.addHeaderExtension (has_false present) data
      f.header.uidValidity s (by decide)
    rw [if_neg (by decide), done]
    exact keeps

theorem Kept.setLineage (s : Sorter) (kept : f.Kept) (m : Minted) : Yields (f.setLineage s m) f.Keeps := by
  have data : m.lineageHdr.length < Ext.dataLimit .lineage := by
    rw [m.length_lineageHdr]
    decide
  unfold Folder.setLineage
  cases present : f.has .lineage with
  | true => exact .ok (kept.setHdr data)
  | false =>
    rw [if_neg (by decide)]
    exact kept.addHeaderExtension (has_false present) data 0 s (by decide)

end Folder

/-- The record with the values of declared extensions only: what its bytes hold. -/
def declaredValues (exts : List Extension) (r : Record) : Record where
  uid := r.uid
  flags := r.flags
  ext name := if name ∈ exts.map Extension.name then r.ext name else []

/-- What a reader of the file gets of a record: zeros for absent values. -/
def readBack (exts : List Extension) (r : Record) : Record := (declaredValues exts r).filled exts

/-- The base on disk holds this file, whose two sizes are those of its extension list. -/
structure OnDisk (s : Sorter) (bytes : Bytes) (file : File) : Prop where
  read : MailIndex.read s bytes = .ok file
  layout : computeRecordLayout s file.extensions = .ok file.layout
  recordSize : file.header.recordSize.toNat = file.layout.recordSize
  headerSize : file.header.headerSize.toNat = headerMinSize + extHeadersLength file.extensions
  kept : Folder.Kept ⟨file.header, file.extensions, file.records⟩

section Records

variable {s : Sorter} {exts : List Extension} {layout : RecordLayout} {r : Record}

theorem length_of_sized (declared : Declared exts) (done : computeRecordLayout s exts = .ok layout)
    (sized : Sized r) : r.Sized layout.extensions := by
  intro e member brought
  obtain ⟨x, is⟩ := (declared.placed done).1.known e member
  rw [is.name] at brought ⊢
  rw [is.recordSize]
  exact sized x brought

theorem declaredValues_ext {name : Bytes} (member : name ∈ exts.map Extension.name) :
    (declaredValues exts r).ext name = r.ext name := by
  simp only [declaredValues, if_pos member]

variable (declared : Declared exts)

include declared

theorem declaredValues_fits (sized : Sized r) : (declaredValues exts r).Fits exts := by
  intro name brought
  simp only [declaredValues] at brought
  split at brought
  · rename_i member
    obtain ⟨e, held, rfl⟩ := List.mem_map.mp member
    obtain ⟨x, is⟩ := declared.known e held
    refine ⟨e, held, rfl, ?_⟩
    rw [declaredValues_ext member, is.recordSize]
    rw [is.name] at brought ⊢
    exact sized x brought
  · exact absurd rfl brought

/-- Values nobody declared leave no trace in the bytes. -/
theorem bytes_declaredValues (done : computeRecordLayout s exts = .ok layout) :
    (declaredValues exts r).bytes layout = r.bytes layout := by
  have names := (declared.placed done).2
  have slots : (declaredValues exts r).slots layout.extensions = r.slots layout.extensions := by
    apply List.filterMap_congr
    intro e member
    have inside : e.name ∈ exts.map name := by
      obtain ⟨x, is⟩ := (declared.placed done).1.known e member
      rw [is.name]
      exact (names x).mp (mem_names.mpr ⟨e, member, is.name⟩)
    rw [declaredValues_ext inside]
  rw [bytes, bytes, slots]
  rfl

/-- A record's bytes give it back with the layout they were written with. -/
theorem decodeRecord_declared (done : computeRecordLayout s exts = .ok layout) (sized : Sized r) :
    decodeRecord (r.bytes layout) layout = .ok (readBack exts r) := by
  have placed := computeRecordLayout_placed done
  have names := (computeRecordLayout_sound declared.distinct done).names
  obtain ⟨layout', done', size⟩ := declared.layout s
  cases done.symm.trans done'
  have small := width_lt exts
  rw [← bytes_declaredValues declared done, readBack, ← filled_layout declared.distinct done]
  exact decodeRecord_filled placed (by omega) (fits_layout done (declaredValues_fits declared sized)) names

theorem sized_readBack (sized : Sized r) : Sized (readBack exts r) := by
  intro x brought
  simp only [readBack, filled] at brought ⊢
  by_cases member : x.name ∈ exts.map name
  · obtain ⟨e, held, name⟩ := List.mem_map.mp member
    obtain ⟨y, is⟩ := declared.known e held
    obtain rfl : x = y := Ext.name_injective (name.symm.trans is.name)
    have found := find?_name declared.distinct held
    rw [name] at found
    simp only [found, declaredValues_ext member] at brought ⊢
    split
    · rw [length_zeros, is.recordSize]
    · rename_i present
      exact sized x present
  · have absent : exts.find? (fun e => e.name = x.name) = none := by
      simpa using fun e held same => member (List.mem_map.mpr ⟨e, held, same⟩)
    simp only [absent, declaredValues, if_neg member] at brought
    exact absurd rfl brought

end Records

namespace Folder

variable {f : Folder} {s : Sorter}

/-- A kept folder with its header size in step is written, and read back with the same sizes. -/
theorem Kept.recreate (kept : f.Kept)
    (headerSize : f.header.headerSize.toNat = headerMinSize + extHeadersLength f.extensions) :
    ∃ bytes file, MailIndex.recreate s f.header f.extensions f.records = .ok bytes ∧
      OnDisk s bytes file ∧ SameRecords f.extensions file.extensions := by
  have declared := kept.declared
  obtain ⟨layout, done, size⟩ := declared.layout s
  obtain ⟨placed, names⟩ := declared.placed done
  have apart := computeRecordLayout_placed done
  have small := width_lt f.extensions
  have short := declared.extHeadersLength_lt
  have total := extHeadersLength_perm (computeRecordLayout_perm done)
  have recordSize : layout.recordSize = f.header.recordSize.toNat := size.trans kept.recordSize.symm
  have written : f.records.mapM (encodeRecord (zeros layout.recordSize) layout) =
      .ok (f.records.map (bytes layout)) :=
    mapM_eq_pure fun r member => encodeRecord_eq apart
      (length_of_sized declared done (kept.sized r member)) (by omega) (length_zeros layout.recordSize)
  have accepted : MailIndex.recreate s f.header f.extensions f.records =
      .ok (f.header.encodeBytes ++ layout.extensions.flatMap entryBytes ++
        (f.records.map (bytes layout)).flatten) := by
    have inner : u32 (extHeadersLength f.extensions) = extHeadersLength f.extensions := u32_eq (by omega)
    simp only [MailIndex.recreate, done]
    rw [if_neg (not_not.mpr recordSize), placed.encodeExtHeaders]
    simp only [length_flatMap_entryBytes, total, inner, u32_eq (by omega :
      headerMinSize + extHeadersLength f.extensions < 2 ^ 32), headerSize, ne_eq,
      not_true_eq_false, if_false, written]
  have positive : 0 < layout.recordSize := by
    have base := apart.base
    simp only [recordMinSize] at base
    omega
  have back : ∀ r ∈ f.records, (r.bytes layout).length = layout.recordSize ∧
      decodeRecord (r.bytes layout) layout = .ok (readBack f.extensions r) := fun r member =>
    ⟨length_bytes apart (length_of_sized declared done (kept.sized r member)),
      decodeRecord_declared declared done (kept.sized r member)⟩
  have count := length_le_length_flatten positive fun r member => (back r member).1
  have read := read_written declared.distinct done kept.base kept.major kept.little recordSize
    (by omega) headerSize (f.records.map (bytes layout)).flatten
  rw [readRecords_flatten positive (by omega) back] at read
  have same : SameRecords f.extensions layout.extensions := fun x _ => (names x).symm
  refine ⟨_, _, accepted, ⟨read, computeRecordLayout_self declared.distinct done, recordSize.symm,
    by rw [total]; exact headerSize, ?_⟩, same⟩
  refine ⟨kept.base, kept.major, kept.little, placed, kept.recordSize.trans same.width_eq, ?_⟩
  intro r member
  obtain ⟨r, held, rfl⟩ := List.mem_map.mp member
  exact sized_readBack declared (kept.sized r held)

theorem Kept.flush (kept : f.Kept) (m : Minted) :
    Yields (f.flush s m) fun done => f.Keeps done.1 ∧ ∃ file, OnDisk s done.2 file ∧
      SameRecords f.extensions file.extensions := by
  have first := kept.persistVsize s m
  obtain ⟨f₂, lineage, second⟩ := first.kept.setLineage s m
  have declared := second.kept.declared
  have third := second.kept.setHeaderSize (f₂.extensions.flatMap entryBytes)
  have fourth : (f₂.setHeaderSize (f₂.extensions.flatMap entryBytes)).Keeps
      (f₂.setHeaderSize (f₂.extensions.flatMap entryBytes)).recount :=
    third.kept.setHeader rfl rfl rfl rfl
  have short := declared.extHeadersLength_lt
  have headerSize : (f₂.setHeaderSize (f₂.extensions.flatMap entryBytes)).recount.header.headerSize.toNat =
      headerMinSize + extHeadersLength f₂.extensions := by
    simp only [recount, Folder.setHeaderSize]
    rw [UInt32.toNat_ofNat', length_flatMap_entryBytes, Nat.mod_eq_of_lt (by omega)]
  obtain ⟨bytes, file, accepted, onDisk, same⟩ := fourth.kept.recreate (s := s) headerSize
  have keeps := ((first.trans second).trans third).trans fourth
  refine ⟨(_, bytes), ?_, keeps, file, onDisk, keeps.same.trans same⟩
  simp only [Folder.flush, lineage, syncHeaderSize_eq declared, accepted]
  rfl

/-- The payload of a new record reads back with the layout of any list that declares the same record
extensions. -/
theorem Kept.appendPayload (kept : f.Kept) {r : Record} (sized : Sized r) {file : File}
    {bytes : Bytes} (onDisk : OnDisk s bytes file) (same : SameRecords f.extensions file.extensions) :
    ∃ payload, f.appendPayload s r = .ok payload ∧ payload.length = file.layout.recordSize ∧
      decodeRecord payload file.layout = .ok (readBack file.extensions r) := by
  have declared := kept.declared
  obtain ⟨layout, done, size⟩ := declared.layout s
  have small := width_lt f.extensions
  obtain ⟨sizes, places⟩ := declared.layout_congr onDisk.kept.declared same done onDisk.layout
  have encoded := encodeRecord_eq (computeRecordLayout_placed done) (length_of_sized declared done sized)
    (by omega) (length_zeros layout.recordSize)
  refine ⟨r.bytes layout, by simp [Folder.appendPayload, done, encoded]; rfl, ?_, ?_⟩
  · rw [length_bytes (computeRecordLayout_placed done) (length_of_sized declared done sized), sizes]
  · rw [r.bytes_congr sizes.symm places.symm]
    exact decodeRecord_declared onDisk.kept.declared onDisk.layout sized

end Folder

end Yarilo.FolderLayout

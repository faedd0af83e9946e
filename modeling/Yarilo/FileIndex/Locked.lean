import Yarilo.FileIndex.Pairing

/-! # Primitives under the folder lock

Inside an operation the handle has caught up with the files (`Locked`). An operation changes the
handle in memory and then leaves it there, appends a group to the log, rewrites the base or folds
the log into a new base. Each lemma here says what such an ending does to the pairing of the files
with every handle, for any theory that looks at a content's essence only.
-/

namespace Yarilo.FileIndex

open Library MailIndex FolderState List

/-- What rewriting the base keeps of a content: everything but the counts, the pairing, the size
header and the layout of the extensions. -/
def Content.essence (c : Content) : BitVec 32 × ℕ × ℕ × ℕ × Registry × Option ℕ × List Record × Registry :=
  (c.file.header.flags, c.file.header.uidValidity, c.file.header.nextUID, c.file.ext.highestModSeq,
    c.file.ext.keywords, c.file.ext.expungeFloor, c.file.records.map Record.stored, c.keywords)

/-- The theory does not look at what rewriting the base changes. -/
def Stable {γ : Type} (T : Journal.Theory Content Group γ) : Prop :=
  ∀ ⦃c c' g⦄, c.essence = c'.essence → T.Rel c g → T.Rel c' g

variable {fs fs' : FolderState} {handles : List FolderState} {i : ℕ} {b : BaseFile} {l : LogFile}

/-- The handle's file carries the lineage of the base it is paired with, so that a rewrite mints a
lineage no base has had, and the lineage has room for this many rewrites. An adopting handle keeps
the file of an earlier base. -/
def FolderState.MayFlush (room : ℕ) (fs : FolderState) : Prop :=
  (readLineage fs.file).lineage = fs.lineage.lineage ∧ fs.lineage.lineage + room < 2 ^ 32

instance (room : ℕ) (fs : FolderState) : Decidable (fs.MayFlush room) := inferInstanceAs (Decidable (_ ∧ _))

theorem FolderState.MayFlush.congr {room : ℕ} (mayFlush : fs.MayFlush room)
    (file : fs'.file.ext.lineage = fs.file.ext.lineage) (lineage : fs'.lineage = fs.lineage) :
    fs'.MayFlush room := by
  unfold FolderState.MayFlush readLineage at *
  rw [file, lineage]
  exact mayFlush

theorem FolderState.MayFlush.one (mayFlush : fs.MayFlush 2) : fs.MayFlush 1 :=
  ⟨mayFlush.1, Nat.lt_of_succ_lt mayFlush.2⟩

theorem appendName_fs (uid : ℕ) (name : Bytes) (size : ℕ) (s : Local) :
    (s.appendName uid name size).fs.toContent = s.fs.toContent ∧
      (s.appendName uid name size).fs.book = s.fs.book := by
  unfold Local.appendName
  split
  · exact ⟨rfl, rfl⟩
  split
  · exact ⟨rfl, rfl⟩
  · split <;> exact ⟨rfl, rfl⟩

/-- The sidecar line does not depend on the record in memory. -/
theorem appendName_addRecord (uid : ℕ) (name : Bytes) (size : ℕ) (m : MessageMeta) (r : Record) (s : Local) :
    (s.mapFs (·.addRecord m r)).appendName uid name size =
      (s.appendName uid name size).mapFs (·.addRecord m r) := by
  unfold Local.appendName
  by_cases unnamed : name = []
  · rw [if_pos unnamed, if_pos unnamed]
  rw [if_neg unnamed, if_neg unnamed]
  unfold Local.mapFs
  dsimp only [addRecord]
  split <;> rename_i opened
  · rw [opened]
  · rw [opened]
    split <;> rfl

theorem appendName_disk (uid : ℕ) (name : Bytes) (size : ℕ) (s : Local) :
    (s.appendName uid name size).disk.base = s.disk.base ∧ (s.appendName uid name size).disk.log = s.disk.log ∧
      s.disk.nextIdent ≤ (s.appendName uid name size).disk.nextIdent := by
  unfold Local.appendName
  split
  · exact ⟨rfl, rfl, le_rfl⟩
  split
  · exact ⟨rfl, rfl, le_rfl⟩
  · split
    · exact ⟨rfl, rfl, le_rfl⟩
    · exact ⟨rfl, rfl, Nat.le_succ _⟩

/-- Base and log make the folder. -/
theorem Folder.congr {disk disk' : Disk} (folder : Folder disk b l) (base : disk'.base = disk.base)
    (log : disk'.log = disk.log) (ident : disk.nextIdent ≤ disk'.nextIdent) : Folder disk' b l :=
  ⟨base.trans folder.base, log.trans folder.log, folder.ident.trans_le ident, folder.indexID, folder.seq,
    folder.lineage⟩

theorem appendMutLog_fs (group : Group) (s : Local) : (s.appendMutLog group).fs.toContent = s.fs.toContent ∧
      (s.appendMutLog group).fs.lineage = s.fs.lineage := by
  unfold Local.appendMutLog
  split
  · exact ⟨rfl, rfl⟩
  · split <;> exact ⟨rfl, rfl⟩

variable {γ : Type} {T : Journal.Theory Content Group γ} {s : Local} {others : List FolderState}
  {cur g : γ}

/-- The end of an operation: its handle takes its place among the others. -/
theorem Locked.tracked (lawful : T.Lawful) (locked : Locked T s (handles.eraseIdx i) cur) :
    Tracked T s.disk (handles.set i s.fs) cur := by
  obtain ⟨b, l, folder, index, inv, caught⟩ := locked
  refine ⟨b, l, folder, forall_mem_set index caught.indexID, inv.of_mem (forall_mem_map.mpr ?_)⟩
  exact forall_mem_set (fun _ other => .inl (mem_map_of_mem other)) (.inr (caught.fresh.current lawful))

theorem Caught.of_book (caught : Caught T b l cur fs) (book : fs'.book = fs.book)
    (rel : T.Rel fs'.toContent g) : Caught T b l g fs' := by
  obtain ⟨ident, lineage, logSize, logFD, indexID⟩ := book_iff.mp book
  refine ⟨⟨ident.trans caught.fresh.ident, ?_, .inl (logSize.trans caught.logSize), rel⟩,
    indexID.trans caught.indexID, logSize.trans caught.logSize, logFD ▸ caught.logFD⟩
  show fs'.lineage.lineage = _
  rw [lineage]
  exact caught.fresh.lineage

section

variable (locked : Locked T s others cur)

include locked

/-- A change in memory alone. -/
theorem Locked.touch (fs : FolderState) (book : fs.book = s.fs.book) (rel : T.Rel fs.toContent cur) :
    Locked T { s with fs := fs } others cur := by
  obtain ⟨b, l, folder, index, inv, caught⟩ := locked
  exact ⟨b, l, folder, index, inv, caught.of_book book rel⟩

theorem Locked.rel : T.Rel s.fs.toContent cur := by
  obtain ⟨_, _, _, _, _, caught⟩ := locked
  exact caught.fresh.rel

theorem Locked.settled (lawful : T.Lawful) (log : s.disk.log = some l) : T.Settled cur l.groups := by
  obtain ⟨_, l', folder, _, inv, _⟩ := locked
  cases folder.log.symm.trans log
  exact inv.settled lawful

/-- A handle that may adopt a base written now has everything in the log. -/
theorem Locked.caughtUp (lawful : T.Lawful) {h : FolderState}
    (other : h ∈ others) (l : LogFile) (log : s.disk.log = some l)
    (lineage : h.lineage.lineage = l.fileSeq) (size : l.size ≤ h.logSize) : T.Core h.toContent cur := by
  obtain ⟨_, l', folder, _, inv, _⟩ := locked
  cases folder.log.symm.trans log
  exact inv.core_of_caughtUp lawful (mem_map_of_mem other) lineage size

/-- The sidecar is no part of the pairing. -/
theorem Locked.appendName (uid : ℕ) (name : Bytes) (size : ℕ) :
    Locked T (s.appendName uid name size) others cur := by
  obtain ⟨b, l, folder, index, inv, caught⟩ := locked
  obtain ⟨content, book⟩ := appendName_fs uid name size s
  obtain ⟨base, log, ident⟩ := appendName_disk uid name size s
  exact ⟨b, l, folder.congr base log ident, index, inv, caught.of_book book (content ▸ caught.fresh.rel)⟩

end

/-- A handle that has read the log extends it. -/
theorem appendMutLog_eq (log : s.disk.log = some l) (logFD : s.fs.logFD = none ∨ s.fs.logFD = some l.ident)
    (read : s.fs.logSize = l.size) (fs : FolderState) (book : fs.book = s.fs.book) (group : Group) :
    Local.appendMutLog group { s with fs := fs } =
      { disk := { s.disk with log := some { l with groups := l.groups ++ [group] } }
        fs := { fs with logSize := l.size + groupSize group, logFD := some l.ident } } := by
  obtain ⟨_, _, logSize, sameFD, _⟩ := book_iff.mp book
  unfold Local.appendMutLog
  rw [← sameFD] at logFD
  rcases logFD with closed | opened
  · simp [closed, log, Local.mapFs]
  · simp [opened, log, logSize, read]

/-- What a group appended under the lock leaves of the log. -/
theorem Locked.appendMutLog_log (locked : Locked T s others cur) (log : s.disk.log = some l)
    (fs : FolderState) (book : fs.book = s.fs.book) (group : Group) :
    (Local.appendMutLog group { s with fs := fs }).disk.log =
      some { l with groups := l.groups ++ [group] } := by
  obtain ⟨_, l', folder, _, _, caught⟩ := locked
  cases folder.log.symm.trans log
  rw [appendMutLog_eq log caught.logFD caught.logSize fs book group]

/-- A change in memory, then a group appended to the log. -/
theorem Locked.appendMutLog (locked : Locked T s others cur) (fs : FolderState) {group : Group}
    (book : fs.book = s.fs.book) (ok : ∀ l, s.disk.log = some l → T.Ok cur l.groups group)
    (rel : T.Rel fs.toContent (T.advance cur group)) :
    Locked T (.appendMutLog group { s with fs := fs }) others (T.advance cur group) := by
  obtain ⟨b, l, folder, index, inv, caught⟩ := locked
  have size : l.size + groupSize group = groupFormat.extent (l.groups ++ [group]) := by
    rw [groupFormat.extent_append, LogFile.size_eq]
    simp [groupFormat]
  obtain ⟨inv', fresh⟩ := inv.commit caught.fresh (ok l folder.log) rel size
  rw [appendMutLog_eq folder.log caught.logFD caught.logSize fs book group]
  obtain ⟨ident, lineage, _, _, indexID⟩ := book_iff.mp book
  refine ⟨b, { l with groups := l.groups ++ [group] }, ?_, index, inv', ?_⟩
  · exact ⟨folder.base, rfl, folder.ident, folder.indexID, folder.seq, folder.lineage⟩
  · refine ⟨⟨ident.trans fresh.ident, ?_, .inl size, rel⟩, indexID.trans caught.indexID, size, .inr rfl⟩
    rw [lineage]
    exact caught.fresh.lineage

/-- The sidecar line may be written before the record goes into memory. -/
theorem flushAppend_eq (m : MessageMeta) (r : Record) (s : Local) : ∃ name size,
    (s.mapFs (·.addRecord m r)).flushAppend r =
        Local.appendMutLog (Local.appendGroup (s.fs.addRecord m r) r)
          ((s.appendName r.uid name size).mapFs (·.addRecord m r)) ∧
      ((s.appendName r.uid name size).fs.addRecord m r).toContent = (s.fs.addRecord m r).toContent ∧
      Local.appendGroup ((s.appendName r.uid name size).fs.addRecord m r) r =
        Local.appendGroup (s.fs.addRecord m r) r := by
  set name := mapGet [] (s.fs.addRecord m r).filenames r.uid
  set size := mapGet 0 (s.fs.addRecord m r).sizes r.uid
  obtain ⟨content, -⟩ := appendName_fs r.uid name size s
  have group : Local.appendGroup ((s.appendName r.uid name size).fs.addRecord m r) r =
      Local.appendGroup (s.fs.addRecord m r) r := by
    unfold Local.appendGroup addRecord
    rw [content]
  refine ⟨name, size, ?_, ?_, group⟩
  · unfold Local.flushAppend
    rw [show (s.mapFs (·.addRecord m r)).fs = s.fs.addRecord m r from rfl, appendName_addRecord, ← group]
    rfl
  · unfold addRecord
    rw [content]

theorem flushAppend_frame (m : MessageMeta) (r : Record) (s : Local) :
    ((s.mapFs (·.addRecord m r)).flushAppend r).fs.file.ext.lineage = s.fs.file.ext.lineage ∧
      ((s.mapFs (·.addRecord m r)).flushAppend r).fs.lineage = s.fs.lineage := by
  obtain ⟨name, size, written, added, -⟩ := flushAppend_eq m r s
  obtain ⟨-, book⟩ := appendName_fs r.uid name size s
  rw [written]
  obtain ⟨content, lineage⟩ := appendMutLog_fs (Local.appendGroup (s.fs.addRecord m r) r)
    ((s.appendName r.uid name size).mapFs (·.addRecord m r))
  refine ⟨?_, lineage.trans (Prod.mk.inj (Prod.mk.inj book).2).1⟩
  rw [content]
  exact congrArg (·.file.ext.lineage) added

/-- A record goes into memory, its name into the sidecar and its group into the log. -/
theorem Locked.flushAppend (locked : Locked T s others cur) (m : MessageMeta) (r : Record)
    (ok : ∀ l, s.disk.log = some l → T.Ok cur l.groups (Local.appendGroup (s.fs.addRecord m r) r))
    (rel : T.Rel (s.fs.addRecord m r).toContent
      (T.advance cur (Local.appendGroup (s.fs.addRecord m r) r))) :
    Locked T ((s.mapFs (·.addRecord m r)).flushAppend r) others
      (T.advance cur (Local.appendGroup (s.fs.addRecord m r) r)) := by
  obtain ⟨name, size, written, content, -⟩ := flushAppend_eq m r s
  rw [written]
  exact (locked.appendName r.uid name size).appendMutLog _ rfl
    (fun l logged => ok l ((appendName_disk r.uid name size s).2.1 ▸ logged)) (content ▸ rel)

theorem Locked.flushAppend_log (locked : Locked T s others cur) (log : s.disk.log = some l)
    (m : MessageMeta) (r : Record) :
    ((s.mapFs (·.addRecord m r)).flushAppend r).disk.log =
      some { l with groups := l.groups ++ [Local.appendGroup (s.fs.addRecord m r) r] } := by
  obtain ⟨name, size, written, -⟩ := flushAppend_eq m r s
  rw [written]
  exact (locked.appendName r.uid name size).appendMutLog_log ((appendName_disk ..).2.1.trans log)
    ((s.appendName r.uid name size).fs.addRecord m r) rfl _

section Flush

theorem flush_essence (s : Local) : (s.flush false).fs.toContent.essence = s.fs.toContent.essence := rfl

/-- What a reader of the new base sees of it, whatever registry it starts with. -/
theorem flush_stored_essence (s : Local) (registry : Registry) :
    Content.essence { file := (s.flush false).fs.file.stored, keywords := registry } =
      Content.essence { s.fs.toContent with keywords := registry } := by
  have records : ((s.flush false).fs.file.records.map Record.stored).map Record.stored =
      s.fs.file.records.map Record.stored := by
    rw [map_map]
    rfl
  unfold Content.essence File.stored
  rw [records]
  rfl

theorem flush_minted {s : Local} (mayFlush : s.fs.MayFlush 1) : (s.flush false).fs.lineage.lineage =
    max (s.fs.lineage.lineage + 1) (legacyLogLineage + 1) := by
  have minted : (s.flush false).fs.lineage.lineage =
      max (u32 ((readLineage s.fs.file).lineage + 1)) (legacyLogLineage + 1) := rfl
  rw [minted, mayFlush.1, u32, Nat.mod_eq_of_lt mayFlush.2]

theorem flush_lineage {s : Local} (log : s.disk.log = some l) (seq : l.fileSeq ≠ lineageUnknown)
    (mayFlush : s.fs.MayFlush 1) :
    s.fs.lineage.lineage < (s.flush false).fs.lineage.lineage ∧
      (s.flush false).fs.lineage.foldedLineage = l.fileSeq ∧
      (s.flush false).fs.lineage.foldedOffset = s.fs.logSize := by
  have minted := flush_minted mayFlush
  have absorbed : (s.flush false).fs.lineage.foldedLineage =
      if logLineage s.disk.log = lineageUnknown then (readLineage s.fs.file).lineage
      else logLineage s.disk.log := rfl
  refine ⟨by omega, ?_, rfl⟩
  rw [absorbed, log]
  exact if_neg seq

/-- A handle that has rewritten the base may do it again. -/
theorem flush_mayFlush {s : Local} (mayFlush : s.fs.MayFlush 2) : (s.flush false).fs.MayFlush 1 := by
  have room := mayFlush.2
  refine ⟨rfl, ?_⟩
  rw [flush_minted mayFlush.one]
  simp only [legacyLogLineage]
  omega

/-- The names file is no part of the pairing. -/
theorem Locked.saveNames (locked : Locked T s others cur) : Locked T s.saveNames others cur := by
  obtain ⟨b, l, folder, index, inv, caught⟩ := locked
  exact ⟨b, l, folder.congr rfl rfl (Nat.le_succ _), index, inv, caught.of_book rfl caught.fresh.rel⟩

/-- A change in memory, then the base rewritten. The log stays, so it has to be harmless over the
new base, and a handle that may adopt the new base has to agree with it. -/
theorem Locked.flush (stable : Stable T) (locked : Locked T s others cur) (fs : FolderState)
    (book : fs.book = s.fs.book) (mayFlush : fs.MayFlush 1) (rel : T.Rel fs.toContent g)
    (relBase : T.Rel { fs.toContent with keywords := fs.file.ext.keywords } g)
    (settled : ∀ l, s.disk.log = some l → T.Settled g l.groups)
    (caughtUp : ∀ h ∈ others, ∀ l, s.disk.log = some l → h.lineage.lineage = l.fileSeq →
      l.size ≤ h.logSize → T.Core h.toContent g)
    (wholeNames : Bool) : Locked T (Local.flush wholeNames { s with fs := fs }) others g := by
  suffices locked : Locked T (.flush false { s with fs := fs }) others g by
    cases wholeNames with
    | false => exact locked
    | true => exact locked.saveNames
  obtain ⟨b, l, folder, index, inv, caught⟩ := locked
  obtain ⟨ident, lineage, logSize, logFD, indexID⟩ := book_iff.mp book
  obtain ⟨newer, absorbed, offset⟩ :=
    flush_lineage (s := { s with fs := fs }) folder.log folder.seq mayFlush
  have size : fs.logSize = l.size := logSize.trans caught.logSize
  have older : fs.lineage.lineage = (readLineage b.file).lineage := by
    rw [lineage]; exact caught.fresh.lineage
  set s' := Local.flush false { s with fs := fs } with flushed
  let b' : BaseFile := { ident := s.disk.nextIdent, file := s'.fs.file.stored }
  have below : (readLineage b.file).lineage < s'.fs.lineage.lineage := older ▸ newer
  have inv' : Journal.Inv T groupFormat b'.toBase l.toLog (others.map toHandle) g := by
    refine inv.rebase folder.ident below ?_ absorbed (offset.trans size) (settled l folder.log) ?_
    · exact stable (flush_stored_essence { s with fs := fs } _).symm relBase
    · rintro h member same caughtUp'
      obtain ⟨h, other, rfl⟩ := mem_map.mp member
      exact caughtUp h other l folder.log same caughtUp'
  have sameIndex : s'.fs.file.header.indexID = b.file.header.indexID := indexID.trans caught.indexID
  refine ⟨b', l, ⟨rfl, folder.log, Nat.lt_succ_self _, ?_, folder.seq, ?_⟩, ?_, inv', ?_⟩
  · exact folder.indexID.trans sameIndex.symm
  · exact Nat.ne_of_gt (Nat.lt_of_le_of_lt (Nat.zero_le _) below)
  · exact fun fs member => (index fs member).trans sameIndex.symm
  · exact ⟨⟨rfl, rfl, .inl size, stable (flush_essence { s with fs := fs }).symm rel⟩, rfl, size,
      logFD ▸ caught.logFD⟩

/-- A new log under a base just written: the handle starts over at its beginning. -/
theorem truncateLog_tracked (lawful : T.Lawful) {s : Local} (base : s.disk.base = some b)
    (ident : b.ident < s.disk.nextIdent) (known : (readLineage b.file).lineage ≠ lineageUnknown)
    (baseIdent : s.fs.baseIdent = b.ident) (lineage : s.fs.lineage = readLineage b.file)
    (index : s.fs.file.header.indexID = b.file.header.indexID)
    (indexes : ∀ fs ∈ handles.eraseIdx i, fs.file.header.indexID = b.file.header.indexID)
    (inv : Journal.Inv T groupFormat b.toBase ⟨b.toBase.lineage,
      []⟩ ((handles.eraseIdx i).map FolderState.toHandle) cur) (rel : T.Rel s.fs.toContent cur) :
    Tracked T s.truncateLog.disk (handles.set i s.truncateLog.fs) cur := by
  let l : LogFile := {
    ident := s.disk.nextIdent
    indexID := s.fs.file.header.indexID
    fileSeq := s.fs.lineage.lineage
    groups := [] }
  have seq : l.toLog = ⟨b.toBase.lineage, []⟩ := by
    show (⟨s.fs.lineage.lineage, []⟩ : Journal.Log Group) = _
    rw [lineage]
    rfl
  have current : Journal.Current T groupFormat b.toBase l.toLog cur s.truncateLog.fs.toHandle := by
    refine ⟨baseIdent, ?_, [], [], rfl, .inr ⟨rfl, rfl⟩, .of_rel lawful rel _⟩
    show s.fs.lineage.lineage = _
    rw [lineage]
    rfl
  refine ⟨b, l, ⟨base, rfl, Nat.lt_succ_of_lt ident, index, ?_, known⟩,
    forall_mem_set indexes index, ?_⟩
  · show s.fs.lineage.lineage ≠ _
    rw [lineage]
    exact known
  · rw [seq] at current ⊢
    refine inv.of_mem (forall_mem_map.mpr ?_)
    exact forall_mem_set (fun _ other => .inl (mem_map_of_mem other)) (.inr current)

theorem stampExpungeFloor_frame (fs : FolderState) : fs.stampExpungeFloor.file.header = fs.file.header ∧
      fs.stampExpungeFloor.file.records = fs.file.records ∧
      fs.stampExpungeFloor.file.ext.highestModSeq = fs.file.ext.highestModSeq ∧
      fs.stampExpungeFloor.file.ext.lineage = fs.file.ext.lineage ∧
      fs.stampExpungeFloor.file.ext.keywords = fs.file.ext.keywords := by
  unfold stampExpungeFloor mapFile
  dsimp only
  split <;> exact ⟨rfl, rfl, rfl, rfl, rfl⟩

/-- A change in memory, then the log folded into a new base. -/
theorem Locked.compact (lawful : T.Lawful) (stable : Stable T)
    (locked : Locked T s (handles.eraseIdx i) cur) (fs : FolderState) (book : fs.book = s.fs.book)
    (mayFlush : fs.MayFlush 1) (rel : T.Rel fs.stampExpungeFloor.toContent g)
    (relBase : T.Rel { fs.stampExpungeFloor.toContent with keywords := fs.file.ext.keywords } g)
    (settled : T.Settled g [])
    (caughtUp : ∀ h ∈ handles.eraseIdx i, ∀ l, s.disk.log = some l → h.lineage.lineage = l.fileSeq →
      l.size ≤ h.logSize → T.Core h.toContent g)
    (wholeNames : Bool) :
    Tracked T (Local.compact wholeNames { s with fs := fs }).disk
      (handles.set i (Local.compact wholeNames { s with fs := fs }).fs) g := by
  obtain ⟨b, l, folder, index, inv, caught⟩ := locked
  obtain ⟨ident, lineage, logSize, logFD, indexID⟩ := book_iff.mp book
  obtain ⟨-, -, -, file, keywords⟩ := stampExpungeFloor_frame fs
  rw [← keywords] at relBase
  obtain ⟨newer, absorbed, offset⟩ :=
    flush_lineage (s := { s with fs := fs.stampExpungeFloor }) folder.log folder.seq (mayFlush.congr file rfl)
  have older : fs.lineage.lineage = (readLineage b.file).lineage := by
    rw [lineage]; exact caught.fresh.lineage
  set s' := Local.flush false { s with fs := fs.stampExpungeFloor } with flushed
  let b' : BaseFile := { ident := s.disk.nextIdent, file := s'.fs.file.stored }
  have below : (readLineage b.file).lineage < s'.fs.lineage.lineage := older ▸ newer
  have sameIndex : s'.fs.file.header.indexID = b.file.header.indexID := indexID.trans caught.indexID
  have folded : s'.fs.lineage.foldedLineage < s'.fs.lineage.lineage := by
    obtain ⟨_, pre, _, paired, _⟩ := inv
    have le : l.fileSeq ≤ (readLineage b.file).lineage := by
      rcases paired.start with ⟨seq, _⟩ | ⟨_, below, _⟩
      · exact seq.le
      · exact Nat.le_of_lt below
    rw [absorbed]
    omega
  have inv' : Journal.Inv T groupFormat b'.toBase ⟨b'.toBase.lineage, []⟩
      ((handles.eraseIdx i).map toHandle) g := by
    refine inv.fold folder.ident below ?_ folded settled ?_
    · exact stable (flush_stored_essence { s with fs := fs.stampExpungeFloor } _).symm relBase
    · rintro h member same read
      obtain ⟨h, other, rfl⟩ := mem_map.mp member
      refine caughtUp h other l folder.log (same.trans absorbed) ?_
      rw [← caught.logSize, ← logSize]
      exact read
  have rel' : T.Rel s'.fs.toContent g :=
    stable (flush_essence { s with fs := fs.stampExpungeFloor }).symm rel
  have known : s'.fs.lineage.lineage ≠ lineageUnknown :=
    Nat.ne_of_gt (Nat.lt_of_le_of_lt (Nat.zero_le _) below)
  have indexes : ∀ fs ∈ handles.eraseIdx i, fs.file.header.indexID = s'.fs.file.header.indexID :=
    fun fs member => (index fs member).trans sameIndex.symm
  cases wholeNames with
  | false =>
    exact truncateLog_tracked (s := s') (b := b') lawful rfl (Nat.lt_succ_self _) known rfl rfl rfl
      indexes inv' rel'
  | true =>
    refine truncateLog_tracked (s := s'.saveNames) (b := b') lawful rfl ?_ known rfl rfl rfl indexes
      inv' rel'
    show s.disk.nextIdent < s.disk.nextIdent + 1 + 1
    omega

end Flush

section Open

theorem ensureVsize_book (fs : FolderState) :
    fs.ensureVsize.book = fs.book ∧ fs.ensureVsize.toContent = fs.toContent := by
  unfold ensureVsize
  split <;> exact ⟨rfl, rfl⟩

variable {disk disk' : Disk}

/-- A fresh open replays the whole log over the base with an empty registry, then takes the
registry and the aggregate the file carries by then. It fails only when the replay is refused. -/
theorem openFolder_cases (base : disk.base = some b) (log : disk.log = some l)
    (indexID : l.indexID = b.file.header.indexID) :
    replayGroups { file := b.file, keywords := [] } l.groups = none ∧
        openFolder disk = (.error .keywordRegistryFull, disk) ∨
      ∃ c, ∃ fs : FolderState, replayGroups { file := b.file, keywords := [] } l.groups = some c ∧
        fs.toContent = { c with keywords := c.file.ext.keywords } ∧ fs.vsize = c.file.ext.hdrVsize ∧
        fs.book = (b.ident, readLineage b.file, l.size, none, b.file.header.indexID) ∧
        openFolder disk = (.ok fs.ensureVsize, disk) := by
  obtain ⟨filenames, sizes, applied⟩ := applyLogFrom_eq disk l (unread disk b) 0
  have mine : ¬l.indexID ≠ (unread disk b).file.header.indexID := fun other => other indexID
  rw [groupsFrom_zero] at applied
  unfold openFolder replayGroups
  rw [base]
  rw [log]
  dsimp only
  rw [if_neg mine, applied]
  have confirmed : (if l.groups = [] then max 0 logHeaderSize else l.size) = l.size := by
    split
    · rename_i empty
      rw [LogFile.size_eq, empty]
      rfl
    · rfl
  have replayedID := replay_indexID (unread disk b).toContent l.groups
  rw [show ({ file := b.file, keywords := [] } : Content) = (unread disk b).toContent from rfl]
  cases replayed : (unread disk b).toContent.replay l.groups with
  | mk c ok =>
    rw [replayed] at replayedID
    cases ok with
    | false => exact .inl ⟨rfl, rfl⟩
    | true =>
      refine .inr ⟨c, { unread disk b with
        toContent := { c with keywords := c.file.ext.keywords }
        filenames := filenames
        sizes := sizes
        logSize := l.size
        vsize := c.file.ext.hdrVsize }, rfl, rfl, rfl, ?_, ?_⟩
      · have same : c.file.header.indexID = b.file.header.indexID := replayedID
        rw [← same]
        rfl
      · rw [if_pos rfl, confirmed]
        dsimp only [Local.ensureLogStub]
        rw [if_pos (by rw [log]; rfl)]

theorem openFolder_eq (folder : Folder disk b l) (opened : openFolder disk = (.ok fs, disk')) :
    disk' = disk ∧ ∃ c, replayGroups { file := b.file, keywords := [] } l.groups = some c ∧
      fs.toContent = { c with keywords := c.file.ext.keywords } ∧
      fs.book = (b.ident, readLineage b.file, l.size, none, b.file.header.indexID) := by
  rcases openFolder_cases folder.base folder.log folder.indexID with
    ⟨_, done⟩ | ⟨c, old, replayed, content, _, book, done⟩ <;> cases done.symm.trans opened
  obtain ⟨sameBook, sameContent⟩ := ensureVsize_book old
  exact ⟨rfl, c, replayed, sameContent.trans content, sameBook.trans book⟩

theorem openFolder_error {e : Err} (folder : Folder disk b l)
    (failed : openFolder disk = (.error e, disk')) : disk' = disk ∧
      replayGroups { file := b.file, keywords := [] } l.groups = none := by
  rcases openFolder_cases folder.base folder.log folder.indexID with
    ⟨refused, done⟩ | ⟨_, _, _, _, _, _, done⟩ <;> cases done.symm.trans failed
  exact ⟨rfl, refused⟩

theorem openFolder_tracked (lawful : T.Lawful) (replay : T.replay = replayGroups)
    (names : ∀ (c : Content) registry g, T.Rel c g → T.Rel { c with keywords := registry } g)
    (tracked : Tracked T disk handles cur) (opened : openFolder disk = (.ok fs, disk')) :
    disk' = disk ∧ T.Rel fs.toContent cur ∧ Tracked T disk (handles ++ [fs]) cur := by
  obtain ⟨b, l, folder, index, inv⟩ := tracked
  obtain ⟨rfl, c, replayed, content, book⟩ := openFolder_eq folder opened
  simp only [FolderState.book, Prod.mk.injEq] at book
  obtain ⟨ident, lineage, logSize, logFD, indexID⟩ := book
  have whole : T.Rel c cur := inv.rel_whole lawful (names b.content []) (replay ▸ replayed)
  have rel : T.Rel fs.toContent cur := content ▸ names c _ cur whole
  have fresh : Journal.Fresh T groupFormat b.toBase l.toLog cur fs.toHandle :=
    ⟨ident, congrArg LineageHdr.lineage lineage, .inl logSize, rel⟩
  refine ⟨rfl, rel, b, l, folder, forall_mem_concat index indexID, inv.of_mem ?_⟩
  rw [map_append]
  exact forall_mem_concat (fun _ old => .inl old) (.inr (fresh.current lawful))

end Open

section Runs

variable {sys : Sys}

section

variable (lawful : T.Lawful) (replay : T.replay = replayGroups)
  (tracked : Tracked T sys.disk sys.handles cur)
  (adopts : ∀ fs b, sys.handles[i]? = some fs → sys.disk.base = some b →
    Local.Adopts { disk := sys.disk, fs := fs } b → ∀ g, T.Core fs.toContent g → T.Rel b.content g →
    T.Rel { fs.toContent with keywords := b.file.ext.keywords } g)

include lawful replay tracked adopts

/-- A handle that reloads leaves the files alone and is good for the truth. -/
theorem Tracked.locked (locked : sys.locked i = some s) :
    s.disk = sys.disk ∧ Locked T s (sys.handles.eraseIdx i) cur := by
  obtain ⟨fs, handle, reloaded⟩ := Sys.locked_eq_some locked
  rcases reload_spec lawful replay tracked handle (fun b => adopts fs b handle) with
    ⟨fs', result, state⟩ | ⟨e, fs', result, _⟩ <;> cases reloaded.symm.trans result
  exact ⟨rfl, state⟩

/-- An operation either leaves everything tracked without running its body, or runs its body on a
handle that has caught up. -/
theorem Tracked.step_op (op : Op) :
    (Tracked T (sys.step (.op i op)).2.disk (sys.step (.op i op)).2.handles cur ∧
        (sys.step (.op i op)).2.disk = sys.disk ∧
        ((∃ e, (sys.step (.op i op)).1 = .error e) ∨ op.unlocked = some (sys.step (.op i op)).1)) ∨
      ∃ s, sys.locked i = some s ∧ op.unlocked = none ∧ Locked T s (sys.handles.eraseIdx i) cur ∧
        sys.step (.op i op) = ((op.body s).1,
          { disk := (op.body s).2.disk, handles := sys.handles.set i (op.body s).2.fs }) := by
  rcases sys.step_op_cases i op with
    ⟨answer, step, idle⟩ | ⟨fs, e, s, handle, failed, step⟩ | ⟨s, locked, unlocked, step⟩
  · rw [step]
    refine .inl ⟨tracked, rfl, ?_⟩
    rcases idle with ⟨_, rfl⟩ | unlocked
    · exact .inl ⟨_, rfl⟩
    · exact .inr unlocked
  · rcases reload_spec lawful replay tracked handle (fun b => adopts fs b handle) with
      ⟨fs', result, _⟩ | ⟨e', fs', result, tracked'⟩ <;> cases failed.symm.trans result
    rw [step]
    exact .inl ⟨tracked', rfl, .inl ⟨e, rfl⟩⟩
  · exact .inr ⟨s, locked, unlocked, (tracked.locked lawful replay adopts locked).2, step⟩

end

/-- A fresh open adds a handle that is good for the truth, or changes nothing. -/
theorem Tracked.step_open (lawful : T.Lawful) (replay : T.replay = replayGroups)
    (names : ∀ (c : Content) registry g, T.Rel c g → T.Rel { c with keywords := registry } g)
    (tracked : Tracked T sys.disk sys.handles cur) :
    Tracked T (sys.step .openFolder).2.disk (sys.step .openFolder).2.handles cur ∧
      (sys.step .openFolder).2.disk = sys.disk ∧
      ((∃ e, (sys.step .openFolder).1 = .error e) ∨
        ∃ fs, (sys.step .openFolder).2.handles.getLast? = some fs ∧ T.Rel fs.toContent cur) := by
  simp only [Sys.step]
  cases opened : openFolder sys.disk with
  | mk result disk =>
    cases result with
    | ok fs =>
      obtain ⟨rfl, rel, next⟩ := openFolder_tracked lawful replay names tracked opened
      exact ⟨next, rfl, .inr ⟨fs, by simp, rel⟩⟩
    | error e =>
      obtain ⟨b, l, folder, _⟩ := id tracked
      obtain ⟨rfl, -⟩ := openFolder_error folder opened
      exact ⟨tracked, rfl, .inl ⟨e, rfl⟩⟩

/-- The folder just created, whatever the theory says about an empty content. -/
theorem init_tracked (lawful : T.Lawful) (uidValidity indexID : ℕ)
    (rel : ∀ c, c.file.header.nextUID = 1 → c.file.ext.highestModSeq = 1 →
      c.file.records = [] → c.file.ext.keywords = [] → c.keywords = [] →
      c.file.ext.expungeFloor = none → T.Rel c cur) (settled : T.Settled cur []) :
    Tracked T (Sys.init uidValidity indexID).disk (Sys.init uidValidity indexID).handles cur := by
  let s := (createFresh uidValidity indexID)
  let b : BaseFile := { ident := 1, file := s.fs.file.stored }
  let l : LogFile := { ident := 3, indexID := indexID, fileSeq := 2, groups := [] }
  have good : T.Rel s.fs.toContent cur := rel _ rfl rfl rfl rfl rfl rfl
  have current : Journal.Current T groupFormat b.toBase l.toLog cur s.fs.toHandle :=
    ⟨rfl, rfl, [], [], rfl, .inr ⟨rfl, rfl⟩, .of_rel lawful good _⟩
  have known : (2 : ℕ) ≠ lineageUnknown := by decide
  have ident : 1 < 4 := by decide
  have folded : 0 < 2 := by decide
  refine ⟨b, l, ⟨rfl, rfl, ident, rfl, known, known⟩, forall_mem_singleton.mpr rfl, cur, [], [], ?_,
    forall_mem_singleton.mpr (.inl current)⟩
  exact {
    entries := rfl
    cur := rfl
    start := .inl ⟨rfl, rfl⟩
    rel := rel _ rfl rfl rfl rfl rfl rfl
    settled := settled
    run := trivial
    folded := folded }

end Runs

end Yarilo.FileIndex

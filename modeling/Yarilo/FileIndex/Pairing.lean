import Yarilo.FileIndex.Replay
import Yarilo.FileIndex.System
import Yarilo.Library.Journal

/-! # The folder index as a journal

The folder's base, log and handles instantiate the snapshot-and-log library. `Folder` says what
holds of the files alone, `Tracked` adds the library's pairing invariant for every handle, and
`Locked` is the state inside an operation, after its reload. The lemmas here say what each primitive
of an operation does to `Locked`, for any theory of the folder's content.
-/

namespace Yarilo.FileIndex

open Library MailIndex List Local

theorem groupSize_pos (g : Group) : 0 < groupSize g := by
  unfold groupSize boundarySize; omega

def groupFormat : Journal.Format Group where
  header := logHeaderSize
  width := groupSize
  header_pos := by decide
  width_pos := groupSize_pos

theorem LogFile.size_eq (log : LogFile) : log.size = groupFormat.extent log.groups := rfl

/-- Replays groups; `none` when a record was refused. -/
def replayGroups (c : Content) (groups : List Group) : Option Content :=
  match c.replay groups with
  | (c, true) => some c
  | (_, false) => none

variable {c c' : Content} {groups done rest : List Group} {i : ℕ}

theorem replayGroups_eq_some (replayed : replayGroups c groups = some c') :
    ∃ s, applyTxs c.startReplay groups.flatten = (s, true) ∧ c' = s.finish := by
  unfold replayGroups Content.replay at replayed
  cases applied : applyTxs c.startReplay groups.flatten with
  | mk s ok =>
    rw [applied] at replayed
    cases ok with
    | true => exact ⟨s, rfl, (Option.some.inj replayed).symm⟩
    | false => cases replayed

def BaseFile.content (b : BaseFile) : Content := { file := b.file, keywords := b.file.ext.keywords }

def BaseFile.toBase (b : BaseFile) : Journal.Base Content where
  ident := b.ident
  val := b.content
  lineage := (readLineage b.file).lineage
  folded := (readLineage b.file).foldedLineage
  foldedOffset := (readLineage b.file).foldedOffset

def LogFile.toLog (l : LogFile) : Journal.Log Group := ⟨l.fileSeq, l.groups⟩

def FolderState.toHandle (fs : FolderState) : Journal.Handle Content where
  val := fs.toContent
  ident := fs.baseIdent
  lineage := fs.lineage.lineage
  pos := fs.logSize

/-- What holds of a folder's files: both are there and belong together. -/
structure Folder (disk : Disk) (b : BaseFile) (l : LogFile) : Prop where
  base : disk.base = some b
  log : disk.log = some l
  ident : b.ident < disk.nextIdent
  indexID : l.indexID = b.file.header.indexID
  seq : l.fileSeq ≠ lineageUnknown
  lineage : (readLineage b.file).lineage ≠ lineageUnknown

variable {γ : Type} {T : Journal.Theory Content Group γ}

/-- The files and every handle agree with the truth `cur`. -/
def Tracked (T : Journal.Theory Content Group γ) (disk : Disk) (handles : List FolderState)
    (cur : γ) : Prop :=
  ∃ b l, Folder disk b l ∧ (∀ fs ∈ handles, fs.file.header.indexID = b.file.header.indexID) ∧
    Journal.Inv T groupFormat b.toBase l.toLog (handles.map FolderState.toHandle) cur

/-- An operation's handle after the reload: it has applied the whole log `l` to the base `b`. -/
structure Caught (T : Journal.Theory Content Group γ) (b : BaseFile) (l : LogFile) (cur : γ)
    (fs : FolderState) : Prop where
  fresh : Journal.Fresh T groupFormat b.toBase l.toLog cur fs.toHandle
  indexID : fs.file.header.indexID = b.file.header.indexID
  logSize : fs.logSize = l.size
  logFD : fs.logFD = none ∨ fs.logFD = some l.ident

/-- The state inside an operation: the other handles are tracked, the operation's own has caught up. -/
def Locked (T : Journal.Theory Content Group γ) (s : Local) (others : List FolderState) (cur : γ) : Prop :=
  ∃ b l, Folder s.disk b l ∧ (∀ fs ∈ others, fs.file.header.indexID = b.file.header.indexID) ∧
    Journal.Inv T groupFormat b.toBase l.toLog (others.map FolderState.toHandle) cur ∧
    Caught T b l cur s.fs

/-- What holds of the other entries and of the new one, in a list with one entry replaced. -/
theorem forall_mem_set {α : Type} {P : α → Prop} {l : List α} {a : α} (old : ∀ x ∈ l.eraseIdx i, P x)
    (new : P a) : ∀ x ∈ l.set i a, P x := by
  intro x member
  obtain ⟨j, inside, rfl⟩ := mem_iff_getElem.mp member
  grind [mem_eraseIdx_iff_getElem]

section Files

theorem groupsFrom_zero (pos : ℕ) (groups : List Group) : groupsFrom 0 pos groups = groups := by
  cases groups <;> simp [groupsFrom]

variable {off pos : ℕ}

theorem groupsFrom_of_le (groups : List Group) (le : off ≤ pos) : groupsFrom off pos groups = groups := by
  cases groups <;> simp [groupsFrom, le]

theorem groupsFrom_append (pos : ℕ) (done rest : List Group) :
    groupsFrom (pos + (done.map groupSize).sum) pos (done ++ rest) = rest := by
  induction done generalizing pos with
  | nil => exact groupsFrom_of_le _ (by simp)
  | cons g done ih =>
    have width := groupSize_pos g
    have step := ih (pos + groupSize g)
    rw [cons_append, groupsFrom, if_neg (by simp; omega)]
    rw [map_cons, sum_cons, ← Nat.add_assoc]
    exact step

/-- The groups behind a handle's offset are those it has not applied. -/
theorem groupsFrom_at (place : groupFormat.At pos done) :
    groupsFrom pos logHeaderSize (done ++ rest) = rest := by
  rcases place with rfl | ⟨rfl, rfl⟩
  · exact groupsFrom_append logHeaderSize done rest
  · exact groupsFrom_zero _ _

theorem groupsFrom_suffix (off pos : ℕ) (groups : List Group) : groupsFrom off pos groups <:+ groups := by
  induction groups generalizing pos with
  | nil => exact suffix_refl _
  | cons g rest ih =>
    rw [groupsFrom]
    split
    · exact suffix_refl _
    · exact (ih (pos + groupSize g)).trans (suffix_cons g rest)

/-- The log records behind an offset. -/
def Disk.tail (disk : Disk) (off : ℕ) : List TxRecord :=
  (groupsFrom off logHeaderSize ((disk.log.map (·.groups)).getD [])).flatten

theorem replay_indexID (c : Content) (groups : List Group) :
    (c.replay groups).1.file.header.indexID = c.file.header.indexID := by
  have fixed := applyTxs_fixed c.startReplay groups.flatten
  have same : (applyTxs c.startReplay groups.flatten).1.file.header.indexID =
      c.file.header.indexID := (Prod.mk.inj fixed).1
  unfold Content.replay
  split <;> (rename_i replayed; rw [replayed] at same; exact same)

/-- A refused replay is refused again, whatever was appended meanwhile. -/
theorem replayGroups_refused (refused : c.replay groups = (c', false)) (more : List Group) :
    replayGroups c' (groups ++ more) = none := by
  unfold Content.replay at refused
  split at refused
  · cases refused
  rename_i t stopped
  cases refused
  have again := applyTxs_refused_again (t := t.toContent.startReplay) more.flatten
    (by rw [stopped]) (by rw [stopped]; rfl)
  unfold replayGroups Content.replay
  rw [flatten_append]
  split
  · rename_i replayed
    split at replayed
    · rename_i replayed'
      rw [replayed'] at again
      cases again
    · cases replayed
  · rfl

end Files

section Reload

/-- A replay moves the content and, when messages arrived, the sidecar maps; nothing else. -/
theorem applyLogFrom_eq (disk : Disk) (log : LogFile) (fs : FolderState) (off : ℕ) :
    ∃ filenames sizes, applyLogFrom disk log fs off = ({ fs with
          toContent := (fs.toContent.replay (groupsFrom off logHeaderSize log.groups)).1
          filenames := filenames
          sizes := sizes },
        if (fs.toContent.replay (groupsFrom off logHeaderSize log.groups)).2 then
          some (if groupsFrom off logHeaderSize log.groups = [] then max off logHeaderSize
            else log.size)
        else none) := by
  unfold applyLogFrom
  dsimp only
  split
  · split
    · exact ⟨_, _, rfl⟩
    · exact ⟨fs.filenames, fs.sizes, rfl⟩
  · exact ⟨fs.filenames, fs.sizes, rfl⟩

/-- Folding in the tail finds nothing new, replaces the log of another mailbox, or replays. -/
theorem Local.applyLogTail_cases (s : Local) :
    ((∀ l, s.disk.log = some l → l.size ≤ s.fs.logSize) ∧ s.applyLogTail = (.ok (), s)) ∨
      ∃ l groups, s.disk.log = some l ∧ s.fs.logSize < l.size ∧
        groupsFrom s.fs.logSize logHeaderSize l.groups = groups ∧
        (l.indexID ≠ s.fs.file.header.indexID ∧ s.applyLogTail = (.ok (),
            { disk := ((s.mapFs (·.stampExpungeFloor)).flush false).truncateLog.disk
              fs := { ((s.mapFs (·.stampExpungeFloor)).flush false).fs with logSize := 0 } }) ∨
          l.indexID = s.fs.file.header.indexID ∧ ∃ c filenames sizes,
            (s.fs.toContent.replay groups = (c, true) ∧
                s.applyLogTail = (.ok (), { s with fs := { s.fs with
                  toContent := c, filenames := filenames, sizes := sizes
                  logSize := if groups = [] then max s.fs.logSize logHeaderSize else l.size } }) ∨
              s.fs.toContent.replay groups = (c, false) ∧
                s.applyLogTail = (.error .keywordRegistryFull, { s with fs := { s.fs with
                  toContent := c, filenames := filenames, sizes := sizes } }))) := by
  unfold applyLogTail
  cases log : s.disk.log with
  | none => exact .inl ⟨fun _ => nofun, rfl⟩
  | some l =>
    dsimp only
    split
    · rename_i short
      exact .inl ⟨fun _ same => Option.some.inj same ▸ short, rfl⟩
    refine .inr ⟨l, _, rfl, not_le.mp ‹_›, rfl, ?_⟩
    split
    · exact .inl ⟨‹_›, rfl⟩
    refine .inr ⟨not_not.mp ‹_›, ?_⟩
    obtain ⟨filenames, sizes, replayed⟩ := applyLogFrom_eq s.disk l s.fs s.fs.logSize
    rw [replayed]
    rcases s.fs.toContent.replay (groupsFrom s.fs.logSize logHeaderSize l.groups) with ⟨c, _ | _⟩
    · exact ⟨c, filenames, sizes, .inr ⟨rfl, rfl⟩⟩
    · exact ⟨c, filenames, sizes, .inl ⟨rfl, rfl⟩⟩

/-- What a reload leaves: the operation's handle caught up, or still tracked after a refused
record. The files stay as they are. -/
def Reloaded (T : Journal.Theory Content Group γ) (disk : Disk) (b : BaseFile) (l : LogFile)
    (cur : γ) (result : Except Err Unit × Local) : Prop :=
  (∃ fs, result = (.ok (), { disk := disk, fs := fs }) ∧ Caught T b l cur fs) ∨
    ∃ e fs, result = (.error e, { disk := disk, fs := fs }) ∧
      fs.file.header.indexID = b.file.header.indexID ∧
      Journal.Current T groupFormat b.toBase l.toLog cur fs.toHandle

variable {s : Local} {b : BaseFile} {l : LogFile} {cur : γ} {disk : Disk} {fs : FolderState}
  {handles : List (Journal.Handle Content)}

theorem logFD_of_unreplaced (log : s.disk.log = some l)
    (unreplaced : s.logReplaced = false) : s.fs.logFD = none ∨ s.fs.logFD = some l.ident := by
  unfold logReplaced at unreplaced
  rw [log] at unreplaced
  cases fd : s.fs.logFD with
  | none => exact .inl rfl
  | some ident =>
    rw [fd] at unreplaced
    right
    simpa using unreplaced

/-- Replaying the tail leaves a handle caught up, or stuck at a record it will refuse again. -/
theorem applyLogTail_spec (lawful : T.Lawful) (replay : T.replay = replayGroups)
    (folder : Folder s.disk b l) (index : s.fs.file.header.indexID = b.file.header.indexID)
    (ident : s.fs.baseIdent = b.ident) (lineage : s.fs.lineage.lineage = (readLineage b.file).lineage)
    (kept : s.logReplaced = false) (cut : l.groups = done ++ rest) (place : groupFormat.At s.fs.logSize done)
    (rel : ∀ c, replayGroups s.fs.toContent rest = some c → T.Rel c cur) :
    Reloaded T s.disk b l cur s.applyLogTail := by
  have logFD := logFD_of_unreplaced folder.log kept
  have indexID := (replay_indexID s.fs.toContent rest).trans index
  rcases s.applyLogTail_cases with ⟨short, result⟩ | ⟨l', _, log, longer, rfl, ⟨other, _⟩ |
    ⟨_, c, _, _, found⟩⟩
  · have short := short l folder.log
    rw [LogFile.size_eq, cut, groupFormat.extent_append] at short
    have bound := place.le
    obtain rfl := groupFormat.eq_nil_of_sum rest (by omega)
    have size : s.fs.logSize = l.size := by
      rw [LogFile.size_eq, cut, groupFormat.extent_append]
      omega
    refine .inl ⟨s.fs, result, ⟨ident, lineage, .inl size, ?_⟩, index, size, logFD⟩
    exact lawful.caughtUp fun c replayed => rel c (by rw [← replay]; exact replayed)
  all_goals cases folder.log.symm.trans log
  · exact absurd (folder.indexID.trans index.symm) other
  have groups : groupsFrom s.fs.logSize logHeaderSize l.groups = rest := by
    rw [cut]
    exact groupsFrom_at place
  rw [groups] at found
  rcases found with ⟨replayed, result⟩ | ⟨replayed, result⟩
  all_goals rw [replayed] at indexID
  · have confirmed : (if rest = [] then max s.fs.logSize logHeaderSize else l.size) = l.size := by
      split
      · rename_i empty
        subst empty
        rw [LogFile.size_eq, cut, append_nil] at longer ⊢
        rcases place with place | ⟨rfl, place⟩
        · omega
        · rw [place]; rfl
      · rfl
    refine .inl ⟨_, result, ⟨ident, lineage, .inl confirmed, ?_⟩, indexID, confirmed, logFD⟩
    exact rel c (by simp [replayGroups, replayed])
  · refine .inr ⟨_, _, result, indexID, ident, lineage, done, rest, cut, place, ?_⟩
    apply Journal.Recovers.of_refused
    intro more
    rw [replay]
    exact replayGroups_refused replayed more

/-- The invariant of the files gives the offset from which a reader of the base resumes. -/
theorem Folder.replayStart (folder : Folder disk b l)
    (inv : Journal.Inv T groupFormat b.toBase l.toLog handles cur) :
    ∃ pre tail, l.groups = pre ++ tail ∧ Journal.Start groupFormat b.toBase l.toLog pre ∧
      (replayStart (readLineage b.file) (logLineage disk.log)).getD 0 = groupFormat.extent pre := by
  obtain ⟨g₀, pre, tail, paired, _⟩ := inv
  refine ⟨pre, tail, paired.entries, paired.start, ?_⟩
  have known : ¬((readLineage b.file).lineage = lineageUnknown ∨ l.fileSeq = lineageUnknown) := by
    rintro (unknown | unknown)
    · exact folder.lineage unknown
    · exact folder.seq unknown
  rw [folder.log]
  show (FileIndex.replayStart (readLineage b.file) l.fileSeq).getD 0 = _
  unfold FileIndex.replayStart
  rw [if_neg known]
  rcases paired.start with ⟨seq, rfl⟩ | ⟨seq, below, offset⟩
  · have same : l.fileSeq = (readLineage b.file).lineage := seq
    rw [if_pos same, groupFormat.extent_nil]
    rfl
  have older : l.fileSeq ≠ (readLineage b.file).lineage := Nat.ne_of_lt below
  have absorbed : l.fileSeq = (readLineage b.file).foldedLineage := seq
  rw [if_neg older, if_pos absorbed, offset]
  rfl

theorem Caught.ensureVsize (caught : Caught T b l cur fs) : Caught T b l cur fs.ensureVsize := by
  unfold FolderState.ensureVsize
  split
  · exact caught
  · exact ⟨caught.fresh, caught.indexID, caught.logSize, caught.logFD⟩

theorem Reloaded.ensureVsize {result : Except Err Unit × Local} (reloaded : Reloaded T disk b l cur result) :
    Reloaded T disk b l cur (ensureVsize result) := by
  rcases reloaded with ⟨fs, rfl, caught⟩ | ⟨e, fs, rfl, index, current⟩
  · exact .inl ⟨_, rfl, caught.ensureVsize⟩
  · exact .inr ⟨e, fs, rfl, index, current⟩

/-- The reload of this handle takes the adopting branch. -/
def Local.Adopts (s : Local) (b : BaseFile) : Prop :=
  s.logReplaced = false ∧ s.fs.baseIdent ≠ b.ident ∧ s.adoptable b = true

instance (s : Local) (b : BaseFile) : Decidable (s.Adopts b) := inferInstanceAs (Decidable (_ ∧ _))

/-- The handle an adopted base leaves for the replay of the log. -/
abbrev Local.adopting (s : Local) (b : BaseFile) : Local :=
  s.mapFs fun fs =>
    { fs with
      lineage := readLineage b.file
      baseIdent := b.ident
      logSize := 0
      keywords := b.file.ext.keywords
      vsize := b.file.ext.hdrVsize }

/-- The handle a base read again leaves for it. -/
abbrev Local.rereading (s : Local) (b : BaseFile) : Local :=
  s.mapFs fun fs =>
    { fs with
      file := b.file
      keywords := b.file.ext.keywords
      vsize := b.file.ext.hdrVsize
      filenames := (loadNames s.disk.names).1
      sizes := (loadNames s.disk.names).2
      baseIdent := b.ident
      lineage := readLineage b.file
      logSize := (replayStart (readLineage b.file) (logLineage s.disk.log)).getD 0 }

/-- What a reload can do once the base is there: nothing, adopt it, read it again, or go on with the
log. -/
theorem Local.reload_cases (base : s.disk.base = some b) :
    (s.logReplaced = false ∧ s.fs.baseIdent = b.ident ∧ logFileSize s.disk.log = s.fs.logSize ∧
        s.reload = (.ok (), s)) ∨
      (s.Adopts b ∧ s.reload = s.adopt b) ∨
      ((s.logReplaced = true ∨ s.fs.baseIdent ≠ b.ident) ∧ ¬s.Adopts b ∧ ∃ t : Local,
        (t = s ∨ t = s.mapFs (·.closeFDs)) ∧ t.logReplaced = false ∧
        s.reload = ensureVsize (t.reread b)) ∨
      (s.logReplaced = false ∧ s.fs.baseIdent = b.ident ∧ s.reload = ensureVsize s.applyLogTail) := by
  unfold reload Local.Adopts
  cases replaced : s.logReplaced with
  | true =>
    have base' : (s.mapFs (·.closeFDs)).disk.base = some b := base
    refine .inr (.inr (.inl ⟨.inl rfl, by simp, _, .inr rfl, rfl, ?_⟩))
    simp [base']
  | false =>
    by_cases same : s.fs.baseIdent = b.ident
    · by_cases size : logFileSize s.disk.log = s.fs.logSize
      · exact .inl ⟨rfl, same, size, by simp [base, same, size]⟩
      · exact .inr (.inr (.inr ⟨rfl, same, by simp [base, same, size]⟩))
    by_cases adoptable : s.adoptable b = true
    · exact .inr (.inl ⟨⟨rfl, same, adoptable⟩, by simp [base, same, adoptable]⟩)
    · exact .inr (.inr (.inl ⟨.inr same, by simp [adoptable], s, .inl rfl, replaced,
        by simp [base, same, adoptable]⟩))

/-- Without a base a reload fails, having at most closed its descriptors. -/
theorem Local.reload_missing (base : s.disk.base = none) :
    ∃ t : Local, (t = s ∨ t = s.mapFs (·.closeFDs)) ∧ s.reload = (.error .notExist, t) := by
  unfold reload
  cases s.logReplaced with
  | true =>
    have base' : (s.mapFs (·.closeFDs)).disk.base = none := base
    exact ⟨_, .inr rfl, by simp [base']⟩
  | false => exact ⟨s, .inl rfl, by simp [base]⟩

section Branches

variable (lawful : T.Lawful) (replay : T.replay = replayGroups) (folder : Folder s.disk b l)
  (inv : Journal.Inv T groupFormat b.toBase l.toLog handles cur)

include lawful replay folder inv

theorem reread_spec (kept : s.logReplaced = false) : Reloaded T s.disk b l cur (s.reread b) := by
  obtain ⟨pre, tail, cut, start, offset⟩ := folder.replayStart inv
  refine applyLogTail_spec lawful replay folder rfl rfl rfl kept cut (.inl offset) ?_
  intro c replayed
  rw [← replay] at replayed
  exact inv.rel_reread lawful cut start replayed

variable (index : s.fs.file.header.indexID = b.file.header.indexID) (member : s.fs.toHandle ∈ handles)

include index member

theorem adopt_spec (adopts : s.Adopts b) (adopted : ∀ g, T.Core s.fs.toContent g → T.Rel b.content g →
      T.Rel { s.fs.toContent with keywords := b.file.ext.keywords } g) :
    Reloaded T s.disk b l cur (s.adopt b) := by
  obtain ⟨kept, moved, adoptable⟩ := adopts
  obtain ⟨_, folded, offset, _⟩ := of_decide_eq_true adoptable
  refine applyLogTail_spec lawful replay folder index rfl rfl kept (nil_append _).symm
    (.inr ⟨rfl, rfl⟩) ?_
  intro c replayed
  rw [← replay] at replayed
  exact inv.rel_adopt lawful member moved folded.symm offset adopted replayed

theorem applyLogTail_grown (same : s.fs.baseIdent = b.ident) (kept : s.logReplaced = false) :
    Reloaded T s.disk b l cur s.applyLogTail := by
  obtain ⟨g₀, pre, tail, paired, good⟩ := id inv
  rcases good _ member with current | stale
  · obtain ⟨done, rest, cut, place, _⟩ := current.recovers
    apply applyLogTail_spec lawful replay folder index same current.lineage kept cut place
    intro c replayed
    rw [← replay] at replayed
    exact inv.rel_tail member same cut place replayed
  · exact absurd same (Nat.ne_of_lt stale.ident)

omit replay in
/-- A handle on the present base whose offset is the log's end has nothing to do. -/
theorem caught_of_unmoved (same : s.fs.baseIdent = b.ident) (size : s.fs.logSize = l.size)
    (kept : s.logReplaced = false) : Caught T b l cur s.fs := by
  obtain ⟨g₀, pre, tail, paired, good⟩ := id inv
  rcases good _ member with current | stale
  · refine ⟨⟨same, current.lineage, .inl size, ?_⟩, index, size, logFD_of_unreplaced folder.log kept⟩
    exact lawful.caughtUp fun _ replayed => inv.rel_tail member same (append_nil _).symm (.inl size) replayed
  · exact absurd same (Nat.ne_of_lt stale.ident)

theorem reload_reloaded (adopted : s.Adopts b → ∀ g, T.Core s.fs.toContent g → T.Rel b.content g →
      T.Rel { s.fs.toContent with keywords := b.file.ext.keywords } g) :
    Reloaded T s.disk b l cur s.reload := by
  rcases reload_cases folder.base with ⟨kept, same, size, result⟩ | ⟨adopts, result⟩ |
    ⟨_, _, t, closed, kept, result⟩ | ⟨kept, same, result⟩ <;> rw [result]
  · rw [folder.log] at size
    exact .inl ⟨s.fs, rfl, caught_of_unmoved lawful folder inv index member same size.symm kept⟩
  · exact adopt_spec lawful replay folder inv index member adopts (adopted adopts)
  · have disk : t.disk = s.disk := by rcases closed with rfl | rfl <;> rfl
    rw [← disk] at folder ⊢
    exact (reread_spec lawful replay folder inv kept).ensureVsize
  · exact (applyLogTail_grown lawful replay folder inv index member same kept).ensureVsize

end Branches

/-- A reload leaves its operation's handle caught up, or fails and leaves everything tracked. -/
theorem reload_spec (lawful : T.Lawful) (replay : T.replay = replayGroups) {handles : List FolderState}
    (tracked : Tracked T disk handles cur) (handle : handles[i]? = some fs)
    (adopts : ∀ b, disk.base = some b → Local.Adopts { disk := disk, fs := fs } b →
      ∀ g, T.Core fs.toContent g → T.Rel b.content g → T.Rel { fs.toContent with keywords :=
      b.file.ext.keywords } g) :
    (∃ fs', reload { disk := disk, fs := fs } = (.ok (), { disk := disk, fs := fs' }) ∧
        Locked T { disk := disk, fs := fs' } (handles.eraseIdx i) cur) ∨
      ∃ e fs', reload { disk := disk, fs := fs } = (.error e, { disk := disk, fs := fs' }) ∧
        Tracked T disk (handles.set i fs') cur := by
  obtain ⟨b, l, folder, index, inv⟩ := tracked
  have member : fs ∈ handles := mem_of_getElem? handle
  have reloaded := reload_reloaded (s := { disk := disk, fs := fs }) lawful replay folder inv
    (index fs member) (mem_map_of_mem member) (adopts b folder.base)
  have indexes : ∀ fs ∈ handles.eraseIdx i, _ := fun fs other => index fs (mem_of_mem_eraseIdx other)
  have kept : ∀ fs ∈ handles.eraseIdx i, fs.toHandle ∈ handles.map FolderState.toHandle :=
    fun fs other => mem_map_of_mem (mem_of_mem_eraseIdx other)
  rcases reloaded with ⟨fs', result, caught⟩ | ⟨e, fs', result, index', current⟩
  · refine .inl ⟨fs', result, b, l, folder, indexes, inv.of_mem (forall_mem_map.mpr ?_), caught⟩
    exact fun fs other => .inl (kept fs other)
  · refine .inr ⟨e, fs', result, b, l, folder, forall_mem_set indexes index',
      inv.of_mem (forall_mem_map.mpr ?_)⟩
    exact forall_mem_set (fun fs other => .inl (kept fs other)) (.inr current)

end Reload

end Yarilo.FileIndex

import Yarilo.FileIndex.Locked
import Yarilo.FileIndex.Names

/-! # A folder with one writer

A handle that is alone with its folder always has everything on disk in memory: its reload finds the
base it wrote or read last, and at most a log stub it has not counted yet. What a fresh open sees is
the base with the whole log replayed over it. `Sole` keeps the two together, for any theory that
looks neither at what rewriting the base changes nor at the typed keyword registry.
-/

namespace Yarilo.FileIndex

open Library MailIndex Content FolderState List

/-- The theory does not look at the typed registry. -/
def Blind {γ : Type} (T : Journal.Theory Content Group γ) : Prop :=
  ∀ ⦃c g⦄, T.Rel c g → ∀ registry, T.Rel { c with keywords := registry } g

variable {γ : Type} {T : Journal.Theory Content Group γ} {b : BaseFile} {l : LogFile} {s : Local}
  {cur : γ}

/-- What the writer holds, and what a replay of the log over the base leads to, agree with the
truth; the registry in memory holds every name of the log. -/
structure Sole (T : Journal.Theory Content Group γ) (b : BaseFile) (l : LogFile) (cur : γ)
    (fs : FolderState) : Prop where
  ident : fs.baseIdent = b.ident
  indexID : fs.file.header.indexID = b.file.header.indexID
  logFD : fs.logFD = none ∨ fs.logFD = some l.ident
  rel : T.Rel fs.toContent cur
  settled : T.Settled cur l.groups
  whole : Journal.Recovers T cur l.groups { file := b.file, keywords := [] } l.groups
  tidy : Tidy fs.keywords
  known : ∀ tx ∈ l.groups.flatten, tx.Known fs.keywords

/-- A change in memory that may register names. -/
theorem Sole.touch {fs fs' : FolderState} (sole : Sole T b l cur fs)
    (ident : fs'.baseIdent = fs.baseIdent) (logFD : fs'.logFD = fs.logFD)
    (indexID : fs'.file.header.indexID = fs.file.header.indexID) (rel : T.Rel fs'.toContent cur)
    (tidy : Tidy fs'.keywords) (grew : fs.keywords <+: fs'.keywords) : Sole T b l cur fs' where
  ident := ident.trans sole.ident
  indexID := indexID.trans sole.indexID
  logFD := by rw [logFD]; exact sole.logFD
  rel := rel
  settled := sole.settled
  whole := sole.whole
  tidy := tidy
  known tx member := (sole.known tx member).mono grew

/-- The writer between two operations. -/
def Idle (T : Journal.Theory Content Group γ) (s : Local) (cur : γ) : Prop :=
  ∃ b l, Folder s.disk b l ∧ Sole T b l cur s.fs ∧ groupFormat.At s.fs.logSize l.groups

/-- The writer inside an operation. -/
def Busy (T : Journal.Theory Content Group γ) (s : Local) (cur : γ) : Prop :=
  ∃ b l, Folder s.disk b l ∧ Sole T b l cur s.fs ∧ s.fs.logSize = l.size

theorem Busy.idle (busy : Busy T s cur) : Idle T s cur := by
  obtain ⟨b, l, folder, sole, size⟩ := busy
  exact ⟨b, l, folder, sole, .inl size⟩

theorem Busy.rel (busy : Busy T s cur) : T.Rel s.fs.toContent cur := by
  obtain ⟨_, _, _, sole, _⟩ := busy
  exact sole.rel

theorem Busy.tidy (busy : Busy T s cur) : Tidy s.fs.keywords := by
  obtain ⟨_, _, _, sole, _⟩ := busy
  exact sole.tidy

theorem Busy.settled (busy : Busy T s cur) {l : LogFile} (log : s.disk.log = some l) :
    T.Settled cur l.groups := by
  obtain ⟨_, l', folder, sole, _⟩ := busy
  cases folder.log.symm.trans log
  exact sole.settled

/-- A reload finds at most a stub it has not counted. -/
theorem Idle.reload (lawful : T.Lawful) (replay : T.replay = replayGroups) (idle : Idle T s cur) :
    ∃ s', s.reload = (.ok (), s') ∧ Busy T s' cur := by
  obtain ⟨b, l, folder, sole, pos⟩ := idle
  have kept : s.logReplaced = false := by
    unfold Local.logReplaced
    rcases sole.logFD with closed | opened
    · rw [closed]
    · rw [opened, folder.log]
      simp
  have size : logFileSize s.disk.log = l.size := by rw [folder.log]; rfl
  unfold Local.reload
  simp only [kept, folder.base, Bool.false_eq_true, if_false, not_false_eq_true, true_and, sole.ident,
    size, ne_eq, not_true_eq_false, or_self]
  by_cases counted : l.size = s.fs.logSize
  · rw [if_pos counted]
    exact ⟨s, rfl, b, l, folder, sole, counted.symm⟩
  rw [if_neg counted]
  obtain ⟨empty, zero⟩ := pos.resolve_left fun same => counted same.symm
  have groups : groupsFrom s.fs.logSize logHeaderSize l.groups = [] := by rw [empty]; rfl
  obtain ⟨filenames, sizes, applied⟩ := applyLogFrom_eq s.disk l s.fs s.fs.logSize
  have stub : l.size = logHeaderSize := by rw [LogFile.size_eq, empty]; rfl
  have mine : ¬l.indexID ≠ s.fs.file.header.indexID := not_not.mpr (folder.indexID.trans sole.indexID.symm)
  have replayed : s.fs.toContent.replay [] = (s.fs.toContent.startReplay.finish, true) := rfl
  rw [groups, replayed] at applied
  unfold Local.applyLogTail
  rw [folder.log]
  dsimp only
  rw [if_neg (by rw [stub, zero]; decide), if_neg mine, applied]
  set fs : FolderState := { s.fs with
    toContent := s.fs.toContent.startReplay.finish
    filenames := filenames
    sizes := sizes
    logSize := max s.fs.logSize logHeaderSize } with fsDef
  obtain ⟨book, content⟩ := ensureVsize_book fs
  obtain ⟨ident, _, logSize, logFD, indexID⟩ := book_iff.mp book
  have rel : T.Rel fs.toContent cur := by
    have run : T.Run cur l.groups [] := trivial
    refine lawful.follow sole.rel run ?_
    rw [replay]
    rfl
  have keywords : fs.ensureVsize.keywords = fs.keywords := congrArg keywords content
  have read : Sole T b l cur fs.ensureVsize :=
    sole.touch ident logFD indexID (content ▸ rel) (keywords ▸ sole.tidy)
      (keywords ▸ prefix_refl _)
  have counted : fs.ensureVsize.logSize = l.size := by
    rw [logSize, stub, fsDef, zero]
    rfl
  exact ⟨_, rfl, b, l, folder, read, counted⟩

section Primitives

/-- A change in memory alone. -/
theorem Busy.touch (busy : Busy T s cur) (fs : FolderState) (book : fs.book = s.fs.book)
    (rel : T.Rel fs.toContent cur) (tidy : Tidy fs.keywords) (grew : s.fs.keywords <+: fs.keywords) :
    Busy T { s with fs := fs } cur := by
  obtain ⟨b, l, folder, sole, size⟩ := busy
  obtain ⟨ident, _, logSize, logFD, indexID⟩ := book_iff.mp book
  exact ⟨b, l, folder, sole.touch ident logFD indexID rel tidy grew, logSize.trans size⟩

/-- The sidecar is not looked at. -/
theorem Busy.appendName (busy : Busy T s cur) (uid : ℕ) (name : Bytes) (size : ℕ) :
    Busy T (s.appendName uid name size) cur := by
  obtain ⟨b, l, folder, sole, counted⟩ := busy
  obtain ⟨content, book⟩ := appendName_fs uid name size s
  obtain ⟨ident, _, logSize, logFD, indexID⟩ := book_iff.mp book
  have keywords : (s.appendName uid name size).fs.keywords = s.fs.keywords :=
    congrArg keywords content
  obtain ⟨base, log, fresh⟩ := appendName_disk uid name size s
  exact ⟨b, l, folder.congr base log fresh, sole.touch ident logFD indexID (content ▸ sole.rel)
    (keywords ▸ sole.tidy) (keywords ▸ prefix_refl _), logSize.trans counted⟩

/-- A change in memory, then a group appended to the log. -/
theorem Busy.appendMutLog (lawful : T.Lawful) (busy : Busy T s cur) (fs : FolderState) {group : Group}
    (book : fs.book = s.fs.book) (ok : ∀ l, s.disk.log = some l → T.Ok cur l.groups group)
    (rel : T.Rel fs.toContent (T.advance cur group)) (tidy : Tidy fs.keywords)
    (grew : s.fs.keywords <+: fs.keywords) (known : ∀ tx ∈ group, tx.Known fs.keywords) :
    Busy T (Local.appendMutLog group { s with fs := fs }) (T.advance cur group) := by
  obtain ⟨b, l, folder, sole, counted⟩ := busy
  obtain ⟨ident, _, _, _, indexID⟩ := book_iff.mp book
  have allowed := ok l folder.log
  rw [appendMutLog_eq folder.log sole.logFD counted fs book group]
  refine ⟨b, { l with groups := l.groups ++ [group] }, ?_, ?_, ?_⟩
  · exact ⟨folder.base, rfl, folder.ident, folder.indexID, folder.seq, folder.lineage⟩
  · exact {
      ident := ident.trans sole.ident
      indexID := indexID.trans sole.indexID
      logFD := .inr rfl
      rel := rel
      settled := lawful.settle sole.settled allowed
      whole := sole.whole.commit allowed
      tidy := tidy
      known := by
        intro tx member
        rw [flatten_append, mem_append] at member
        rcases member with old | new
        · exact (sole.known tx old).mono grew
        · exact known tx (by simpa using new) }
  · show l.size + groupSize group = logHeaderSize + ((l.groups ++ [group]).map groupSize).sum
    rw [LogFile.size, map_append, sum_append]
    simp [Nat.add_assoc]

theorem flush_known (s : Local) : (s.flush false).fs.lineage.lineage ≠ lineageUnknown := by
  have minted : (s.flush false).fs.lineage.lineage =
      max (u32 ((readLineage s.fs.file).lineage + 1)) (legacyLogLineage + 1) := rfl
  show (s.flush false).fs.lineage.lineage ≠ 0
  omega

theorem Busy.saveNames (busy : Busy T s cur) : Busy T s.saveNames cur := by
  obtain ⟨b, l, folder, sole, counted⟩ := busy
  exact ⟨b, l, folder.congr rfl rfl (Nat.le_succ _),
    sole.touch rfl rfl rfl sole.rel sole.tidy (prefix_refl _), counted⟩

/-- A change in memory, then the base rewritten under the log that stays. -/
theorem Busy.flush (lawful : T.Lawful) (stable : Stable T) (blind : Blind T) (busy : Busy T s cur)
    (fs : FolderState) {g : γ} (book : fs.book = s.fs.book) (rel : T.Rel fs.toContent g)
    (settled : ∀ l, s.disk.log = some l → T.Settled g l.groups) (tidy : Tidy fs.keywords)
    (grew : s.fs.keywords <+: fs.keywords) (wholeNames : Bool) :
    Busy T (Local.flush wholeNames { s with fs := fs }) g := by
  suffices busy : Busy T (.flush false { s with fs := fs }) g by
    cases wholeNames with
    | false => exact busy
    | true => exact busy.saveNames
  obtain ⟨b, l, folder, sole, counted⟩ := busy
  obtain ⟨_, _, logSize, logFD, indexID⟩ := book_iff.mp book
  have sameIndex : fs.file.header.indexID = b.file.header.indexID := indexID.trans sole.indexID
  set s' := Local.flush false { s with fs := fs } with flushed
  have kept := settled l folder.log
  refine ⟨{ ident := s.disk.nextIdent, file := s'.fs.file.stored }, l, ?_, ?_, logSize.trans counted⟩
  · exact ⟨rfl, folder.log, Nat.lt_succ_self _, folder.indexID.trans sameIndex.symm, folder.seq,
      flush_known { s with fs := fs }⟩
  · exact {
      ident := rfl
      indexID := rfl
      logFD := by show fs.logFD = none ∨ fs.logFD = some l.ident; rw [logFD]; exact sole.logFD
      rel := stable (flush_essence { s with fs := fs }).symm rel
      settled := kept
      whole := fun _ _ run replayed => lawful.absorb kept
        (stable (flush_stored_essence { s with fs := fs } []).symm (blind rel [])) run replayed
      tidy := tidy
      known := fun tx member => (sole.known tx member).mono grew }

/-- A change in memory, then the log folded into a new base. -/
theorem Busy.compact (lawful : T.Lawful) (stable : Stable T) (blind : Blind T) (busy : Busy T s cur)
    (fs : FolderState) {g : γ} (rel : T.Rel fs.stampExpungeFloor.toContent g) (settled : T.Settled g [])
      (tidy : Tidy fs.keywords)
    (wholeNames : Bool) : Idle T (Local.compact wholeNames { s with fs := fs }) g := by
  obtain ⟨b, l, folder, sole, counted⟩ := busy
  set stamped := fs.stampExpungeFloor with stampedDef
  have keywords : stamped.keywords = fs.keywords := rfl
  have whole : ∀ file : File, essence { file := file, keywords := [] } =
        essence { stamped.toContent with keywords := [] } →
      Journal.Recovers T g [] { file := file, keywords := [] } [] := fun file same _ _ run replayed =>
    lawful.follow (stable same.symm (blind rel [])) run replayed
  set s' := Local.flush false { s with fs := stamped } with flushed
  have essence := flush_stored_essence { s with fs := stamped } []
  have known := flush_known { s with fs := stamped }
  have good : T.Rel s'.fs.toContent g := stable (flush_essence { s with fs := stamped }).symm rel
  cases wholeNames
  all_goals
    refine ⟨{ ident := s.disk.nextIdent, file := s'.fs.file.stored },
      ⟨_, s'.fs.file.header.indexID, s'.fs.lineage.lineage, []⟩,
      ⟨rfl, rfl, ?_, rfl, known, known⟩,
      ⟨rfl, rfl, .inl rfl, good, settled, whole _ essence, tidy, by simp⟩, .inr ⟨rfl, rfl⟩⟩
  · exact Nat.lt_succ_of_lt (Nat.lt_succ_self _)
  · exact Nat.lt_succ_of_lt (Nat.lt_succ_of_lt (Nat.lt_succ_self _))

end Primitives

/-- A fresh open succeeds and agrees with the truth the writer holds. -/
theorem Idle.openFolder (replay : T.replay = replayGroups) (blind : Blind T) (idle : Idle T s cur) :
    ∃ fs, openFolder s.disk = (.ok fs, s.disk) ∧ T.Rel fs.toContent cur := by
  obtain ⟨b, l, folder, sole, _⟩ := idle
  have accepted : (applyTxs ({ file := b.file, keywords := [] } : Content).startReplay
      l.groups.flatten).2 = true :=
    applyTxs_of_known sole.tidy.length .nil (nil_subset _) sole.known
  cases opened : FileIndex.openFolder s.disk with
  | mk result disk =>
    cases result with
    | ok fs =>
      obtain ⟨rfl, c, replayed, content, _⟩ := openFolder_eq folder opened
      have rel : T.Rel c cur := sole.whole.rel (by rw [replay]; exact replayed)
      exact ⟨fs, rfl, content ▸ blind rel _⟩
    | error e =>
      have refused := (openFolder_error folder opened).2
      unfold replayGroups Content.replay at refused
      split at refused
      · cases refused
      rename_i stopped
      split at stopped
      · cases stopped
      rename_i found
      rw [found] at accepted
      cases accepted

end Yarilo.FileIndex

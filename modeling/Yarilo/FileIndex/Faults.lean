import Mathlib.Data.List.Sort
import Yarilo.FileIndex.Counter

/-! # Appends whose writes fail

The file system may refuse any one write of an append. The registry is written out before the record
enters memory, the sidecar and the log are written behind it, and nothing takes the record out again:
the reload that follows finds files of the sizes it knows and keeps what is in memory.
-/

namespace Yarilo.FileIndex

open Library MailIndex Local Record

/-- The write that is refused: of the base flush its directory or the base, of the sidecar the open or
the line, of the log the open, the header of a new one or the group. -/
inductive Fault where
  | flushDir | flushBase | namesOpen | namesWrite | logOpen | logHeader | logWrite
deriving DecidableEq

inductive Failure where
  | err (e : Err)
  | write (fault : Fault)
deriving DecidableEq

namespace Local

variable (fault : Option Fault)

/-- The descriptor of the sidecar, which is created when there is none. -/
def openNames (s : Local) : Local :=
  match s.fs.namesFD, s.disk.names with
  | some _, _ => s
  | none, some names => s.mapFs fun fs => { fs with namesFD := some names.ident }
  | none, none =>
    { disk := { s.disk with
        names := some { ident := s.disk.nextIdent, lines := [] }
        nextIdent := s.disk.nextIdent + 1 }
      fs := { s.fs with namesFD := some s.disk.nextIdent } }

/-- A line that is refused closes the descriptor. -/
def tryAppendName (uid : ℕ) (name : Bytes) (size : ℕ) (s : Local) : Except Failure Unit × Local :=
  if name = [] then (.ok (), s)
  else if s.fs.namesFD = none ∧ fault = some .namesOpen then (.error (.write .namesOpen), s)
  else if fault = some .namesWrite then
    (.error (.write .namesWrite), s.openNames.mapFs fun fs => { fs with namesFD := none })
  else (.ok (), s.appendName uid name size)

/-- The descriptor of the log, which is created with its header when there is none. -/
def openLog (s : Local) : Local :=
  match s.fs.logFD, s.disk.log with
  | some _, _ => s
  | none, some log => s.mapFs fun fs => { fs with logSize := log.size, logFD := some log.ident }
  | none, none =>
    { disk := { s.disk with
        log := some {
          ident := s.disk.nextIdent
          indexID := s.fs.file.header.indexID
          fileSeq := s.fs.lineage.lineage
          groups := [] }
        nextIdent := s.disk.nextIdent + 1 }
      fs := { s.fs with logFD := some s.disk.nextIdent } }

/-- A log without its header reads as no log, and of a group that is cut short nothing counts. -/
def tryAppendMutLog (group : Group) (s : Local) : Except Failure Unit × Local :=
  if s.fs.logFD = none ∧ fault = some .logOpen then (.error (.write .logOpen), s)
  else if s.fs.logFD = none ∧ s.disk.log = none ∧ fault = some .logHeader then
    (.error (.write .logHeader), s)
  else if fault = some .logWrite then
    (.error (.write .logWrite), s.openLog.mapFs fun fs => { fs with logFD := none })
  else (.ok (), s.appendMutLog group)

/-- A base that is refused leaves the header it would have had in memory. -/
def tryFlush (s : Local) : Except Failure Unit × Local :=
  if fault = some .flushDir then (.error (.write .flushDir), s)
  else if fault = some .flushBase then
    (.error (.write .flushBase), { s with fs := { (s.flush false).fs with
      lineage := s.fs.lineage
      baseIdent := s.fs.baseIdent } })
  else (.ok (), s.flush false)

def tryGrowRegistry (registry : Registry) (s : Local) : Except Failure Unit × Local :=
  let grew := s.fs.keywords.length < registry.length
  let s := s.mapFs (·.persistKeywordRegistry registry)
  if grew then s.tryFlush fault else (.ok (), s)

def tryAppendLocked (m : MessageMeta) (s : Local) : Except Failure Record × Local :=
  if m.uid = 0 then (.error (.err .uidZero), s)
  else
    let s := s.stampModSeq m
    let modseq := if m.modSeq ≠ 0 then m.modSeq else s.fs.highestModSeq
    match keywordsBitmaskFor s.fs.keywords m.keywords with
    | none => (.error (.err .keywordRegistryFull), s)
    | some (bits, registry) =>
      match s.tryGrowRegistry fault registry with
      | (.error f, s) => (.error f, s)
      | (.ok (), s) =>
        let r := FolderState.recordFor m modseq bits
        (.ok r, s.mapFs (·.addRecord m r))

def tryFlushAppend (r : Record) (s : Local) : Except Failure Unit × Local :=
  match s.tryAppendName fault r.uid (mapGet [] s.fs.filenames r.uid) (mapGet 0 s.fs.sizes r.uid) with
  | (.error f, s) => (.error f, s)
  | (.ok (), s) => s.tryAppendMutLog fault (appendGroup s.fs r)

def tryCommitAppend (m : MessageMeta) (rotate : Bool) (s : Local) : Except Failure Unit × Local :=
  match s.tryAppendLocked fault m with
  | (.error f, s) => (.error f, s)
  | (.ok r, s) =>
    match s.tryFlushAppend fault r with
    | (.error f, s) => (.error f, s)
    | (.ok (), s) => (.ok (), s.compactLogIfNeeded rotate)

end Local

inductive AppendCall where
  | appendMessage (m : MessageMeta)
  | allocateAndAppendNamed (m : MessageMeta) (name : Option (Except Err Bytes))

namespace AppendCall

/-- The message with its UID and its name. -/
def settle : AppendCall → Local → Except Err MessageMeta × Local
  | appendMessage m, s => (.ok m, s)
  | allocateAndAppendNamed m name, s =>
    let uid := s.nextUID
    let s := s.mapFs (·.setNextUID (u32 (uid + 1)))
    match name with
    | some (.error e) => (.error e, s)
    | some (.ok filename) => (.ok { m with uid := uid, filename := filename }, s)
    | none => (.ok { m with uid := uid }, s)

def body (call : AppendCall) (fault : Option Fault) (rotate : Bool) (s : Local) :
    Except Failure Unit × Local :=
  match call.settle s with
  | (.error e, s) => (.error (.err e), s)
  | (.ok m, s) => s.tryCommitAppend fault m rotate

end AppendCall

/-- The records `GetMessages` returns; a slot a record has no bytes for reads as zeros. -/
def Local.getMessages (s : Local) : Option (List Record) :=
  match s.reload with
  | (.ok (), s) => some ((s.fs.file.records.map stored).insertionSort (·.uid ≤ ·.uid))
  | (.error _, _) => none

/-- The records of the base that the handle's next flush writes. -/
def Local.flushed (s : Local) : Option (List Record) :=
  (s.withFolder Local.saveFolder).2.disk.base.map (·.file.records)

/-! ## Reloads that find nothing -/

/-- The handle's base is the one on disk, and behind its offset the log holds nothing. A descriptor of a
log that was replaced makes the handle read the base again, over an empty log. -/
structure Local.Settled (s : Local) (b : BaseFile) : Prop where
  base : s.disk.base = some b
  ident : s.fs.baseIdent = b.ident
  tail : ∀ l, s.disk.log = some l → l.size ≤ s.fs.logSize ∨
    l.indexID = s.fs.file.header.indexID ∧ groupsFrom s.fs.logSize logHeaderSize l.groups = []
  stale : s.logReplaced = true → b.file.header.indexID = s.fs.file.header.indexID ∧
    ∀ l, s.disk.log = some l → l.indexID = b.file.header.indexID ∧ l.groups = []

/-- The records a reload of a settled handle leaves. -/
def Local.kept (s : Local) (b : BaseFile) : List Record :=
  if s.logReplaced then b.file.records else s.fs.file.records

variable {t s' : Local} {f : Failure}

theorem logReplaced_congr {s : Local} (log : t.disk.log = s.disk.log) (book : t.fs.book = s.fs.book) :
    t.logReplaced = s.logReplaced := by
  obtain ⟨_, _, _, logFD, _⟩ := FolderState.book_iff.mp book
  rw [logReplaced, logReplaced, logFD, log]

theorem ensureVsize_records (fs : FolderState) : fs.ensureVsize.file.records = fs.file.records :=
  congrArg (·.file.records) (ensureVsize_book fs).2

theorem applyLogTail_nothing {s : Local} (tail : ∀ l, s.disk.log = some l → l.size ≤ s.fs.logSize ∨
    l.indexID = s.fs.file.header.indexID ∧ groupsFrom s.fs.logSize logHeaderSize l.groups = []) :
    ∃ fs, s.applyLogTail = (.ok (), { s with fs := fs }) ∧ fs.file.records = s.fs.file.records := by
  rcases s.applyLogTail_cases with ⟨_, result⟩ | ⟨l, _, log, longer, rfl, found⟩
  · exact ⟨s.fs, result, rfl⟩
  obtain ⟨index, nothing⟩ := (tail l log).resolve_left (not_le.mpr longer)
  rw [nothing] at found
  rcases found with ⟨other, _⟩ | ⟨_, c, _, _, ⟨replayed, result⟩ | ⟨replayed, _⟩⟩
  · exact absurd index other
  · cases replayed
    exact ⟨_, result, rfl⟩
  · cases replayed

namespace Local.Settled

variable {s : Local} {b : BaseFile}

theorem reload (settled : s.Settled b) :
    ∃ fs, s.reload = (.ok (), { s with fs := fs }) ∧ fs.file.records = s.kept b := by
  unfold kept
  rcases reload_cases settled.base with
    ⟨current, _, _, fast⟩ | ⟨⟨_, other, _⟩, _⟩ | ⟨moved, _, t, closed, _, read⟩ | ⟨current, _, slow⟩
  · exact ⟨s.fs, fast, by simp [current]⟩
  · exact absurd settled.ident other
  · have replaced := moved.resolve_right (not_not.mpr settled.ident)
    have disk : t.disk = s.disk := by rcases closed with rfl | rfl <;> rfl
    obtain ⟨fs, replayed, records⟩ := applyLogTail_nothing (s := t.rereading b) fun l log => by
      obtain ⟨index, nothing⟩ := (settled.stale replaced).2 l (disk ▸ log)
      exact .inr ⟨index, by rw [nothing]; rfl⟩
    rw [read, reread, replayed, replaced, ← disk]
    exact ⟨fs.ensureVsize, rfl, by rw [ensureVsize_records, records]; rfl⟩
  · obtain ⟨fs, replayed, records⟩ := applyLogTail_nothing settled.tail
    rw [slow, replayed, current]
    exact ⟨fs.ensureVsize, rfl, by rw [ensureVsize_records, records]; rfl⟩

theorem getMessages (settled : s.Settled b) :
    s.getMessages = some (((s.kept b).map stored).insertionSort (·.uid ≤ ·.uid)) := by
  obtain ⟨fs, reloads, records⟩ := settled.reload
  rw [Local.getMessages, reloads, ← records]

theorem flushed (settled : s.Settled b) : s.flushed = some ((s.kept b).map stored) := by
  obtain ⟨fs, reloads, records⟩ := settled.reload
  rw [Local.flushed, Local.withFolder, reloads, ← records]
  rfl

/-- A change in memory or of the sidecar that leaves the bookkeeping alone. -/
theorem touch (settled : s.Settled b) (base : t.disk.base = s.disk.base) (log : t.disk.log = s.disk.log)
    (book : t.fs.book = s.fs.book) : t.Settled b := by
  have replaced := logReplaced_congr log book
  obtain ⟨ident, _, size, _, index⟩ := FolderState.book_iff.mp book
  refine ⟨base.trans settled.base, ident.trans settled.ident, ?_, ?_⟩
  · rw [log, size, index]
    exact settled.tail
  · rw [replaced, log, index]
    exact settled.stale

end Local.Settled

/-- A tail that was replayed to its end, or the log of another mailbox that was replaced, leaves nothing
to find. -/
theorem applyLogTail_settled {s : Local} {b : BaseFile} (base : s.disk.base = some b)
    (ident : s.fs.baseIdent = b.ident) (current : s.logReplaced = false)
    (applied : s.applyLogTail = (.ok (), s')) :
    ∃ b', s'.Settled b' ∧
      (s'.logReplaced = true → b'.file.records = s'.fs.file.records.map stored) := by
  have kept : ∀ {p : Prop}, s.logReplaced = true → p := fun stale => nomatch current.symm.trans stale
  rcases s.applyLogTail_cases with ⟨short, result⟩ | ⟨l, _, log, _, rfl, ⟨_, result⟩ |
    ⟨index, c, _, _, ⟨replayed, result⟩ | ⟨_, result⟩⟩⟩
  all_goals
    rw [result] at applied
    cases applied
  · exact ⟨b, ⟨base, ident, fun l log => .inl (short l log), kept⟩, kept⟩
  · refine ⟨_, ⟨rfl, rfl, fun l' some_ => ?_, fun _ => ⟨rfl, fun l' some_ => ?_⟩⟩, fun _ => rfl⟩
    · cases some_
      exact .inr ⟨rfl, rfl⟩
    · cases some_
      exact ⟨rfl, rfl⟩
  · have same := replay_indexID s.fs.toContent (groupsFrom s.fs.logSize logHeaderSize l.groups)
    rw [replayed] at same
    refine ⟨b, ⟨base, ident, fun l' some_ => ?_, kept⟩, kept⟩
    cases log.symm.trans some_
    split
    · rename_i nothing
      refine .inr ⟨index.trans same.symm, ?_⟩
      rcases le_total s.fs.logSize logHeaderSize with before | behind
      · rw [groupsFrom_of_le _ before] at nothing
        rw [nothing]
        rfl
      · rwa [max_eq_left behind]
    · exact .inl le_rfl

theorem reload_settled {s : Local} (reloaded : s.reload = (.ok (), s')) : ∃ b, s'.Settled b ∧
      (s'.logReplaced = true → b.file.records = s'.fs.file.records.map stored) := by
  have vsize {t : Local} {b : BaseFile} (base : t.disk.base = some b) (ident : t.fs.baseIdent = b.ident)
      (current : t.logReplaced = false) (done : ensureVsize t.applyLogTail = (.ok (), s')) :
      ∃ b, s'.Settled b ∧
        (s'.logReplaced = true → b.file.records = s'.fs.file.records.map stored) := by
    rcases applied : t.applyLogTail with ⟨_ | _, t'⟩
    · rw [applied] at done
      cases done
    rw [applied] at done
    cases done
    obtain ⟨b, settled, written⟩ := applyLogTail_settled base ident current applied
    have book := (ensureVsize_book t'.fs).1
    refine ⟨b, settled.touch rfl rfl book, fun stale => ?_⟩
    rw [logReplaced_congr (s := t') (t := t'.mapFs (·.ensureVsize)) rfl book] at stale
    rw [written stale, ← ensureVsize_records t'.fs]
    rfl
  cases base : s.disk.base with
  | none =>
    obtain ⟨t, _, failed⟩ := reload_missing base
    rw [failed] at reloaded
    cases reloaded
  | some b =>
    rcases reload_cases base with
      ⟨current, ident, size, fast⟩ | ⟨⟨current, _, _⟩, adopts⟩ | ⟨_, _, t, closed, current,
        read⟩ | ⟨current, ident, slow⟩
    · cases fast.symm.trans reloaded
      refine ⟨b, ⟨base, ident, fun l log => .inl ?_, by simp [current]⟩, by simp [current]⟩
      rw [← size, log]
      exact le_rfl
    · rw [adopts, adopt] at reloaded
      exact applyLogTail_settled (b := b) (by exact base) (by rfl) (by exact current) reloaded
    · have disk : t.disk.base = some b := by rcases closed with rfl | rfl <;> exact base
      rw [read, reread] at reloaded
      exact vsize (b := b) (by exact disk) (by rfl) (by exact current) reloaded
    · exact vsize base ident current (slow.symm.trans reloaded)

/-! ## What a failed append leaves -/

/-- The append stops before its record enters memory: at its UID, at the keyword ceiling, or at the flush
for a new keyword. -/
def Local.Refuses (s : Local) (fault : Option Fault) (m : MessageMeta) : Prop :=
  m.uid = 0 ∨ match keywordsBitmaskFor s.fs.keywords m.keywords with
    | none => True
    | some (_, registry) => s.fs.keywords.length < registry.length ∧
        (fault = some .flushDir ∨ fault = some .flushBase)

def AppendCall.Refused (call : AppendCall) (fault : Option Fault) (s : Local) : Prop :=
  match (call.settle s).1 with
  | .error _ => True
  | .ok m => s.Refuses fault m

section Failed

variable {fault : Option Fault} {s : Local} {b : BaseFile}

theorem Local.Settled.flush (settled : s.Settled b) :
    ∃ b', (s.flush false).Settled b' ∧ b'.file.records = s.fs.file.records.map stored := by
  refine ⟨_, ⟨rfl, rfl, settled.tail, fun stale => ⟨rfl, fun l log => ?_⟩⟩, rfl⟩
  obtain ⟨index, empty⟩ := settled.stale stale
  exact ⟨(empty l log).1.trans index, (empty l log).2⟩

theorem tryAppendLocked_cases (fault : Option Fault) (m : MessageMeta) (s : Local) :
    (s.Refuses fault m ∧ ∃ f fs, s.tryAppendLocked fault m = (.error f, { s with fs := fs }) ∧
        fs.book = s.fs.book ∧ fs.file.records = s.fs.file.records) ∨
      (¬s.Refuses fault m ∧ ∃ r fs, fs.book = s.fs.book ∧ fs.file.records = s.fs.file.records ∧
        (s.tryAppendLocked fault m = (.ok r, { s with fs := fs.addRecord m r }) ∨
          s.tryAppendLocked fault m =
            (.ok r, (Local.flush false { s with fs := fs }).mapFs (·.addRecord m r)))) := by
  obtain ⟨_, stamp⟩ := s.stampModSeq_fs m
  have book : (s.stampModSeq m).fs.book = s.fs.book := congrArg (·.book) stamp
  have records : (s.stampModSeq m).fs.file.records = s.fs.file.records := congrArg (·.file.records) stamp
  have keywords : (s.stampModSeq m).fs.keywords = s.fs.keywords := congrArg (·.keywords) stamp
  have stamped : s.stampModSeq m = { s with fs := (s.stampModSeq m).fs } := rfl
  unfold tryAppendLocked Local.Refuses
  by_cases zero : m.uid = 0
  · exact .inl ⟨.inl zero, _, s.fs, by rw [if_pos zero], rfl, rfl⟩
  rw [if_neg zero]
  dsimp only
  rw [keywords]
  cases known : keywordsBitmaskFor s.fs.keywords m.keywords with
  | none => exact .inl ⟨.inr trivial, _, _, by rw [stamped], book, records⟩
  | some found =>
    obtain ⟨bits, registry⟩ := found
    have grown : ((s.stampModSeq m).fs.persistKeywordRegistry registry).book = s.fs.book := book
    unfold tryGrowRegistry
    rw [keywords, stamped]
    dsimp only
    by_cases grew : s.fs.keywords.length < registry.length
    · rw [if_pos grew, tryFlush]
      by_cases dir : fault = some .flushDir
      · rw [if_pos dir]
        exact .inl ⟨.inr ⟨grew, .inl dir⟩, _, _, rfl, grown, records⟩
      rw [if_neg dir]
      by_cases base : fault = some .flushBase
      · rw [if_pos base]
        exact .inl ⟨.inr ⟨grew, .inr base⟩, _, _, rfl, grown, records⟩
      rw [if_neg base]
      refine .inr ⟨?_, _, _, grown, records, .inr rfl⟩
      rintro (zero' | ⟨_, dir' | base'⟩)
      · exact zero zero'
      · exact dir dir'
      · exact base base'
    · rw [if_neg grew]
      refine .inr ⟨?_, _, _, grown, records, .inl rfl⟩
      rintro (zero' | ⟨grew', _⟩)
      · exact zero zero'
      · exact grew grew'

theorem tryAppendName_cases (fault : Option Fault) (uid : ℕ) (name : Bytes) (size : ℕ) (s : Local) :
    ∃ t : Local, t.disk.base = s.disk.base ∧ t.disk.log = s.disk.log ∧ t.fs.book = s.fs.book ∧
      t.fs.file = s.fs.file ∧ (s.tryAppendName fault uid name size = (.ok (), t) ∨
        (fault = some .namesOpen ∨ fault = some .namesWrite) ∧
          ∃ f, s.tryAppendName fault uid name size = (.error f, t)) := by
  unfold tryAppendName
  split
  · exact ⟨s, rfl, rfl, rfl, rfl, .inl rfl⟩
  split
  · rename_i refused
    exact ⟨s, rfl, rfl, rfl, rfl, .inr ⟨.inl refused.2, _, rfl⟩⟩
  split
  · rename_i refused
    refine ⟨_, ?_, ?_, ?_, ?_, .inr ⟨.inr refused, _, rfl⟩⟩ <;> unfold openNames <;> split <;> rfl
  obtain ⟨content, book⟩ := appendName_fs uid name size s
  refine ⟨_, ?_, (appendName_disk uid name size s).2.1, book, congrArg (·.file) content, .inl rfl⟩
  unfold appendName
  split
  · rfl
  split
  · rfl
  · split <;> rfl

/-- The log was opened for a group and closed again without it. -/
theorem Local.Settled.closeLog (settled : s.Settled b) :
    (s.openLog.mapFs fun fs => { fs with logFD := none }).Settled b ∧ s.openLog.fs.file = s.fs.file := by
  unfold openLog
  split
  · exact ⟨⟨settled.base, settled.ident, settled.tail, nofun⟩, rfl⟩
  · rename_i l _ log
    refine ⟨⟨settled.base, settled.ident, fun l' some_ => .inl ?_, nofun⟩, rfl⟩
    cases log.symm.trans some_
    exact le_rfl
  · refine ⟨⟨settled.base, settled.ident, fun l' some_ => ?_, nofun⟩, rfl⟩
    cases some_
    exact .inr ⟨rfl, rfl⟩

theorem tryAppendMutLog_failed (settled : s.Settled b) {group : Group}
    (failed : s.tryAppendMutLog fault group = (.error f, s')) :
    s'.Settled b ∧ s'.fs.file = s.fs.file ∧ s'.logReplaced = false ∧ fault ≠ some .namesOpen ∧
      fault ≠ some .namesWrite := by
  unfold tryAppendMutLog at failed
  split at failed
  · rename_i refused
    cases failed
    exact ⟨settled, rfl, by simp [logReplaced, refused.1], by simp [refused.2], by simp [refused.2]⟩
  split at failed
  · rename_i refused
    cases failed
    exact ⟨settled, rfl, by simp [logReplaced, refused.1], by simp [refused.2.2],
      by simp [refused.2.2]⟩
  · split at failed
    · rename_i refused
      cases failed
      obtain ⟨closed, file⟩ := settled.closeLog
      exact ⟨closed, file, rfl, by simp [refused], by simp [refused]⟩
    · cases failed

/-- The record stays in memory, whichever write behind it is refused. -/
theorem tryFlushAppend_failed (settled : s.Settled b) {r : Record}
    (failed : s.tryFlushAppend fault r = (.error f, s')) :
    s'.Settled b ∧ s'.fs.file = s.fs.file ∧ (s'.logReplaced = true ↔
      s.logReplaced = true ∧ (fault = some .namesOpen ∨ fault = some .namesWrite)) := by
  unfold tryFlushAppend at failed
  obtain ⟨t, base, log, book, file, named | ⟨refused, f', named⟩⟩ := tryAppendName_cases fault r.uid
    (mapGet [] s.fs.filenames r.uid) (mapGet 0 s.fs.sizes r.uid) s
  · rw [named] at failed
    obtain ⟨settled', file', current, noOpen, noWrite⟩ :=
      tryAppendMutLog_failed (settled.touch base log book) failed
    exact ⟨settled', file'.trans file, by simp [current, noOpen, noWrite]⟩
  · rw [named] at failed
    cases failed
    exact ⟨settled.touch base log book, file, by rw [logReplaced_congr log book]; simp [refused]⟩

theorem settle_cases (call : AppendCall) (s : Local) :
    (call.settle s).2.disk = s.disk ∧ (call.settle s).2.fs.book = s.fs.book ∧
      (call.settle s).2.fs.keywords = s.fs.keywords ∧
      (call.settle s).2.fs.file.records = s.fs.file.records := by
  unfold AppendCall.settle
  split
  · exact ⟨rfl, rfl, rfl, rfl⟩
  · dsimp only
    split <;> exact ⟨rfl, rfl, rfl, rfl⟩

/-- A failed append leaves its record in memory, unless it was refused before. -/
theorem tryCommitAppend_failed (settled : s.Settled b) {m : MessageMeta} {rotate : Bool}
    (failed : s.tryCommitAppend fault m rotate = (.error f, s')) :
    (s.Refuses fault m ∧ s'.Settled b ∧ s'.fs.file.records = s.fs.file.records ∧
        s'.logReplaced = s.logReplaced) ∨
      (¬s.Refuses fault m ∧ ∃ b' r, s'.Settled b' ∧
        (b' = b ∨ b'.file.records = s.fs.file.records.map stored) ∧
        s'.fs.file.records = s.fs.file.records ++ [r] ∧ (s'.logReplaced = true ↔
          s.logReplaced = true ∧ (fault = some .namesOpen ∨ fault = some .namesWrite))) := by
  unfold tryCommitAppend at failed
  rcases tryAppendLocked_cases fault m s with
    ⟨refuses, f', fs, result, book, records⟩ | ⟨accepts, r, fs, book, records, result⟩
  · rw [result] at failed
    cases failed
    exact .inl ⟨refuses, settled.touch rfl rfl book, records, logReplaced_congr rfl book⟩
  right
  have memory : ({ s with fs := fs } : Local).Settled b := settled.touch rfl rfl book
  have behind {t : Local} {b' : BaseFile} (result : s.tryAppendLocked fault m = (.ok r, t))
      (here : t.Settled b') (appended : t.fs.file.records = s.fs.file.records ++ [r])
      (replaced : t.logReplaced = s.logReplaced)
      (base : b' = b ∨ b'.file.records = s.fs.file.records.map stored) : ∃ b' r, s'.Settled b' ∧
        (b' = b ∨ b'.file.records = s.fs.file.records.map stored) ∧
        s'.fs.file.records = s.fs.file.records ++ [r] ∧ (s'.logReplaced = true ↔
          s.logReplaced = true ∧ (fault = some .namesOpen ∨ fault = some .namesWrite)) := by
    rw [result] at failed
    dsimp only at failed
    split at failed
    · rename_i f' t' refused
      cases failed
      obtain ⟨there, file, stale⟩ := tryFlushAppend_failed here refused
      exact ⟨b', r, there, base, by rw [file, appended], by rw [stale, replaced]⟩
    · cases failed
  refine ⟨accepts, ?_⟩
  have replaced := logReplaced_congr (s := s) (t := { s with fs := fs }) rfl book
  rcases result with result | result
  · exact behind result (memory.touch rfl rfl rfl) (congrArg (· ++ [r]) records) replaced (.inl rfl)
  obtain ⟨b', flushed, written⟩ := memory.flush
  exact behind result (flushed.touch rfl rfl rfl) (congrArg (· ++ [r]) records) replaced
    (.inr (by rw [written, records]))

end Failed

/-- A failed append goes unnoticed exactly when it was refused before its record entered memory, or when
the handle, having found the log of another mailbox under its descriptor, reads the base again. -/
theorem failed_append_unnoticed_iff (call : AppendCall) (fault : Option Fault) (rotate : Bool)
    {s locked : Local} (reloaded : s.reload = (.ok (), locked))
    (failed : call.body fault rotate locked = (.error f, s')) :
    (s'.getMessages = s.getMessages ∧ s'.flushed = some (locked.fs.file.records.map Record.stored)) ↔
      call.Refused fault locked ∨
        locked.logReplaced = true ∧ (fault = some .namesOpen ∨ fault = some .namesWrite) := by
  obtain ⟨b, settled, written⟩ := reload_settled reloaded
  obtain ⟨disk, book, keywords, records⟩ := settle_cases call locked
  have before : s.getMessages =
      some ((locked.fs.file.records.map stored).insertionSort (·.uid ≤ ·.uid)) := by
    rw [getMessages, reloaded]
  have twice (l : List Record) : (l.map stored).map stored = l.map stored := by
    rw [List.map_map]
    rfl
  have same {b' : BaseFile} (settled' : s'.Settled b')
      (kept : (s'.kept b').map stored = locked.fs.file.records.map stored) :
      s'.getMessages = s.getMessages ∧ s'.flushed = some (locked.fs.file.records.map stored) := by
    rw [settled'.getMessages, settled'.flushed, kept, before]
    exact ⟨rfl, rfl⟩
  have early (settled' : s'.Settled b) (records' : s'.fs.file.records = locked.fs.file.records)
      (replaced : s'.logReplaced = locked.logReplaced) :
      s'.getMessages = s.getMessages ∧ s'.flushed = some (locked.fs.file.records.map stored) := by
    refine same settled' ?_
    unfold kept
    split
    · rename_i stale
      rw [written (replaced ▸ stale), twice]
    · rw [records']
  have here : (call.settle locked).2.Settled b := settled.touch (by rw [disk]) (by rw [disk]) book
  have replaced := logReplaced_congr (s := locked) (by rw [disk]) book
  unfold AppendCall.body at failed
  unfold AppendCall.Refused
  rcases settles : call.settle locked with ⟨e | m, t⟩
  · rw [settles] at failed here replaced records
    cases failed
    exact iff_of_true (early here records replaced) (.inl trivial)
  rw [settles] at failed here replaced records keywords
  have refuses : t.Refuses fault m ↔ locked.Refuses fault m := by
    unfold Local.Refuses
    rw [keywords]
  rcases tryCommitAppend_failed here failed with
    ⟨refused, settled', records', replaced'⟩ | ⟨accepted, b', r, settled', base, records', stale⟩
  · exact iff_of_true (early settled' (records'.trans records) (replaced'.trans replaced))
      (.inl (refuses.mp refused))
  rw [records] at base records'
  rw [replaced] at stale
  cases read : s'.logReplaced with
  | true =>
    refine iff_of_true (same settled' ?_) (.inr (stale.mp read))
    rw [kept, read, if_pos rfl]
    rcases base with rfl | base
    · rw [written (stale.mp read).1, twice]
    · rw [base, twice]
  | false =>
    refine iff_of_false (fun unnoticed => ?_) ?_
    · -- One record more than before.
      have longer := congrArg (Option.map List.length) unnoticed.1
      rw [settled'.getMessages, before, kept, read, records'] at longer
      simp at longer
    · rintro (refused | late)
      · exact accepted (refuses.mpr refused)
      · rw [stale.mpr late] at read
        cases read

/-- The creator's handle of a new folder, after its first reload. -/
def newFolder : Local := (createFresh 7 9).reload.2

def firstMessage : MessageMeta :=
  { uid := 1, filename := [109], mapUID := 0, saveDate := 0, flags := [], keywords := [], modSeq := 0,
    size := 5,
    vsize := 5, internalDate := 0, guid := 1, altTier := false }

/-- A refused name leaves the new folder as it was. -/
theorem failed_append_unnoticed_iff_naming :
    (AppendCall.body (.allocateAndAppendNamed firstMessage (some (.error .notOpen))) none false
        newFolder).2.getMessages = newFolder.getMessages :=
  have reloaded : newFolder.reload = (.ok (), newFolder) := by decide +kernel
  ((failed_append_unnoticed_iff (.allocateAndAppendNamed firstMessage (some (.error .notOpen))) none false
    reloaded rfl).mpr (.inl trivial)).1

/-- The log write of the first append is refused: the handle lists the message, and its next flush writes
it to the base. -/
theorem refused_log_write_leaves_ghost :
    (AppendCall.body (.appendMessage firstMessage) (some .logWrite) false newFolder).1 =
        .error (.write .logWrite) ∧
      newFolder.getMessages = some [] ∧
      (AppendCall.body (.appendMessage firstMessage) (some .logWrite) false
        newFolder).2.getMessages.map (·.map (·.uid)) = some [1] ∧
      (AppendCall.body (.appendMessage firstMessage) (some .logWrite) false
        newFolder).2.flushed.map (·.map (·.uid)) = some [1] := by
  decide +kernel

end Yarilo.FileIndex

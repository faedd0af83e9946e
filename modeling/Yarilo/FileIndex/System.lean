import Yarilo.FileIndex.Operations

/-! # Several handles on one folder

A system is the files of one folder and the handles open on it. A step is an operation of one
handle, atomic under the folder lock, or a fresh open. A run starts with the creation of the folder.
-/

namespace Yarilo.FileIndex

open Library

inductive Op where
  | allocateUID
  | allocateUIDWithModSeq
  | nextModSeq
  | appendMessage (m : MessageMeta) (rotate : Bool)
  | allocateAndAppendNamed (m : MessageMeta) (name : Option (Except Err Bytes)) (rotate : Bool)
  | writeFlags (mode : FlagWriteMode) (uid : ℕ) (flags : List ImapFlag) (keywords : List Keyword)
  | updateFlagsMulti (updates : List (ℕ × FlagsUpdate))
  | expungeMessage (uid : ℕ)
  | saveFolder
  | recomputeVSize
  | adoptUIDSpace (uidValidity nextUID : ℕ)
  | setGUIDs (guids : List (ℕ × Guid))
  | setCacheOffsets (offsets : List (ℕ × ℕ))
  | leaveCacheGeneration (now : ℕ) (moved : List (ℕ × ℕ))
  | setAltTier (filenames : List Bytes) (altTier : Bool)
  | resetFolder (metas : List MessageMeta)
  | optimizeIndex
  | markFolderCorrupt
  | clearFolderCorrupt
  | read

/-- What the operation does under the lock, after its reload. -/
def Op.body : Op → Local → Result
  | allocateUID => Local.allocateUID
  | allocateUIDWithModSeq => Local.allocateUIDWithModSeq
  | nextModSeq => Local.nextModSeq
  | appendMessage m rotate => Local.appendMessage m rotate
  | allocateAndAppendNamed m name rotate => Local.allocateAndAppendNamed m name rotate
  | writeFlags mode uid flags keywords => Local.writeFlags mode uid flags keywords
  | updateFlagsMulti updates => Local.updateFlagsMulti updates
  | expungeMessage uid => Local.expungeMessage uid
  | saveFolder => Local.saveFolder
  | recomputeVSize => Local.recomputeVSize
  | adoptUIDSpace uidValidity nextUID => Local.adoptUIDSpace uidValidity nextUID
  | setGUIDs guids => Local.setGUIDs guids
  | setCacheOffsets offsets => Local.setCacheOffsets offsets
  | leaveCacheGeneration now moved => Local.leaveCacheGeneration now moved
  | setAltTier filenames altTier => Local.setAltTier filenames altTier
  | resetFolder metas => Local.resetFolder metas
  | optimizeIndex => Local.optimizeIndex
  | markFolderCorrupt => Local.markFolderCorrupt
  | clearFolderCorrupt => Local.clearFolderCorrupt
  | read => Local.read

/-- The operation may rewrite the base. -/
def Op.rewritesBase : Op → Bool
  | .appendMessage m rotate | .allocateAndAppendNamed m _ rotate => rotate || m.keywords ≠ []
  | .saveFolder | .recomputeVSize | .adoptUIDSpace .. | .setGUIDs _ | .setCacheOffsets _
  | .leaveCacheGeneration .. | .setAltTier .. | .resetFolder _ | .optimizeIndex => true
  | _ => false

/-- An edit that leaves the file's identity, counters and history, and its messages' UIDs and sizes. -/
structure File.Upkept (f f' : File) : Prop where
  indexID : f'.header.indexID = f.header.indexID
  nextUID : f'.header.nextUID = f.header.nextUID
  lineage : f'.ext.lineage = f.ext.lineage
  highestModSeq : f'.ext.highestModSeq = f.ext.highestModSeq
  expungeFloor : f'.ext.expungeFloor = f.ext.expungeFloor
  uids : f'.records.map (·.uid) = f.records.map (·.uid)
  sizes : f'.records.map (·.vsize) = f.records.map (·.vsize)

/-- What an operation that is mere upkeep can do: nothing, a header field in the log, or a rewrite of the
base. -/
inductive Upkeep (op : Op) (s : Local) : Result → Prop
  | idle : Upkeep op s (.ok .done, s)
  | mark (change : File → File) (value : ℕ) (upkept : s.fs.file.Upkept (change s.fs.file)) :
    Upkeep op s
      (.ok .done, Local.appendMutLog [.headerUpdate 20 value] { s with fs := s.fs.mapFile change })
  | rewrite (change : File → File) (wholeNames : Bool) (upkept : s.fs.file.Upkept (change s.fs.file))
    (rewrites : op.rewritesBase = true) :
    Upkeep op s (.ok .done, Local.flush wholeNames { s with fs := s.fs.mapFile change })

def Op.upkeep : Op → Bool
  | saveFolder | recomputeVSize | setGUIDs _ | setCacheOffsets _ | leaveCacheGeneration .. | setAltTier ..
  | markFolderCorrupt | clearFolderCorrupt | read => true
  | _ => false

theorem Op.body_upkeep {op : Op} (upkeep : op.upkeep = true) (s : Local) : Upkeep op s (op.body s) := by
  have maps : ∀ g : Record → Record, (∀ r, (g r).uid = r.uid ∧ (g r).vsize = r.vsize) →
      (s.fs.file.records.map g).map (·.uid) = s.fs.file.records.map (·.uid) ∧
        (s.fs.file.records.map g).map (·.vsize) = s.fs.file.records.map (·.vsize) := by
    intro g keeps
    simp only [List.map_map]
    exact ⟨List.map_congr_left fun r _ => (keeps r).1, List.map_congr_left fun r _ => (keeps r).2⟩
  cases op with
  | saveFolder | recomputeVSize => exact .rewrite id false ⟨rfl, rfl, rfl, rfl, rfl, rfl, rfl⟩ rfl
  | setGUIDs guids =>
    obtain ⟨uids, sizes⟩ := maps (·.stampGUID guids) fun r => by
      unfold Record.stampGUID
      split <;> exact ⟨rfl, rfl⟩
    exact .rewrite _ true ⟨rfl, rfl, rfl, rfl, rfl, uids, sizes⟩ rfl
  | setCacheOffsets offsets =>
    obtain ⟨uids, sizes⟩ := maps (·.stampCache offsets) fun r => by
      unfold Record.stampCache
      split <;> exact ⟨rfl, rfl⟩
    exact .rewrite _ true ⟨rfl, rfl, rfl, rfl, rfl, uids, sizes⟩ rfl
  | leaveCacheGeneration now moved =>
    obtain ⟨uids, sizes⟩ := maps (·.moveCache moved) fun _ => ⟨rfl, rfl⟩
    exact .rewrite _ true ⟨rfl, rfl, rfl, rfl, rfl, uids, sizes⟩ rfl
  | setAltTier filenames altTier =>
    obtain ⟨uids, sizes⟩ := maps (·.setTier s.fs.filenames filenames altTier) fun r => by
      unfold Record.setTier
      split <;> exact ⟨rfl, rfl⟩
    simp only [Op.body, Local.setAltTier]
    split
    · exact .idle
    · exact .rewrite _ false ⟨rfl, rfl, rfl, rfl, rfl, uids, sizes⟩ rfl
  | markFolderCorrupt | clearFolderCorrupt =>
    simp only [Op.body, Local.markFolderCorrupt, Local.clearFolderCorrupt]
    split
    · exact .idle
    · exact .mark _ _ ⟨rfl, rfl, rfl, rfl, rfl, rfl, rfl⟩
  | read => exact .idle
  | _ => cases upkeep

/-- The answer of an operation that returns before it takes the lock. -/
def Op.unlocked : Op → Option (Except Err Answer)
  | adoptUIDSpace uidValidity _ =>
    if uidValidity = 0 then some (.error .uidValidityZero) else none
  | setCacheOffsets offsets => if offsets = [] then some (.ok .done) else none
  | setAltTier filenames _ => if filenames = [] then some (.ok .done) else none
  | _ => none

def Op.run (op : Op) (s : Local) : Result :=
  match op.unlocked with
  | some answer => (answer, s)
  | none => s.withFolder op.body

structure Sys where
  disk : Disk
  handles : List FolderState
deriving DecidableEq

inductive Step where
  | op (handle : ℕ) (op : Op)
  | openFolder

/-- A folder just created, with its creator's handle. -/
def Sys.init (uidValidity indexID : ℕ) : Sys :=
  let s := createFresh uidValidity indexID
  { disk := s.disk, handles := [s.fs] }

def Sys.step (sys : Sys) : Step → Except Err Answer × Sys
  | .op i op =>
    match sys.handles[i]? with
    | none => (.error .notOpen, sys)
    | some fs =>
      let (answer, s) := op.run { disk := sys.disk, fs := fs }
      (answer, { disk := s.disk, handles := sys.handles.set i s.fs })
  | .openFolder =>
    match FileIndex.openFolder sys.disk with
    | (.ok fs, disk) => (.ok .done, { disk := disk, handles := sys.handles ++ [fs] })
    | (.error e, disk) => (.error e, { sys with disk := disk })

/-- The state in which the body of the handle's next operation would run: after its reload. -/
def Sys.locked (sys : Sys) (i : ℕ) : Option Local :=
  match sys.handles[i]? with
  | none => none
  | some fs =>
    match Local.reload { disk := sys.disk, fs := fs } with
    | (.ok (), s) => some s
    | (.error _, _) => none

/-- What one step of a run saw and did. -/
structure Event where
  before : Sys
  step : Step
  answer : Except Err Answer
  after : Sys

def Sys.event (sys : Sys) (step : Step) : Event where
  before := sys
  step := step
  answer := (sys.step step).1
  after := (sys.step step).2

/-- The events of a run, in order. -/
def Sys.trace (sys : Sys) : List Step → List Event
  | [] => []
  | step :: rest => sys.event step :: (sys.step step).2.trace rest

/-- The state a run ends in. -/
def Sys.run (sys : Sys) : List Step → Sys
  | [] => sys
  | step :: rest => (sys.step step).2.run rest

/-- Every step of the run meets the condition, which may look at the events before it. -/
def Sys.Guarded (cond : List Event → Sys → Step → Prop) (past : List Event) (sys : Sys) : List Step → Prop
  | [] => True
  | step :: rest =>
    cond past sys step ∧ Sys.Guarded cond (past ++ [sys.event step]) (sys.step step).2 rest

variable {sys : Sys}

/-- What every step that meets the condition preserves holds at the end of a guarded run. -/
theorem Sys.run_induction {cond : List Event → Sys → Step → Prop} {P : List Event → Sys → Prop}
    (preserve : ∀ past sys step, P past sys → cond past sys step →
      P (past ++ [sys.event step]) (sys.step step).2)
    {past : List Event} {steps : List Step} (start : P past sys)
    (guarded : Sys.Guarded cond past sys steps) : P (past ++ sys.trace steps) (sys.run steps) := by
  induction steps generalizing past sys with
  | nil => simpa [Sys.trace, Sys.run] using start
  | cons step rest ih =>
    have next := ih (preserve past sys step start guarded.1) guarded.2
    simpa [Sys.trace, Sys.run] using next

theorem Sys.locked_eq_some {i : ℕ} {s : Local} (locked : sys.locked i = some s) :
    ∃ fs, sys.handles[i]? = some fs ∧ Local.reload { disk := sys.disk, fs := fs } = (.ok (), s) := by
  unfold Sys.locked at locked
  split at locked
  · cases locked
  rename_i fs handle
  refine ⟨fs, handle, ?_⟩
  split at locked
  · rename_i s' reloaded
    rw [reloaded, Option.some.inj locked]
  · cases locked

/-- What an operation's step can do: nothing, because there is no such handle or it returns before
it takes the lock; only the failed reload; or the reload and the body. -/
theorem Sys.step_op_cases (sys : Sys) (i : ℕ) (op : Op) : (∃ answer, sys.step (.op i op) = (answer, sys) ∧
        (answer = .error .notOpen ∨ op.unlocked = some answer)) ∨
      (∃ fs e s, sys.handles[i]? = some fs ∧ Local.reload { disk := sys.disk, fs := fs } = (.error e, s) ∧
        sys.step (.op i op) = (.error e, { disk := s.disk, handles := sys.handles.set i s.fs })) ∨
      ∃ s, sys.locked i = some s ∧ op.unlocked = none ∧ sys.step (.op i op) = ((op.body s).1,
          { disk := (op.body s).2.disk, handles := sys.handles.set i (op.body s).2.fs }) := by
  cases handle : sys.handles[i]? with
  | none => exact .inl ⟨.error .notOpen, by simp [Sys.step, handle], .inl rfl⟩
  | some fs =>
    have same : sys.handles.set i fs = sys.handles := by
      obtain ⟨inside, rfl⟩ := List.getElem?_eq_some_iff.mp handle
      exact List.set_getElem_self inside
    simp only [Sys.step, handle, Op.run]
    cases unlocked : op.unlocked with
    | some answer => exact .inl ⟨answer, by simp [same], .inr rfl⟩
    | none =>
      right
      simp only [Local.withFolder, Sys.locked, handle]
      cases reloaded : Local.reload { disk := sys.disk, fs := fs } with
      | mk result s =>
        cases result with
        | error e => exact .inl ⟨fs, e, s, rfl, reloaded, rfl⟩
        | ok _ => exact .inr ⟨s, rfl, trivial, rfl⟩

/-- What ties a handle to the files. -/
def FolderState.book (fs : FolderState) : ℕ × LineageHdr × ℕ × Option ℕ × ℕ :=
  (fs.baseIdent, fs.lineage, fs.logSize, fs.logFD, fs.file.header.indexID)

theorem FolderState.book_iff {fs fs' : FolderState} : fs'.book = fs.book ↔
    fs'.baseIdent = fs.baseIdent ∧ fs'.lineage = fs.lineage ∧ fs'.logSize = fs.logSize ∧
      fs'.logFD = fs.logFD ∧ fs'.file.header.indexID = fs.file.header.indexID := by
  simp [FolderState.book]

theorem File.Upkept.book {fs : FolderState} {change : File → File}
    (upkept : fs.file.Upkept (change fs.file)) : (fs.mapFile change).book = fs.book :=
  FolderState.book_iff.mpr ⟨rfl, rfl, rfl, rfl, upkept.indexID⟩

end Yarilo.FileIndex

import Mathlib.Data.List.Sort
import Yarilo.FileIndex.Loops

/-! # The ledger of a folder

What a store sees of the index: which UIDs have a record, the filename of each, and the UID that
is handed out next. The operations a store calls act on the ledger alone as far as the store is
concerned; counters, keyword bits and the files of the index do not show in it.
-/

namespace Yarilo.FileIndex

open Library List Function

def indexFlagsToIMAP (b : MailFlag) : List ImapFlag :=
  [ImapFlag.answered, .flagged, .deleted, .seen, .draft].filter fun f => b &&& f.bit ≠ 0

variable (fs : FolderState)

/-- From the record where it has a size, else from the sidecar. -/
def FolderState.recordSize (r : Record) : ℕ :=
  if r.vsize ≠ 0 then r.vsize else mapGet 0 fs.sizes r.uid

/-- A record as `GetMessages` describes it. -/
def FolderState.metaOf (r : Record) : MessageMeta where
  uid := r.uid
  filename := mapGet [] fs.filenames r.uid
  mapUID := (r.mdbox.getD (0, 0)).1
  saveDate := (r.mdbox.getD (0, 0)).2
  flags := indexFlagsToIMAP r.flags
  keywords := keywordsFromBitmask fs.keywords r.keywords
  modSeq := r.modseq
  size := fs.recordSize r
  vsize := r.vsize
  internalDate := r.idate.getD 0
  guid := r.guid
  altTier := r.flags &&& flagBackend ≠ 0

/-- `GetMessages` of every UID: sorted by UID. -/
def FolderState.getMessages : List MessageMeta :=
  (fs.file.records.map fs.metaOf).insertionSort fun a b => a.uid ≤ b.uid

/-- Repoints a stored filename. A UID without one is left alone, and no name is ever emptied. -/
def Local.updateFilename (uid : ℕ) (filename : Bytes) (s : Local) : Result :=
  if (s.fs.filenames.lookup uid).isNone ∨ mapGet [] s.fs.filenames uid = filename ∨ filename = [] then
    (.ok .done, s)
  else
    let s := s.mapFs fun fs => { fs with filenames := mapSet fs.filenames uid filename }
    (.ok .done, s.appendName uid filename (mapGet 0 s.fs.sizes uid))

/-- The UIDs with a record, in the order of the records, their filenames, and the next UID. -/
structure Ledger where
  uids : List ℕ
  name : ℕ → Bytes
  next : ℕ

namespace Ledger

variable (l : Ledger)

def expunge (uid : ℕ) : Ledger :=
  if uid ∈ l.uids then
    { l with
      uids := l.uids.erase uid
      name := update l.name uid [] }
  else l

def rename (uid : ℕ) (filename : Bytes) : Ledger :=
  { l with name := update l.name uid filename }

def append (uid : ℕ) (filename : Bytes) : Ledger where
  uids := l.uids ++ [uid]
  name := update l.name uid filename
  next := if l.next ≤ uid then u32 (uid + 1) else l.next

/-- The UID an allocation hands out. -/
def fresh : ℕ := if l.next = 0 then 1 else l.next

def allocate (filename : Bytes) : Ledger :=
  ({ l with next := u32 (l.fresh + 1) } : Ledger).append l.fresh filename

/-- The messages, as pairs of a UID and a filename. -/
def entries : List (ℕ × Bytes) := l.uids.map fun uid => (uid, l.name uid)

end Ledger

def FolderState.ledger : Ledger where
  uids := fs.file.records.map (·.uid)
  name := mapGet [] fs.filenames
  next := fs.file.header.nextUID

def Local.ledger (s : Local) : Ledger := s.fs.ledger

variable {β : Type}

theorem lookup_filter_ne (m : List (ℕ × β)) {key k : ℕ} (other : k ≠ key) :
    (m.filter (·.1 ≠ key)).lookup k = m.lookup k := by
  induction m with
  | nil => rfl
  | cons head rest ih => grind

theorem mapGet_mapSet (zero : β) (m : List (ℕ × β)) (key : ℕ) (value : β) :
    mapGet zero (mapSet m key value) = update (mapGet zero m) key value := by
  funext k
  by_cases same : k = key
  · subst same
    simp [mapGet, mapSet]
  rw [update_of_ne same, mapGet, mapSet, lookup_cons, beq_eq_false_iff_ne.mpr same]
  rw [lookup_filter_ne m same, mapGet]

theorem mapGet_mapDelete (zero : β) (m : List (ℕ × β)) (key : ℕ) :
    mapGet zero (mapDelete m key) = update (mapGet zero m) key zero := by
  funext k
  by_cases same : k = key
  · subst same
    rw [update_self, mapGet, mapDelete, lookup_eq_none_iff.mpr]
    · rfl
    · intro pair member
      have other : pair.1 ≠ k := by simpa using (mem_filter.mp member).2
      simpa using other.symm
  · rw [update_of_ne same, mapGet, mapDelete, lookup_filter_ne m same, mapGet]

/-! ## What leaves the ledger alone -/

namespace Local

variable (s : Local)

@[simp] theorem appendMutLog_ledger (group : Group) : (s.appendMutLog group).ledger = s.ledger := by
  unfold appendMutLog ledger FolderState.ledger
  split
  · rfl
  · split <;> rfl

@[simp] theorem appendName_ledger (uid : ℕ) (name : Bytes) (size : ℕ) :
    (s.appendName uid name size).ledger = s.ledger := by
  unfold appendName ledger FolderState.ledger
  split
  · rfl
  split
  · rfl
  · split <;> rfl

@[simp] theorem flush_ledger (wholeNames : Bool) : (s.flush wholeNames).ledger = s.ledger := by
  cases wholeNames <;> rfl

@[simp] theorem compactLogIfNeeded_ledger (rotate : Bool) :
    (s.compactLogIfNeeded rotate).ledger = s.ledger := by
  cases rotate
  · rfl
  · unfold compactLogIfNeeded compact
    rw [if_pos rfl]
    show (((s.mapFs (·.stampExpungeFloor)).flush false)).ledger = s.ledger
    rw [flush_ledger]
    rfl

theorem growRegistry_ledger (registry : Registry) : (s.growRegistry registry).ledger = s.ledger := by
  unfold growRegistry
  dsimp only
  split
  · rw [flush_ledger]
    rfl
  · rfl

theorem stampModSeq_ledger (m : MessageMeta) : (s.stampModSeq m).ledger = s.ledger := by
  unfold stampModSeq mapFs ledger
  split <;> rfl

theorem flushAppend_ledger (r : Record) : (s.flushAppend r).ledger = s.ledger := by
  unfold flushAppend
  rw [appendMutLog_ledger, appendName_ledger]

end Local

/-! ## The operations a store calls -/

theorem FolderState.addRecord_ledger (m : MessageMeta) {r : Record}
    (uid : r.uid = m.uid) (named : m.filename ≠ []) :
    (fs.addRecord m r).ledger = fs.ledger.append m.uid m.filename := by
  unfold ledger Ledger.append addRecord
  simp [uid, if_pos named, mapGet_mapSet]

namespace Local

variable {s s' : Local} {answer : Answer} {m : MessageMeta} {rotate : Bool} {uid : ℕ}

theorem commitAppend_ledger (named : m.filename ≠ []) (done : s.commitAppend m rotate = (.ok answer, s')) :
    s'.ledger = s.ledger.append m.uid m.filename := by
  rcases commitAppend_cases m rotate s with zero | full | ⟨bits, registry, modseq, r, _, _, rfl, eq⟩
  · rw [zero] at done
    cases done
  · rw [full] at done
    cases done
  rw [eq] at done
  cases done
  rw [compactLogIfNeeded_ledger, flushAppend_ledger]
  show FolderState.ledger (FolderState.addRecord _ m _) = _
  rw [FolderState.addRecord_ledger _ _ rfl named]
  show (((s.stampModSeq m).growRegistry registry).ledger).append _ _ = _
  rw [growRegistry_ledger, stampModSeq_ledger]

theorem allocateAndAppendNamed_ledger (named : m.filename ≠ [])
    (done : s.allocateAndAppendNamed m none rotate = (.ok answer, s')) :
    s'.ledger = s.ledger.allocate m.filename := by
  unfold allocateAndAppendNamed at done
  dsimp only at done
  cases committed : Local.commitAppend { m with uid := s.nextUID } rotate
      (s.mapFs (·.setNextUID (u32 (s.nextUID + 1)))) with
  | mk result s'' =>
    rw [committed] at done
    cases result with
    | error e => cases done
    | ok reply =>
      cases done
      exact commitAppend_ledger (by exact named) committed

theorem expungeMessage_ledger (uid : ℕ) (s : Local) :
    ∃ s', s.expungeMessage uid = (.ok .done, s') ∧ s'.ledger = s.ledger.expunge uid := by
  unfold expungeMessage
  dsimp only
  cases target : (s.mapFs (·.bumpModSeqHeader)).fs.target uid with
  | none =>
    refine ⟨_, rfl, ?_⟩
    unfold Ledger.expunge
    rw [if_neg]
    · rfl
    · intro member
      obtain ⟨r, inside, rfl⟩ := mem_map.mp member
      have := find?_eq_none.mp target r inside
      simp at this
  | some r =>
    have at_ : r.uid = uid := by simpa using find?_some target
    have held : uid ∈ s.ledger.uids := mem_map.mpr ⟨r, mem_of_find?_eq_some target, at_⟩
    refine ⟨_, rfl, ?_⟩
    rw [appendMutLog_ledger]
    unfold Ledger.expunge
    rw [if_pos held, ← at_]
    unfold ledger FolderState.ledger mapFs FolderState.removeRecord
    rw [map_uid_removeFirst, mapGet_mapDelete]
    rfl

theorem writeFlags_ledger {mode : FlagWriteMode} {flags : List ImapFlag} {keywords : List Keyword}
    (done : s.writeFlags mode uid flags keywords = (.ok answer, s')) : s'.ledger = s.ledger := by
  rcases writeFlags_cases mode uid flags keywords s with full |
    ⟨bits, registry, newFlags, fs, want, _, _, _, rfl, ⟨reflags, _⟩, eq⟩
  · rw [full] at done
    cases done
  rw [eq] at done
  cases done
  rw [appendMutLog_ledger]
  unfold ledger FolderState.ledger
  rw [reflags.records fun _ _ _ _ => rfl, reflags.nextUID]
  rfl

theorem updateFilename_ledger (s : Local) {filename : Bytes} (named : filename ≠ [])
    (known : s.ledger.name uid ≠ []) :
    ∃ s', s.updateFilename uid filename = (.ok .done, s') ∧ s'.ledger = s.ledger.rename uid filename := by
  unfold updateFilename
  split
  · rename_i same
    refine ⟨s, rfl, ?_⟩
    rcases same with missing | same | empty
    · refine absurd ?_ known
      show mapGet [] s.fs.filenames uid = []
      rw [mapGet, Option.isNone_iff_eq_none.mp missing]
      rfl
    · unfold Ledger.rename
      rw [← same]
      show s.ledger = { s.ledger with name := update s.ledger.name uid (s.ledger.name uid) }
      rw [update_eq_self]
    · exact absurd empty named
  · refine ⟨_, rfl, ?_⟩
    rw [appendName_ledger]
    unfold Ledger.rename ledger FolderState.ledger mapFs
    rw [mapGet_mapSet]

theorem adoptUIDSpace_ledger (uidValidity nextUID : ℕ) (s : Local) :
    s.ledger.uids ≠ [] ∧ s.adoptUIDSpace uidValidity nextUID = (.error .uidSpaceInUse, s) ∨
      s.ledger.uids = [] ∧ ∃ s', s.adoptUIDSpace uidValidity nextUID = (.ok .done, s') ∧
        s'.ledger = { s.ledger with next := max s.ledger.next nextUID } := by
  have empty : s.ledger.uids = [] ↔ s.fs.file.records = [] := map_eq_nil_iff
  unfold adoptUIDSpace
  by_cases none : s.fs.file.records = []
  · refine .inr ⟨empty.mpr none, ?_⟩
    rw [if_neg (not_not.mpr none)]
    refine ⟨_, rfl, ?_⟩
    rw [flush_ledger]
    rfl
  · exact .inl ⟨mt empty.mp none, by rw [if_pos none]⟩

theorem setGUIDs_ledger (guids : List (ℕ × Guid)) (s : Local) :
    ∃ s', s.setGUIDs guids = (.ok .done, s') ∧ s'.ledger = s.ledger := by
  refine ⟨_, rfl, ?_⟩
  rw [flush_ledger]
  unfold ledger FolderState.ledger mapFs FolderState.mapFile
  simp only [map_map]
  congr 1
  refine map_congr_left fun r _ => ?_
  unfold Record.stampGUID
  dsimp only [comp]
  split <;> rfl

end Local

end Yarilo.FileIndex

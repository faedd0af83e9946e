import Yarilo.FileIndex.Replay
import Yarilo.FileIndex.System

/-! # What the bodies keep

Flag writes, batches and resets change records and counts and leave the rest of the file alone. A
batch of flag updates and a reset walk over records with several accumulators; the facts about a
whole loop are each proved from one step.
-/

namespace Yarilo.FileIndex

open Library Batch FolderState Local List

/-- The part of the header no count touches. -/
def Header.frame (h : Header) : ℕ × BitVec 32 × ℕ × ℕ := (h.indexID, h.flags, h.uidValidity, h.nextUID)

/-- The record sets the next UID. -/
def TxRecord.setsNextUID : TxRecord → Bool
  | .headerUpdate offset _ => offset = 28
  | _ => false

/-- The record carries a modseq. -/
def TxRecord.setsModSeq : TxRecord → Bool
  | .modseqUpdate _ | .expungeGUID _ => true
  | _ => false

/-- The record registers or drops a keyword. -/
def TxRecord.IsKeyword : TxRecord → Prop
  | .keywordUpdate .. | .keywordReset .. => True
  | _ => False

variable {uid : ℕ} {have_ want : List Keyword} {tx : TxRecord} {fs : FolderState} {b : Batch}

theorem keywordLogRecords_isKeyword (member : tx ∈ keywordLogRecords uid have_ want) : tx.IsKeyword := by
  unfold keywordLogRecords at member
  dsimp only at member
  split_ifs at member
  · cases member
  · obtain rfl := mem_singleton.mp member
    trivial
  rcases mem_append.mp member with added | removed
  · obtain ⟨name, _, rfl⟩ := mem_map.mp added
    trivial
  · obtain ⟨name, _, rfl⟩ := mem_map.mp removed
    trivial

/-- A field a flag write leaves alone. -/
def Unwritten {β : Type} (view : Record → β) : Prop := ∀ (r : Record) flags modseq bits,
    view { r with flags := flags, modseq := modseq, keywords := bits } = view r

/-- What flag writes leave of a handle: they change flags, keywords, modseqs and counts. -/
structure FolderState.Reflags (fs' fs : FolderState) : Prop where
  book : fs'.book = fs.book
  nextUID : fs'.file.header.nextUID = fs.file.header.nextUID
  expungeFloor : fs'.file.ext.expungeFloor = fs.file.ext.expungeFloor
  vsize : fs'.vsize = fs.vsize
  records : ∀ {β : Type} {view : Record → β}, Unwritten view →
    fs'.file.records.map view = fs.file.records.map view

theorem writeRecord_reflags (fs : FolderState) (registry : Registry) (uid : ℕ) (flags : MailFlag)
    (bits : BitVec 32) :
    ((fs.bumpModSeqHeader.persistKeywordRegistry registry).writeRecord uid flags bits).Reflags fs ∧
      ((fs.bumpModSeqHeader.persistKeywordRegistry registry).writeRecord uid flags bits).highestModSeq =
        fs.bumpModSeqHeader.highestModSeq := by
  have records : ∀ {β : Type} {view : Record → β}, Unwritten view → ((fs.bumpModSeqHeader.persistKeywordRegistry
      registry).writeRecord uid flags bits).file.records.map view = fs.file.records.map view :=
    fun unwritten => map_view_updateFirst _ (fun r => unwritten r ..) _
  have counted : ((fs.bumpModSeqHeader.persistKeywordRegistry registry).writeRecord uid flags
      bits).file.header.frame = fs.file.header.frame := by
    unfold writeRecord mapFile
    cases target _ uid <;> rfl
  simp only [Header.frame, Prod.mk.injEq] at counted
  exact ⟨⟨book_iff.mpr ⟨rfl, rfl, rfl, rfl, counted.1⟩, counted.2.2.2, rfl, rfl, records⟩, rfl⟩

/-- The records of a flag write's group: stamps, flags, keyword changes and the two counts. -/
theorem forall_mem_flagGroup {P : TxRecord → Prop} {updates : List (ℕ × ℕ)} {flags : List FlagUpdate}
    {keywordRecs : List TxRecord} {seen deleted : ℕ} (stamp : P (.modseqUpdate updates))
    (flag : P (.flagUpdate flags)) (keyword : ∀ tx ∈ keywordRecs, P tx)
    (count : ∀ offset ∈ [40, 44], ∀ value, P (.headerUpdate offset value)) :
    ∀ tx ∈ [.modseqUpdate updates, .flagUpdate flags] ++ keywordRecs ++
      [.headerUpdate 40 seen, .headerUpdate 44 deleted], P tx := by
  intro tx member
  simp only [mem_append, mem_cons, not_mem_nil, or_false] at member
  rcases member with ((rfl | rfl) | held) | rfl | rfl
  · exact stamp
  · exact flag
  · exact keyword tx held
  · exact count 40 (by simp) _
  · exact count 44 (by simp) _

/-- What a flag write can do: refuse its names after the counter has moved, or commit one group. -/
theorem writeFlags_cases (mode : FlagWriteMode) (uid : ℕ) (flags : List ImapFlag)
    (keywords : List Keyword) (s : Local) :
    s.writeFlags mode uid flags keywords =
        (.error .keywordRegistryFull, { s with fs := s.fs.bumpModSeqHeader }) ∨
      ∃ bits registry newFlags fs want, want = mode.wanted (s.fs.bumpModSeqHeader.namesOf uid) keywords ∧
        keywordsBitmaskFor s.fs.keywords want = some (bits, registry) ∧
        newFlags = s.fs.bumpModSeqHeader.newFlags mode uid (imapFlagsToIndex flags) ∧
        fs = (s.fs.bumpModSeqHeader.persistKeywordRegistry registry).writeRecord uid newFlags bits ∧
        (fs.Reflags s.fs ∧ fs.highestModSeq = s.fs.bumpModSeqHeader.highestModSeq) ∧
        s.writeFlags mode uid flags keywords = (.ok .done, appendMutLog
            (fs.flagGroup uid newFlags (s.fs.bumpModSeqHeader.namesOf uid) want)
            { s with fs := fs }) := by
  unfold writeFlags
  dsimp only
  cases known : keywordsBitmaskFor (s.mapFs (·.bumpModSeqHeader)).fs.keywords
      (mode.wanted ((s.mapFs (·.bumpModSeqHeader)).fs.namesOf uid) keywords) with
  | none => exact .inl rfl
  | some found =>
    exact .inr ⟨found.1, found.2, _, _, _, rfl, known, rfl, rfl, writeRecord_reflags .., rfl⟩

namespace Batch

variable {updates : List (ℕ × FlagsUpdate)} {start : ℕ} {records : List Record}

theorem step_header (b : Batch) (r : Record) : (b.step updates r).1.header.frame = b.header.frame := by
  unfold step
  split
  · rfl
  · dsimp only
    split <;> rfl

theorem step_keywordRecs (r : Record) (keywords : ∀ tx ∈ b.keywordRecs, tx.IsKeyword) :
    ∀ tx ∈ (b.step updates r).1.keywordRecs, tx.IsKeyword := by
  unfold step
  split
  · exact keywords
  dsimp only
  split
  · exact keywords
  intro tx member
  rcases mem_append.mp member with old | new
  · exact keywords tx old
  · exact keywordLogRecords_isKeyword new

/-- A fact one step keeps, whatever it answers, is kept by the loop. -/
theorem loop_induction {P : Batch → Prop} (step : ∀ b r, P b → P (b.step updates r).1)
    (rest : ∀ b records, P b → P { b with passed := b.passed ++ records }) (records : List Record)
    (start : P b) : P (b.loop updates records).1 := by
  induction records generalizing b with
  | nil => exact start
  | cons r records ih =>
    have next := step b r start
    unfold loop
    split
    · rename_i b' stepped
      rw [stepped] at next
      exact ih next
    rename_i b' stepped
    rw [stepped] at next
    exact rest b' records next

section

variable (updates : List (ℕ × FlagsUpdate))

theorem loop_header (b : Batch) (records : List Record) :
    (b.loop updates records).1.header.frame = b.header.frame :=
  loop_induction (fun b' r same => (step_header b' r).trans same) (fun _ _ same => same) records rfl

theorem loop_keywordRecs (records : List Record) (keywords : ∀ tx ∈ b.keywordRecs, tx.IsKeyword) :
    ∀ tx ∈ (b.loop updates records).1.keywordRecs, tx.IsKeyword :=
  loop_induction (P := fun b => ∀ tx ∈ b.keywordRecs, tx.IsKeyword)
    (fun _ r keywords => step_keywordRecs r keywords) (fun _ _ keywords => keywords) records keywords

/-- Every modseq a batch stamps lies above the counter it started from and not above the one it ends
with, as long as the counter does not wrap. -/
structure Stamps (start : ℕ) (b : Batch) : Prop where
  grows : start ≤ b.highest
  stamped : ∀ u ∈ b.modseqUpdates, start < u.2 ∧ u.2 ≤ b.highest

theorem step_stamps (r : Record) (stamps : b.Stamps start) (room : b.highest + 1 < 2 ^ 64) :
    (b.step updates r).1.Stamps start ∧ (b.step updates r).1.highest ≤ b.highest + 1 := by
  have unwrapped : u64 (b.highest + 1) = b.highest + 1 := Nat.mod_eq_of_lt room
  have grows := stamps.grows
  unfold step
  split
  · exact ⟨⟨grows, stamps.stamped⟩, Nat.le_succ _⟩
  dsimp only
  rw [unwrapped]
  have raised : ∀ u ∈ b.modseqUpdates, start < u.2 ∧ u.2 ≤ b.highest + 1 := fun u member =>
    ⟨(stamps.stamped u member).1, Nat.le_succ_of_le (stamps.stamped u member).2⟩
  split
  · exact ⟨⟨Nat.le_succ_of_le grows, raised⟩, le_rfl⟩
  exact ⟨⟨Nat.le_succ_of_le grows, forall_mem_concat raised ⟨Nat.lt_succ_of_le grows, le_rfl⟩⟩, le_rfl⟩

theorem loop_stamps (stamps : b.Stamps start)
    (room : b.highest + records.length < 2 ^ 64) : (b.loop updates records).1.Stamps start := by
  induction records generalizing b with
  | nil => exact stamps
  | cons r records ih =>
    rw [length_cons] at room
    obtain ⟨next, le⟩ := step_stamps updates r stamps (by omega)
    unfold loop
    split
    · rename_i b' stepped
      rw [stepped] at next le
      exact ih next (by have le : b'.highest ≤ b.highest + 1 := le; omega)
    rename_i b' stepped
    rw [stepped] at next
    exact ⟨next.grows, next.stamped⟩

theorem step_passed {β : Type} (view : Record → β) (unwritten : Unwritten view) (b : Batch) (r : Record) :
    (b.step updates r).1.passed.map view = b.passed.map view ++ [view r] := by
  unfold step
  split
  · simp
  dsimp only
  split
  · simp
  · simp [unwritten r]

/-- A batch changes only what a flag write does, also when it stops early. -/
theorem loop_passed {β : Type} (view : Record → β) (unwritten : Unwritten view) (b : Batch) (records : List Record) :
    (b.loop updates records).1.passed.map view = b.passed.map view ++ records.map view := by
  induction records generalizing b with
  | nil => simp [loop]
  | cons r rest ih =>
    have first := step_passed updates view unwritten b r
    unfold loop
    split <;> rename_i b' stepped <;> rw [stepped] at first
    · rw [ih, first]
      simp
    · show (b'.passed ++ rest).map view = _
      rw [map_append, first]
      simp

end

/-- A step that succeeds passes the record by, or stamps it with the counter it leaves. -/
theorem step_ok {b' : Batch} {r : Record} (stepped : b.step updates r = (b', true)) :
    updates.lookup r.uid = none ∧ b'.modseqUpdates = b.modseqUpdates ∧ b'.highest = b.highest ∨
      (updates.lookup r.uid).isSome = true ∧ b'.modseqUpdates = b.modseqUpdates ++ [(r.uid, b'.highest)] := by
  unfold step at stepped
  split at stepped
  · rename_i other
    cases stepped
    exact .inl ⟨other, rfl, rfl⟩
  rename_i listed
  dsimp only at stepped
  split at stepped <;> cases stepped
  exact .inr ⟨by rw [listed]; rfl, rfl⟩

/-- A batch that succeeds has something to commit if it meets one of its records, and the last modseq it
stamps is its counter. -/
theorem loop_commits {b' : Batch} (looped : b.loop updates records = (b', true))
    (last : b.modseqUpdates = [] ∨ ∃ u ∈ b.modseqUpdates, u.2 = b.highest) :
    (b'.modseqUpdates = [] ↔ b.modseqUpdates = [] ∧ ∀ r ∈ records, updates.lookup r.uid = none) ∧
      (b'.modseqUpdates = [] ∨ ∃ u ∈ b'.modseqUpdates, u.2 = b'.highest) := by
  induction records generalizing b with
  | nil =>
    cases looped
    exact ⟨by simp, last⟩
  | cons r records ih =>
    unfold loop at looped
    split at looped
    · rename_i middle stepped
      rcases step_ok stepped with ⟨other, kept, highest⟩ | ⟨listed, stamped⟩
      · obtain ⟨some, last⟩ := ih looped (by rwa [kept, highest])
        exact ⟨some.trans (by simp only [kept, forall_mem_cons, other, true_and]), last⟩
      · obtain ⟨some, last⟩ := ih looped (.inr ⟨(r.uid, middle.highest), by simp [stamped], rfl⟩)
        refine ⟨some.trans (iff_of_false (fun none => ?_) fun none => ?_), last⟩
        · simp [stamped] at none
        · rw [none.2 r (.head _)] at listed
          cases listed
    · cases looped

end Batch

/-- The handle a batch starts from and the accumulators it ends with, over the handle of the operation. -/
structure Batched (updates : List (ℕ × FlagsUpdate)) (s : Local) (fs : FolderState) (b : Batch)
    (ok : Bool) : Prop where
  looped : (Batch.start fs).loop updates fs.file.records = (b, ok)
  records : fs.file.records = s.fs.file.records
  reflags : (fs.batched b).Reflags s.fs
  keywords : ∀ tx ∈ b.keywordRecs, tx.IsKeyword
  stamps : s.fs.highestModSeq + s.fs.file.records.length < 2 ^ 64 → b.Stamps s.fs.highestModSeq

theorem batched_of_looped {updates : List (ℕ × FlagsUpdate)} {s : Local} {registry : Registry} {ok : Bool}
    (named : fs = if batchKeywords updates = [] then s.fs else s.fs.persistKeywordRegistry registry)
    (looped : (Batch.start fs).loop updates fs.file.records = (b, ok)) : Batched updates s fs b ok := by
  have same : fs.book = s.fs.book ∧ fs.file.header = s.fs.file.header ∧
      fs.file.ext.expungeFloor = s.fs.file.ext.expungeFloor ∧ fs.vsize = s.fs.vsize ∧
      fs.file.records = s.fs.file.records ∧ fs.highestModSeq = s.fs.highestModSeq := by
    rw [named]
    split <;> exact ⟨rfl, rfl, rfl, rfl, rfl, rfl⟩
  obtain ⟨book, sameHeader, floor, vsize, records, highest⟩ := same
  have header := loop_header updates (start fs) fs.file.records
  have keywords := loop_keywordRecs updates (b := start fs) fs.file.records nofun
  have passed {β : Type} {view : Record → β} (unwritten : Unwritten view) :
      b.passed.map view = s.fs.file.records.map view := by
    have loop := loop_passed updates view unwritten (start fs) fs.file.records
    rwa [looped, records] at loop
  have stamps (room : s.fs.highestModSeq + s.fs.file.records.length < 2 ^ 64) :
      ((start fs).loop updates fs.file.records).1.Stamps s.fs.highestModSeq := by
    refine loop_stamps updates ⟨highest.ge, nofun⟩ ?_
    show fs.highestModSeq + _ < _
    rw [highest, records]
    exact room
  rw [looped] at header keywords stamps
  simp only [Header.frame, Prod.mk.injEq] at header
  have kept : (fs.batched b).book = fs.book := book_iff.mpr ⟨rfl, rfl, rfl, rfl, header.1⟩
  exact ⟨looped, records, ⟨kept.trans book, header.2.2.2.trans (congrArg Header.nextUID sameHeader),
    floor, vsize, passed⟩, keywords, stamps⟩

/-- What a batch can do: refuse its names, stop at a record whose names do not fit, find no record,
or commit one group. -/
theorem updateFlagsMulti_cases (updates : List (ℕ × FlagsUpdate)) (s : Local) :
    s.updateFlagsMulti updates = (.error .keywordRegistryFull, s) ∨ ∃ bits registry fs b ok,
        keywordsBitmaskFor s.fs.keywords (batchKeywords updates) = some (bits, registry) ∧
        fs = (if batchKeywords updates = [] then s.fs
          else s.fs.persistKeywordRegistry registry) ∧
        Batched updates s fs b ok ∧
        (ok = false ∧ s.updateFlagsMulti updates =
              (.error .keywordRegistryFull, { s with fs := fs.batched b }) ∨
          ok = true ∧ b.modseqUpdates = [] ∧
            s.updateFlagsMulti updates = (.ok .done, { s with fs := fs.batched b }) ∨
          ok = true ∧ b.modseqUpdates ≠ [] ∧ s.updateFlagsMulti updates =
              (.ok .done, appendMutLog b.group { s with fs := fs.batched b })) := by
  unfold updateFlagsMulti
  cases known : keywordsBitmaskFor s.fs.keywords (batchKeywords updates) with
  | none => exact .inl rfl
  | some found =>
    right
    have named : (if batchKeywords updates = [] then s
        else s.mapFs (·.persistKeywordRegistry found.2)) =
        { s with fs := if batchKeywords updates = [] then s.fs
          else s.fs.persistKeywordRegistry found.2 } := by
      split <;> rfl
    refine ⟨found.1, found.2, _, _, _, rfl, rfl, batched_of_looped rfl rfl, ?_⟩
    dsimp only
    rw [named]
    set looped := (start _).loop updates _
    rcases ok : looped.2 with _ | _
    · exact .inl ⟨rfl, rfl⟩
    by_cases none : looped.1.modseqUpdates = []
    · exact .inr (.inl ⟨rfl, none, if_pos none⟩)
    · exact .inr (.inr ⟨rfl, none, if_neg none⟩)

namespace Rebuild

theorem step_header {b b' : Rebuild} {m : MessageMeta} (stepped : b.step m = some b') :
    b'.header.frame = b.header.frame := by
  unfold Rebuild.step at stepped
  split at stepped
  · cases stepped
    rfl
  · obtain ⟨_, _, rfl⟩ := Option.map_eq_some_iff.mp stepped
    rfl

variable {metas : List MessageMeta}

/-- A fact every message of the set keeps is kept by the loop, also when it stops early. -/
theorem loop_induction {P : Rebuild → Prop} {b : Rebuild}
    (step : ∀ b m b', m ∈ metas → b.step m = some b' → P b → P b') (start : P b) : P (b.loop metas).1 := by
  induction metas generalizing b with
  | nil => exact start
  | cons m metas ih =>
    unfold Rebuild.loop
    split
    · exact start
    rename_i b' stepped
    exact ih (fun b m b' member => step b m b' (.tail _ member))
      (step b m b' (.head _) stepped start)

theorem loop_header (b : Rebuild) (metas : List MessageMeta) :
    (b.loop metas).1.header.frame = b.header.frame :=
  loop_induction (fun _ _ _ _ stepped same => (step_header stepped).trans same) rfl

theorem loop_maxUID {b : Rebuild} {limit : ℕ} (start : b.maxUID < limit)
    (below : ∀ m ∈ metas, m.uid < limit) : (b.loop metas).1.maxUID < limit := by
  refine loop_induction (P := fun b => b.maxUID < limit) (fun b m b' member stepped bounded => ?_)
    start
  unfold Rebuild.step at stepped
  split at stepped
  · cases stepped
    exact bounded
  · obtain ⟨_, _, rfl⟩ := Option.map_eq_some_iff.mp stepped
    exact max_lt bounded (below m member)

end Rebuild

/-- What a reset leaves of a handle, with the set it has built so far. -/
structure Rebuilt (s : Local) (b : Rebuild) (fs : FolderState) : Prop where
  book : fs.book = s.fs.book
  lineage : fs.file.ext.lineage = s.fs.file.ext.lineage
  expungeFloor : fs.file.ext.expungeFloor = s.fs.file.ext.expungeFloor
  records : fs.file.records = b.records
  keywords : fs.keywords = b.registry

/-- What a reset can do: stop at a message whose names do not fit, or fold the set into a new base. -/
theorem resetFolder_cases (metas : List MessageMeta) (s : Local) : ∃ b ok,
    (Rebuild.start s.fs).loop metas = (b, ok) ∧
    (ok = false ∧ Rebuilt s b (s.fs.rebuilt b) ∧
        (s.fs.rebuilt b).file.header.nextUID = s.fs.file.header.nextUID ∧
        s.resetFolder metas = (.error .keywordRegistryFull, { s with fs := s.fs.rebuilt b }) ∨
      ok = true ∧ ∃ fs uids, Rebuilt s b fs ∧ fs.highestModSeq = max s.fs.highestModSeq b.maxModseq ∧
        fs.file.header.nextUID = (if s.fs.file.header.nextUID ≤ b.maxUID then u32 (b.maxUID + 1)
          else s.fs.file.header.nextUID) ∧
        s.resetFolder metas = (.ok (.uids uids), compact true { s with fs := fs })) := by
  have header := Rebuild.loop_header (Rebuild.start s.fs) metas
  unfold resetFolder
  cases looped : (Rebuild.start s.fs).loop metas with
  | mk b ok =>
    simp only [looped, Header.frame, Prod.mk.injEq] at header
    obtain ⟨index, -, -, nextUID⟩ := header
    have book : (s.fs.rebuilt b).book = s.fs.book := book_iff.mpr ⟨rfl, rfl, rfl, rfl, index⟩
    refine ⟨b, ok, rfl, ?_⟩
    cases ok with
    | false => exact .inl ⟨rfl, ⟨book, rfl, rfl, rfl, rfl⟩, nextUID, rfl⟩
    | true =>
      refine .inr ⟨rfl, (s.fs.rebuilt b).settled b, _, ?_, ?_, ?_, rfl⟩
      all_goals
        unfold settled
        dsimp only
      · split <;> exact ⟨book, rfl, rfl, rfl, rfl⟩
      · split <;> rfl
      · have start : (s.fs.rebuilt b).file.header.nextUID = s.fs.file.header.nextUID := nextUID
        split <;> rename_i above
        · exact (if_pos (start ▸ above)).symm
        · exact start.trans (if_neg (start ▸ above)).symm

namespace Local

/-- The handle once it has taken its next UID. -/
abbrev takeUID (s : Local) : Local := s.mapFs (·.setNextUID (u32 (s.nextUID + 1)))

/-- What an allocating append can do: refuse the name, or append under the UID it has taken. -/
theorem allocateAndAppendNamed_cases (m : MessageMeta) (name : Option (Except Err Bytes)) (rotate : Bool)
    (s : Local) : (∃ e, s.allocateAndAppendNamed m name rotate = (.error e, s.takeUID)) ∨
      ∃ filename, s.allocateAndAppendNamed m name rotate =
        ((s.takeUID.commitAppend { m with uid := s.nextUID, filename := filename } rotate).1.map
            fun _ => .uid s.nextUID,
          (s.takeUID.commitAppend { m with uid := s.nextUID, filename := filename } rotate).2) := by
  cases name with
  | none => exact .inr ⟨m.filename, rfl⟩
  | some outcome =>
    cases outcome with
    | error e => exact .inl ⟨e, rfl⟩
    | ok filename => exact .inr ⟨filename, rfl⟩

end Local

end Yarilo.FileIndex

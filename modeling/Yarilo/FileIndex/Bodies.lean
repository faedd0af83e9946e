import Yarilo.FileIndex.Loops

/-! # Rules for the bodies

The operations that write flags have one shape: a change in memory, or a change with its group. A
property of the files and the handle that the primitives keep is kept by every operation, apart from
what appends, expunges and resets do to the set of messages.
-/

namespace Yarilo.FileIndex

open Library Local FolderState List

variable {s : Local}

/-- What an operation that writes flags can do, with a counter that has room for this many stamps: change
the handle, or commit the change as one group. -/
inductive Reflagging (count : ℕ) (s : Local) : Result → Prop
  | touch (answer : Except Err Answer) (fs : FolderState) (reflags : fs.Reflags s.fs)
    (grows : s.fs.highestModSeq + count < 2 ^ 64 → s.fs.highestModSeq ≤ fs.highestModSeq) :
    Reflagging count s (answer, { s with fs := fs })
  | commit (fs : FolderState) (updates : List (ℕ × ℕ)) (flags : List FlagUpdate)
    (keywordRecs : List TxRecord) (seen deleted : ℕ) (reflags : fs.Reflags s.fs)
    (keywords : ∀ tx ∈ keywordRecs, tx.IsKeyword)
    (stamps : s.fs.highestModSeq + count < 2 ^ 64 →
      s.fs.highestModSeq ≤ fs.highestModSeq ∧ ∀ u ∈ updates, u.2 ≤ fs.highestModSeq) :
    Reflagging count s (.ok .done, appendMutLog ([.modseqUpdate updates, .flagUpdate flags] ++ keywordRecs ++
      [.headerUpdate 40 seen, .headerUpdate 44 deleted]) { s with fs := fs })

theorem FolderState.Reflags.refl (fs : FolderState) : fs.Reflags fs := ⟨rfl, rfl, rfl, rfl, fun _ => rfl⟩

theorem writeFlags_reflagging (mode : FlagWriteMode) (uid : ℕ) (flags : List ImapFlag)
    (keywords : List Keyword) (s : Local) : Reflagging 1 s (s.writeFlags mode uid flags keywords) := by
  have bumped (room : s.fs.highestModSeq + 1 < 2 ^ 64) :
      s.fs.highestModSeq ≤ s.fs.bumpModSeqHeader.highestModSeq :=
    (Nat.le_succ _).trans_eq (Nat.mod_eq_of_lt room).symm
  rcases writeFlags_cases mode uid flags keywords s with
    full | ⟨_, _, _, fs, _, _, _, _, _, ⟨reflags, raised⟩, written⟩
  · rw [full]
    exact .touch _ _ ⟨rfl, rfl, rfl, rfl, fun _ => rfl⟩ bumped
  · rw [written]
    exact .commit fs _ _ _ _ _ reflags (fun _ => keywordLogRecords_isKeyword) fun room =>
      ⟨raised ▸ bumped room, forall_mem_singleton.mpr le_rfl⟩

theorem updateFlagsMulti_reflagging (updates : List (ℕ × FlagsUpdate)) (s : Local) :
    Reflagging s.fs.file.records.length s (s.updateFlagsMulti updates) := by
  rcases updateFlagsMulti_cases updates s with full | ⟨_, _, fs, b, _, _, _, batched, outcome⟩
  · rw [full]
    exact .touch _ s.fs (.refl _) fun _ => le_rfl
  have grows (room : s.fs.highestModSeq + s.fs.file.records.length < 2 ^ 64) := (batched.stamps room).grows
  rcases outcome with ⟨_, result⟩ | ⟨_, _, result⟩ | ⟨_, _, result⟩ <;> rw [result]
  · exact .touch _ _ batched.reflags grows
  · exact .touch _ _ batched.reflags grows
  · exact .commit _ _ _ _ _ _ batched.reflags batched.keywords fun room =>
      ⟨grows room, fun u member => ((batched.stamps room).stamped u member).2⟩

theorem growRegistry_keeps (registry : Registry) (s : Local) :
    (s.growRegistry registry).disk.log = s.disk.log ∧
      (s.growRegistry registry).fs.file.records = s.fs.file.records := by
  unfold Local.growRegistry
  dsimp only
  split <;> exact ⟨rfl, rfl⟩

/-- The records a log record brings. -/
def TxRecord.brought : TxRecord → List Record
  | .append records => records
  | _ => []

theorem TxRecord.IsKeyword.brought {tx : TxRecord} (keyword : tx.IsKeyword) : tx.brought = [] := by
  cases tx <;> first | rfl | cases keyword

/-- The size of the message an operation appends. -/
def Op.appendedSize : Op → Option ℕ
  | .appendMessage m _ | .allocateAndAppendNamed m _ _ => some m.rfc822Size
  | _ => none

/-- A change in memory that leaves the sizes and the aggregate. -/
structure FolderState.Alike (fs' fs : FolderState) : Prop where
  sizes : fs'.file.records.map (·.vsize) = fs.file.records.map (·.vsize)
  vsize : fs'.vsize = fs.vsize

/-- A property that every primitive keeps, but for changes to the set of messages. -/
structure Sturdy (P : Local → Prop) : Prop where
  touch : ∀ {s : Local} {fs : FolderState}, P s → fs.Alike s.fs → P { s with fs := fs }
  journal : ∀ {s : Local} {group : Group}, P s → (∀ tx ∈ group, tx.brought = []) → P (s.appendMutLog group)
  flush : ∀ {s : Local} (wholeNames : Bool), P s → P (s.flush wholeNames)
  compact : ∀ {s : Local} (wholeNames : Bool), P s → P (s.compact wholeNames)

namespace Sturdy

variable {P : Local → Prop} (sturdy : Sturdy P) (holds : P s)

include sturdy holds

theorem reflagging {count : ℕ} {result : Result} (reflagging : Reflagging count s result) : P result.2 := by
  have alike {fs : FolderState} (reflags : fs.Reflags s.fs) : fs.Alike s.fs :=
    ⟨reflags.records fun _ _ _ _ => rfl, reflags.vsize⟩
  cases reflagging with
  | touch answer fs reflags => exact sturdy.touch holds (alike reflags)
  | commit fs updates flags keywordRecs seen deleted reflags keywords =>
    refine sturdy.journal (sturdy.touch holds (alike reflags)) ?_
    exact forall_mem_flagGroup rfl rfl (fun tx held => (keywords tx held).brought) fun _ _ _ => rfl

/-- An append keeps what its record, added to as many messages, keeps. -/
theorem commitAppend (m : MessageMeta) (rotate : Bool)
    (adds : ∀ s' r, P s' → s'.fs.file.records.length = s.fs.file.records.length → r.vsize = m.rfc822Size →
      P ((s'.mapFs (·.addRecord m r)).flushAppend r)) : P (s.commitAppend m rotate).2 := by
  have stamped : P (s.stampModSeq m) ∧ (s.stampModSeq m).fs.file.records = s.fs.file.records := by
    obtain ⟨_, stamp⟩ := s.stampModSeq_fs m
    refine ⟨sturdy.touch holds ?_, congrArg (·.file.records) stamp⟩
    split <;> exact ⟨rfl, rfl⟩
  rcases s.commitAppend_cases m rotate with zero | full | ⟨bits, registry, modseq, r, _, _, rfl, done⟩
  · rw [zero]
    exact holds
  · rw [full]
    exact stamped.1
  have grown : P ((s.stampModSeq m).growRegistry registry) := by
    have taken : P ((s.stampModSeq m).mapFs (·.persistKeywordRegistry registry)) :=
      sturdy.touch stamped.1 ⟨rfl, rfl⟩
    unfold growRegistry
    dsimp only
    split
    · exact sturdy.flush false taken
    · exact taken
  have written := adds _ (recordFor m modseq bits) grown
    (by rw [(growRegistry_keeps registry (s.stampModSeq m)).2, stamped.2]) rfl
  rw [done]
  cases rotate with
  | false => exact written
  | true => exact sturdy.compact false written

theorem upkeep {op : Op} {result : Result} (upkeep : Upkeep op s result) : P result.2 := by
  have changed {change : File → File} (upkept : s.fs.file.Upkept (change s.fs.file)) :
      P (s.mapFs (·.mapFile change)) :=
    sturdy.touch holds ⟨upkept.sizes, rfl⟩
  cases upkeep with
  | idle => exact holds
  | mark change value upkept => exact sturdy.journal (changed upkept) (forall_mem_singleton.mpr rfl)
  | rewrite change wholeNames upkept => exact sturdy.flush wholeNames (changed upkept)

/-- Every operation keeps what the primitives keep. -/
theorem body (op : Op) (adds : ∀ s' m r, op.appendedSize = some m.rfc822Size → P s' →
      s'.fs.file.records.length = s.fs.file.records.length → r.vsize = m.rfc822Size →
      P ((s'.mapFs (·.addRecord m r)).flushAppend r))
    (removes : ∀ r, s.fs.target r.uid = some r → P (s.mapFs fun fs => fs.bumpModSeqHeader.removeRecord r))
    (resets : ∀ metas, op = .resetFolder metas → P (s.resetFolder metas).2) : P (op.body s).2 := by
  have touched {fs : FolderState} (alike : fs.Alike s.fs) : P { s with fs := fs } := sturdy.touch holds alike
  cases op with
  | allocateUID | allocateUIDWithModSeq =>
    refine sturdy.journal (touched ?_) (forall_mem_singleton.mpr rfl)
    exact ⟨rfl, rfl⟩
  | nextModSeq => exact touched ⟨rfl, rfl⟩
  | appendMessage m rotate => exact sturdy.commitAppend holds m rotate fun s' r => adds s' m r rfl
  | allocateAndAppendNamed m name rotate =>
    have taken : P s.takeUID := touched ⟨rfl, rfl⟩
    rcases s.allocateAndAppendNamed_cases m name rotate with ⟨e, done⟩ | ⟨filename, done⟩ <;>
      simp [Op.body, done]
    · exact taken
    · exact sturdy.commitAppend taken _ rotate fun s' r => adds s' _ r rfl
  | writeFlags mode uid flags keywords =>
    exact sturdy.reflagging holds (writeFlags_reflagging mode uid flags keywords s)
  | updateFlagsMulti updates => exact sturdy.reflagging holds (updateFlagsMulti_reflagging updates s)
  | expungeMessage uid =>
    simp only [Op.body, expungeMessage]
    split
    · exact touched ⟨rfl, rfl⟩
    rename_i r found
    have named : r.uid = uid := by simpa using find?_some found
    exact sturdy.journal (removes r (named ▸ found)) (by simp [expungeGroup, TxRecord.brought])
  | adoptUIDSpace uidValidity nextUID =>
    simp only [Op.body, adoptUIDSpace]
    split
    · exact holds
    · refine sturdy.flush false (touched ?_)
      exact ⟨rfl, rfl⟩
  | resetFolder metas => exact resets metas rfl
  | optimizeIndex => exact sturdy.compact true holds
  | _ => exact sturdy.upkeep holds (Op.body_upkeep rfl s)

end Sturdy

end Yarilo.FileIndex

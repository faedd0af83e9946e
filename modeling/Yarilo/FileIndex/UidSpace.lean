import Mathlib.Data.List.Nodup
import Yarilo.FileIndex.Counter

/-! # UIDs are handed out once

The next UID lives in the base header, in header updates of the log and in every handle's memory.
It is a counter of the folder: its truth is a bound above every UID handed out. Allocations and
appends log the new bound. `AdoptUIDSpace` raises it in the base alone, so a log that holds an older
value, or a handle that adopts the new base without reading its header, brings the old value back.
-/

namespace Yarilo.FileIndex

open Library MailIndex Local List

/-- What a group does to the next UID. -/
def nextUIDAfter (n : ℕ) (group : Group) : ℕ := group.foldl nextUIDStep n

def Content.nextUID (c : Content) : ℕ := c.file.header.nextUID

theorem nextUID_counted : Counted Content.nextUID nextUIDAfter where
  mono group := Journal.foldl_mono nextUIDStep_mono group
  follows := by
    intro c c' groups replayed
    obtain ⟨s, applied, rfl⟩ := replayGroups_eq_some replayed
    have followed := applyTxs_follow Replay.nextUID applyTx_nextUID applied
    rw [foldl_flatten] at followed
    exact followed
  essence same := congrArg (·.2.2.1) same
  keywords _ _ := rfl
  floor fs := by rw [Content.nextUID, Content.nextUID, (stampExpungeFloor_frame fs).1]
  registry _ _ := rfl

abbrev uidBound : Journal.Theory Content Group ℕ := bound Content.nextUID nextUIDAfter

/-- A group without a UID counter leaves the bound. -/
theorem nextUIDAfter_of_unset {group : Group} (unset : ∀ tx ∈ group, tx.setsNextUID = false) (n : ℕ) :
    nextUIDAfter n group = n := by
  refine foldl_of_fixed fun tx member => ?_
  cases tx with
  | headerUpdate offset value => exact if_neg (of_decide_eq_false (unset _ member))
  | _ => rfl

theorem TxRecord.IsKeyword.unset {tx : TxRecord} (keyword : tx.IsKeyword) : tx.setsNextUID = false := by
  cases tx <;> first | rfl | exact keyword.elim

/-- The UID an operation's answer hands out. -/
def Op.issued : Op → Except Err Answer → Option ℕ
  | .allocateUID, .ok (.uid uid) => some uid
  | .allocateUIDWithModSeq, .ok (.uidModSeq uid _) => some uid
  | .allocateAndAppendNamed .., .ok (.uid uid) => some uid
  | _, _ => none

/-- The UID a successful append brought along. -/
def Op.appended : Op → Except Err Answer → Option ℕ
  | .appendMessage m _, .ok _ => some m.uid
  | _, _ => none

/-- The next UID a successful adoption asked for. -/
def Op.adopted : Op → Except Err Answer → Option ℕ
  | .adoptUIDSpace _ nextUID, .ok _ => some nextUID
  | _, _ => none

/-- The log holds no UID counter, and no other handle has read all of it. -/
def Unshared (disk : Disk) (others : List FolderState) : Prop :=
  ∀ l, disk.log = some l → (∀ group ∈ l.groups, ∀ tx ∈ group, tx.setsNextUID = false) ∧
    ∀ h ∈ others, h.lineage.lineage = l.fileSeq → h.logSize < l.size

/-- What an operation's body needs, in the state after its reload, to keep UIDs apart. -/
def Op.UidSafe (op : Op) (others : List FolderState) (s : Local) : Prop :=
  (op.rewritesBase = true → s.fs.MayFlush 2) ∧
    match op with
    | .allocateUID | .allocateUIDWithModSeq | .allocateAndAppendNamed .. => s.nextUID + 1 < 2 ^ 32
    | .appendMessage m _ => m.uid + 1 < 2 ^ 32
    | .resetFolder metas => ∀ m ∈ metas, m.uid + 1 < 2 ^ 32
    | .adoptUIDSpace _ _ => s.fs.file.records = [] → Unshared s.disk others
    | _ => True

/-- The bound after an operation is above every UID its answer mentions. -/
structure Op.Covers (op : Op) (answer : Except Err Answer) (cur next : ℕ) : Prop where
  grows : cur ≤ next
  issued : ∀ uid, op.issued answer = some uid → cur ≤ uid ∧ uid < next
  appended : ∀ uid, op.appended answer = some uid → uid < next
  adopted : ∀ nextUID, op.adopted answer = some nextUID → nextUID ≤ next

variable {op : Op} {answer : Except Err Answer}

theorem Op.Covers.quiet {cur : ℕ} (issued : op.issued answer = none)
    (appended : op.appended answer = none) (adopted : op.adopted answer = none) :
    op.Covers answer cur cur where
  grows := le_rfl
  issued uid some := by rw [issued] at some; cases some
  appended uid some := by rw [appended] at some; cases some
  adopted nextUID some := by rw [adopted] at some; cases some

theorem Op.Covers.error (op : Op) (e : Err) (cur : ℕ) : op.Covers (.error e) cur cur := by
  cases op <;> exact .quiet rfl rfl rfl

section Bodies

variable {s : Local} {handles : List FolderState} {i cur : ℕ}

theorem nextUID_le (locked : Locked uidBound s (handles.eraseIdx i) cur) : cur ≤ s.nextUID := by
  have le : cur ≤ s.fs.file.header.nextUID := locked.rel
  unfold nextUID
  split <;> omega

/-- The outcome of a body: the bound it leaves covers its answer. -/
def UidOutcome (op : Op) (handles : List FolderState) (i cur : ℕ) (result : Result) : Prop :=
  ∃ next, op.Covers result.1 cur next ∧ Tracked uidBound result.2.disk (handles.set i result.2.fs) next

theorem UidOutcome.quiet {s' : Local} (locked : Locked uidBound s' (handles.eraseIdx i) cur)
    (issued : op.issued answer = none) (appended : op.appended answer = none)
    (adopted : op.adopted answer = none) : UidOutcome op handles i cur (answer, s') :=
  ⟨cur, .quiet issued appended adopted, locked.tracked nextUID_counted.lawful⟩

section

variable (locked : Locked uidBound s (handles.eraseIdx i) cur)

include locked

/-- An allocation logs the UID behind the one it hands out. -/
theorem allocate_uid (room : s.nextUID + 1 < 2 ^ 32) {fs : FolderState} (book : fs.book = s.fs.book)
    (nextUID : fs.file.header.nextUID = u32 (s.nextUID + 1)) (appended : op.appended answer = none)
    (issued : ∀ uid, op.issued answer = some uid → some s.nextUID = some uid)
    (adopted : op.adopted answer = none) :
    UidOutcome op handles i cur (answer, appendMutLog [.headerUpdate 28 (u32 (s.nextUID + 1))]
      { s with fs := fs }) := by
  have unwrapped : u32 (s.nextUID + 1) = s.nextUID + 1 := Nat.mod_eq_of_lt room
  have le := nextUID_le locked
  rw [unwrapped] at nextUID ⊢
  have committed := Counted.commit locked fs [.headerUpdate 28 (s.nextUID + 1)] book
    (Nat.le_succ_of_le le) nextUID.ge
  refine ⟨s.nextUID + 1, ⟨Nat.le_succ_of_le le, fun uid handed => ?_, by simp [appended], by simp [adopted]⟩,
    committed.tracked nextUID_counted.lawful⟩
  cases issued uid handed
  exact ⟨le, Nat.lt_succ_self _⟩

theorem reflagging_uid {count : ℕ} {result : Result} (reflagging : Reflagging count s result)
    (issued : ∀ answer, op.issued answer = none) (appended : ∀ answer, op.appended answer = none)
    (adopted : ∀ answer, op.adopted answer = none) : UidOutcome op handles i cur result := by
  cases reflagging with
  | touch answer fs reflags =>
    exact .quiet (locked.touch fs reflags.book (locked.rel.trans_eq reflags.nextUID.symm)) (issued _)
      (appended _) (adopted _)
  | commit fs updates flags keywordRecs seen deleted reflags keywords =>
    refine .quiet (Counted.commit_fixed locked fs _ reflags.book reflags.nextUID.ge
      (nextUIDAfter_of_unset ?_ cur)) (issued _) (appended _) (adopted _)
    exact forall_mem_flagGroup rfl rfl (fun tx held => (keywords tx held).unset)
      (by simp [TxRecord.setsNextUID])

theorem expungeMessage_uid (uid : ℕ) :
    UidOutcome (.expungeMessage uid) handles i cur (s.expungeMessage uid) := by
  unfold expungeMessage
  dsimp only
  split
  · exact .quiet (locked.touch s.fs.bumpModSeqHeader rfl locked.rel) rfl rfl rfl
  rename_i r _
  exact .quiet (Counted.commit_fixed locked (s.fs.bumpModSeqHeader.removeRecord r) _ rfl le_rfl rfl) rfl rfl rfl

theorem resetFolder_uid (metas : List MessageMeta) (mayFlush : s.fs.MayFlush 1)
    (room : ∀ m ∈ metas, m.uid + 1 < 2 ^ 32) :
    UidOutcome (.resetFolder metas) handles i cur (s.resetFolder metas) := by
  have below : ((Rebuild.start s.fs).loop metas).1.maxUID < 2 ^ 32 - 1 :=
    Rebuild.loop_maxUID (Nat.zero_lt_of_lt (by decide : 0 < 2 ^ 32 - 1)) fun m member => by
      have := room m member; omega
  have le : cur ≤ s.fs.file.header.nextUID := locked.rel
  obtain ⟨b, ok, looped, ⟨-, rebuilt, nextUID, result⟩ | ⟨-, fs, uids, rebuilt, -, nextUID, result⟩⟩ :=
    resetFolder_cases metas s <;> rw [result]
  · exact .quiet (locked.touch (s.fs.rebuilt b) rebuilt.book (le.trans_eq nextUID.symm)) rfl rfl rfl
  rw [looped] at below
  dsimp only at below
  have unwrapped : u32 (b.maxUID + 1) = b.maxUID + 1 := Nat.mod_eq_of_lt (by omega)
  refine ⟨cur, .quiet rfl rfl rfl, nextUID_counted.compact locked fs rebuilt.book
    (rebuilt.mayFlush mayFlush) ?_ true⟩
  show cur ≤ fs.file.header.nextUID
  rw [nextUID]
  split <;> omega

theorem adoptUIDSpace_uid (uidValidity nextUID : ℕ) (mayFlush : s.fs.MayFlush 1)
    (unshared : s.fs.file.records = [] → Unshared s.disk (handles.eraseIdx i)) :
    UidOutcome (.adoptUIDSpace uidValidity nextUID) handles i cur
      (s.adoptUIDSpace uidValidity nextUID) := by
  unfold adoptUIDSpace
  split
  · exact .quiet locked rfl rfl rfl
  rename_i empty
  replace unshared := unshared (not_not.mp empty)
  have le : cur ≤ s.fs.file.header.nextUID := locked.rel
  refine ⟨max cur nextUID, ⟨le_max_left .., nofun, nofun, ?_⟩, ?_⟩
  · rintro adopted some
    cases some
    exact le_max_right ..
  · have raised : max cur nextUID ≤ max s.fs.file.header.nextUID nextUID := by omega
    have flushed := locked.flush nextUID_counted.stable
      (s.fs.mapFile fun f => { f with header := { f.header with
        uidValidity := uidValidity
        nextUID := max f.header.nextUID nextUID } }) rfl (mayFlush.congr rfl rfl) raised raised
      (fun l log => ?_) (fun h other l log same caughtUp => ?_) false
    · exact flushed.tracked nextUID_counted.lawful
    · -- Nothing in the log lowers the bound when it is replayed over the new base.
      have kept : l.groups.foldl nextUIDAfter _ = _ := foldl_of_fixed fun group member =>
        nextUIDAfter_of_unset ((unshared l log).1 group member) (max cur nextUID)
      exact kept.ge
    · have behind := (unshared l log).2 h other same
      omega

end

theorem addRecord_nextUID (fs : FolderState) {m : MessageMeta} (r : Record)
    (room : m.uid + 1 < 2 ^ 32) : m.uid < (fs.addRecord m r).file.header.nextUID ∧
      fs.file.header.nextUID ≤ (fs.addRecord m r).file.header.nextUID := by
  have unwrapped : u32 (m.uid + 1) = m.uid + 1 := Nat.mod_eq_of_lt room
  show m.uid < (if _ then _ else _) ∧ _ ≤ (if _ then _ else _)
  split <;> omega

theorem appendGroup_nextUID (fs : FolderState) (r : Record) (n : ℕ) :
    nextUIDAfter n (appendGroup fs r) = fs.file.header.nextUID := rfl

section

variable (locked : Locked uidBound s (handles.eraseIdx i) cur)

include locked

section

variable (m : MessageMeta) (rotate : Bool) (mayFlush : rotate = true ∨ m.keywords ≠ [] → s.fs.MayFlush 2)

include mayFlush

/-- An append leaves a bound above its UID. -/
theorem commitAppend_uid (room : m.uid + 1 < 2 ^ 32) :
    (∃ e s', s.commitAppend m rotate = (.error e, s') ∧
        Tracked uidBound s'.disk (handles.set i s'.fs) cur) ∨
      ∃ s' next, s.commitAppend m rotate = (.ok .done, s') ∧
        s.fs.file.header.nextUID ≤ next ∧ m.uid < next ∧
        Tracked uidBound s'.disk (handles.set i s'.fs) next := by
  have le : cur ≤ s.fs.file.header.nextUID := locked.rel
  obtain ⟨_, stampedFs⟩ := s.stampModSeq_fs m
  have stamped : cur ≤ (s.stampModSeq m).fs.file.header.nextUID := by
    rw [stampedFs]; exact le
  have recorded : ∀ fs r, Counted.Appended s m fs r →
      cur ≤ nextUIDAfter cur (appendGroup (fs.addRecord m r) r) ∧
        nextUIDAfter cur (appendGroup (fs.addRecord m r) r) ≤
          (fs.addRecord m r).file.header.nextUID := by
    intro fs r appended
    have grows := (addRecord_nextUID fs r room).2
    rw [appended.nextUID] at grows
    rw [appendGroup_nextUID]
    exact ⟨le.trans grows, le_rfl⟩
  rcases nextUID_counted.commitAppend locked m rotate mayFlush stamped recorded with
    failed | ⟨fs, r, s', result, appended, tracked⟩
  · exact .inl failed
  obtain ⟨above, grows⟩ := addRecord_nextUID fs r room
  rw [appendGroup_nextUID] at tracked
  exact .inr ⟨s', _, result, by rw [← appended.nextUID]; exact grows, above, tracked⟩

theorem appendMessage_uid (room : m.uid + 1 < 2 ^ 32) :
    UidOutcome (.appendMessage m rotate) handles i cur (s.appendMessage m rotate) := by
  have le : cur ≤ s.fs.file.header.nextUID := locked.rel
  unfold appendMessage
  rcases commitAppend_uid locked m rotate mayFlush room with
    ⟨e, s', result, tracked⟩ | ⟨s', next, result, grows, above, tracked⟩ <;> rw [result]
  · exact ⟨cur, .error .., tracked⟩
  refine ⟨next, ⟨le.trans grows, nofun, ?_, nofun⟩, tracked⟩
  rintro uid some
  cases some
  exact above

theorem allocateAndAppendNamed_uid (name : Option (Except Err Bytes)) (room : s.nextUID + 1 < 2 ^ 32) :
    UidOutcome (.allocateAndAppendNamed m name rotate) handles i cur
      (s.allocateAndAppendNamed m name rotate) := by
  have le := nextUID_le locked
  have unwrapped : u32 (s.nextUID + 1) = s.nextUID + 1 := Nat.mod_eq_of_lt room
  have taken : Locked uidBound s.takeUID (handles.eraseIdx i) cur := by
    refine locked.touch _ rfl ?_
    show cur ≤ u32 (s.nextUID + 1)
    omega
  rcases s.allocateAndAppendNamed_cases m name rotate with ⟨e, refused⟩ | ⟨filename, done⟩
  · rw [refused]
    exact ⟨cur, .error .., taken.tracked nextUID_counted.lawful⟩
  rw [done]
  rcases commitAppend_uid taken { m with uid := s.nextUID, filename := filename } rotate
    (fun may => (mayFlush may).congr rfl rfl) room with
    ⟨e, s', result, tracked⟩ | ⟨s', next, result, grows, above, tracked⟩ <;> rw [result]
  · exact ⟨cur, .error .., tracked⟩
  have above : s.nextUID < next := above
  refine ⟨next, ⟨by omega, ?_, nofun, nofun⟩, tracked⟩
  rintro issued some
  cases some
  exact ⟨le, above⟩

end

end

theorem body_uid (op : Op) (locked : Locked uidBound s (handles.eraseIdx i) cur)
    (safe : op.UidSafe (handles.eraseIdx i) s) : UidOutcome op handles i cur (op.body s) := by
  obtain ⟨mayFlush, room⟩ := safe
  cases op with
  | allocateUID => exact allocate_uid locked room rfl rfl rfl (fun _ => id) rfl
  | allocateUIDWithModSeq => exact allocate_uid locked room rfl rfl rfl (fun _ => id) rfl
  | nextModSeq => exact .quiet (locked.touch s.fs.bumpModSeqHeader rfl locked.rel) rfl rfl rfl
  | appendMessage m rotate =>
    exact appendMessage_uid locked m rotate
      (fun may => mayFlush (by simpa [Op.rewritesBase] using may)) room
  | allocateAndAppendNamed m name rotate =>
    exact allocateAndAppendNamed_uid locked m rotate
      (fun may => mayFlush (by simpa [Op.rewritesBase] using may)) name room
  | writeFlags mode uid flags keywords =>
    exact reflagging_uid locked (writeFlags_reflagging ..) (fun _ => rfl) (fun _ => rfl) fun _ => rfl
  | updateFlagsMulti updates =>
    exact reflagging_uid locked (updateFlagsMulti_reflagging ..) (fun _ => rfl) (fun _ => rfl) fun _ => rfl
  | expungeMessage uid => exact expungeMessage_uid locked uid
  | adoptUIDSpace uidValidity nextUID =>
    exact adoptUIDSpace_uid locked uidValidity nextUID (mayFlush rfl).one room
  | resetFolder metas => exact resetFolder_uid locked metas (mayFlush rfl).one room
  | optimizeIndex =>
    exact ⟨cur, .quiet rfl rfl rfl,
      nextUID_counted.compact locked s.fs rfl (mayFlush rfl).one locked.rel true⟩
  | _ =>
    obtain ⟨done, kept⟩ := nextUID_counted.upkeep locked (Op.body_upkeep rfl s) mayFlush
      (fun _ upkept => upkept.nextUID) fun _ => rfl
    exact ⟨cur, by rw [done]; exact .quiet rfl rfl rfl, kept.tracked nextUID_counted.lawful⟩

end Bodies

section Runs

/-- The UID the event's operation handed out. -/
def Event.issued (e : Event) : Option ℕ :=
  match e.step with
  | .op _ op => op.issued e.answer
  | .openFolder => none

/-- The UID the event's operation appended. -/
def Event.appended (e : Event) : Option ℕ :=
  match e.step with
  | .op _ op => op.appended e.answer
  | .openFolder => none

/-- The next UID the event's operation adopted. -/
def Event.adopted (e : Event) : Option ℕ :=
  match e.step with
  | .op _ op => op.adopted e.answer
  | .openFolder => none

/-- The number is above every UID handed out or appended, and not below an adopted next UID. -/
structure AboveUids (events : List Event) (n : ℕ) : Prop where
  issued : ∀ uid ∈ events.filterMap Event.issued, uid < n
  appended : ∀ uid ∈ events.filterMap Event.appended, uid < n
  adopted : ∀ nextUID ∈ events.filterMap Event.adopted, nextUID ≤ n

theorem AboveUids.mono {events : List Event} {m n : ℕ} (above : AboveUids events m) (le : m ≤ n) :
    AboveUids events n :=
  ⟨fun uid member => Nat.lt_of_lt_of_le (above.issued uid member) le,
    fun uid member => Nat.lt_of_lt_of_le (above.appended uid member) le,
    fun nextUID member => Nat.le_trans (above.adopted nextUID member) le⟩

/-- Every operation of a step meets its condition in the state after its reload. -/
def UidSafe (_ : List Event) (sys : Sys) : Step → Prop
  | .op i op => op.unlocked = none → ∀ s, sys.locked i = some s → op.UidSafe (sys.handles.eraseIdx i) s
  | .openFolder => True

/-- What a run keeps: a bound every handle reaches, above everything handed out so far. -/
def UidInv (past : List Event) (sys : Sys) : Prop := (past.filterMap Event.issued).Nodup ∧
    ∃ cur, Tracked uidBound sys.disk sys.handles cur ∧ AboveUids past cur

/-- One step over the bound. -/
theorem UidInv.snoc {past : List Event} {sys : Sys} {step : Step} {cur next : ℕ}
    (nodup : (past.filterMap Event.issued).Nodup) (above : AboveUids past cur) (grows : cur ≤ next)
    (issued : ∀ uid, (sys.event step).issued = some uid → cur ≤ uid ∧ uid < next)
    (appended : ∀ uid, (sys.event step).appended = some uid → uid < next)
    (adopted : ∀ nextUID, (sys.event step).adopted = some nextUID → nextUID ≤ next)
    (tracked : Tracked uidBound (sys.step step).2.disk (sys.step step).2.handles next) :
    UidInv (past ++ [sys.event step]) (sys.step step).2 := by
  have raised := above.mono grows
  refine ⟨?_, next, tracked, ?_, ?_, ?_⟩
  · rw [filterMap_append]
    cases found : (sys.event step).issued with
    | none => simpa [found] using nodup
    | some uid =>
      have fresh : uid ∉ past.filterMap Event.issued := fun member =>
        Nat.not_lt_of_le (issued uid found).1 (above.issued uid member)
      rw [filterMap_cons_some found, filterMap_nil]
      exact nodup_concat nodup fresh
  · exact forall_mem_filterMap_concat raised.issued fun uid found => (issued uid found).2
  · exact forall_mem_filterMap_concat raised.appended appended
  · exact forall_mem_filterMap_concat raised.adopted adopted

theorem UidInv.step (past : List Event) (sys : Sys) (step : Step) (inv : UidInv past sys)
    (safe : UidSafe past sys step) : UidInv (past ++ [sys.event step]) (sys.step step).2 := by
  obtain ⟨nodup, cur, tracked, above⟩ := inv
  cases step with
  | openFolder =>
    exact .snoc nodup above le_rfl nofun nofun nofun (nextUID_counted.step_open tracked)
  | op i op =>
    rcases tracked.step_op nextUID_counted.lawful rfl
      (fun fs _ _ _ _ g core _ => nextUID_counted.adopts fs.toContent _ g core) op with
      ⟨tracked', _, idle⟩ | ⟨s, locked, unlocked, caught, result⟩
    · have covers : op.Covers (sys.step (.op i op)).1 cur cur := by
        rcases idle with ⟨e, failed⟩ | unlocked
        · rw [failed]
          exact .error ..
        revert unlocked
        cases op <;> simp only [Op.unlocked, reduceCtorEq, false_implies]
        all_goals
          split
          · rintro answer
            rw [← Option.some.inj answer]
            exact .quiet rfl rfl rfl
          · nofun
      exact .snoc nodup above covers.grows covers.issued covers.appended covers.adopted tracked'
    · obtain ⟨next, covers, tracked'⟩ := body_uid op caught (safe unlocked s locked)
      have answer : (sys.step (.op i op)).1 = (op.body s).1 := congrArg Prod.fst result
      have after : (sys.step (.op i op)).2 = _ := congrArg Prod.snd result
      rw [← answer] at covers
      exact .snoc nodup above covers.grows covers.issued covers.appended covers.adopted
        (after ▸ tracked')

theorem UidInv.init (uidValidity indexID : ℕ) : UidInv [] (.init uidValidity indexID) := by
  refine ⟨nodup_nil, 1, ?_, nofun, nofun, nofun⟩
  exact init_tracked nextUID_counted.lawful uidValidity indexID
    (fun c nextUID _ _ _ _ _ => nextUID.ge) le_rfl

/-- In every run whose operations meet their conditions, the next UID that a handle holds after a
reload, and the one a fresh open holds, is above every UID handed out or appended and not below an
adopted one, and no UID is handed out twice. -/
theorem uids_never_reused (uidValidity indexID : ℕ) (steps : List Step)
    (guarded : Sys.Guarded UidSafe [] (Sys.init uidValidity indexID) steps) :
    (((Sys.init uidValidity indexID).trace steps).filterMap Event.issued).Nodup ∧
      (∀ i s, ((Sys.init uidValidity indexID).run steps).locked i = some s →
        AboveUids ((Sys.init uidValidity indexID).trace steps) s.fs.file.header.nextUID) ∧
      ∀ fs disk, openFolder ((Sys.init uidValidity indexID).run steps).disk = (.ok fs, disk) →
        AboveUids ((Sys.init uidValidity indexID).trace steps) fs.file.header.nextUID := by
  have inv := Sys.run_induction UidInv.step (UidInv.init uidValidity indexID) guarded
  rw [nil_append] at inv
  obtain ⟨nodup, cur, tracked, above⟩ := inv
  refine ⟨nodup, fun i s locked => ?_, fun fs disk opened => ?_⟩
  · exact above.mono (nextUID_counted.locked tracked locked).rel
  · exact above.mono (nextUID_counted.le_opened tracked opened)

/-- The conditions hold in a run that adopts a UID space, allocates, opens a second handle and
allocates there. -/
theorem uids_never_reused_two_handles :
    Sys.Guarded UidSafe [] (Sys.init 7 9) [.op 0 (.adoptUIDSpace 8 100), .op 0 .allocateUID,
        .openFolder, .op 1 .allocateUID] ∧
      (((Sys.init 7 9).trace [.op 0 (.adoptUIDSpace 8 100), .op 0 .allocateUID, .openFolder,
        .op 1 .allocateUID]).filterMap Event.issued).Nodup := by
  have guarded : Sys.Guarded UidSafe [] (.init 7 9) [.op 0 (.adoptUIDSpace 8 100),
      .op 0 .allocateUID, .openFolder, .op 1 .allocateUID] := by
    refine ⟨fun _ s locked => ⟨fun _ => ?_, fun _ => ?_⟩, fun _ s locked => ⟨?_, ?_⟩, trivial,
      fun _ s locked => ⟨?_, ?_⟩, trivial⟩
    · revert s; decide
    · revert s; unfold Unshared; decide
    · nofun
    · revert s; decide
    · nofun
    · revert s; decide
  exact ⟨guarded, (uids_never_reused 7 9 _ guarded).1⟩

/-- An adopted UID space is lost to a fresh open when the log still holds an older next UID. And a
handle that adopted a base mints a lineage that was used before, so that a third handle keeps a next
UID that was already handed out. -/
theorem adopted_uid_space_lost :
    ((((Sys.init 7 9).trace [.op 0 .allocateUID, .op 0 (.adoptUIDSpace 8 100)]).filterMap
          Event.adopted = [100]) ∧
      ((openFolder ((Sys.init 7 9).run [.op 0 .allocateUID, .op 0 (.adoptUIDSpace 8 100)]).disk).1.map
        fun fs => fs.file.header.nextUID) = .ok 2) ∧
      ((Sys.init 7 9).trace [.openFolder, .openFolder, .op 0 .optimizeIndex, .op 1 .read, .op 2 .read,
        .op 0 .allocateUID, .op 2 .read, .op 1 .optimizeIndex, .op 0 .allocateUID,
        .op 0 .optimizeIndex, .op 2 .allocateUID]).filterMap Event.issued = [1, 2, 2] := by
  decide

end Runs

end Yarilo.FileIndex

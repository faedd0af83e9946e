import Yarilo.FileIndex.Counter
import Yarilo.FileIndex.Messages
import Yarilo.FileIndex.Solo

/-! # A fresh open shows what the writer holds

One handle works on a folder. Some of its operations are journalled, some only rewrite the base and
leave the log. A fresh open replays that whole log over the base. It finds the same messages, except
where the log still holds an older flag write for a message whose tier marker was changed in the
base alone.
-/

namespace Yarilo.FileIndex

open Library MailIndex TxRecord Record Batch List FolderState

theorem messages_blind : Blind messages := fun _ _ rel _ => rel

variable {r : Record}

section Groups

variable {tx : TxRecord} {target : ℕ} {flags : MailFlag}

/-- The record names no UID. -/
theorem not_names_of_isKeyword (keyword : tx.IsKeyword) (uid : ℕ) : ¬tx.Names uid := by
  cases tx <;> first | exact id | exact keyword.elim

theorem or_and_self (old new : MailFlag) : (old ||| new) &&& new = new := by
  apply BitVec.eq_of_getLsbD_eq
  intro i _
  rw [BitVec.getLsbD_and, BitVec.getLsbD_or]
  cases old.getLsbD i <;> cases new.getLsbD i <;> rfl

section

variable {keywordRecs : List TxRecord} (keywords : ∀ tx ∈ keywordRecs, tx.IsKeyword)
  {updates : List (ℕ × ℕ)} {flagUpdates : List FlagUpdate} {seen deleted : ℕ}

include keywords

/-- Of a flag write's group the stamps and the flags act on messages. -/
theorem actAll_flags (uid : ℕ) (m : Option Record) :
    actAll uid ([.modseqUpdate updates, .flagUpdate flagUpdates] ++ keywordRecs ++
      [.headerUpdate 40 seen, .headerUpdate 44 deleted]) m =
        actAll uid [.modseqUpdate updates, .flagUpdate flagUpdates] m := by
  rw [append_assoc, actAll_append]
  refine actAll_of_not_names (fun tx member => ?_) _
  rcases mem_append.mp member with keyword | counter
  · exact not_names_of_isKeyword (keywords tx keyword) uid
  · simp only [mem_cons, not_mem_nil, or_false] at counter
    rcases counter with rfl | rfl <;> exact id

theorem flags_appends (uid : ℕ) : ∀ tx ∈ [.modseqUpdate updates, .flagUpdate flagUpdates] ++
    keywordRecs ++ [.headerUpdate 40 seen, .headerUpdate 44 deleted], ¬tx.Appends uid :=
  forall_mem_flagGroup id id
    (fun tx held appends => not_names_of_isKeyword (keywords tx held) uid appends.names) fun _ _ _ => id

end

theorem actAll_flagGroup (fs : FolderState) (target : ℕ) (flags : MailFlag) (have_ want : List Keyword)
    (uid : ℕ) (m : Option Record) :
    actAll uid (fs.flagGroup target flags have_ want) m =
      if target = uid then m.map fun r => r.touch (fun _ => flags) fun _ => fs.highestModSeq
      else m := by
  rw [flagGroup, actAll_flags fun _ => keywordLogRecords_isKeyword]
  simp only [actAll, foldl_cons, foldl_nil, act]
  by_cases same : target = uid
  · subst same
    cases m with
    | none => simp
    | some r => simp [touch, or_and_self]
  · have outside : ¬(target ≤ uid ∧ uid ≤ target) := fun inside => same (Nat.le_antisymm inside.1 inside.2)
    rw [if_neg same, if_neg outside, if_neg same]

theorem actAll_expungeGroup (fs : FolderState) (r : Record) (uid : ℕ) (m : Option Record) :
    actAll uid (fs.expungeGroup r) m = if r.uid = uid then none else m := rfl

/-- An append adds its record, and only where there is none. -/
theorem actAll_appendGroup (fs : FolderState) (r : Record) (uid : ℕ) (m : Option Record) :
    actAll uid (Local.appendGroup fs r) m =
      if r.uid = uid then
        some ((m.getD r.bare).touch id fun _ => r.modseq)
      else m := by
  simp only [actAll, Local.appendGroup, foldl_cons, foldl_nil, act]
  by_cases same : r.uid = uid
  · rw [if_pos same, if_pos same, if_pos same]
    rfl
  · rw [if_neg same, if_neg same, if_neg same]

namespace Batch

/-- What the modseqs and flags a batch has collected do to one message. -/
def act (b : Batch) (uid : ℕ) (m : Option Record) : Option Record :=
  actAll uid [.modseqUpdate b.modseqUpdates, .flagUpdate b.flagUpdates] m

/-- The batch has named only these UIDs. -/
structure Within (b : Batch) (uids : List ℕ) : Prop where
  stamped : ∀ u ∈ b.modseqUpdates, u.1 ∈ uids
  flagged : ∀ u ∈ b.flagUpdates, u.uid1 = u.uid2 ∧ u.uid1 ∈ uids

variable {b b' : Batch} {uids : List ℕ} {uid modseq : ℕ} {done : List Record}

theorem Within.unnamed (within : b.Within uids) (outside : uid ∉ uids) :
    ¬(TxRecord.modseqUpdate b.modseqUpdates).Names uid ∧
      ¬(TxRecord.flagUpdate b.flagUpdates).Names uid := by
  constructor
  · rintro ⟨u, member, rfl⟩
    exact outside (within.stamped u member)
  · rintro ⟨u, member, low, high⟩
    obtain ⟨point, inside⟩ := within.flagged u member
    have same : u.uid1 = uid := by omega
    exact outside (same ▸ inside)

theorem Within.leaves (within : b.Within uids) (outside : uid ∉ uids) (m : Option Record) :
    b.act uid m = m := by
  obtain ⟨stamped, flagged⟩ := within.unnamed outside
  show TxRecord.act uid (TxRecord.act uid m (.modseqUpdate b.modseqUpdates))
    (.flagUpdate b.flagUpdates) = m
  rw [act_of_not_names stamped, act_of_not_names flagged]

/-- One more message in the batch: the others' acts stay, its own is to be stamped. -/
theorem act_add (within : b.Within uids) (new : target ∉ uids)
    (modseqs : b'.modseqUpdates = b.modseqUpdates ++ [(target, modseq)])
    (added : b'.flagUpdates = b.flagUpdates ++ [⟨target, target, flags, ~~~flags⟩]) (uid : ℕ)
    (m : Option Record) :
    b'.act uid m =
      if target = uid then m.map fun r => r.touch (fun _ => flags) fun _ => modseq
      else b.act uid m := by
  have shape : b'.act uid m = TxRecord.act uid (TxRecord.act uid (TxRecord.act uid (TxRecord.act uid m
        (.modseqUpdate b.modseqUpdates)) (.modseqUpdate [(target, modseq)]))
        (.flagUpdate b.flagUpdates)) (.flagUpdate [⟨target, target, flags, ~~~flags⟩]) := by
    simp [act, actAll, TxRecord.act, modseqs, added]
  by_cases same : target = uid
  · subst same
    obtain ⟨stamped, flagged⟩ := within.unnamed new
    rw [shape, act_of_not_names stamped, act_of_not_names flagged, if_pos rfl]
    cases m with
    | none => simp [TxRecord.act]
    | some r => simp [TxRecord.act, touch, or_and_self]
  · have plain : ¬(modseqUpdate [(target, modseq)]).Names uid := by
      rintro ⟨u, member, rfl⟩
      exact same (congrArg Prod.fst (mem_singleton.mp member)).symm
    have plain' : ¬(flagUpdate [⟨target, target, flags, ~~~flags⟩]).Names uid := by
      rintro ⟨u, member, low, high⟩
      obtain rfl := mem_singleton.mp member
      exact same (Nat.le_antisymm low high)
    rw [shape, act_of_not_names plain, act_of_not_names plain', if_neg same]
    rfl

/-- The batch has passed the records `done` and journalled what it did to them. -/
structure Wrote (done : List Record) (b : Batch) : Prop where
  within : b.Within (done.map (·.uid))
  uids : b.passed.map (·.uid) = done.map (·.uid)
  shows : ∀ uid, message b.passed uid = b.act uid (message done uid)
  idle : b.modseqUpdates = [] → b.flagUpdates = []
  overwrites : ∀ uid, (∀ m, b.act uid m = m) ∨ ∃ flags modseq, ∀ m, b.act uid m =
    m.map fun r => r.touch (fun _ => flags) fun _ => modseq

theorem Wrote.skip (wrote : b.Wrote done) (new : r.uid ∉ done.map (·.uid)) :
    ({ b with passed := b.passed ++ [r] } : Batch).Wrote (done ++ [r]) := by
  have longer : done.map (·.uid) ⊆ (done ++ [r]).map (·.uid) := by simp
  refine ⟨⟨fun u member => longer (wrote.within.stamped u member), fun u member =>
    ⟨(wrote.within.flagged u member).1, longer (wrote.within.flagged u member).2⟩⟩, ?_, ?_,
    wrote.idle, wrote.overwrites⟩
  · show (b.passed ++ [r]).map _ = _
    rw [map_append, map_append, wrote.uids]
  · intro uid
    show message (b.passed ++ [r]) uid = b.act uid (message (done ++ [r]) uid)
    rw [message_append, message_append, wrote.shows]
    by_cases same : r.uid = uid
    · subst same
      have absent : message done r.uid = none := message_eq_none.mpr new
      rw [absent, wrote.within.leaves new, wrote.within.leaves new]
    · rw [message_cons, if_neg same]
      simp [message]

theorem Wrote.write (wrote : b.Wrote done) {r' : Record} (new : r.uid ∉ done.map (·.uid))
    (named : r'.uid = r.uid) (stamped : r'.bare = r.bare.touch (fun _ => flags) fun _ => modseq)
    (passed : b'.passed = b.passed ++ [r'])
    (modseqs : b'.modseqUpdates = b.modseqUpdates ++ [(r.uid, modseq)])
    (added : b'.flagUpdates = b.flagUpdates ++ [⟨r.uid, r.uid, flags, ~~~flags⟩]) :
    b'.Wrote (done ++ [r]) := by
  have longer : done.map (·.uid) ⊆ (done ++ [r]).map (·.uid) := by simp
  have acts := act_add wrote.within new modseqs added
  refine ⟨⟨?_, ?_⟩, ?_, fun uid => ?_, fun none_ => ?_, fun uid => ?_⟩
  · rw [modseqs]
    exact forall_mem_concat (fun u old => longer (wrote.within.stamped u old)) (by simp)
  · rw [added]
    exact forall_mem_concat (fun u old => (wrote.within.flagged u old).imp_right (longer ·)) ⟨rfl, by simp⟩
  · rw [passed, map_append, map_append, wrote.uids, map_singleton, named]
    rfl
  · rw [passed, message_append, message_append, acts, wrote.shows]
    by_cases same : r.uid = uid
    · subst same
      have absent : message done r.uid = none := message_eq_none.mpr new
      rw [absent, wrote.within.leaves new, if_pos rfl, message_cons, message_cons, if_pos named,
        if_pos rfl, stamped]
      rfl
    · rw [if_neg same, message_cons, message_cons, if_neg (named ▸ same), if_neg same]
      simp [message]
  · rw [modseqs] at none_
    simp at none_
  · by_cases same : r.uid = uid
    · exact .inr ⟨flags, modseq, fun m => by rw [acts, if_pos same]⟩
    rcases wrote.overwrites uid with leaves | ⟨flags', modseq', stamps⟩
    · exact .inl fun m => by rw [acts, if_neg same, leaves]
    · exact .inr ⟨flags', modseq', fun m => by rw [acts, if_neg same, stamps]⟩

theorem loop_wrote {updates : List (ℕ × FlagsUpdate)} {records : List Record}
    (looped : b.loop updates records = (b', true)) (nodup : ((done ++ records).map (·.uid)).Nodup)
    (wrote : b.Wrote done) : b'.Wrote (done ++ records) := by
  induction records generalizing b done with
  | nil =>
    cases looped
    rwa [append_nil]
  | cons r records ih =>
    have new : r.uid ∉ done.map (·.uid) := by
      intro member
      rw [map_append, nodup_append] at nodup
      exact nodup.2.2 _ member _ (.head _) rfl
    rw [append_cons] at nodup ⊢
    unfold loop at looped
    split at looped
    · rename_i middle stepped
      refine ih looped nodup ?_
      unfold step at stepped
      split at stepped
      · cases stepped
        exact wrote.skip new
      dsimp only at stepped
      split at stepped
      · cases stepped
      · cases stepped
        exact wrote.write new (by rfl) (by rfl) rfl rfl rfl
    · cases looped

end Batch

end Groups

section Operations

variable {s : Local} {g : MessageMap} {answer : Answer}

section

variable (busy : Busy messages s g)

include busy

section

variable (fs : FolderState) (book : fs.book = s.fs.book)

include book

omit book in
theorem Busy.rel_of_records (records : fs.file.records = s.fs.file.records) :
    messages.Rel fs.toContent g := by
  show (fs.file.records.map (·.uid)).Nodup ∧ ∀ uid, message fs.file.records uid = g uid
  rw [records]
  exact busy.rel

/-- A change in memory that leaves the messages. -/
theorem Busy.keep (records : fs.file.records = s.fs.file.records)
    (keywords : fs.keywords = s.fs.keywords) : Busy messages { s with fs := fs } g :=
  busy.touch fs book (busy.rel_of_records fs records) (keywords ▸ busy.tidy) (keywords ▸ prefix_refl _)

/-- A change in memory, then its group in the log. -/
theorem Busy.journal (group : Group)
    (appendsNone : ∀ tx ∈ group, ∀ uid, ¬tx.Appends uid) (overwrites : ∀ uid, Overwrites uid group)
    (nodup : (fs.file.records.map (·.uid)).Nodup)
    (shows : ∀ uid, message fs.file.records uid = actAll uid group (message s.fs.file.records uid))
    (tidy : Tidy fs.keywords) (grew : s.fs.keywords <+: fs.keywords)
    (known : ∀ tx ∈ group, tx.Known fs.keywords) :
    Busy messages (.appendMutLog group { s with fs := fs }) (messages.advance g group) := by
  refine busy.appendMutLog messages_lawful fs book
    (fun l log => ok_of_overwrites (busy.settled log) appendsNone overwrites) ⟨nodup, fun uid => ?_⟩
    tidy grew known
  rw [shows, busy.rel.2]
  rfl

/-- A group of counters. -/
theorem Busy.count (offset value : ℕ)
    (records : fs.file.records = s.fs.file.records) (keywords : fs.keywords = s.fs.keywords) :
    ∃ g', Idle messages (.appendMutLog [.headerUpdate offset value] { s with fs := fs }) g' := by
  refine ⟨_, (busy.journal fs book [.headerUpdate offset value]
    (forall_mem_singleton.mpr fun uid => id) (fun uid => .leaves fun _ => rfl) ?_ (fun uid => ?_)
    (keywords ▸ busy.tidy) (keywords ▸ prefix_refl _) (forall_mem_singleton.mpr trivial)).idle⟩
  · rw [records]
    exact busy.rel.1
  · rw [records]
    rfl

/-- The base rewritten as it is. -/
theorem Busy.save (records : fs.file.records = s.fs.file.records) (keywords : fs.keywords = s.fs.keywords)
    (wholeNames : Bool) : Busy messages (.flush wholeNames { s with fs := fs }) g :=
  busy.flush messages_lawful messages_stable messages_blind fs book (busy.rel_of_records fs records)
    (fun _ log => busy.settled log) (keywords ▸ busy.tidy) (keywords ▸ prefix_refl _) wholeNames

end

/-- Records changed in the base alone. -/
theorem Busy.edit (change : Record → Record) (edit : ℕ → Record → Record)
    (keeps : ∀ r, (change r).uid = r.uid) (shows : ∀ r, (change r).bare = edit r.uid r.bare)
    (modseq : ∀ uid r, (edit uid r).modseq = r.modseq)
    (flags : ∀ l, s.disk.log = some l → ∀ uid, (∃ tx ∈ l.groups.flatten, tx.Flags uid) →
      ∀ r, g uid = some r → (edit uid r).flags = r.flags) (wholeNames : Bool) :
    ∃ g', Idle messages (.flush wholeNames
      (s.mapFs (·.mapFile fun f => { f with records := f.records.map change }))) g' := by
  refine ⟨fun uid => (g uid).map (edit uid), (busy.flush messages_lawful messages_stable messages_blind
    (s.fs.mapFile fun f => { f with records := f.records.map change }) rfl ⟨?_, fun uid => ?_⟩
    (fun l log => settled_of_edit (busy.settled log) modseq (flags l log))
    busy.tidy (prefix_refl _) wholeNames).idle⟩
  · have same : (s.fs.file.records.map change).map (·.uid) = s.fs.file.records.map (·.uid) := by
      rw [map_map]
      exact map_congr_left fun r _ => keeps r
    exact same ▸ busy.rel.1
  · have mapped := look_map bare s.fs.file.records uid change (fun r => edit r.uid r) keeps
      fun r _ _ => shows r
    refine mapped.trans ((congrArg (Option.map _) (busy.rel.2 uid)).trans ?_)
    cases found : g uid with
    | none => rfl
    | some r =>
      have named : r.uid = uid := message_uid ((busy.rel.2 uid).trans found)
      rw [Option.map_some, Option.map_some, named]

theorem Busy.fold (fs : FolderState) (nodup : (fs.file.records.map (·.uid)).Nodup)
    (tidy : Tidy fs.keywords) (wholeNames : Bool) :
    ∃ g', Idle messages (.compact wholeNames { s with fs := fs }) g' := by
  refine ⟨message fs.file.records, busy.compact messages_lawful messages_stable messages_blind fs
    ⟨?_, fun uid => ?_⟩ ⟨.nil, fun _ => rfl⟩ tidy wholeNames⟩
  · rw [(stampExpungeFloor_frame fs).2.1]
    exact nodup
  · rw [(stampExpungeFloor_frame fs).2.1]

end

/-- The UID is new to the folder and to its log. -/
def Local.NewUID (s : Local) (uid : ℕ) : Prop := uid ∉ s.fs.file.records.map (·.uid) ∧
    ∀ l ∈ s.disk.log, ∀ tx ∈ l.groups.flatten, ¬tx.Names uid

instance (s : Local) (uid : ℕ) : Decidable (s.NewUID uid) := by
  unfold Local.NewUID
  cases s.disk.log with
  | none => exact inferInstanceAs (Decidable (_ ∧ ∀ l ∈ (none : Option LogFile), _))
  | some l => exact inferInstanceAs (Decidable (_ ∧ ∀ l' ∈ some l, _))

theorem Busy.growRegistry (busy : Busy messages s g) {registry : Registry} (tidy : Tidy registry)
    (grew : s.fs.keywords <+: registry) : Busy messages (s.growRegistry registry) g := by
  unfold Local.growRegistry
  dsimp only
  split
  · exact busy.flush messages_lawful messages_stable messages_blind (s.fs.persistKeywordRegistry registry)
      rfl busy.rel (fun l log => busy.settled log) tidy grew false
  · exact busy.touch (s.fs.persistKeywordRegistry registry) rfl busy.rel tidy grew

section

variable (busy : Busy messages s g)

include busy

/-- A record that is new goes into memory and, with its group, into the log. -/
theorem Busy.addRecord (m : MessageMeta) (named : r.uid = m.uid) (new : s.NewUID m.uid) :
    ∃ g', Busy messages (Local.appendMutLog (Local.appendGroup (s.fs.addRecord m r) r)
      (s.mapFs (·.addRecord m r))) g' := by
  have absent : g m.uid = none := by
    rw [← busy.rel.2]
    exact message_eq_none.mpr new.1
  refine ⟨_, busy.appendMutLog messages_lawful (s.fs.addRecord m r) rfl (fun l log => ?_)
    ⟨?_, fun uid => ?_⟩ busy.tidy (prefix_refl _) (by simp [Local.appendGroup, Known])⟩
  · refine ok_of_appends (busy.settled log) ⟨_, rfl, by simp [Appends]⟩ named absent (new.2 l log) ?_ ?_
    · intro other different content
      rw [actAll_appendGroup, if_neg fun same => different (same.symm.trans named)]
    · intro content added
      rw [actAll_appendGroup, if_pos named] at added ⊢
      cases added
      rfl
  · exact nodup_uids_concat busy.rel.1 (named ▸ new.1)
  · show message (s.fs.file.records ++ [r]) uid = actAll uid _ (g uid)
    rw [message_append, message_cons, actAll_appendGroup, busy.rel.2]
    by_cases same : r.uid = uid
    · rw [if_pos same, if_pos same, ← same, named, absent]
      rfl
    · rw [if_neg same, if_neg same]
      simp [message]

theorem Busy.commitAppend (m : MessageMeta) (rotate : Bool) (new : s.NewUID m.uid)
    (done : (s.commitAppend m rotate).1 = .ok answer) :
    ∃ g', Idle messages (s.commitAppend m rotate).2 g' := by
  rcases s.commitAppend_cases m rotate with
    zero | full | ⟨bits, registry, modseq, r, known, stamp, rfl, outcome⟩
  · rw [zero] at done
    cases done
  · rw [full] at done
    cases done
  rw [outcome]
  obtain ⟨grewNames, _⟩ := keywordsBitmaskFor_spec known
  have tidy := busy.tidy.keywordsBitmaskFor known
  set r := recordFor m modseq bits with record
  obtain ⟨_, stampedFs⟩ := s.stampModSeq_fs m
  have records : (s.stampModSeq m).fs.file.records = s.fs.file.records :=
    congrArg (·.file.records) stampedFs
  have keywords : (s.stampModSeq m).fs.keywords = s.fs.keywords := congrArg (·.keywords) stampedFs
  have stamped : Busy messages (s.stampModSeq m) g :=
    busy.keep (s.stampModSeq m).fs (congrArg (·.book) stampedFs) records keywords
  have grown := stamped.growRegistry tidy (keywords ▸ grewNames)
  obtain ⟨log, sameRecords⟩ := growRegistry_keeps registry (s.stampModSeq m)
  set base := (s.stampModSeq m).growRegistry registry with baseDef
  obtain ⟨name, size, written, -, group⟩ := flushAppend_eq m r base
  have fresh : (base.appendName r.uid name size).NewUID m.uid := by
    have sameFile : (base.appendName r.uid name size).fs.file.records = s.fs.file.records := by
      rw [(appendName_fs r.uid name size base).1, sameRecords, records]
    unfold Local.NewUID
    rw [(appendName_disk ..).2.1, log, sameFile]
    exact new
  obtain ⟨g', logged⟩ := (grown.appendName r.uid name size).addRecord m (r := r) rfl fresh
  rw [group] at logged
  rw [written]
  cases rotate with
  | false => exact ⟨g', logged.idle⟩
  | true => exact logged.fold _ logged.rel.1 logged.tidy false

theorem Busy.allocateAndAppend (m : MessageMeta) (rotate : Bool) (named : m.uid = s.nextUID)
    (new : s.NewUID s.nextUID)
    (done : ((s.mapFs (·.setNextUID (u32 (s.nextUID + 1)))).commitAppend m rotate).1.map (fun _ =>
      .uid s.nextUID) = .ok answer) :
    ∃ g', Idle messages ((s.mapFs (·.setNextUID (u32 (s.nextUID + 1)))).commitAppend m rotate).2 g' := by
  have advanced := busy.keep (s.fs.setNextUID (u32 (s.nextUID + 1))) rfl rfl rfl
  cases result : ((s.mapFs (·.setNextUID (u32 (s.nextUID + 1)))).commitAppend m rotate).1 with
  | error e =>
    rw [result] at done
    cases done
  | ok answer' =>
    refine advanced.commitAppend m rotate ?_ result
    rw [named]
    exact new

theorem Busy.writeFlags (mode : FlagWriteMode) (uid : ℕ) (flags : List ImapFlag)
    (keywords : List Keyword) : ∃ g', Idle messages (s.writeFlags mode uid flags keywords).2 g' := by
  have bumped := busy.keep s.fs.bumpModSeqHeader rfl rfl rfl
  rcases writeFlags_cases mode uid flags keywords s with
    full | ⟨bits, registry, newFlags, fs, want, _, known, _, fsDef, ⟨reflags, highest⟩, outcome⟩
  · rw [full]
    exact ⟨g, bumped.idle⟩
  rw [outcome]
  obtain ⟨grew, wanted⟩ := keywordsBitmaskFor_spec known
  have had : ∀ name ∈ s.fs.bumpModSeqHeader.namesOf uid, Registered registry name := by
    intro name member
    unfold namesOf at member
    cases found : s.fs.bumpModSeqHeader.target uid with
    | none => rw [found] at member; cases member
    | some r =>
      rw [found] at member
      exact (bumped.tidy.registered_of_bitmask member).mono grew
  refine ⟨_, (busy.journal fs reflags.book _ (fun tx member uid => ?_) (fun other => ?_) ?_
    (fun other => ?_) ?_ ?_ fun tx member => ?_).idle⟩
  · exact flags_appends (fun _ => keywordLogRecords_isKeyword) uid tx member
  · by_cases same : uid = other
    · exact .stamps newFlags fs.highestModSeq fun m => by rw [actAll_flagGroup, if_pos same]
    · exact .leaves fun m => by rw [actAll_flagGroup, if_neg same]
  · rw [reflags.records fun _ _ _ _ => rfl]
    exact busy.rel.1
  · rw [actAll_flagGroup, highest, fsDef]
    exact look_updateFirst bare uid _ _ (fun _ => rfl) fun _ => rfl
  · rw [fsDef]
    exact busy.tidy.keywordsBitmaskFor known
  · rw [fsDef]
    exact grew
  · rw [fsDef]
    exact forall_mem_flagGroup trivial trivial (fun _ => keywordLogRecords_known had wanted)
      (fun _ _ _ => trivial) tx member

end

theorem Batch.start_wrote (fs : FolderState) : (Batch.start fs).Wrote [] := by
  have idle : ∀ uid m, (start fs).act uid m = m := fun _ _ => rfl
  exact ⟨⟨by simp [start], by simp [start]⟩, rfl, fun _ => rfl, fun _ => rfl,
    fun uid => .inl (idle uid)⟩

theorem Batch.actAll_group (b : Batch) (keywords : ∀ tx ∈ b.keywordRecs, tx.IsKeyword) (uid : ℕ)
    (m : Option Record) : actAll uid b.group m = b.act uid m := actAll_flags keywords uid m

section

variable (busy : Busy messages s g)

include busy

theorem Busy.updateFlagsMulti (updates : List (ℕ × FlagsUpdate))
    (done : (s.updateFlagsMulti updates).1 = .ok answer) :
    ∃ g', Idle messages (s.updateFlagsMulti updates).2 g' := by
  rcases updateFlagsMulti_cases updates s with
    full | ⟨bits, registry, fs, b, ok, known, fsDef, batched, outcome⟩
  · rw [full] at done
    cases done
  obtain ⟨grew, _⟩ := keywordsBitmaskFor_spec known
  have registered : Tidy fs.keywords ∧ s.fs.keywords <+: fs.keywords := by
    rw [fsDef]
    split
    · exact ⟨busy.tidy, prefix_refl _⟩
    · exact ⟨busy.tidy.keywordsBitmaskFor known, grew⟩
  obtain ⟨looped, records, ⟨book, -⟩, keywords, -⟩ := batched
  have names : b.Names fs.keywords := by
    have started : (start fs).Names fs.keywords :=
      ⟨registered.1, prefix_refl _, by simp [start]⟩
    have ended := loop_names updates fs.file.records started
    rw [looped] at ended
    exact ended
  rcases outcome with ⟨_, failed⟩ | ⟨rfl, none_, finished⟩ | ⟨rfl, _, finished⟩
  · rw [failed] at done
    cases done
  all_goals
    have nodup : ((([] : List Record) ++ fs.file.records).map (·.uid)).Nodup := by
      rw [nil_append, records]
      exact busy.rel.1
    have wrote := loop_wrote looped nodup (start_wrote fs)
    rw [nil_append, records] at wrote
  · have leaves : ∀ uid m, b.act uid m = m := by
      intro uid m
      unfold Batch.act
      rw [none_, wrote.idle none_]
      rfl
    rw [finished]
    refine ⟨g, (busy.touch (fs.batched b) book ⟨?_, fun uid => ?_⟩ names.tidy
      (registered.2.trans names.grew)).idle⟩
    · show (b.passed.map (·.uid)).Nodup
      rw [wrote.uids]
      exact busy.rel.1
    · show message b.passed uid = g uid
      rw [wrote.shows, leaves, busy.rel.2]
  · rw [finished]
    refine ⟨_, (busy.journal (fs.batched b) book b.group
      (fun tx member uid => flags_appends keywords uid tx member) (fun uid => ?_) ?_ (fun uid => ?_)
      names.tidy (registered.2.trans names.grew) fun tx member => ?_).idle⟩
    · rcases wrote.overwrites uid with leaves | ⟨flags, modseq, stamps⟩
      · exact .leaves fun m => (b.actAll_group keywords uid m).trans (leaves m)
      · exact .stamps flags modseq fun m => (b.actAll_group keywords uid m).trans (stamps m)
    · show (b.passed.map (·.uid)).Nodup
      rw [wrote.uids]
      exact busy.rel.1
    · rw [b.actAll_group keywords]
      exact wrote.shows uid
    · exact forall_mem_flagGroup trivial trivial names.known (fun _ _ _ => trivial) tx member

theorem Busy.expungeMessage (uid : ℕ) : ∃ g', Idle messages (s.expungeMessage uid).2 g' := by
  have bumped := busy.keep s.fs.bumpModSeqHeader rfl rfl rfl
  unfold Local.expungeMessage
  dsimp only
  split
  · exact ⟨g, bumped.idle⟩
  rename_i r found
  refine ⟨_, (bumped.journal (s.fs.bumpModSeqHeader.removeRecord r) rfl _
    (by simp [expungeGroup, Appends]) (fun other => ?_) ?_ (fun other => ?_) busy.tidy (prefix_refl _)
    (by simp [expungeGroup, Known])).idle⟩
  · by_cases same : r.uid = other
    · exact .removes fun m => by rw [actAll_expungeGroup, if_pos same]
    · exact .leaves fun m => by rw [actAll_expungeGroup, if_neg same]
  · show ((removeFirst r.uid s.fs.file.records).map (·.uid)).Nodup
    rw [map_uid_removeFirst]
    exact busy.rel.1.erase r.uid
  · rw [actAll_expungeGroup]
    exact look_removeFirst bare r.uid other busy.rel.1

theorem Busy.setGUIDs (guids : List (ℕ × Guid)) : ∃ g', Idle messages (s.setGUIDs guids).2 g' := by
  have marked := busy.keep (s.fs.mapFile fun f =>
    { f with ext := { f.ext with guidState := guidStateComplete } }) rfl rfl rfl
  exact marked.edit (·.stampGUID guids) (fun _ r => r.stampGUID guids)
    (fun r => by unfold stampGUID; split <;> rfl)
    (fun r => by
      have guid : r.bare.guid = r.guid := rfl
      unfold stampGUID
      rw [guid]
      split <;> rfl)
    (fun _ r => by unfold stampGUID; split <;> rfl)
    (fun _ _ _ _ r _ => by unfold stampGUID; split <;> rfl) true

theorem Busy.setCacheOffsets (offsets : List (ℕ × ℕ)) :
    ∃ g', Idle messages (s.setCacheOffsets offsets).2 g' :=
  busy.edit (·.stampCache offsets) (fun _ r => r.stampCache offsets)
    (fun r => by unfold stampCache; split <;> rfl)
    (fun r => by
      have uid : r.bare.uid = r.uid := rfl
      unfold stampCache
      rw [uid]
      split <;> rfl)
    (fun _ r => by unfold stampCache; split <;> rfl)
    (fun _ _ _ _ r _ => by unfold stampCache; split <;> rfl) true

theorem Busy.leaveCacheGeneration (now : ℕ) (moved : List (ℕ × ℕ)) :
    ∃ g', Idle messages (s.leaveCacheGeneration now moved).2 g' := by
  have left := busy.keep (s.fs.mapFile fun f => { f with
    ext := { f.ext with cacheResetID := Local.newCacheGeneration now f.ext.cacheResetID } })
    rfl rfl rfl
  exact left.edit (·.moveCache moved)
    (fun uid r => { r with cache := some ((moved.lookup uid).getD 0) }) (fun _ => rfl) (fun _ => rfl)
    (fun _ _ => rfl) (fun _ _ _ _ _ _ => rfl) true

end

/-- The tier marker changes only where the current log holds no flag write. -/
def Local.TierFree (s : Local) (filenames : List Bytes) (altTier : Bool) : Prop :=
  ∀ r ∈ s.fs.file.records, r.setTier s.fs.filenames filenames altTier ≠ r →
    ∀ l ∈ s.disk.log, ∀ tx ∈ l.groups.flatten, ¬tx.Flags r.uid

theorem Busy.setAltTier (busy : Busy messages s g) (filenames : List Bytes) (altTier : Bool)
    (free : s.TierFree filenames altTier) : ∃ g', Idle messages (s.setAltTier filenames altTier).2 g' := by
  unfold Local.setAltTier
  dsimp only
  split
  · exact ⟨g, busy.idle⟩
  exact busy.edit (·.setTier s.fs.filenames filenames altTier)
    (fun _ r => r.setTier s.fs.filenames filenames altTier)
    (fun r => by unfold setTier; split <;> rfl)
    (fun r => by
      have uid : r.bare.uid = r.uid := rfl
      unfold setTier
      rw [uid]
      split <;> rfl)
    (fun _ r => by unfold setTier; split <;> rfl)
    (fun l log uid written r shown => by
      obtain ⟨r', found, rfl⟩ := Option.map_eq_some_iff.mp ((busy.rel.2 uid).trans shown)
      have named : r'.uid = uid := by simpa using find?_some found
      obtain ⟨tx, member, writes⟩ := written
      by_contra changed
      refine free r' (mem_of_find?_eq_some found) (fun same => changed ?_) l log tx member
        (named ▸ writes)
      have flags : (r'.bare.setTier s.fs.filenames filenames altTier).flags =
          (r'.setTier s.fs.filenames filenames altTier).flags := by
        have uid : r'.bare.uid = r'.uid := rfl
        unfold setTier
        rw [uid]
        split <;> rfl
      rw [flags, same]
      rfl) false

/-- The UIDs a reset asks for. -/
def resetUIDs (metas : List MessageMeta) : List ℕ := (metas.map (·.uid)).filter (· ≠ 0)

theorem Rebuild.loop_uids {b b' : Rebuild} {metas : List MessageMeta} (looped : b.loop metas = (b', true)) :
    b'.records.map (·.uid) = b.records.map (·.uid) ++ resetUIDs metas := by
  induction metas generalizing b with
  | nil =>
    cases looped
    simp [resetUIDs]
  | cons m metas ih =>
    unfold Rebuild.loop at looped
    split at looped
    · cases looped
    rename_i middle stepped
    rw [ih looped]
    unfold Rebuild.step at stepped
    split at stepped
    · rename_i zero
      cases stepped
      simp [resetUIDs, zero]
    rename_i nonzero
    obtain ⟨_, _, rfl⟩ := Option.map_eq_some_iff.mp stepped
    simp [resetUIDs, nonzero]

theorem Busy.resetFolder (busy : Busy messages s g) (metas : List MessageMeta)
    (distinct : (resetUIDs metas).Nodup) (done : (s.resetFolder metas).1 = .ok answer) :
    ∃ g', Idle messages (s.resetFolder metas).2 g' := by
  have tidied := Rebuild.loop_tidy (b := Rebuild.start s.fs) metas busy.tidy
  obtain ⟨b, _, looped, ⟨rfl, -, -, failed⟩ | ⟨rfl, fs, _, rebuilt, -, -, result⟩⟩ :=
    resetFolder_cases metas s
  · rw [failed] at done
    cases done
  rw [looped] at tidied
  rw [result]
  refine busy.fold fs ?_ ?_ true
  · rw [rebuilt.records, Rebuild.loop_uids looped]
    exact distinct
  · rw [rebuilt.keywords]
    exact tidied

/-- The UIDs an operation adds are new, and a tier change does not meet a journalled flag write. -/
def Op.Replayable (s : Local) : Op → Prop
  | .appendMessage m _ => s.NewUID m.uid
  | .allocateAndAppendNamed .. => s.NewUID s.nextUID
  | .setAltTier filenames altTier => s.TierFree filenames altTier
  | .resetFolder metas => (resetUIDs metas).Nodup
  | _ => True

/-- Every operation keeps what the writer holds and what a fresh open sees together. -/
theorem Busy.body (busy : Busy messages s g) (op : Op) (replayable : op.Replayable s)
    (done : (op.body s).1 = .ok answer) : ∃ g', Idle messages (op.body s).2 g' := by
  cases op with
  | allocateUID => exact busy.count (s.fs.setNextUID (u32 (s.nextUID + 1))) rfl 28 _ rfl rfl
  | allocateUIDWithModSeq =>
    exact busy.count (s.fs.setNextUID (u32 (s.nextUID + 1))).bumpModSeqHeader rfl 28 _ rfl rfl
  | nextModSeq => exact ⟨g, (busy.keep s.fs.bumpModSeqHeader rfl rfl rfl).idle⟩
  | appendMessage m rotate => exact busy.commitAppend m rotate replayable done
  | allocateAndAppendNamed m name rotate =>
    cases name with
    | none => exact busy.allocateAndAppend { m with uid := s.nextUID } rotate rfl replayable done
    | some outcome =>
      cases outcome with
      | error e => cases done
      | ok filename =>
        exact busy.allocateAndAppend { m with uid := s.nextUID, filename := filename } rotate rfl
          replayable done
  | writeFlags mode uid flags keywords => exact busy.writeFlags mode uid flags keywords
  | updateFlagsMulti updates => exact busy.updateFlagsMulti updates done
  | expungeMessage uid => exact busy.expungeMessage uid
  | saveFolder => exact ⟨g, (busy.save s.fs rfl rfl rfl false).idle⟩
  | recomputeVSize => exact ⟨g, (busy.save s.fs rfl rfl rfl false).idle⟩
  | adoptUIDSpace uidValidity nextUID =>
    simp only [Op.body, Local.adoptUIDSpace] at done ⊢
    split at done
    · cases done
    rename_i empty
    rw [if_neg empty]
    exact ⟨g, (busy.save (s.fs.mapFile fun f => { f with header := { f.header with
      uidValidity := uidValidity
      nextUID := max f.header.nextUID nextUID } }) rfl rfl rfl false).idle⟩
  | setGUIDs guids => exact busy.setGUIDs guids
  | setCacheOffsets offsets => exact busy.setCacheOffsets offsets
  | leaveCacheGeneration now moved => exact busy.leaveCacheGeneration now moved
  | setAltTier filenames altTier => exact busy.setAltTier filenames altTier replayable
  | resetFolder metas => exact busy.resetFolder metas replayable done
  | optimizeIndex => exact busy.fold s.fs busy.rel.1 busy.tidy true
  | markFolderCorrupt =>
    simp only [Op.body, Local.markFolderCorrupt]
    split
    · exact ⟨g, busy.idle⟩
    exact busy.count (s.fs.mapFile fun f => { f with header := { f.header with
      flags := f.header.flags ||| hdrFlagFsckd } }) rfl 20 _ rfl rfl
  | clearFolderCorrupt =>
    simp only [Op.body, Local.clearFolderCorrupt]
    split
    · exact ⟨g, busy.idle⟩
    exact busy.count (s.fs.mapFile fun f => { f with header := { f.header with
      flags := f.header.flags &&& ~~~hdrFlagFsckd } }) rfl 20 _ rfl rfl
  | read => exact ⟨g, busy.idle⟩

end Operations

section Runs

theorem init_idle (uidValidity indexID : ℕ) :
    Idle messages (createFresh uidValidity indexID) fun _ => none := by
  let s := createFresh uidValidity indexID
  let b : BaseFile := { ident := 1, file := s.fs.file.stored }
  let l : LogFile := { ident := 3, indexID := indexID, fileSeq := 2, groups := [] }
  have known : (2 : ℕ) ≠ lineageUnknown := by decide
  have ident : 1 < 4 := by decide
  have rel : ∀ c : Content, c.file.records = [] → messages.Rel c fun _ => none := by
    intro c empty
    show (c.file.records.map (·.uid)).Nodup ∧ ∀ uid, message c.file.records uid = none
    rw [empty]
    exact ⟨nodup_nil, fun _ => rfl⟩
  refine ⟨b, l, ⟨rfl, rfl, ident, rfl, known, known⟩, ?_, .inr ⟨rfl, rfl⟩⟩
  exact {
    ident := rfl
    indexID := rfl
    logFD := .inl rfl
    rel := rel _ rfl
    settled := ⟨.nil, fun _ => rfl⟩
    whole := .of_rel messages_lawful (rel _ rfl) _
    tidy := .nil
    known := by simp [l] }

/-- A writer's operation, which succeeds, adds only UIDs that are new and changes no tier marker
over a journalled flag write. -/
def ReopenSafe (_ : List Event) (sys : Sys) : Step → Prop
  | .op i op => (∃ answer, (sys.step (.op i op)).1 = .ok answer) ∧ op.NamesFit ∧
      ∀ s, sys.locked i = some s → op.Replayable s
  | .openFolder => True

/-- One handle, in step with what a fresh open would see. -/
def Alone (sys : Sys) : Prop := ∃ fs g, sys.handles = [fs] ∧ Idle messages { disk := sys.disk, fs := fs } g

theorem Alone.step {sys : Sys} (alone : Alone sys) (op : Op) (past : List Event)
    (safe : ReopenSafe past sys (.op 0 op)) : Alone (sys.step (.op 0 op)).2 := by
  obtain ⟨fs, g, handles, idle⟩ := alone
  obtain ⟨⟨answer, done⟩, _, replayable⟩ := safe
  have handle : sys.handles[0]? = some fs := by rw [handles]; rfl
  obtain ⟨s, reloaded, busy⟩ := idle.reload messages_lawful rfl
  have locked : sys.locked 0 = some s := by
    unfold Sys.locked
    rw [handle]
    dsimp only
    rw [reloaded]
  rcases sys.step_op_cases 0 op with
    ⟨answer', stepped, _⟩ | ⟨fs', e, s', _, _, stepped⟩ | ⟨s', locked', _, stepped⟩
  · rw [stepped]
    exact ⟨fs, g, handles, idle⟩
  · rw [stepped] at done
    cases done
  cases locked.symm.trans locked'
  rw [stepped] at done ⊢
  obtain ⟨g', next⟩ := busy.body op (replayable s locked) done
  exact ⟨(op.body s).2.fs, g', by rw [handles]; rfl, next⟩

/-- The same messages: their UIDs, and for each everything but the keywords. -/
def SameMessages (writer opened : FolderState) : Prop :=
  (writer.file.records.map (·.uid)).Nodup ∧ (opened.file.records.map (·.uid)).Nodup ∧
    ∀ uid, message opened.file.records uid = message writer.file.records uid

/-- After every run of one handle's operations a fresh open succeeds and shows the messages the
writer holds. -/
theorem reopened_shows_writer (uidValidity indexID : ℕ) (ops : List Op)
    (safe : Sys.Guarded ReopenSafe [] (Sys.init uidValidity indexID) (ops.map (.op 0))) :
    ∃ writer opened, ((Sys.init uidValidity indexID).run (ops.map (.op 0))).handles = [writer] ∧
      openFolder ((Sys.init uidValidity indexID).run (ops.map (.op 0))).disk =
        (.ok opened, ((Sys.init uidValidity indexID).run (ops.map (.op 0))).disk) ∧
      SameMessages writer opened := by
  have alone : Alone ((Sys.init uidValidity indexID).run (ops.map (.op 0))) := by
    have start : Alone (.init uidValidity indexID) := ⟨_, _, rfl, init_idle uidValidity indexID⟩
    revert safe start
    generalize ([] : List Event) = past
    generalize Sys.init uidValidity indexID = sys
    induction ops generalizing past sys with
    | nil => exact fun _ alone => alone
    | cons op ops ih => exact fun safe alone => ih _ _ safe.2 (alone.step op past safe.1)
  obtain ⟨writer, g, handles, idle⟩ := alone
  obtain ⟨opened, success, rel⟩ := idle.openFolder rfl messages_blind
  obtain ⟨b, l, _, sole, _⟩ := idle
  refine ⟨writer, opened, handles, success, sole.rel.1, rel.1, fun uid => ?_⟩
  rw [rel.2, ← sole.rel.2]

/-- A message of the sample runs, stored under the name `a`. -/
def namedMessage (uid : ℕ) : MessageMeta := ⟨uid, [97], 0, 0, [], [], 0, 10, 0, 0, 5, false⟩

/-- The conditions hold in a run that appends, moves the message to the other tier, sets a flag and
folds the log. -/
theorem reopened_shows_writer_tiered :
    Sys.Guarded ReopenSafe [] (Sys.init 7 9) ([.appendMessage (namedMessage 1) false,
        .setAltTier [[97]] true, .writeFlags .add 1 [.seen] [], .optimizeIndex].map (.op 0)) ∧
      ∃ writer opened, ((Sys.init 7 9).run ([.appendMessage (namedMessage 1) false, .setAltTier [[97]] true,
          .writeFlags .add 1 [.seen] [], .optimizeIndex].map (.op 0))).handles = [writer] ∧
        openFolder ((Sys.init 7 9).run ([.appendMessage (namedMessage 1) false,
            .setAltTier [[97]] true, .writeFlags .add 1 [.seen] [], .optimizeIndex].map (.op 0))).disk =
          (.ok opened, ((Sys.init 7 9).run ([.appendMessage (namedMessage 1) false,
            .setAltTier [[97]] true, .writeFlags .add 1 [.seen] [],
            .optimizeIndex].map (.op 0))).disk) ∧
        SameMessages writer opened := by
  have safe : Sys.Guarded ReopenSafe [] (.init 7 9) ([.appendMessage (namedMessage 1) false,
      .setAltTier [[97]] true, .writeFlags .add 1 [.seen] [], .optimizeIndex].map (.op 0)) := by
    refine ⟨⟨⟨.done, by decide⟩, ?_, fun s locked => ?_⟩, ⟨⟨.done, by decide⟩, ?_, fun s locked => ?_⟩,
      ⟨⟨.done, by decide⟩, ?_, fun s locked => trivial⟩,
      ⟨⟨.done, by decide⟩, ?_, fun s locked => trivial⟩, trivial⟩
    · unfold Op.NamesFit; decide
    · revert s; unfold Op.Replayable; decide
    · unfold Op.NamesFit; decide
    · revert s; unfold Op.Replayable Local.TierFree; decide
    · unfold Op.NamesFit; decide
    · unfold Op.NamesFit; decide
  exact ⟨safe, reopened_shows_writer 7 9 _ safe⟩

/-- A flag write that the log still holds takes the tier marker away again: the writer has the
message on the other tier, a fresh open does not. -/
theorem tier_marker_lost :
    ((Sys.init 7 9).trace ([.appendMessage (namedMessage 1) false, .writeFlags .add 1 [.seen] [],
        .setAltTier [[97]] true].map (.op 0))).map (·.answer) = [.ok .done, .ok .done, .ok .done] ∧
      ((Sys.init 7 9).run ([.appendMessage (namedMessage 1) false, .writeFlags .add 1 [.seen] [],
        .setAltTier [[97]] true].map (.op 0))).handles.map
          (fun fs => (message fs.file.records 1).map (·.flags)) = [some (flagBackend ||| flagSeen)] ∧
      (openFolder ((Sys.init 7 9).run ([.appendMessage (namedMessage 1) false,
        .writeFlags .add 1 [.seen] [], .setAltTier [[97]] true].map (.op 0))).disk).1.map
          (fun fs => (message fs.file.records 1).map (·.flags)) = .ok (some flagSeen) := by
  decide

end Runs

end Yarilo.FileIndex

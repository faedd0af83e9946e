import Mathlib.Data.List.Nodup
import Yarilo.FileIndex.Counter
import Yarilo.Library.Runs

/-! # Modification sequences

The highest modseq of a folder is a counter like the next UID, but the log does not carry it: a
replay takes the greatest modseq it meets in records and expunges. A claim by `NextModSeq` moves the
counter in one handle's memory alone. What is committed reaches every handle; what is claimed and
reported does not.
-/

namespace Yarilo.FileIndex

open Library MailIndex Local List

/-- What a group does to the highest modseq. -/
def modSeqAfter (n : ℕ) (group : Group) : ℕ := group.foldl modseqStep n

def Content.highestModSeq (c : Content) : ℕ := c.file.ext.highestModSeq

private theorem modseqStep_mono (tx : TxRecord) : Monotone (modseqStep · tx) := by
  intro m n le
  have split := modseqStep_max n m tx
  rw [max_eq_left le] at split
  show modseqStep m tx ≤ modseqStep n tx
  rw [split]
  exact le_max_right ..

private theorem modSeqAfter_eq (n : ℕ) (group : Group) :
    modSeqAfter n group = max n (modSeqAfter 0 group) := by
  have split := foldl_modseqStep_max n 0 group
  rwa [max_eq_left (Nat.zero_le n)] at split

theorem le_modSeqAfter (n : ℕ) (group : Group) : n ≤ modSeqAfter n group := by
  rw [modSeqAfter_eq]
  exact le_max_left ..

/-- Records without a modseq leave the bound. -/
private theorem modSeqAfter_of_silent (group : Group) (silent : ∀ tx ∈ group, tx.setsModSeq = false)
    (n : ℕ) : modSeqAfter n group = n := by
  refine foldl_of_fixed fun tx member => ?_
  have quiet := silent tx member
  cases tx with
  | modseqUpdate updates => cases quiet
  | expungeGUID expunges => cases quiet
  | _ => rfl

private theorem TxRecord.IsKeyword.silent {tx : TxRecord} (keyword : tx.IsKeyword) :
    tx.setsModSeq = false := by
  cases tx <;> first | rfl | exact keyword.elim

/-- The greatest modseq of a list of updates. -/
def maxModSeq (n : ℕ) (updates : List (ℕ × ℕ)) : ℕ := updates.foldl (fun n u => max n u.2) n

variable {updates : List (ℕ × ℕ)} {answer : Except Err Answer}

/-- The group of a flag write raises the bound to its stamps. -/
theorem modSeqAfter_stamps (n : ℕ) {flags : List FlagUpdate} {keywordRecs : List TxRecord}
    (keywords : ∀ tx ∈ keywordRecs, tx.IsKeyword) (seen deleted : ℕ) :
    modSeqAfter n ([.modseqUpdate updates, .flagUpdate flags] ++ keywordRecs ++
      [.headerUpdate 40 seen, .headerUpdate 44 deleted]) = maxModSeq n updates := by
  refine modSeqAfter_of_silent (_ :: _) (fun tx member => ?_) (maxModSeq n updates)
  rcases mem_cons.mp member with rfl | member
  · rfl
  rcases mem_append.mp member with keyword | counts
  · exact (keywords tx keyword).silent
  · simp only [mem_cons, not_mem_nil, or_false] at counts
    rcases counts with rfl | rfl <;> rfl

theorem modSeq_counted : Counted Content.highestModSeq modSeqAfter where
  mono group := Journal.foldl_mono modseqStep_mono group
  follows := by
    intro c c' groups replayed
    obtain ⟨s, applied, rfl⟩ := replayGroups_eq_some replayed
    have followed := applyTxs_follow (·.maxModseq) applyTx_maxModseq applied
    have fixed := applyTxs_fixed c.startReplay groups.flatten
    rw [applied] at fixed
    have highest : s.file.ext.highestModSeq = c.file.ext.highestModSeq := congrArg (·.2.2.1) fixed
    show max s.file.ext.highestModSeq s.maxModseq = groups.foldl modSeqAfter c.file.ext.highestModSeq
    rw [highest, followed]
    have split := foldl_modseqStep_max c.file.ext.highestModSeq 0 groups.flatten
    rw [max_eq_left (Nat.zero_le _), foldl_flatten] at split
    exact split.symm
  essence same := congrArg (·.2.2.2.1) same
  keywords _ _ := rfl
  floor fs := (stampExpungeFloor_frame fs).2.2.1
  registry _ _ := rfl

abbrev modBound : Journal.Theory Content Group ℕ := bound Content.highestModSeq modSeqAfter

section Ceiling

/-- Nothing in the files is above the number. -/
def Disk.Ceiling (disk : Disk) (n : ℕ) : Prop :=
  (∀ b, disk.base = some b → b.file.ext.highestModSeq ≤ n) ∧
    ∀ l, disk.log = some l → ∀ group ∈ l.groups, modSeqAfter 0 group ≤ n

variable {s s' : Local} {disk : Disk} {n k : ℕ}

private theorem Disk.Ceiling.mono (ceiling : disk.Ceiling n) (le : n ≤ k) : disk.Ceiling k :=
  ⟨fun b base => (ceiling.1 b base).trans le, fun l log g held => (ceiling.2 l log g held).trans le⟩

private theorem replayGroups_le {c c' : Content} {groups : List Group}
    (replayed : replayGroups c groups = some c')
    (start : c.highestModSeq ≤ n) (below : ∀ group ∈ groups, modSeqAfter 0 group ≤ n) :
    c'.highestModSeq ≤ n := by
  rw [modSeq_counted.follows replayed]
  refine foldlRecOn (motive := (· ≤ n)) groups _ start fun m le group held => ?_
  rw [modSeqAfter_eq]
  exact max_le le (below group held)

private theorem applyLogTail_le (ceiling : s.disk.Ceiling n) (below : s.fs.highestModSeq ≤ n)
    (done : s.applyLogTail = (.ok (), s')) : s'.fs.highestModSeq ≤ n := by
  rcases s.applyLogTail_cases with ⟨_, result⟩ | ⟨l, groups, log, _, cut, ⟨_, result⟩ |
    ⟨_, c, _, _, ⟨replayed, result⟩ | ⟨_, result⟩⟩⟩ <;> cases result.symm.trans done
  · exact below
  · exact (stampExpungeFloor_frame s.fs).2.2.1.trans_le below
  · have followed : replayGroups s.fs.toContent groups = some c := by simp [replayGroups, replayed]
    refine replayGroups_le followed below ?_
    exact fun group held => ceiling.2 l log group ((groupsFrom_suffix ..).subset (cut ▸ held))

/-- A handle below the ceiling stays there when it reloads. -/
private theorem reload_le (ceiling : s.disk.Ceiling n) (below : s.fs.highestModSeq ≤ n)
    (done : s.reload = (.ok (), s')) : s'.fs.highestModSeq ≤ n := by
  have settle {result : Except Err Unit × Local} (done : ensureVsize result = (.ok (), s')) :
      ∃ t, result = (.ok (), t) ∧ s'.fs.highestModSeq = t.fs.highestModSeq := by
    obtain ⟨answer | _, t⟩ := result <;> cases done
    exact ⟨t, rfl, congrArg Content.highestModSeq (ensureVsize_book t.fs).2⟩
  cases base : s.disk.base with
  | none =>
    obtain ⟨_, -, result⟩ := reload_missing base
    cases result.symm.trans done
  | some b =>
    rcases reload_cases base with ⟨_, _, _, result⟩ | ⟨_, result⟩ | ⟨_, _, t, closed, _, result⟩ |
      ⟨_, _, result⟩ <;> rw [result] at done
    · cases done
      exact below
    · exact applyLogTail_le (s := s.adopting b) ceiling below done
    · obtain ⟨u, replayed, same⟩ := settle done
      have disk : t.disk = s.disk := by rcases closed with rfl | rfl <;> rfl
      rw [same]
      exact applyLogTail_le (s := t.rereading b) (disk ▸ ceiling) (ceiling.1 b base) replayed
    · obtain ⟨u, replayed, same⟩ := settle done
      rw [same]
      exact applyLogTail_le ceiling below replayed

private theorem openFolder_le {disk' : Disk} {fs : FolderState} {b : BaseFile} {l : LogFile}
    (ceiling : disk.Ceiling n) (folder : Folder disk b l) (opened : openFolder disk = (.ok fs, disk')) :
    fs.highestModSeq ≤ n := by
  obtain ⟨-, c, replayed, content, -⟩ := openFolder_eq folder opened
  have below := replayGroups_le replayed (ceiling.1 b folder.base) (ceiling.2 l folder.log)
  exact (congrArg Content.highestModSeq content).trans_le below

namespace Disk.Ceiling

variable (ceiling : s.disk.Ceiling n)

include ceiling

private theorem journal {group : Group} (below : modSeqAfter 0 group ≤ n) :
    (s.appendMutLog group).disk.Ceiling n := by
  have longer (log : Option LogFile) (fd : Option ℕ)
      (old : ∀ l, log = some l → ∀ g ∈ l.groups, modSeqAfter 0 g ≤ n) :
      ∀ l, (log.map fun log => if fd = some log.ident then { log with groups := log.groups ++ [group] }
        else log) = some l → ∀ g ∈ l.groups, modSeqAfter 0 g ≤ n := by
    intro l written
    obtain ⟨l', held, rfl⟩ := Option.map_eq_some_iff.mp written
    split
    · exact forall_mem_concat (old l' held) below
    · exact old l' held
  unfold appendMutLog
  split
  · exact ⟨ceiling.1, longer _ _ ceiling.2⟩
  · split
    · exact ⟨ceiling.1, longer _ _ ceiling.2⟩
    · dsimp only
      refine ⟨ceiling.1, longer (some _) _ fun l written => ?_⟩
      cases written
      exact nofun

variable (below : s.fs.highestModSeq ≤ n)

include below

private theorem flush (wholeNames : Bool) : (s.flush wholeNames).disk.Ceiling n := by
  refine ⟨fun b base => ?_, ?_⟩
  · cases wholeNames <;> (cases base; exact below)
  · cases wholeNames <;> exact ceiling.2

private theorem compact (wholeNames : Bool) : (s.compact wholeNames).disk.Ceiling n := by
  have stamped := (stampExpungeFloor_frame s.fs).2.2.1.trans_le below
  have flushed := flush (s := s.mapFs (·.stampExpungeFloor)) ceiling stamped wholeNames
  refine ⟨flushed.1, fun l log => ?_⟩
  cases log
  exact nofun

end Disk.Ceiling

private theorem compact_highest (wholeNames : Bool) (s : Local) :
    (s.compact wholeNames).fs.highestModSeq = s.fs.highestModSeq := by
  have stamped := (stampExpungeFloor_frame s.fs).2.2.1
  cases wholeNames <;> exact stamped

/-- An append that succeeds leaves nothing above the counter it has stamped. -/
private theorem commitAppend_ceiling {m : MessageMeta} (rotate : Bool) (ceiling : s.disk.Ceiling n)
    (stamped : (s.stampModSeq m).fs.highestModSeq ≤ n) :
    (∃ e s', s.commitAppend m rotate = (.error e, s') ∧ s'.disk = s.disk) ∨
      ∃ s', s.commitAppend m rotate = (.ok .done, s') ∧ s'.disk.Ceiling n ∧ s'.fs.highestModSeq ≤ n := by
  rcases s.commitAppend_cases m rotate with zero | full | ⟨bits, registry, modseq, r, _, stamp, rfl, done⟩
  · exact .inl ⟨_, _, zero, rfl⟩
  · exact .inl ⟨_, _, full, rfl⟩
  have modseqLe : modseq ≤ n := by
    rw [stamp]
    split
    · rename_i carried
      refine le_trans ?_ stamped
      rw [stampModSeq, mapFs, if_pos carried]
      exact le_max_right ..
    · exact stamped
  have grown : ((s.stampModSeq m).growRegistry registry).disk.Ceiling n := by
    unfold growRegistry
    dsimp only
    split
    · exact Disk.Ceiling.flush (s := (s.stampModSeq m).mapFs (·.persistKeywordRegistry registry)) ceiling stamped _
    · exact ceiling
  have counter := (Counted.growRegistry_frame registry (s.stampModSeq m)).2.1.trans_le stamped
  set r := FolderState.recordFor m modseq bits
  set grownState := (s.stampModSeq m).growRegistry registry
  obtain ⟨name, size, written, content, -⟩ := flushAppend_eq m r grownState
  obtain ⟨base, log, -⟩ := appendName_disk r.uid name size grownState
  have logged : ((grownState.mapFs (·.addRecord m r)).flushAppend r).disk.Ceiling n := by
    rw [written]
    refine Disk.Ceiling.journal ⟨base ▸ grown.1, log ▸ grown.2⟩ ?_
    exact max_le (Nat.zero_le _) modseqLe
  have highest : ((grownState.mapFs (·.addRecord m r)).flushAppend r).fs.highestModSeq ≤ n := by
    rw [written, FolderState.highestModSeq, (appendMutLog_fs ..).1]
    exact (congrArg Content.highestModSeq content).trans_le counter
  refine .inr ⟨_, done, ?_⟩
  cases rotate with
  | false => exact ⟨logged, highest⟩
  | true => exact ⟨logged.compact highest false, (compact_highest false _).trans_le highest⟩

end Ceiling

/-- The operation commits a change; flags of a message that is gone are written to the log all the same. -/
def Op.commits (op : Op) (s : Local) : Bool :=
  match op with
  | .appendMessage .. | .allocateAndAppendNamed .. | .writeFlags .. => true
  | .expungeMessage uid => (s.fs.target uid).isSome
  | .updateFlagsMulti updates => s.fs.file.records.any fun r => (updates.lookup r.uid).isSome
  | _ => false

/-- The operation moves the counter of its handle. -/
def Op.bumps : Op → Bool
  | .allocateUIDWithModSeq | .nextModSeq | .appendMessage .. | .allocateAndAppendNamed .. | .writeFlags ..
  | .updateFlagsMulti _ | .expungeMessage _ => true
  | _ => false

/-- The modseq an append brings; zero stands for none. -/
def Op.carried : Op → ℕ
  | .appendMessage m _ | .allocateAndAppendNamed m _ _ => m.modSeq
  | _ => 0

/-- The operation shows its handle's counter to others: it reports it, or writes it to the base. -/
def Op.shows (op : Op) : Bool := op.rewritesBase && !op.bumps || op matches .read

/-- The messages a reset brings. -/
def Op.resets : Op → List MessageMeta
  | .resetFolder metas => metas
  | _ => []

/-- What an operation's body needs: a base it may rewrite and a counter that does not wrap. -/
def Op.ModSeqSafe (op : Op) (s : Local) : Prop := (op.rewritesBase = true → s.fs.MayFlush 2) ∧
    match op with
    | .updateFlagsMulti _ => s.fs.highestModSeq + s.fs.file.records.length < 2 ^ 64
    | _ => s.fs.highestModSeq + 1 < 2 ^ 64

/-- The operation may begin: what it shows is committed, and what it carries is not. -/
structure Op.Ready (op : Op) (s : Local) (others : List FolderState) (cur : ℕ) : Prop where
  locked : Locked modBound s others cur
  ceiling : s.disk.Ceiling cur
  safe : op.ModSeqSafe s
  resets : ∀ m ∈ op.resets, m.modSeq ≠ 0 ∧ m.modSeq ≤ s.fs.highestModSeq
  shown : op.shows = true → s.fs.highestModSeq ≤ cur
  carried : op.carried ≠ 0 → cur < op.carried ∧ s.fs.highestModSeq ≤ op.carried

/-- The outcome of a body: a commit has raised the bound to its handle's counter; anything else has left
it, and the counter too unless the operation moves it. -/
def ModOutcome (op : Op) (s : Local) (handles : List FolderState) (i cur : ℕ) (result : Result) : Prop :=
  ∃ next, Tracked modBound result.2.disk (handles.set i result.2.fs) next ∧ result.2.disk.Ceiling next ∧
    ((∃ a, result.1 = .ok a) ∧ op.commits s = true ∧ cur < next ∧ result.2.fs.highestModSeq ≤ next ∨
      next = cur ∧ ((∃ e, result.1 = .error e) ∨ op.commits s = false ∧
        (op.bumps = false → result.2.fs.highestModSeq = s.fs.highestModSeq)))

theorem bump_eq {s : Local} (room : s.fs.highestModSeq + 1 < 2 ^ 64) :
    s.fs.bumpModSeqHeader.highestModSeq = s.fs.highestModSeq + 1 := Nat.mod_eq_of_lt room

/-- The modseq the operation claims without a commit, from its answer. -/
def Op.claim (op : Op) (answer : Except Err Answer) : Option ℕ :=
  match op, answer with
  | .nextModSeq, .ok (.modSeq v) | .allocateUIDWithModSeq, .ok (.uidModSeq _ v) => some v
  | _, _ => none

/-- What returns before the lock neither commits nor claims. -/
private theorem Op.quiet_of_unlocked (op : Op) (unlocked : op.unlocked = some answer) :
    op.bumps = false ∧ op.claim answer = none ∧ ∀ s, op.commits s = false := by
  cases op <;> first | exact ⟨rfl, rfl, fun _ => rfl⟩ | cases unlocked

private theorem Op.claim_error (op : Op) (e : Err) : op.claim (.error e) = none := by cases op <;> rfl

/-- A claim is the counter it leaves, one above the counter it finds. -/
private theorem Op.claim_body {op : Op} {s : Local} {v : ℕ} (claimed : op.claim (op.body s).1 = some v)
    (safe : op.ModSeqSafe s) : s.fs.highestModSeq < v ∧ (op.body s).2.fs.highestModSeq = v := by
  cases op with
  | nextModSeq =>
    cases claimed
    exact ⟨Nat.lt_of_succ_le (bump_eq safe.2).ge, rfl⟩
  | allocateUIDWithModSeq =>
    cases claimed
    refine ⟨Nat.lt_of_succ_le (bump_eq safe.2).ge, ?_⟩
    exact (congrArg Content.highestModSeq (appendMutLog_fs _ _).1).trans rfl
  | _ => cases claimed

section Bodies

variable {s : Local} {handles : List FolderState} {i cur : ℕ} {op : Op}

private theorem ModOutcome.quiet {s' : Local} (locked : Locked modBound s' (handles.eraseIdx i) cur)
    (ceiling : s'.disk.Ceiling cur) (quiet : (∃ e, answer = .error e) ∨ op.commits s = false ∧
      (op.bumps = false → s'.fs.highestModSeq = s.fs.highestModSeq)) :
    ModOutcome op s handles i cur (answer, s') :=
  ⟨cur, locked.tracked modSeq_counted.lawful, ceiling, .inr ⟨rfl, quiet⟩⟩

/-- A claim in memory. -/
private theorem bump_locked (locked : Locked modBound s (handles.eraseIdx i) cur)
    (room : s.fs.highestModSeq + 1 < 2 ^ 64) :
    Locked modBound (s.mapFs (·.bumpModSeqHeader)) (handles.eraseIdx i) cur := by
  refine locked.touch s.fs.bumpModSeqHeader rfl ?_
  have le : cur ≤ s.fs.highestModSeq := locked.rel
  have bumped := bump_eq room
  show cur ≤ s.fs.bumpModSeqHeader.highestModSeq
  omega

/-- A group whose modseqs reach the handle's counter, and not beyond. -/
private theorem ModOutcome.commit (locked : Locked modBound s (handles.eraseIdx i) cur)
    (ceiling : s.disk.Ceiling cur)
    {fs : FolderState} {group : Group} (book : fs.book = s.fs.book) (commits : op.commits s = true)
    (raised : s.fs.highestModSeq < fs.highestModSeq) (reached : modSeqAfter cur group = fs.highestModSeq) :
    ModOutcome op s handles i cur (.ok .done, appendMutLog group { s with fs := fs }) := by
  have le : cur ≤ s.fs.highestModSeq := locked.rel
  have committed := Counted.commit locked fs group book (le_modSeqAfter cur group) reached.le
  have below : modSeqAfter 0 group ≤ fs.highestModSeq := by
    rw [← reached, modSeqAfter_eq cur]
    exact le_max_right ..
  refine ⟨fs.highestModSeq, reached ▸ committed.tracked modSeq_counted.lawful, ?_,
    .inl ⟨⟨_, rfl⟩, commits, by omega, ?_⟩⟩
  · exact Disk.Ceiling.journal (s := { s with fs := fs }) (ceiling.mono (by omega)) below
  · exact (congrArg Content.highestModSeq (appendMutLog_fs ..).1).le

private theorem writeFlags_modSeq {mode : FlagWriteMode} {uid : ℕ} {flags : List ImapFlag}
    {keywords : List Keyword}
    (ready : Op.Ready (.writeFlags mode uid flags keywords) s (handles.eraseIdx i) cur) :
    ModOutcome (.writeFlags mode uid flags keywords) s handles i cur
      (s.writeFlags mode uid flags keywords) := by
  have bumped := bump_eq ready.safe.2
  have le : cur ≤ s.fs.highestModSeq := ready.locked.rel
  rcases writeFlags_cases mode uid flags keywords s with
    full | ⟨_, _, newFlags, fs, want, _, _, _, _, ⟨reflags, raised⟩, written⟩
  · rw [full]
    exact .quiet (bump_locked ready.locked ready.safe.2) ready.ceiling (.inl ⟨_, rfl⟩)
  rw [written]
  refine .commit ready.locked ready.ceiling reflags.book rfl (by omega) ?_
  refine (modSeqAfter_stamps cur (fun _ => keywordLogRecords_isKeyword) _ _).trans ?_
  exact max_eq_right (by omega)

private theorem expungeMessage_modSeq {uid : ℕ}
    (ready : Op.Ready (.expungeMessage uid) s (handles.eraseIdx i) cur) :
    ModOutcome (.expungeMessage uid) s handles i cur (s.expungeMessage uid) := by
  have bumped := bump_eq ready.safe.2
  have le : cur ≤ s.fs.highestModSeq := ready.locked.rel
  unfold expungeMessage
  dsimp only
  split
  · rename_i absent
    have absent : s.fs.target uid = none := absent
    exact .quiet (bump_locked ready.locked ready.safe.2) ready.ceiling
      (.inr ⟨by simp only [Op.commits, absent]; rfl, nofun⟩)
  rename_i r found
  have found : s.fs.target uid = some r := found
  have highest : (s.fs.bumpModSeqHeader.removeRecord r).highestModSeq = s.fs.highestModSeq + 1 := bumped
  refine .commit ready.locked ready.ceiling rfl (by simp only [Op.commits, found]; rfl) ?_ ?_
  · exact Nat.lt_of_succ_le highest.ge
  · exact max_eq_right (by show cur ≤ (s.fs.bumpModSeqHeader.removeRecord r).highestModSeq; omega)

private theorem updateFlagsMulti_modSeq {updates : List (ℕ × FlagsUpdate)}
    (ready : Op.Ready (.updateFlagsMulti updates) s (handles.eraseIdx i) cur) :
    ModOutcome (.updateFlagsMulti updates) s handles i cur (s.updateFlagsMulti updates) := by
  have le : cur ≤ s.fs.highestModSeq := ready.locked.rel
  rcases updateFlagsMulti_cases updates s with
    full | ⟨bits, registry, fs, b, ok, _, _, batched, outcome⟩
  · rw [full]
    exact .quiet ready.locked ready.ceiling (.inl ⟨_, rfl⟩)
  have stamps := batched.stamps ready.safe.2
  have touched := ready.locked.touch (fs.batched b) batched.reflags.book (le.trans stamps.grows)
  have listed (looped : (Batch.start fs).loop updates fs.file.records = (b, true)) :
      (Op.updateFlagsMulti updates).commits s = false ↔ b.modseqUpdates = [] := by
    rw [(Batch.loop_commits looped (.inl rfl)).1, batched.records]
    simp only [Op.commits, Batch.start, any_eq_false, Bool.not_eq_true, Option.isSome_eq_false_iff,
      Option.isNone_iff_eq_none, true_and]
  rcases outcome with ⟨_, result⟩ | ⟨rfl, none, result⟩ | ⟨rfl, some, result⟩ <;> rw [result]
  · exact .quiet touched ready.ceiling (.inl ⟨_, rfl⟩)
  · exact .quiet touched ready.ceiling (.inr ⟨(listed batched.looped).mpr none, nofun⟩)
  · obtain ⟨u, held, last⟩ := (Batch.loop_commits batched.looped (.inl rfl)).2.resolve_left some
    obtain ⟨above, -⟩ := stamps.stamped u held
    refine .commit ready.locked ready.ceiling batched.reflags.book ?_ (above.trans_eq last) ?_
    · exact Bool.not_eq_false _ ▸ (listed batched.looped).not.mpr some
    · refine (modSeqAfter_stamps cur batched.keywords _ _).trans (le_antisymm ?_ ?_)
      · exact foldl_max_le.mpr ⟨le.trans stamps.grows, fun u member => (stamps.stamped u member).2⟩
      · exact last.symm.trans_le ((foldl_max_le.mp le_rfl).2 u held)

theorem stampModSeq_highest (m : MessageMeta) (room : s.fs.highestModSeq + 1 < 2 ^ 64) :
    (s.stampModSeq m).fs.highestModSeq =
      if m.modSeq ≠ 0 then max s.fs.highestModSeq m.modSeq else s.fs.highestModSeq + 1 := by
  unfold stampModSeq mapFs
  split
  · rfl
  · exact bump_eq room

/-- An append raises the bound to the counter it stamps. -/
private theorem commitAppend_modSeq (locked : Locked modBound s (handles.eraseIdx i) cur)
    (ceiling : s.disk.Ceiling cur) (m : MessageMeta) (rotate : Bool)
    (mayFlush : rotate = true ∨ m.keywords ≠ [] → s.fs.MayFlush 2) (room : s.fs.highestModSeq + 1 < 2 ^ 64)
    (carried : m.modSeq ≠ 0 → cur < m.modSeq ∧ s.fs.highestModSeq ≤ m.modSeq) :
    (∃ e s', s.commitAppend m rotate = (.error e, s') ∧
        Tracked modBound s'.disk (handles.set i s'.fs) cur ∧ s'.disk.Ceiling cur) ∨
      ∃ s' next, s.commitAppend m rotate = (.ok .done, s') ∧
        Tracked modBound s'.disk (handles.set i s'.fs) next ∧ s'.disk.Ceiling next ∧ cur < next ∧
        s'.fs.highestModSeq ≤ next := by
  have le : cur ≤ s.fs.highestModSeq := locked.rel
  have highest := stampModSeq_highest m room
  have raised : cur < (s.stampModSeq m).fs.highestModSeq := by
    rw [highest]
    split
    · exact lt_max_of_lt_right (carried ‹_›).1
    · omega
  have reached : ∀ fs r, Counted.Appended s m fs r → modSeqAfter cur (appendGroup (fs.addRecord m r) r) =
      (s.stampModSeq m).fs.highestModSeq := by
    intro fs r appended
    show max cur r.modseq = _
    rw [appended.modseq]
    split
    · rename_i some
      rw [highest, if_pos some, max_eq_right (carried some).1.le, max_eq_right (carried some).2]
    · exact max_eq_right raised.le
  have bounded := commitAppend_ceiling rotate (ceiling.mono raised.le) le_rfl
  rcases modSeq_counted.commitAppend locked m rotate mayFlush raised.le fun fs r appended =>
    ⟨le_modSeqAfter .., (reached fs r appended).trans_le appended.highestModSeq.ge⟩ with
    ⟨e, s', failed, tracked⟩ | ⟨fs, r, s', result, appended, tracked⟩
  · rcases bounded with ⟨_, _, same, disk⟩ | ⟨_, same, _⟩ <;> cases failed.symm.trans same
    exact .inl ⟨e, s', failed, tracked, disk ▸ ceiling⟩
  · rcases bounded with ⟨_, _, same, _⟩ | ⟨_, same, ceiling, below⟩ <;> cases result.symm.trans same
    rw [reached fs r appended] at tracked
    exact .inr ⟨s', _, result, tracked, ceiling, raised, below⟩

private theorem resetFolder_modSeq {metas : List MessageMeta}
    (ready : Op.Ready (.resetFolder metas) s (handles.eraseIdx i) cur) :
    ModOutcome (.resetFolder metas) s handles i cur (s.resetFolder metas) := by
  have le : cur ≤ s.fs.highestModSeq := ready.locked.rel
  obtain ⟨b, ok, looped, ⟨-, rebuilt, -, result⟩ | ⟨-, fs, uids, rebuilt, highest, -, result⟩⟩ :=
    resetFolder_cases metas s <;> rw [result]
  · exact .quiet (ready.locked.touch (s.fs.rebuilt b) rebuilt.book le) ready.ceiling (.inl ⟨_, rfl⟩)
  have old : b.maxModseq ≤ s.fs.highestModSeq := by
    have bounded : ((Rebuild.start s.fs).loop metas).1.maxModseq ≤ s.fs.highestModSeq := by
      refine Rebuild.loop_induction (P := fun b => b.maxModseq ≤ s.fs.highestModSeq)
        (fun b m b' member stepped bound => ?_) le_rfl
      obtain ⟨some, below⟩ := ready.resets m member
      unfold Rebuild.step at stepped
      split at stepped
      · cases stepped
        exact bound
      · obtain ⟨_, _, rfl⟩ := Option.map_eq_some_iff.mp stepped
        simpa [some] using ⟨bound, below⟩
    rwa [looped] at bounded
  have kept : fs.highestModSeq = s.fs.highestModSeq := highest.trans (max_eq_left old)
  have mayFlush := rebuilt.mayFlush (ready.safe.1 rfl).one
  refine ⟨cur, modSeq_counted.compact ready.locked fs rebuilt.book mayFlush (le.trans_eq kept.symm) true, ?_,
    .inr ⟨rfl, .inr ⟨rfl, fun _ => (compact_highest ..).trans kept⟩⟩⟩
  exact Disk.Ceiling.compact (s := { s with fs := fs }) ready.ceiling (kept.trans_le (ready.shown rfl)) true

private theorem allocateAndAppendNamed_modSeq {m : MessageMeta} {name : Option (Except Err Bytes)}
    {rotate : Bool}
    (ready : Op.Ready (.allocateAndAppendNamed m name rotate) s (handles.eraseIdx i) cur) :
    ModOutcome (.allocateAndAppendNamed m name rotate) s handles i cur
      (s.allocateAndAppendNamed m name rotate) := by
  obtain ⟨locked, ceiling, ⟨mayFlush, room⟩, -, -, carried⟩ := ready
  have taken : Locked modBound s.takeUID (handles.eraseIdx i) cur := locked.touch _ rfl locked.rel
  rcases s.allocateAndAppendNamed_cases m name rotate with ⟨e, refused⟩ | ⟨filename, done⟩
  · rw [refused]
    exact .quiet taken ceiling (.inl ⟨_, rfl⟩)
  rw [done]
  rcases commitAppend_modSeq taken ceiling { m with uid := s.nextUID, filename := filename } rotate
    (fun may => (mayFlush (by simpa [Op.rewritesBase] using may)).congr rfl rfl) room carried with
    ⟨e, s', result, tracked, ceiling⟩ | ⟨s', next, result, tracked, ceiling, raised⟩ <;> rw [result]
  · exact ⟨cur, tracked, ceiling, .inr ⟨rfl, .inl ⟨e, rfl⟩⟩⟩
  · exact ⟨next, tracked, ceiling, .inl ⟨⟨_, rfl⟩, rfl, raised⟩⟩

private theorem upkeep_ceiling {result : Result} (upkeep : Upkeep op s result) (ceiling : s.disk.Ceiling cur)
    (shown : op.rewritesBase = true → s.fs.highestModSeq ≤ cur) :
    result.2.disk.Ceiling cur ∧ result.2.fs.highestModSeq = s.fs.highestModSeq := by
  cases upkeep with
  | idle => exact ⟨ceiling, rfl⟩
  | mark change v upkept =>
    refine ⟨Disk.Ceiling.journal (s := { s with fs := s.fs.mapFile change }) ceiling (Nat.zero_le _), ?_⟩
    exact (congrArg Content.highestModSeq (appendMutLog_fs ..).1).trans upkept.highestModSeq
  | rewrite change wholeNames upkept rewrites =>
    refine ⟨Disk.Ceiling.flush (s := { s with fs := s.fs.mapFile change }) ceiling
      (upkept.highestModSeq.trans_le (shown rewrites)) _, ?_⟩
    cases wholeNames <;> exact upkept.highestModSeq

private theorem upkeep_modSeq (upkeep : op.upkeep = true) (ready : op.Ready s (handles.eraseIdx i) cur) :
    ModOutcome op s handles i cur (op.body s) := by
  obtain ⟨bumps, quiet⟩ : op.bumps = false ∧ op.commits s = false := by
    cases op <;> first | exact ⟨rfl, rfl⟩ | cases upkeep
  obtain ⟨-, kept⟩ := modSeq_counted.upkeep ready.locked (Op.body_upkeep upkeep s) ready.safe.1
    (fun _ upkept => upkept.highestModSeq) fun _ => rfl
  obtain ⟨bounded, same⟩ := upkeep_ceiling (Op.body_upkeep upkeep s) ready.ceiling fun rewrites =>
    ready.shown (by simp [Op.shows, rewrites, bumps])
  exact .quiet kept bounded (.inr ⟨quiet, fun _ => same⟩)

private theorem body_modSeq (op : Op) (ready : op.Ready s (handles.eraseIdx i) cur) :
    ModOutcome op s handles i cur (op.body s) := by
  obtain ⟨locked, ceiling, ⟨mayFlush, room⟩, -, shown, carried⟩ := id ready
  have le : cur ≤ s.fs.highestModSeq := locked.rel
  cases op with
  | allocateUID =>
    exact .quiet (Counted.commit_fixed locked (s.fs.setNextUID _) _ rfl le_rfl rfl)
      (Disk.Ceiling.journal (s := s.mapFs (·.setNextUID (u32 (s.nextUID + 1)))) ceiling (Nat.zero_le _))
      (.inr ⟨rfl, fun _ => (congrArg Content.highestModSeq (appendMutLog_fs _ _).1).trans rfl⟩)
  | allocateUIDWithModSeq =>
    have bumped := bump_eq room
    have raised : s.fs.highestModSeq ≤ s.fs.bumpModSeqHeader.highestModSeq := by omega
    exact .quiet (Counted.commit_fixed locked ((s.fs.setNextUID _).bumpModSeqHeader) _ rfl raised rfl)
      (Disk.Ceiling.journal (s := s.mapFs fun fs => (fs.setNextUID _).bumpModSeqHeader) ceiling
        (Nat.zero_le _)) (.inr ⟨rfl, nofun⟩)
  | nextModSeq => exact .quiet (bump_locked locked room) ceiling (.inr ⟨rfl, nofun⟩)
  | appendMessage m rotate =>
    rcases commitAppend_modSeq locked ceiling m rotate
      (fun may => mayFlush (by simpa [Op.rewritesBase] using may)) room carried with
      ⟨e, s', result, tracked, ceiling⟩ | ⟨s', next, result, tracked, ceiling, raised⟩ <;>
      simp only [Op.body, appendMessage, result]
    · exact ⟨cur, tracked, ceiling, .inr ⟨rfl, .inl ⟨e, rfl⟩⟩⟩
    · exact ⟨next, tracked, ceiling, .inl ⟨⟨_, rfl⟩, rfl, raised⟩⟩
  | allocateAndAppendNamed m name rotate => exact allocateAndAppendNamed_modSeq ready
  | writeFlags mode uid flags keywords => exact writeFlags_modSeq ready
  | updateFlagsMulti updates => exact updateFlagsMulti_modSeq ready
  | expungeMessage uid => exact expungeMessage_modSeq ready
  | adoptUIDSpace uidValidity nextUID =>
    simp only [Op.body, adoptUIDSpace]
    split
    · exact .quiet locked ceiling (.inl ⟨_, rfl⟩)
    · refine .quiet (modSeq_counted.flush locked (s.fs.mapFile _) rfl ((mayFlush rfl).one.congr rfl rfl)
        ?_ false) ?_ (.inr ⟨rfl, fun _ => rfl⟩)
      · exact locked.rel
      · refine Disk.Ceiling.flush (s := { s with fs := s.fs.mapFile _ }) ceiling ?_ false
        exact shown rfl
  | resetFolder metas => exact resetFolder_modSeq ready
  | optimizeIndex =>
    exact ⟨cur, modSeq_counted.compact locked s.fs rfl (mayFlush rfl).one le true,
      ceiling.compact (shown rfl) true, .inr ⟨rfl, .inr ⟨rfl, fun _ => compact_highest ..⟩⟩⟩
  | _ => exact upkeep_modSeq rfl ready

end Bodies

section Runs

/-- The highest modseq a read or a fresh open reports. -/
def Event.reported (e : Event) : Option ℕ :=
  match e.step, e.answer with
  | .op i .read, .ok _ => e.after.handles[i]?.map (·.highestModSeq)
  | .openFolder, .ok _ => e.after.handles.getLast?.map (·.highestModSeq)
  | _, _ => none

/-- The event's operation succeeded and committed a change to a record. -/
def Event.commits (e : Event) : Bool :=
  match e.step with
  | .op i op => e.answer.isOk && (e.before.locked i).any op.commits
  | .openFolder => false

/-- Where a handle's counter stands: not above what is committed, at a modseq it has claimed and nobody has
overtaken, or possibly ahead of all that is committed. -/
inductive Standing where
  | level
  | claims (v : ℕ)
  | ahead
deriving DecidableEq

/-- Another handle's commit may take the claimed modseq. -/
def Standing.overtaken : Standing → Standing
  | .claims _ => .ahead
  | standing => standing

/-- Where a call that commits nothing leaves its handle's counter. -/
def Op.leaves (op : Op) (answer : Except Err Answer) (standing : Standing) : Standing :=
  match op.claim answer with
  | some v => .claims v
  | none => if answer.isOk && !op.bumps then standing else .ahead

/-- Where the event leaves the counter of handle `i`. -/
def Event.leaves (e : Event) (i : ℕ) (standing : Standing) : Standing :=
  match e.step with
  | .openFolder => if e.before.handles.length = i then .level else standing
  | .op j op =>
    if j = i then (if e.commits then .level else op.leaves e.answer standing)
    else if e.commits then standing.overtaken else standing

def standing (past : List Event) (i : ℕ) : Standing := past.foldl (fun st e => e.leaves i st) .level

/-- An append carries only a modseq that its handle claimed by the last call that moved its counter, and
that no commit has overtaken; a handle reports its counter, or rewrites the base outside a commit, only
after a call that left the counter level with what is committed. -/
def ModSeqSafe (past : List Event) (sys : Sys) : Step → Prop
  | .op i op => (op.carried ≠ 0 → standing past i = .claims op.carried) ∧
      (op.shows = true → standing past i = .level) ∧ ∀ s, sys.locked i = some s → op.ModSeqSafe s ∧
        ∀ m ∈ op.resets, m.modSeq ≠ 0 ∧ m.modSeq ≤ s.fs.highestModSeq
  | .openFolder => True

/-- What the standing says of a handle's counter, over the highest modseq committed. -/
def Standing.Holds (cur counter : ℕ) : Standing → Prop
  | .level => counter ≤ cur
  | .claims v => cur < v ∧ counter ≤ v
  | .ahead => True

/-- What a run keeps: a bound every handle reaches, above all that was reported before a commit, with
nothing on disk and nothing reported above it. -/
structure ModSeqInv (past : List Event) (sys : Sys) (cur : ℕ) : Prop where
  tracked : Tracked modBound sys.disk sys.handles cur
  ceiling : sys.disk.Ceiling cur
  holds : ∀ i fs, sys.handles[i]? = some fs → (standing past i).Holds cur fs.highestModSeq
  reported : ∀ reported ∈ past.filterMap Event.reported, reported ≤ cur
  above : ∀ before e later, past = before ++ e :: later → e.commits = true →
    ∀ reported ∈ before.filterMap Event.reported, reported < cur

variable {past : List Event} {sys : Sys} {step : Step} {i j cur next : ℕ} {op : Op}

private theorem standing_concat (past : List Event) (e : Event) (i : ℕ) :
    standing (past ++ [e]) i = e.leaves i (standing past i) := by
  rw [standing, foldl_concat]
  rfl

private theorem Op.leaves_error (op : Op) (e : Err) (standing : Standing) :
    op.leaves (.error e) standing = .ahead := by
  rw [Op.leaves, op.claim_error]
  rfl

/-- A reload keeps what the standing says. -/
private theorem Standing.Holds.reload {standing : Standing} {disk : Disk} {fs : FolderState} {s : Local}
    (holds : standing.Holds cur fs.highestModSeq) (ceiling : disk.Ceiling cur)
    (reloaded : Local.reload { disk := disk, fs := fs } = (.ok (), s)) :
    standing.Holds cur s.fs.highestModSeq := by
  cases standing with
  | level => exact reload_le (s := { disk := disk, fs := fs }) ceiling holds reloaded
  | claims v =>
    exact ⟨holds.1, reload_le (s := { disk := disk, fs := fs }) (ceiling.mono holds.1.le) holds.2 reloaded⟩
  | ahead => trivial

private theorem Op.leaves_body {s : Local} {others : List FolderState} {standing : Standing}
    (ready : op.Ready s others cur) (held : standing.Holds cur s.fs.highestModSeq)
    (kept : op.bumps = false → (op.body s).2.fs.highestModSeq = s.fs.highestModSeq) :
    (op.leaves (op.body s).1 standing).Holds cur (op.body s).2.fs.highestModSeq := by
  have le : cur ≤ s.fs.highestModSeq := ready.locked.rel
  unfold Op.leaves
  split
  · rename_i v claimed
    obtain ⟨above, counter⟩ := Op.claim_body claimed ready.safe
    exact ⟨le.trans_lt above, counter.le⟩
  · split
    · rename_i quiet
      rw [kept (by simpa using (Bool.and_eq_true_iff.mp quiet).2)]
      exact held
    · trivial

/-- What a read or a fresh open reports is level with what is committed. -/
private theorem Event.reported_le {reported : ℕ} (safe : ModSeqSafe past sys step)
    (holds : ∀ i fs, (sys.step step).2.handles[i]? = some fs →
      (standing (past ++ [sys.event step]) i).Holds next fs.highestModSeq)
    (shown : (sys.event step).reported = some reported) : reported ≤ next := by
  cases step with
  | openFolder =>
    cases opened : openFolder sys.disk with
    | mk result disk =>
      cases result with
      | error e => simp [Event.reported, Sys.event, Sys.step, opened] at shown
      | ok fs =>
        have last := holds sys.handles.length fs (by simp [Sys.step, opened])
        rw [standing_concat, Event.leaves, Sys.event, if_pos rfl] at last
        simp only [Event.reported, Sys.event, Sys.step, opened, getLast?_concat, Option.map_some,
          Option.some.injEq] at shown
        exact shown ▸ last
  | op i op =>
    cases op with
    | read =>
      unfold Event.reported Sys.event at shown
      dsimp only at shown
      split at shown
      · rename_i a same answered
        cases same
        obtain ⟨fs, handle, rfl⟩ := Option.map_eq_some_iff.mp shown
        have level := holds i fs handle
        rw [standing_concat, Event.leaves, Sys.event] at level
        simpa [Event.commits, Op.commits, Op.leaves, Op.claim, Op.bumps, answered, Except.isOk, Except.toBool,
          safe.2.1 rfl, Standing.Holds] using level
      · rename_i same _
        cases same
      · cases shown
    | _ => cases shown

namespace ModSeqInv

private theorem concat (inv : ModSeqInv past sys cur) (safe : ModSeqSafe past sys step)
    (raised : if (sys.event step).commits then cur < next else next = cur)
    (tracked : Tracked modBound (sys.step step).2.disk (sys.step step).2.handles next)
    (ceiling : (sys.step step).2.disk.Ceiling next) (holds : ∀ i fs, (sys.step step).2.handles[i]? = some fs →
      (standing (past ++ [sys.event step]) i).Holds next fs.highestModSeq) :
    ModSeqInv (past ++ [sys.event step]) (sys.step step).2 next := by
  have grows : cur ≤ next := by split at raised <;> omega
  refine ⟨tracked, ceiling, holds, ?_, eachStep_concat.mpr ⟨?_, fun commits reported member => ?_⟩⟩
  · intro reported member
    rw [filterMap_append, mem_append, mem_filterMap, mem_filterMap] at member
    rcases member with old | ⟨e, new, shown⟩
    · exact (inv.reported reported (mem_filterMap.mpr old)).trans grows
    · cases mem_singleton.mp new
      exact Event.reported_le safe holds shown
  · intro before e' later split committed reported member
    exact (inv.above before e' later split committed reported member).trans_le grows
  · rw [commits, if_pos rfl] at raised
    exact (inv.reported reported member).trans_lt raised

/-- An operation, by what it does to its own handle. -/
private theorem concat_op (inv : ModSeqInv past sys cur) (safe : ModSeqSafe past sys (.op i op))
    (raised : if (sys.event (.op i op)).commits then cur < next else next = cur)
    (tracked : Tracked modBound (sys.step (.op i op)).2.disk (sys.step (.op i op)).2.handles next)
    (ceiling : (sys.step (.op i op)).2.disk.Ceiling next)
    (others : ∀ j, i ≠ j → (sys.step (.op i op)).2.handles[j]? = sys.handles[j]?)
    (own : ∀ fs, (sys.step (.op i op)).2.handles[i]? = some fs → Standing.Holds next fs.highestModSeq
      (if (sys.event (.op i op)).commits then .level
        else op.leaves (sys.step (.op i op)).1 (standing past i))) :
    ModSeqInv (past ++ [sys.event (.op i op)]) (sys.step (.op i op)).2 next := by
  refine inv.concat safe raised tracked ceiling fun j fs handle => ?_
  rw [standing_concat]
  show Standing.Holds _ _ (if i = j then _ else _)
  split
  · subst j
    exact own fs handle
  · rename_i other
    have held := inv.holds j fs (others j other ▸ handle)
    split at raised <;> rename_i commits
    · rw [if_pos commits]
      cases at_ : standing past j with
      | level => exact (at_ ▸ held : Standing.Holds cur _ .level).trans raised.le
      | claims v => trivial
      | ahead => trivial
    · rw [if_neg commits, raised]
      exact held

private theorem step_open (inv : ModSeqInv past sys cur) :
    ModSeqInv (past ++ [sys.event .openFolder]) (sys.step .openFolder).2 cur := by
  obtain ⟨tracked, disk, -⟩ := inv.tracked.step_open modSeq_counted.lawful rfl modSeq_counted.adopts
  have safe : ModSeqSafe past sys .openFolder := trivial
  refine inv.concat safe rfl tracked (disk ▸ inv.ceiling) fun j fs handle => ?_
  rw [standing_concat]
  show Standing.Holds _ _ (if sys.handles.length = j then _ else _)
  obtain ⟨b, l, folder, -⟩ := inv.tracked
  cases opened : openFolder sys.disk with
  | mk result disk =>
    cases result with
    | error e =>
      have handle : sys.handles[j]? = some fs := by simpa [Sys.step, opened] using handle
      rw [if_neg (List.getElem?_eq_some_iff.mp handle).1.ne']
      exact inv.holds j fs handle
    | ok fs' =>
      have handle : (sys.handles ++ [fs'])[j]? = some fs := by simpa [Sys.step, opened] using handle
      split
      · subst j
        cases getElem?_concat_length.symm.trans handle
        exact openFolder_le inv.ceiling folder opened
      · have inside := (List.getElem?_eq_some_iff.mp handle).1
        rw [length_append, length_singleton] at inside
        rw [getElem?_append_left (by omega)] at handle
        exact inv.holds j fs handle

private theorem ready {s : Local} (inv : ModSeqInv past sys cur) (safe : ModSeqSafe past sys (.op i op))
    (locked : sys.locked i = some s) : op.Ready s (sys.handles.eraseIdx i) cur ∧
      (standing past i).Holds cur s.fs.highestModSeq := by
  obtain ⟨carries, shows, body⟩ := safe
  obtain ⟨safe, resets⟩ := body s locked
  obtain ⟨fs, handle, reloaded⟩ := Sys.locked_eq_some locked
  obtain ⟨disk, caught⟩ := inv.tracked.locked modSeq_counted.lawful rfl
    (fun fs _ _ _ _ g core _ => modSeq_counted.adopts fs.toContent _ g core) locked
  have held := (inv.holds i fs handle).reload inv.ceiling reloaded
  refine ⟨⟨caught, disk ▸ inv.ceiling, safe, resets, fun showing => ?_, fun carrying => ?_⟩, held⟩
  · rwa [shows showing] at held
  · rwa [carries carrying] at held

/-- A body that runs. -/
private theorem step_body {s : Local} (inv : ModSeqInv past sys cur) (safe : ModSeqSafe past sys (.op i op))
    (locked : sys.locked i = some s) (stepped : sys.step (.op i op) = ((op.body s).1,
      { disk := (op.body s).2.disk, handles := sys.handles.set i (op.body s).2.fs })) :
    ∃ next, ModSeqInv (past ++ [sys.event (.op i op)]) (sys.step (.op i op)).2 next := by
  obtain ⟨ready, held⟩ := inv.ready safe locked
  obtain ⟨next, tracked, ceiling, outcome⟩ := body_modSeq op ready
  have commits : (sys.event (.op i op)).commits = ((op.body s).1.isOk && op.commits s) := by
    simp [Event.commits, Sys.event, stepped, locked]
  refine ⟨next, inv.concat_op safe ?_ (by rw [stepped]; exact tracked) (by rw [stepped]; exact ceiling)
    (fun j other => by rw [stepped]; exact getElem?_set_ne other) fun fs handle => ?_⟩
  · rw [commits]
    rcases outcome with ⟨⟨a, ok⟩, committed, raised, -⟩ | ⟨same, ⟨e, failed⟩ | ⟨quiet, -⟩⟩
    · rw [ok, committed]
      exact raised
    · rw [failed]
      exact same
    · rw [quiet, Bool.and_false]
      exact same
  · rw [stepped] at handle ⊢
    rw [getElem?_set_self'] at handle
    obtain ⟨_, -, rfl⟩ := Option.map_eq_some_iff.mp handle
    rw [commits]
    rcases outcome with ⟨⟨a, ok⟩, committed, -, level⟩ | ⟨rfl, ⟨e, failed⟩ | ⟨quiet, kept⟩⟩
    · rw [ok, committed]
      exact level
    · rw [failed, Op.leaves_error]
      trivial
    · rw [quiet, Bool.and_false, if_neg Bool.false_ne_true]
      exact Op.leaves_body ready held kept

private theorem step_op (inv : ModSeqInv past sys cur) (safe : ModSeqSafe past sys (.op i op)) :
    ∃ next, ModSeqInv (past ++ [sys.event (.op i op)]) (sys.step (.op i op)).2 next := by
  rcases sys.step_op_cases i op with
    ⟨answer, stepped, idle⟩ | ⟨fs, e, s, handle, failed, stepped⟩ | ⟨s, locked, -, stepped⟩
  · have quiet : (sys.event (.op i op)).commits = false := by
      rcases idle with rfl | unlocked
      · simp [Event.commits, Sys.event, stepped, Except.isOk, Except.toBool]
      · cases held : sys.locked i <;> simp [Event.commits, Sys.event, held, op.quiet_of_unlocked unlocked]
    refine ⟨cur, inv.concat_op safe (by rw [quiet]; rfl) (by rw [stepped]; exact inv.tracked)
      (by rw [stepped]; exact inv.ceiling) (fun j _ => by rw [stepped]) fun fs handle => ?_⟩
    rw [quiet, stepped, if_neg Bool.false_ne_true]
    rw [stepped] at handle
    cases answer with
    | error e =>
      rw [Op.leaves_error]
      trivial
    | ok a =>
      obtain ⟨bumps, claim, -⟩ := op.quiet_of_unlocked (idle.resolve_left nofun)
      rw [Op.leaves, claim, bumps]
      exact inv.holds i fs handle
  · obtain ⟨_, result, _⟩ | ⟨_, fs', result, tracked⟩ := reload_spec modSeq_counted.lawful rfl
      inv.tracked handle (fun _ _ _ g core _ => modSeq_counted.adopts fs.toContent _ g core) <;>
      cases failed.symm.trans result
    have quiet : (sys.event (.op i op)).commits = false := by
      simp [Event.commits, Sys.event, stepped, Except.isOk, Except.toBool]
    refine ⟨cur, inv.concat_op safe (by rw [quiet]; rfl) (by rw [stepped]; exact tracked)
      (by rw [stepped]; exact inv.ceiling)
      (fun j other => by rw [stepped]; exact getElem?_set_ne other) fun fs handle => ?_⟩
    rw [quiet, stepped, if_neg Bool.false_ne_true, Op.leaves_error]
    trivial
  · exact inv.step_body safe locked stepped

end ModSeqInv

/-- In every run whose reports and carried modseqs are in turn, every handle that reloads after a commit,
and every fresh open, holds a highest modseq above all that was reported before that commit. -/
theorem modseqs_never_reused (uidValidity indexID : ℕ) (steps : List Step)
    (guarded : Sys.Guarded ModSeqSafe [] (Sys.init uidValidity indexID) steps) :
    ∀ before e later, (Sys.init uidValidity indexID).trace steps = before ++ e :: later →
      e.commits = true → ∀ reported ∈ before.filterMap Event.reported,
        (∀ i s, ((Sys.init uidValidity indexID).run steps).locked i = some s →
          reported < s.fs.highestModSeq) ∧
        ∀ fs disk, openFolder ((Sys.init uidValidity indexID).run steps).disk = (.ok fs, disk) →
          reported < fs.highestModSeq := by
  have start : ModSeqInv [] (.init uidValidity indexID) 1 := by
    refine ⟨init_tracked modSeq_counted.lawful uidValidity indexID
      (fun c _ highest _ _ _ _ => highest.ge) le_rfl, ⟨?_, ?_⟩, ?_, nofun, fun before e later same => ?_⟩
    · rintro b ⟨⟩
      exact le_rfl
    · rintro l ⟨⟩
      exact nofun
    · rintro i fs handle
      obtain ⟨inside, rfl⟩ := List.getElem?_eq_some_iff.mp handle
      cases Nat.lt_one_iff.mp inside
      exact le_rfl
    · cases before <;> cases same
  obtain ⟨cur, inv⟩ := Sys.run_induction (P := fun past sys => ∃ cur, ModSeqInv past sys cur)
    (fun past sys step ⟨cur, inv⟩ safe => by
      cases step with
      | openFolder => exact ⟨cur, inv.step_open⟩
      | op i op => exact inv.step_op safe) ⟨1, start⟩ guarded
  intro before e later same commits reported member
  have below := inv.above before e later same commits reported member
  refine ⟨fun i s locked => ?_, fun fs disk opened => ?_⟩
  · exact below.trans_le (modSeq_counted.locked inv.tracked locked).rel
  · exact below.trans_le (modSeq_counted.le_opened inv.tracked opened)

/-- A message without keywords whose modseq is the folder's next, or one claimed before. -/
def plainMessage (uid modSeq : ℕ) : MessageMeta where
  uid := uid
  filename := [97]
  mapUID := 0
  saveDate := 0
  flags := []
  keywords := []
  modSeq := modSeq
  size := 10
  vsize := 0
  internalDate := 0
  guid := 5
  altTier := false

/-- One handle claims and commits what it has claimed, another reports it and commits in its turn. -/
def taken : List Step := [.openFolder, .op 0 .nextModSeq, .op 0 (.appendMessage (plainMessage 1 2) false),
  .op 1 .read, .op 1 (.appendMessage (plainMessage 2 0) false)]

/-- The conditions hold in the run, and what it ends with is above the claimed modseq it has reported. -/
theorem modseqs_never_reused_two_handles : ((Sys.init 7 9).trace taken).map (fun e => (e.commits, e.reported)) =
      [(false, some 1), (false, none), (true, none), (false, some 2), (true, none)] ∧
      ∀ i s, ((Sys.init 7 9).run taken).locked i = some s → 2 < s.fs.highestModSeq := by
  have guarded : Sys.Guarded ModSeqSafe [] (.init 7 9) taken := by
    refine ⟨trivial, ⟨by decide, by decide, fun s locked => ⟨⟨nofun, ?_⟩, nofun⟩⟩,
      ⟨by decide, by decide, fun s locked => ⟨⟨nofun, ?_⟩, nofun⟩⟩,
      ⟨by decide, by decide, fun s locked => ⟨⟨nofun, ?_⟩, nofun⟩⟩,
      ⟨by decide, by decide, fun s locked => ⟨⟨nofun, ?_⟩, nofun⟩⟩, trivial⟩ <;> revert s <;> decide
  refine ⟨by decide, fun i s locked => ?_⟩
  exact (modseqs_never_reused 7 9 taken guarded (((Sys.init 7 9).trace taken).take 4) _ [] rfl (by decide) 2
    (by decide)).1 i s locked

/-- A modseq claimed by one handle is committed after another handle has committed and reported the
same one: the report does not move. -/
theorem claimed_modseq_reused : ((Sys.init 7 9).trace [.openFolder, .op 0 .nextModSeq,
        .op 1 (.appendMessage (plainMessage 1 0) false), .op 1 .read,
        .op 0 (.appendMessage (plainMessage 2 2) false), .op 1 .read]).map
      (fun e => (e.commits, e.reported)) =
      [(false, some 1), (false, none), (true, none), (false, some 2), (true, none), (false, some 2)] := by
  decide

end Runs

end Yarilo.FileIndex

import Yarilo.FileIndex.ModSeq
import Yarilo.FileIndex.Reopen

/-! # The expunge history and its floor

A client that comes back with a modseq asks which messages have vanished since. The answer is read
off the expunge records of the log. Folding the log drops them, so a fold writes the highest modseq
down as the floor, below which the answer is refused. The history of a folder is the set of UIDs
that are present, the highest modseq that was committed and the floor.
-/

namespace Yarilo.FileIndex

open Library MailIndex Rebuild List Event TxRecord Content

/-- The UID an expunge record reports to a client that knows the folder up to `since`. Only the first
entry of a record is read, and only when it carries a modseq. -/
def expungedSince (since : ℕ) : TxRecord → Option ℕ
  | .expungeGUID (⟨uid, _, some modseq⟩ :: _) => if since < modseq then some uid else none
  | _ => none

/-- The UIDs the log reports as expunged since `since`. -/
def scanExpungesSince (log : Option LogFile) (since : ℕ) : List ℕ :=
  ((log.map fun l => l.groups.flatten).getD []).filterMap (expungedSince since)

variable {uid : ℕ} {fs : FolderState}

section Presence

/-- What a log record does to the presence of a UID. -/
def TxRecord.keeps (uid : ℕ) (present : Bool) : TxRecord → Bool
  | .expungeGUID expunges => present && !expunges.any (·.uid = uid)
  | .append records => present || records.any (·.uid = uid)
  | _ => present

def keepsAll (uid : ℕ) (txs : List TxRecord) (present : Bool) : Bool :=
  txs.foldl (keeps uid) present

theorem keepsAll_append (uid : ℕ) (txs more : List TxRecord) (present : Bool) :
    keepsAll uid (txs ++ more) present = keepsAll uid more (keepsAll uid txs present) :=
  List.foldl_append

/-- Presence follows the message. -/
theorem TxRecord.isSome_act (uid : ℕ) (m : Option Record) (tx : TxRecord) :
    (tx.act uid m).isSome = tx.keeps uid m.isSome := by
  cases tx with
  | modseqUpdate updates => exact foldl_frame Option.isSome _ (fun m _ => by split <;> simp) m updates
  | flagUpdate updates => exact foldl_frame Option.isSome _ (fun m _ => by split <;> simp) m updates
  | expungeGUID expunges =>
    simp only [act, keeps]
    induction expunges generalizing m with
    | nil => simp
    | cons e expunges ih =>
      rw [foldl_cons, ih, any_cons]
      by_cases same : e.uid = uid <;> simp [same]
  | append records =>
    simp only [act, keeps]
    induction records generalizing m with
    | nil => simp
    | cons r records ih =>
      rw [foldl_cons, ih, any_cons]
      by_cases same : r.uid = uid <;> simp [same]
  | headerUpdate offset value => rfl
  | keywordUpdate modify name uid1 uid2 => rfl
  | keywordReset uid1 uid2 => rfl

theorem isSome_actAll (uid : ℕ) (txs : List TxRecord) (m : Option Record) :
    (actAll uid txs m).isSome = keepsAll uid txs m.isSome :=
  foldl_follow _ _ _ (fun m tx => tx.isSome_act uid m) m txs

/-- Log records leave the presence of a UID alone or settle it, whatever it was. -/
theorem keepsAll_cases (uid : ℕ) (txs : List TxRecord) : (∀ present, keepsAll uid txs present = present) ∨
      ∃ settled, ∀ present, keepsAll uid txs present = settled := by
  refine foldl_settles (fun tx => ?_) txs
  cases tx with
  | expungeGUID expunges =>
    cases named : expunges.any (·.uid = uid) with
    | false => exact .inl fun present => by simp only [keeps, named]; simp
    | true => exact .inr ⟨false, fun present => by simp only [keeps, named]; simp⟩
  | append records =>
    cases named : records.any (·.uid = uid) with
    | false => exact .inl fun present => by simp only [keeps, named]; simp
    | true => exact .inr ⟨true, fun present => by simp only [keeps, named]; simp⟩
  | _ => exact .inl fun _ => rfl

/-- Records that neither expunge nor append leave every presence. -/
theorem keepsAll_of_quiet {txs : List TxRecord} (quiet : ∀ tx ∈ txs, ¬tx.Expunges uid ∧ ¬tx.Appends uid)
    (present : Bool) : keepsAll uid txs present = present := by
  refine foldl_of_fixed fun tx member => ?_
  obtain ⟨kept, old⟩ := quiet tx member
  cases tx with
  | expungeGUID expunges =>
    have none_ : expunges.any (·.uid = uid) = false := by simpa [Expunges] using kept
    simp only [keeps, none_]
    simp
  | append records =>
    have none_ : records.any (·.uid = uid) = false := by simpa [Appends] using old
    simp only [keeps, none_]
    simp
  | _ => rfl

end Presence

section Theory

/-- What a folder's expunge history consists of. -/
structure History where
  present : ℕ → Bool
  highest : ℕ
  floor : ℕ

def Content.expungeFloor (c : Content) : ℕ := c.file.ext.expungeFloor.getD 0

def Content.uids (c : Content) : List ℕ := c.file.records.map (·.uid)

variable {c c' : Content} {groups : List Group}

theorem Content.uids_congr (records : c.file.records = c'.file.records) : c.uids = c'.uids := by
  unfold uids
  rw [records]

/-- The UIDs of a content are those present. -/
def Content.Holds (c : Content) (present : ℕ → Bool) : Prop :=
  c.uids.Nodup ∧ ∀ uid, uid ∈ c.uids ↔ present uid = true

/-- Every modseq an expunge carries is at most `highest`. -/
def ExpungesBelow (highest : ℕ) (txs : List TxRecord) : Prop :=
  ∀ expunges, .expungeGUID expunges ∈ txs → ∀ e ∈ expunges, e.modseq.getD 0 ≤ highest

/-- Copies have to hold the same UIDs, and may lose neither a committed modseq nor the floor. A copy
that takes over a new base's headers keeps its own floor. -/
def history : Journal.Theory Content Group History where
  replay := replayGroups
  advance g group := {
    present := fun uid => keepsAll uid group (g.present uid)
    highest := modSeqAfter g.highest group
    floor := g.floor }
  Rel c g := c.Holds g.present ∧ g.highest ≤ c.highestModSeq ∧ g.floor ≤ c.expungeFloor
  Core c g := g.highest ≤ c.highestModSeq
  Ok _ _ _ := True
  Settled g groups := (∀ uid, keepsAll uid groups.flatten (g.present uid) = g.present uid) ∧
    ExpungesBelow g.highest groups.flatten

theorem history_after (g : History) (groups : List Group) : history.after g groups =
      { present := fun uid => keepsAll uid groups.flatten (g.present uid)
        highest := groups.foldl modSeqAfter g.highest
        floor := g.floor } := by
  induction groups generalizing g with
  | nil => rfl
  | cons group groups ih =>
    have rest := ih (history.advance g group)
    rw [show history.after g (group :: groups) = history.after (history.advance g group) groups
      from rfl, rest]
    simp only [flatten_cons, keepsAll_append, foldl_cons]
    rfl

theorem replayGroups_expungeFloor (replayed : replayGroups c groups = some c') :
    c'.expungeFloor = c.expungeFloor := by
  obtain ⟨s, applied, rfl⟩ := replayGroups_eq_some replayed
  have fixed := applyTxs_fixed c.startReplay groups.flatten
  rw [applied] at fixed
  have same : s.file.ext.expungeFloor = c.file.ext.expungeFloor := congrArg (fun f => f.2.2.2.2.1) fixed
  show s.file.ext.expungeFloor.getD 0 = c.file.ext.expungeFloor.getD 0
  rw [same]

theorem Content.Holds.replay {present : ℕ → Bool} (holds : c.Holds present)
    (replayed : replayGroups c groups = some c') :
    c'.Holds fun uid => keepsAll uid groups.flatten (present uid) := by
  obtain ⟨nodup, shows⟩ := replayGroups_messages holds.1 replayed
  refine ⟨nodup, fun uid => ?_⟩
  have before : (message c.file.records uid).isSome = present uid := by
    rw [Bool.eq_iff_iff, message_isSome]
    exact holds.2 uid
  dsimp only
  rw [← before, ← isSome_actAll, ← shows]
  exact message_isSome.symm

theorem replayGroups_highest {highest : ℕ} (reached : highest ≤ c.highestModSeq)
    (replayed : replayGroups c groups = some c') : groups.foldl modSeqAfter highest ≤ c'.highestModSeq := by
  rw [modSeq_counted.follows replayed]
  exact Journal.foldl_mono modSeq_counted.mono groups reached

theorem le_foldl_modSeqAfter (n : ℕ) (groups : List Group) : n ≤ groups.foldl modSeqAfter n := by
  induction groups generalizing n with
  | nil => exact Nat.le_refl n
  | cons group groups ih => exact Nat.le_trans (le_modSeqAfter n group) (ih _)

/-- A group raises the highest modseq to every expunge in it. -/
theorem expungesBelow_modSeqAfter (n : ℕ) (group : Group) : ExpungesBelow (modSeqAfter n group) group := by
  intro expunges member e inside
  obtain ⟨before, after, rfl⟩ := append_of_mem member
  have reached : e.modseq.getD 0 ≤ modseqStep (modSeqAfter n before) (.expungeGUID expunges) := by
    exact (foldl_max_le (f := fun e : Expunge => e.modseq.getD 0)).mp le_rfl |>.2 e inside
  have rest := le_modSeqAfter (modseqStep (modSeqAfter n before) (.expungeGUID expunges)) after
  have whole : modSeqAfter n (before ++ .expungeGUID expunges :: after) =
      modSeqAfter (modseqStep (modSeqAfter n before) (.expungeGUID expunges)) after := by
    simp [modSeqAfter]
  rw [whole]
  omega

theorem history_lawful : history.Lawful where
  caughtUp := by
    intro a g rel
    have same : history.replay a [] = some a.startReplay.finish := rfl
    obtain ⟨holds, highest, floor⟩ := rel _ same
    refine ⟨holds, ?_, floor⟩
    exact highest.trans (Nat.le_of_eq (Nat.max_eq_left (Nat.zero_le _)))
  core rel := rel.2.1
  follow := by
    intro a b g es more rel _ replayed
    rw [history_after]
    refine ⟨rel.1.replay replayed, replayGroups_highest rel.2.1 replayed, ?_⟩
    exact rel.2.2.trans (Nat.le_of_eq (replayGroups_expungeFloor replayed).symm)
  absorb := by
    intro a b g es more settled rel _ replayed
    rw [history_after]
    refine ⟨?_, ?_, ?_⟩
    · have holds := rel.1.replay replayed
      have same : (fun uid => keepsAll uid (es ++ more).flatten (g.present uid)) =
          fun uid => keepsAll uid more.flatten (g.present uid) := by
        funext uid
        rw [flatten_append, keepsAll_append, settled.1]
      rwa [same] at holds
    · have reached := replayGroups_highest rel.2.1 replayed
      rw [foldl_append] at reached
      exact Nat.le_trans
        (Journal.foldl_mono modSeq_counted.mono more (le_foldl_modSeqAfter g.highest es)) reached
    · exact rel.2.2.trans (Nat.le_of_eq (replayGroups_expungeFloor replayed).symm)
  settle := by
    intro g es group settled _
    have flat : (es ++ [group]).flatten = es.flatten ++ group := by simp
    refine ⟨fun uid => ?_, ?_⟩
    · show keepsAll uid (es ++ [group]).flatten (keepsAll uid group (g.present uid)) =
        keepsAll uid group (g.present uid)
      rw [flat, keepsAll_append]
      rcases keepsAll_cases uid group with same | ⟨value, constant⟩
      · rw [same, same, settled.1]
      · rw [constant, constant]
    · intro expunges member e inside
      rw [flat, mem_append] at member
      rcases member with old | new
      · exact Nat.le_trans (settled.2 expunges old e inside) (le_modSeqAfter g.highest group)
      · exact expungesBelow_modSeqAfter g.highest group expunges new e inside

theorem history_stable : Stable history := by
  intro c c' g same rel
  have uids : c.uids = c'.uids := by
    have stored := congrArg (fun e => e.2.2.2.2.2.2.1.map (·.uid)) same
    simpa [uids, essence, Function.comp_def] using stored
  have highest : c.highestModSeq = c'.highestModSeq := congrArg (fun e => e.2.2.2.1) same
  have floor : c.expungeFloor = c'.expungeFloor := congrArg (fun e => e.2.2.2.2.2.1.getD 0) same
  obtain ⟨⟨nodup, holds⟩, reached, above⟩ := rel
  exact ⟨⟨uids ▸ nodup, uids ▸ holds⟩, highest ▸ reached, floor ▸ above⟩

end Theory

variable {g : History}

section Lock

/-- What a client was told at some moment: the highest modseq, and the UIDs present then. -/
structure Report where
  modseq : ℕ
  uids : List ℕ
deriving DecidableEq

/-- A client that was told a modseq at or above the floor learns from the log of every UID it knew
that is gone. -/
def Answered (reports : List Report) (g : History) (log : Option LogFile) : Prop :=
  ∀ r ∈ reports, g.floor ≤ r.modseq → ∀ uid ∈ r.uids, g.present uid = false →
    uid ∈ scanExpungesSince log r.modseq

/-- Inside an operation: the handle has caught up and every report can be answered. -/
structure Kept (reports : List Report) (s : Local) (others : List FolderState) (g : History) : Prop where
  locked : Locked history s others g
  answered : Answered reports g s.disk.log

/-- After an operation: all handles are tracked and every report can be answered. -/
def KeepsHistory (reports : List Report) (handles : List FolderState) (i : ℕ) (result : Result) : Prop :=
  ∃ g, Tracked history result.2.disk (handles.set i result.2.fs) g ∧ Answered reports g result.2.disk.log

/-- A change in memory that the history does not notice. -/
structure FolderState.Over (fs old : FolderState) : Prop where
  book : fs.book = old.book
  uids : fs.toContent.uids = old.toContent.uids
  highest : old.highestModSeq ≤ fs.highestModSeq
  floor : fs.toContent.expungeFloor = old.toContent.expungeFloor

theorem FolderState.Over.rel {old : FolderState} (beyond : fs.Over old)
    (rel : history.Rel old.toContent g) : history.Rel fs.toContent g := by
  obtain ⟨⟨nodup, holds⟩, reached, above⟩ := rel
  refine ⟨⟨beyond.uids ▸ nodup, beyond.uids ▸ holds⟩, ?_, beyond.floor ▸ above⟩
  exact reached.trans beyond.highest

variable {l : LogFile} {since : ℕ}

theorem mem_scanExpungesSince : uid ∈ scanExpungesSince (some l) since ↔
      ∃ guid modseq rest, .expungeGUID (⟨uid, guid, some modseq⟩ :: rest) ∈ l.groups.flatten ∧
        since < modseq := by
  show uid ∈ l.groups.flatten.filterMap (expungedSince since) ↔ _
  rw [mem_filterMap]
  constructor
  · rintro ⟨tx, member, found⟩
    unfold expungedSince at found
    split at found
    · rename_i uid' guid modseq rest
      split at found
      · rename_i later
        cases found
        exact ⟨guid, modseq, rest, member, later⟩
      · cases found
    · cases found
  · rintro ⟨guid, modseq, rest, member, later⟩
    exact ⟨_, member, if_pos later⟩

theorem scanExpungesSince_grows (group : Group) (found : uid ∈ scanExpungesSince (some l) since) :
    uid ∈ scanExpungesSince (some { l with groups := l.groups ++ [group] }) since := by
  obtain ⟨guid, modseq, rest, member, later⟩ := mem_scanExpungesSince.mp found
  exact mem_scanExpungesSince.mpr ⟨guid, modseq, rest, by simp [member], later⟩

theorem stampExpungeFloor_floor (fs : FolderState) : fs.stampExpungeFloor.toContent.expungeFloor =
      max fs.toContent.expungeFloor fs.highestModSeq := by
  unfold FolderState.stampExpungeFloor FolderState.mapFile expungeFloor
    FolderState.highestModSeq
  dsimp only
  split
  · rename_i missing
    rw [missing]
    exact (Nat.max_eq_right (Nat.zero_le _)).symm
  rename_i floor there
  rw [there]
  rfl

variable {reports : List Report} {s : Local} {others handles : List FolderState} {i : ℕ}
  {cur : History}

theorem Kept.done (kept : Kept reports s (handles.eraseIdx i) cur) (answer : Except Err Answer) :
    KeepsHistory reports handles i (answer, s) :=
  ⟨cur, kept.locked.tracked history_lawful, kept.answered⟩

section

variable (kept : Kept reports s others cur)

include kept

theorem Kept.log : ∃ l, s.disk.log = some l := by
  obtain ⟨_, l, folder, _⟩ := kept.locked
  exact ⟨l, folder.log⟩

theorem Kept.touch (fs : FolderState) (beyond : fs.Over s.fs) :
    Kept reports { s with fs := fs } others cur :=
  ⟨kept.locked.touch fs beyond.book (beyond.rel kept.locked.rel), kept.answered⟩

theorem Kept.flush (fs : FolderState) (beyond : fs.Over s.fs) (mayFlush : fs.MayFlush 1)
    (wholeNames : Bool) : Kept reports (.flush wholeNames { s with fs := fs }) others cur := by
  have rel := beyond.rel kept.locked.rel
  refine ⟨kept.locked.flush history_stable fs beyond.book mayFlush rel rel
    (fun _ log => kept.locked.settled history_lawful log)
    (fun _ other l log => kept.locked.caughtUp history_lawful other l log) wholeNames, ?_⟩
  cases wholeNames <;> exact kept.answered

/-- A group that neither adds nor removes a message. -/
theorem Kept.journal (fs : FolderState) (group : Group) (beyond : fs.Over s.fs)
    (quiet : ∀ tx ∈ group, ∀ uid, ¬tx.Expunges uid ∧ ¬tx.Appends uid)
    (reached : modSeqAfter cur.highest group ≤ fs.highestModSeq) :
    ∃ g, Kept reports (.appendMutLog group { s with fs := fs }) others g := by
  obtain ⟨l, log⟩ := kept.log
  have same : ∀ uid, (history.advance cur group).present uid = cur.present uid := fun uid =>
    keepsAll_of_quiet (fun tx member => quiet tx member uid) _
  obtain ⟨holds, _, floor⟩ := beyond.rel kept.locked.rel
  refine ⟨history.advance cur group, ?_, ?_⟩
  · refine kept.locked.appendMutLog fs beyond.book (fun _ _ => trivial) ⟨⟨holds.1, fun uid => ?_⟩,
      reached, floor⟩
    rw [same]
    exact holds.2 uid
  · rw [kept.locked.appendMutLog_log log fs beyond.book group]
    intro r told above uid known gone
    rw [same] at gone
    have found := kept.answered r told above uid known gone
    rw [log] at found
    exact scanExpungesSince_grows group found

end

/-- A fold drops the log. It is no loss for a client that knew the folder up to the new floor,
unless the fold itself drops a message the client knew. -/
theorem Kept.fold (kept : Kept reports s (handles.eraseIdx i) cur) (fs : FolderState)
    (book : fs.book = s.fs.book) (mayFlush : fs.MayFlush 1) (nodup : fs.toContent.uids.Nodup)
    (highest : s.fs.highestModSeq ≤ fs.highestModSeq)
    (sameFloor : fs.toContent.expungeFloor = s.fs.toContent.expungeFloor)
    (gone : ∀ r ∈ reports, ∀ uid ∈ r.uids, uid ∈ s.fs.toContent.uids → uid ∉ fs.toContent.uids →
      r.modseq < fs.highestModSeq) (answer : Except Err Answer) (wholeNames : Bool) :
    KeepsHistory reports handles i (answer, .compact wholeNames { s with fs := fs }) := by
  obtain ⟨l, log⟩ := kept.log
  obtain ⟨holds, reached, floored⟩ := kept.locked.rel
  have stamped := stampExpungeFloor_floor fs
  have reached' : cur.highest ≤ fs.highestModSeq := reached.trans highest
  let g : History := {
    present := fun uid => decide (uid ∈ fs.toContent.uids)
    highest := cur.highest
    floor := fs.stampExpungeFloor.toContent.expungeFloor }
  have rel : history.Rel fs.stampExpungeFloor.toContent g := by
    obtain ⟨_, records, modseq, _⟩ := stampExpungeFloor_frame fs
    have uids : fs.stampExpungeFloor.toContent.uids = fs.toContent.uids := uids_congr records
    refine ⟨⟨uids ▸ nodup, fun uid => ?_⟩, ?_, le_rfl⟩
    · rw [uids]
      exact decide_eq_true_iff.symm
    · show cur.highest ≤ fs.stampExpungeFloor.file.ext.highestModSeq
      rw [modseq]
      exact reached'
  refine ⟨g, kept.locked.compact history_lawful history_stable fs book mayFlush rel rel
    ⟨fun _ => rfl, fun expunges member => by simp at member⟩
    (fun _ other l log => kept.locked.caughtUp history_lawful other l log) wholeNames, ?_⟩
  intro r told floor uid known absent
  have absent : uid ∉ fs.toContent.uids := of_decide_eq_false absent
  have floor : fs.stampExpungeFloor.toContent.expungeFloor ≤ r.modseq := floor
  by_cases there : cur.present uid = true
  · have lost := gone r told uid known ((holds.2 uid).mpr there) absent
    omega
  have found := kept.answered r told (by omega) uid known (Bool.eq_false_of_not_eq_true there)
  rw [log] at found
  obtain ⟨guid, modseq, rest, member, later⟩ := mem_scanExpungesSince.mp found
  have below : modseq ≤ cur.highest :=
    (kept.locked.settled history_lawful log).2 _ member _ (.head _)
  omega

/-- An expunge is stamped above every modseq that was told to a client who knew the message. -/
theorem Kept.expungeMessage (kept : Kept reports s (handles.eraseIdx i) cur) (uid : ℕ)
    (room : s.fs.highestModSeq + 1 < 2 ^ 64)
    (above : uid ∈ s.fs.toContent.uids → ∀ r ∈ reports, uid ∈ r.uids → r.modseq < s.fs.highestModSeq + 1) :
    KeepsHistory reports handles i (s.expungeMessage uid) := by
  have bumped := bump_eq room
  unfold Local.expungeMessage
  dsimp only
  split
  · refine (kept.touch s.fs.bumpModSeqHeader ⟨rfl, rfl, ?_, rfl⟩).done _
    omega
  rename_i r found
  have named : r.uid = uid := by simpa using find?_some found
  have there : uid ∈ s.fs.toContent.uids := named ▸ mem_map_of_mem (mem_of_find?_eq_some found)
  set fs := s.fs.bumpModSeqHeader.removeRecord r with fsDef
  have highest : fs.highestModSeq = s.fs.highestModSeq + 1 := bumped
  obtain ⟨l, log⟩ := kept.log
  obtain ⟨holds, reached, floor⟩ := kept.locked.rel
  have present : ∀ other, keepsAll other (fs.expungeGroup r) (cur.present other) =
      (cur.present other && !decide (uid = other)) := by
    intro other
    rw [← named]
    show (cur.present other && !([_] : List Expunge).any _) = _
    simp
  refine ⟨history.advance cur (fs.expungeGroup r), (kept.locked.appendMutLog fs rfl
    (fun _ _ => trivial) ⟨⟨?_, fun other => ?_⟩, ?_, floor⟩).tracked history_lawful, ?_⟩
  · show ((removeFirst r.uid s.fs.file.records).map (·.uid)).Nodup
    rw [map_uid_removeFirst]
    exact holds.1.erase r.uid
  · show other ∈ (removeFirst r.uid s.fs.file.records).map (·.uid) ↔
      keepsAll other (fs.expungeGroup r) (cur.present other) = true
    rw [present, map_uid_removeFirst]
    show other ∈ s.fs.toContent.uids.erase r.uid ↔ _
    rw [holds.1.mem_erase_iff, named, Bool.and_eq_true, ← holds.2 other, Bool.not_eq_true',
      decide_eq_false_iff_not, and_comm, ne_comm]
  · show max cur.highest fs.highestModSeq ≤ fs.highestModSeq
    have : cur.highest ≤ s.fs.highestModSeq := reached
    omega
  · show Answered reports _ (Local.appendMutLog (fs.expungeGroup r) { s with fs := fs }).disk.log
    rw [kept.locked.appendMutLog_log log fs rfl]
    intro report told above' other known gone
    have gone : keepsAll other (fs.expungeGroup r) (cur.present other) = false := gone
    rw [present] at gone
    by_cases same : uid = other
    · subst same
      refine mem_scanExpungesSince.mpr ⟨r.guid, fs.highestModSeq, [], ?_, ?_⟩
      · simp [FolderState.expungeGroup, named]
      · rw [highest]
        exact above there report told known
    · have before : cur.present other = false := by simpa [same] using gone
      have answered := kept.answered report told above' other known before
      rw [log] at answered
      exact scanExpungesSince_grows _ answered

/-- A record whose UID is not there goes into memory and log. -/
theorem Kept.flushAppend (kept : Kept reports s others cur) (m : MessageMeta) (r : Record)
    (named : r.uid = m.uid) (absent : m.uid ∉ s.fs.toContent.uids) (stamped : r.modseq ≤ s.fs.highestModSeq) :
    ∃ g, Kept reports ((s.mapFs (·.addRecord m r)).flushAppend r) others g := by
  obtain ⟨l, log⟩ := kept.log
  obtain ⟨holds, reached, floor⟩ := kept.locked.rel
  set group := Local.appendGroup (s.fs.addRecord m r) r with groupDef
  have present : ∀ uid, keepsAll uid group (cur.present uid) =
      (cur.present uid || decide (r.uid = uid)) := by
    intro uid
    show (cur.present uid || [r].any _) = _
    simp
  refine ⟨history.advance cur group, kept.locked.flushAppend m r (fun _ _ => trivial)
    ⟨⟨?_, fun uid => ?_⟩, ?_, floor⟩, ?_⟩
  · exact nodup_uids_concat holds.1 (named ▸ absent)
  · show uid ∈ (s.fs.file.records ++ [r]).map (·.uid) ↔ keepsAll uid group (cur.present uid) = true
    rw [present, map_append, mem_append, Bool.or_eq_true, ← holds.2 uid]
    simp [uids, eq_comm]
  · show max cur.highest r.modseq ≤ s.fs.highestModSeq
    have : cur.highest ≤ s.fs.highestModSeq := reached
    omega
  · rw [kept.locked.flushAppend_log log m r]
    intro report told above uid known gone
    have gone : keepsAll uid group (cur.present uid) = false := gone
    rw [present] at gone
    have answered := kept.answered report told above uid known (Bool.or_eq_false_iff.mp gone).1
    rw [log] at answered
    exact scanExpungesSince_grows _ answered

theorem Kept.growRegistry (kept : Kept reports s others cur) (registry : Registry)
    (mayFlush : s.fs.keywords.length < registry.length → s.fs.MayFlush 2) :
    Kept reports (s.growRegistry registry) others cur := by
  have beyond : (s.fs.persistKeywordRegistry registry).Over s.fs := ⟨rfl, rfl, le_rfl, rfl⟩
  unfold Local.growRegistry
  dsimp only
  split
  · rename_i grew
    exact kept.flush _ beyond ((mayFlush grew).one.congr rfl rfl) false
  · exact kept.touch _ beyond

theorem Kept.commitAppend (kept : Kept reports s (handles.eraseIdx i) cur) (m : MessageMeta)
    (rotate : Bool) (mayFlush : rotate = true ∨ m.keywords ≠ [] → s.fs.MayFlush 2)
    (room : s.fs.highestModSeq + 1 < 2 ^ 64) (absent : m.uid ∉ s.fs.toContent.uids)
    (answer : Except Err Answer → Except Err Answer) :
    KeepsHistory reports handles i
      (answer (s.commitAppend m rotate).1, (s.commitAppend m rotate).2) := by
  obtain ⟨_, stampedFs⟩ := s.stampModSeq_fs m
  have keywords : (s.stampModSeq m).fs.keywords = s.fs.keywords := congrArg (·.keywords) stampedFs
  have highest := stampModSeq_highest m room
  have beyond : (s.stampModSeq m).fs.Over s.fs := by
    refine ⟨congrArg (·.book) stampedFs, uids_congr (congrArg (·.file.records) stampedFs),
      ?_, congrArg (·.expungeFloor) stampedFs⟩
    rw [highest]
    split <;> omega
  have stamped : Kept reports (s.stampModSeq m) (handles.eraseIdx i) cur := kept.touch _ beyond
  have mayFlush' : rotate = true ∨ m.keywords ≠ [] → (s.stampModSeq m).fs.MayFlush 2 := fun may =>
    (mayFlush may).congr (congrArg (·.file.ext.lineage) stampedFs) (congrArg (·.lineage) stampedFs)
  rcases s.commitAppend_cases m rotate with
    zero | full | ⟨bits, registry, modseq, r, known, stamp, rfl, outcome⟩
  · rw [zero]
    exact kept.done _
  · rw [full]
    exact stamped.done _
  rw [outcome]
  set r := FolderState.recordFor m modseq bits with record
  have grown := stamped.growRegistry registry fun grew =>
    mayFlush' (.inr (Counted.keywords_ne_nil_of_grew known (keywords ▸ grew)))
  obtain ⟨_, grownModSeq, grownFlush⟩ := Counted.growRegistry_frame registry (s.stampModSeq m)
  obtain ⟨_, grownRecords⟩ := growRegistry_keeps registry (s.stampModSeq m)
  set base := (s.stampModSeq m).growRegistry registry with baseDef
  have sameUIDs : base.fs.toContent.uids = s.fs.toContent.uids :=
    (uids_congr grownRecords).trans beyond.uids
  have reached : r.modseq ≤ base.fs.highestModSeq := by
    show modseq ≤ _
    rw [stamp, grownModSeq, highest]
    split <;> omega
  obtain ⟨g, logged⟩ := grown.flushAppend m r rfl (sameUIDs ▸ absent) reached
  cases rotate with
  | false => exact logged.done _
  | true =>
    refine logged.fold _ rfl ?_ logged.locked.rel.1.1 le_rfl rfl
      (fun _ _ _ _ there gone => absurd there gone) _ false
    obtain ⟨file, lineage'⟩ := flushAppend_frame m r base
    exact (grownFlush (mayFlush' (.inl rfl))).congr file lineage'

end Lock

section Loops

variable {b b' : Rebuild} {metas : List MessageMeta}

/-- The keyword names a reset registers. -/
def resetNames (metas : List MessageMeta) : List Keyword := (metas.filter (·.uid ≠ 0)).flatMap (·.keywords)

/-- A reset whose names fit the registry goes through. -/
theorem Rebuild.loop_ok (fit : (keywordsBitmaskFor b.registry (resetNames metas)).isSome) :
    (b.loop metas).2 = true := by
  induction metas generalizing b with
  | nil => rfl
  | cons m metas ih =>
    unfold loop step
    by_cases zero : m.uid = 0
    · rw [if_pos zero]
      exact ih (by simpa [resetNames, zero] using fit)
    rw [if_neg zero]
    have names : resetNames (m :: metas) = m.keywords ++ resetNames metas := by
      simp [resetNames, zero]
    rw [names, keywordsBitmaskFor_append] at fit
    cases known : keywordsBitmaskFor b.registry m.keywords with
    | none =>
      rw [known] at fit
      cases fit
    | some found =>
      rw [known, Option.bind_some, Option.isSome_map] at fit
      exact ih fit

/-- A reset raises the counter over every modseq it is given. -/
theorem Rebuild.loop_maxModseq (looped : b.loop metas = (b', true)) :
    b.maxModseq ≤ b'.maxModseq ∧ ∀ m ∈ metas, m.uid ≠ 0 → m.modSeq ≤ b'.maxModseq := by
  induction metas generalizing b with
  | nil =>
    cases looped
    exact ⟨le_rfl, by simp⟩
  | cons m metas ih =>
    unfold loop at looped
    split at looped
    · cases looped
    rename_i middle stepped
    obtain ⟨grows, given⟩ := ih looped
    unfold step at stepped
    split at stepped
    · rename_i zero
      cases stepped
      exact ⟨grows, forall_mem_cons.mpr ⟨fun nonzero => absurd zero nonzero, given⟩⟩
    · obtain ⟨_, _, rfl⟩ := Option.map_eq_some_iff.mp stepped
      dsimp only at grows
      refine ⟨by omega, forall_mem_cons.mpr ⟨fun _ => ?_, given⟩⟩
      split at grows <;> omega

/-- A message without a modseq takes the next of the counter. -/
theorem Rebuild.loop_fresh (looped : b.loop metas = (b', true)) (room : b.fresh + 1 < 2 ^ 64)
    {m : MessageMeta} (member : m ∈ metas) (nonzero : m.uid ≠ 0) (unstamped : m.modSeq = 0) :
    b.fresh + 1 ≤ b'.maxModseq := by
  induction metas generalizing b with
  | nil => cases member
  | cons first metas ih =>
    unfold loop at looped
    split at looped
    · cases looped
    rename_i middle stepped
    have grows := (loop_maxModseq looped).1
    unfold step at stepped
    split at stepped
    · rename_i zero
      cases stepped
      rcases mem_cons.mp member with rfl | later
      · exact absurd zero nonzero
      · exact ih looped room later
    · obtain ⟨_, _, rfl⟩ := Option.map_eq_some_iff.mp stepped
      by_cases stamped : first.modSeq = 0
      · have taken : u64 (b.fresh + 1) = b.fresh + 1 := Nat.mod_eq_of_lt room
        simp only [stamped, if_true, taken] at grows
        omega
      rcases mem_cons.mp member with rfl | later
      · exact absurd unstamped stamped
      · have rest := ih looped (by simpa [stamped] using room) later
        simpa [stamped] using rest

end Loops

section Bodies

variable {reports : List Report} {s : Local} {handles : List FolderState} {i : ℕ} {cur : History}

theorem FolderState.Reflags.over {fs' fs : FolderState} (reflags : fs'.Reflags fs)
    (highest : fs.highestModSeq ≤ fs'.highestModSeq) : fs'.Over fs :=
  ⟨reflags.book, reflags.records fun _ _ _ _ => rfl, highest,
    congrArg (Option.getD · 0) reflags.expungeFloor⟩

theorem Kept.reflagging {count : ℕ} {result : Result} (kept : Kept reports s (handles.eraseIdx i) cur)
    (reflagging : Reflagging count s result) (room : s.fs.highestModSeq + count < 2 ^ 64) :
    KeepsHistory reports handles i result := by
  cases reflagging with
  | touch answer fs reflags grows => exact (kept.touch fs (reflags.over (grows room))).done _
  | commit fs updates flags keywordRecs seen deleted reflags keywords stamps =>
    obtain ⟨grows, stamped⟩ := stamps room
    obtain ⟨g, logged⟩ := kept.journal fs _ (reflags.over grows)
      (forall_mem_flagGroup (fun _ => ⟨id, id⟩) (fun _ => ⟨id, id⟩)
        (fun tx held other =>
          have unnamed := not_names_of_isKeyword (keywords tx held) other
          ⟨fun expunges => unnamed expunges.names, fun appends => unnamed appends.names⟩)
        fun _ _ _ _ => ⟨id, id⟩)
      ((modSeqAfter_stamps cur.highest keywords seen deleted).trans_le
        (foldl_max_le.mpr ⟨kept.locked.rel.2.1.trans grows, stamped⟩))
    exact logged.done _

/-- A reset of this set raises the counter above `since`. -/
def Local.ResetRaises (s : Local) (metas : List MessageMeta) (since : ℕ) : Prop :=
  since < s.fs.highestModSeq ∨ ∃ m ∈ metas, m.uid ≠ 0 ∧
    (since < m.modSeq ∨ m.modSeq = 0 ∧ since ≤ s.fs.highestModSeq)

/-- The set of a reset has each UID once, its keyword names fit the registry, and it keeps the
messages a client was told of or raises the counter above what the client was told. -/
structure Local.ResetSafe (s : Local) (reports : List Report) (metas : List MessageMeta) : Prop where
  distinct : (resetUIDs metas).Nodup
  fit : (keywordsBitmaskFor s.fs.keywords (resetNames metas)).isSome = true
  keeps : ∀ r ∈ reports, (∀ uid ∈ r.uids, uid ∈ s.fs.toContent.uids → uid ∈ resetUIDs metas) ∨
    s.ResetRaises metas r.modseq

theorem Kept.resetFolder (kept : Kept reports s (handles.eraseIdx i) cur) (metas : List MessageMeta)
    (mayFlush : s.fs.MayFlush 1) (room : s.fs.highestModSeq + 1 < 2 ^ 64) (safe : s.ResetSafe reports metas) :
    KeepsHistory reports handles i (s.resetFolder metas) := by
  have ok := loop_ok (b := start s.fs) safe.fit
  obtain ⟨b, _, looped, ⟨rfl, -⟩ | ⟨rfl, fs, _, rebuilt, highest, -, result⟩⟩ := resetFolder_cases metas s
  · rw [looped] at ok
    cases ok
  obtain ⟨grows, given⟩ := loop_maxModseq looped
  have uids : fs.toContent.uids = resetUIDs metas := by
    show fs.file.records.map (·.uid) = _
    rw [rebuilt.records]
    exact loop_uids looped
  rw [result]
  refine kept.fold fs rebuilt.book (rebuilt.mayFlush mayFlush) ?_ (by omega)
    (congrArg (Option.getD · 0) rebuilt.expungeFloor) (fun r told uid known there gone => ?_) _ true
  · rw [uids]
    exact safe.distinct
  · rw [uids] at gone
    rw [highest]
    rcases safe.keeps r told with keeps | raises
    · exact absurd (keeps uid known there) gone
    rcases raises with below | ⟨m, member, nonzero, below | ⟨unstamped, below⟩⟩
    · omega
    · have reached := given m member nonzero
      omega
    have reached := loop_fresh looped room member nonzero unstamped
    have start : (start s.fs).fresh = s.fs.highestModSeq := rfl
    omega

/-- What an operation needs to keep every report answerable. -/
def Op.HistorySafe (reports : List Report) (s : Local) : Op → Prop
  | .appendMessage m _ => m.uid ∉ s.fs.toContent.uids
  | .allocateAndAppendNamed .. => s.nextUID ∉ s.fs.toContent.uids
  | .expungeMessage uid => uid ∈ s.fs.toContent.uids →
      ∀ r ∈ reports, uid ∈ r.uids → r.modseq < s.fs.highestModSeq + 1
  | .resetFolder metas => s.ResetSafe reports metas
  | _ => True

variable (kept : Kept reports s (handles.eraseIdx i) cur)

include kept

/-- A rewrite of the base that keeps UIDs, counter and floor. -/
theorem Kept.rewrite (change : File → File) (mayFlush : s.fs.MayFlush 2)
    (beyond : (s.fs.mapFile change).Over s.fs)
    (lineage : (s.fs.mapFile change).file.ext.lineage = s.fs.file.ext.lineage)
    (answer : Except Err Answer) (wholeNames : Bool) :
    KeepsHistory reports handles i
      (answer, .flush wholeNames { s with fs := s.fs.mapFile change }) :=
  (kept.flush (s.fs.mapFile change) beyond (mayFlush.one.congr lineage rfl) wholeNames).done _

/-- A group of one header field. -/
theorem Kept.headerUpdate (fs : FolderState) (beyond : fs.Over s.fs) (offset value : ℕ)
    (answer : Except Err Answer) :
    KeepsHistory reports handles i
      (answer, .appendMutLog [.headerUpdate offset value] { s with fs := fs }) := by
  have reached : cur.highest ≤ s.fs.highestModSeq := kept.locked.rel.2.1
  obtain ⟨g, logged⟩ := kept.journal fs [.headerUpdate offset value] beyond
    (fun tx member uid => by
      obtain rfl := mem_singleton.mp member
      exact ⟨id, id⟩) (reached.trans beyond.highest)
  exact logged.done _

theorem Kept.upkeep {op : Op} {result : Result} (upkeep : Upkeep op s result)
    (mayFlush : op.rewritesBase = true → s.fs.MayFlush 2) : KeepsHistory reports handles i result := by
  have beyond : ∀ {change : File → File}, s.fs.file.Upkept (change s.fs.file) →
      (s.fs.mapFile change).Over s.fs := fun upkept =>
    ⟨upkept.book, upkept.uids, upkept.highestModSeq.ge,
      congrArg (Option.getD · 0) upkept.expungeFloor⟩
  cases upkeep with
  | idle => exact kept.done _
  | mark change value upkept => exact kept.headerUpdate (s.fs.mapFile change) (beyond upkept) 20 value _
  | rewrite change wholeNames upkept rewrites =>
    exact kept.rewrite change (mayFlush rewrites) (beyond upkept) upkept.lineage _ wholeNames

theorem Kept.body (op : Op) (modSeqSafe : op.ModSeqSafe s) (safe : op.HistorySafe reports s) :
    KeepsHistory reports handles i (op.body s) := by
  obtain ⟨mayFlush, room⟩ := modSeqSafe
  cases op with
  | allocateUID =>
    exact kept.headerUpdate (s.fs.setNextUID (u32 (s.nextUID + 1))) ⟨rfl, rfl, le_rfl, rfl⟩ 28 _ _
  | allocateUIDWithModSeq =>
    have bumped := bump_eq room
    refine kept.headerUpdate (s.fs.setNextUID (u32 (s.nextUID + 1))).bumpModSeqHeader ⟨rfl, rfl, ?_, rfl⟩ 28 _ _
    exact Nat.le_of_lt (bumped ▸ Nat.lt_succ_self _)
  | nextModSeq =>
    have bumped := bump_eq room
    refine (kept.touch s.fs.bumpModSeqHeader ⟨rfl, rfl, ?_, rfl⟩).done _
    omega
  | appendMessage m rotate =>
    exact kept.commitAppend m rotate (fun may => mayFlush (by simpa [Op.rewritesBase] using may)) room
      safe id
  | allocateAndAppendNamed m name rotate =>
    have taken := kept.touch (s.fs.setNextUID (u32 (s.nextUID + 1))) ⟨rfl, rfl, le_rfl, rfl⟩
    have may : rotate = true ∨ m.keywords ≠ [] → s.fs.MayFlush 2 :=
      fun may => mayFlush (by simpa [Op.rewritesBase] using may)
    rcases s.allocateAndAppendNamed_cases m name rotate with ⟨e, done⟩ | ⟨filename, done⟩ <;>
      simp [Op.body, done]
    · exact taken.done _
    · exact taken.commitAppend { m with uid := s.nextUID, filename := filename } rotate
        (fun m => (may m).congr rfl rfl) room safe (·.map fun _ => .uid s.nextUID)
  | writeFlags mode uid flags keywords => exact kept.reflagging (writeFlags_reflagging ..) room
  | updateFlagsMulti updates => exact kept.reflagging (updateFlagsMulti_reflagging ..) room
  | expungeMessage uid => exact kept.expungeMessage uid room safe
  | adoptUIDSpace uidValidity nextUID =>
    simp only [Op.body, Local.adoptUIDSpace]
    split
    · exact kept.done _
    · exact kept.rewrite _ (mayFlush rfl) ⟨rfl, rfl, le_rfl, rfl⟩ rfl _ false
  | resetFolder metas => exact kept.resetFolder metas (mayFlush rfl).one room safe
  | optimizeIndex =>
    exact kept.fold s.fs rfl (mayFlush rfl).one kept.locked.rel.1.1 le_rfl rfl
      (fun _ _ _ _ there gone => absurd there gone) _ true
  | _ => exact kept.upkeep (Op.body_upkeep rfl s) mayFlush

end Bodies

section Runs

/-- The handle a read or a fresh open answers from. -/
def Event.view (e : Event) : Option FolderState :=
  match e.step, e.answer with
  | .op i .read, .ok _ => e.after.handles[i]?
  | .openFolder, .ok _ => e.after.handles.getLast?
  | _, _ => none

/-- What a read or a fresh open tells a client. -/
def Event.report (e : Event) : Option Report :=
  e.view.map fun fs => { modseq := fs.highestModSeq, uids := fs.toContent.uids }

/-- A client that was told a modseq at or above the floor the event shows finds every UID it knew,
and that the event no longer shows, among those vanished since. -/
def Event.Answers (reports : List Report) (e : Event) : Prop :=
  ∀ now, e.view = some now → ∀ r ∈ reports, now.expungeFloor ≤ r.modseq →
    ∀ uid ∈ r.uids, uid ∉ now.toContent.uids → uid ∈ scanExpungesSince e.after.disk.log r.modseq

/-- A handle that adopts a base has its floor and its UIDs, the base may be rewritten without
reusing a lineage, the counter does not wrap, and the operation keeps every report answerable. -/
def HistorySafe (past : List Event) (sys : Sys) : Step → Prop
  | .op i op =>
    (∀ fs b, sys.handles[i]? = some fs → sys.disk.base = some b →
      Local.Adopts { disk := sys.disk, fs := fs } b →
        b.content.expungeFloor ≤ fs.toContent.expungeFloor ∧ fs.toContent.uids = b.content.uids) ∧
    ∀ s, sys.locked i = some s → op.ModSeqSafe s ∧ op.HistorySafe (past.filterMap report) s
  | .openFolder => True

/-- What a run keeps: one history for all handles that answers every report, and every event has
answered the reports before it. -/
structure HistoryInv (past : List Event) (sys : Sys) : Prop where
  answered : ∃ g, Tracked history sys.disk sys.handles g ∧
    Answered (past.filterMap report) g sys.disk.log
  answers : ∀ before e later, past = before ++ e :: later → e.Answers (before.filterMap report)

variable {sys : Sys} {now : FolderState}

/-- One step over an answered history, shown by a handle that is good for it. -/
theorem HistoryInv.snoc {past : List Event} {step : Step}
    (answers : ∀ before e later, past = before ++ e :: later → e.Answers (before.filterMap report))
    (tracked : Tracked history (sys.step step).2.disk (sys.step step).2.handles g)
    (answered : Answered (past.filterMap report) g (sys.step step).2.disk.log)
    (shown : ∀ now, (sys.event step).view = some now → history.Rel now.toContent g) :
    HistoryInv (past ++ [sys.event step]) (sys.step step).2 := by
  refine ⟨⟨g, tracked, forall_mem_filterMap_concat answered ?_⟩, eachStep_concat.mpr ⟨answers, ?_⟩⟩
  · intro r report above uid known gone
    obtain ⟨now, view, rfl⟩ := Option.map_eq_some_iff.mp report
    rw [((shown now view).1.2 uid).mp known] at gone
    cases gone
  · intro now view r told above uid known absent
    obtain ⟨holds, _, floor⟩ := shown now view
    refine answered r told (floor.trans above) uid known ?_
    exact Bool.eq_false_of_not_eq_true fun there => absent ((holds.2 uid).mpr there)

/-- Only a read that succeeds shows its handle. -/
theorem Event.view_op {i : ℕ} {op : Op} (view : (sys.event (.op i op)).view = some now) :
    op = .read ∧ (∀ e, (sys.step (.op i op)).1 ≠ .error e) ∧
      (sys.step (.op i op)).2.handles[i]? = some now := by
  unfold Event.view at view
  split at view
  · rename_i j _ step answer
    cases step
    refine ⟨rfl, fun e failed => ?_, view⟩
    have answer : (sys.step (.op i .read)).1 = .ok _ := answer
    rw [failed] at answer
    cases answer
  · rename_i step _
    cases step
  · cases view

theorem Event.view_open (view : (sys.event .openFolder).view = some now) :
    (∀ e, (sys.step .openFolder).1 ≠ .error e) ∧ (sys.step .openFolder).2.handles.getLast? = some now := by
  unfold Event.view at view
  split at view
  · rename_i step _
    cases step
  · rename_i answer
    refine ⟨fun e failed => ?_, view⟩
    have answer : (sys.step .openFolder).1 = .ok _ := answer
    rw [failed] at answer
    cases answer
  · cases view

theorem HistoryInv.step (past : List Event) (sys : Sys) (step : Step) (inv : HistoryInv past sys)
    (safe : HistorySafe past sys step) : HistoryInv (past ++ [sys.event step]) (sys.step step).2 := by
  obtain ⟨⟨g, tracked, answered⟩, answers⟩ := inv
  cases step with
  | openFolder =>
    obtain ⟨tracked', disk, opened⟩ := tracked.step_open history_lawful rfl fun _ _ _ => id
    refine .snoc answers tracked' (disk ▸ answered) fun now view => ?_
    obtain ⟨succeeded, shown⟩ := view_open view
    rcases opened with ⟨e, failed⟩ | ⟨fs, last, rel⟩
    · exact absurd failed (succeeded e)
    · cases last.symm.trans shown
      exact rel
  | op i op =>
    have adopts : ∀ fs b, sys.handles[i]? = some fs → sys.disk.base = some b →
        Local.Adopts { disk := sys.disk, fs := fs } b → ∀ g, history.Core fs.toContent g →
          history.Rel b.content g →
            history.Rel { fs.toContent with keywords := b.file.ext.keywords } g := by
      intro fs b handle base adopted g core rel
      obtain ⟨floor, uids⟩ := safe.1 fs b handle base adopted
      refine ⟨⟨?_, fun uid => ?_⟩, core, rel.2.2.trans floor⟩
      · show fs.toContent.uids.Nodup
        rw [uids]
        exact rel.1.1
      · show uid ∈ fs.toContent.uids ↔ _
        rw [uids]
        exact rel.1.2 uid
    rcases tracked.step_op history_lawful rfl adopts op with
      ⟨tracked', disk, idle⟩ | ⟨s, locked, unlocked, caught, result⟩
    · refine .snoc answers tracked' (disk ▸ answered) fun now view => ?_
      obtain ⟨rfl, succeeded, _⟩ := view_op view
      rcases idle with ⟨e, failed⟩ | unlocked
      · exact absurd failed (succeeded e)
      · cases unlocked
    · have disk := (tracked.locked history_lawful rfl adopts locked).1
      have kept : Kept (past.filterMap report) s (sys.handles.eraseIdx i) g :=
        ⟨caught, disk ▸ answered⟩
      obtain ⟨modSeqSafe, historySafe⟩ := safe.2 s locked
      have after : (sys.step (.op i op)).2 = _ := congrArg Prod.snd result
      by_cases reads : op = .read
      · subst reads
        refine .snoc (g := g) answers (after ▸ caught.tracked history_lawful) (after ▸ kept.answered)
          fun now view => ?_
        obtain ⟨_, _, shown⟩ := view_op view
        obtain ⟨fs, handle, _⟩ := Sys.locked_eq_some locked
        rw [after, getElem?_set_self (List.getElem?_eq_some_iff.mp handle).1] at shown
        cases shown
        exact caught.rel
      · obtain ⟨g', tracked', answered'⟩ := kept.body op modSeqSafe historySafe
        exact .snoc (g := g') answers (after ▸ tracked') (after ▸ answered') fun now view =>
          absurd (view_op view).1 reads

/-- In every run whose steps are safe for the history, a client that was told a modseq at or above
the floor a later read or open shows finds every UID it knew and that is gone among those vanished
since that modseq. -/
theorem floor_promises_kept (uidValidity indexID : ℕ) (steps : List Step)
    (guarded : Sys.Guarded HistorySafe [] (Sys.init uidValidity indexID) steps) :
    ∀ before e later, (Sys.init uidValidity indexID).trace steps = before ++ e :: later →
      e.Answers (before.filterMap Event.report) := by
  have start : HistoryInv [] (.init uidValidity indexID) := by
    refine ⟨⟨{ present := fun _ => false, highest := 1, floor := 0 }, ?_, ?_⟩, ?_⟩
    · refine init_tracked history_lawful uidValidity indexID (fun c _ highest none_ _ _ _ => ?_)
        ⟨fun _ => rfl, fun expunges member => by simp at member⟩
      have uids : c.uids = [] := by simp [uids, none_]
      exact ⟨⟨uids ▸ nodup_nil, fun uid => by simp [uids]⟩, highest.ge, Nat.zero_le _⟩
    · exact nofun
    · exact eachStep_nil
  have inv := Sys.run_induction HistoryInv.step start guarded
  rw [nil_append] at inv
  exact inv.answers

/-- The next reload of the handle adopts a base. -/
def Sys.adopts (sys : Sys) (i : ℕ) : Bool :=
  sys.handles[i]?.any fun fs => sys.disk.base.any fun b =>
    decide (Local.Adopts { disk := sys.disk, fs := fs } b)

theorem HistorySafe.of_not_adopts {past : List Event} {i : ℕ} {op : Op} (none_ : sys.adopts i = false)
    (safe : ∀ s, sys.locked i = some s → op.ModSeqSafe s ∧ op.HistorySafe (past.filterMap report) s) :
    HistorySafe past sys (.op i op) := by
  refine ⟨fun fs b handle base adopted => ?_, safe⟩
  simp [Sys.adopts, handle, base, adopted] at none_

/-- The conditions hold in a run in which one handle tells a client of a message and another expunges
it: the next read still has it among those vanished. -/
theorem floor_promises_kept_two_handles :
    (((Sys.init 7 9).run [.openFolder, .op 0 (.appendMessage (plainMessage 1 0) false)]).event
        (.op 1 .read)).report = some ⟨2, [1]⟩ ∧
      ∀ now, (((Sys.init 7 9).run [.openFolder, .op 0 (.appendMessage (plainMessage 1 0) false),
          .op 1 .read, .op 0 (.expungeMessage 1)]).event (.op 1 .read)).view = some now →
        now.expungeFloor ≤ 2 → 1 ∉ now.toContent.uids →
        1 ∈ scanExpungesSince ((Sys.init 7 9).run [.openFolder,
          .op 0 (.appendMessage (plainMessage 1 0) false), .op 1 .read,
          .op 0 (.expungeMessage 1), .op 1 .read]).disk.log 2 := by
  have guarded : Sys.Guarded HistorySafe [] (.init 7 9) [.openFolder,
      .op 0 (.appendMessage (plainMessage 1 0) false), .op 1 .read, .op 0 (.expungeMessage 1),
      .op 1 .read] := by
    refine ⟨trivial, .of_not_adopts (by decide) fun s locked => ⟨⟨nofun, ?_⟩, ?_⟩,
      .of_not_adopts (by decide) fun s locked => ⟨⟨nofun, ?_⟩, trivial⟩,
      .of_not_adopts (by decide) fun s locked => ⟨⟨nofun, ?_⟩, ?_⟩,
      .of_not_adopts (by decide) fun s locked => ⟨⟨nofun, ?_⟩, trivial⟩, trivial⟩
    · revert s; decide
    · revert s; unfold Op.HistorySafe; decide
    · revert s; decide
    · revert s; decide
    · revert s; unfold Op.HistorySafe; decide
    · revert s; decide
  refine ⟨by decide, fun now view floor absent => ?_⟩
  exact floor_promises_kept 7 9 _ guarded
    ((Sys.init 7 9).trace [.openFolder, .op 0 (.appendMessage (plainMessage 1 0) false), .op 1 .read,
      .op 0 (.expungeMessage 1)]) _ [] rfl now view ⟨2, [1]⟩ (by decide) floor 1 (by decide) absent

/-- A reset that drops the only message leaves the counter, and stamps as the floor a modseq that was
told while the message was there. The log it starts knows of no expunge. -/
theorem reset_breaks_floor_promise :
    ((Sys.init 7 9).trace [.op 0 (.appendMessage (plainMessage 1 0) false), .op 0 .read,
        .op 0 (.resetFolder []), .op 0 .read]).filterMap
      (fun e => e.view.map fun fs => (fs.highestModSeq, fs.toContent.uids, fs.expungeFloor,
        scanExpungesSince e.after.disk.log 2)) =
      [(2, [1], 0, []), (2, [], 2, [])] := by
  decide

end Runs

end Yarilo.FileIndex

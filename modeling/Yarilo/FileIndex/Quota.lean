import Yarilo.FileIndex.Vanished

/-! # The quota aggregate

A handle keeps the total size and the number of its messages next to the records. Appends and
expunges move the two along, a rewrite of the base counts them again, and a reload either takes them
from the base or keeps them, and checks them against two numbers only: the message count and the
highest UID. They are exact as long as that check notices every message the log adds, and a base is
adopted only with a log that adds none.
-/

namespace Yarilo.FileIndex

open Library MailIndex Local FolderState Replay List Rebuild

variable {records records' : List Record} {v : HdrVsize} {fs : FolderState} {s' : Replay}
  {txs : List TxRecord} {s : Local} {disk : Disk} {group : Group}

section Weight

/-- What `FolderVSize` answers from the handle: bytes and messages. -/
def FolderState.folderVSize (fs : FolderState) : ℕ × ℕ := (fs.vsize.vsize, fs.vsize.messageCount)

/-- What a message counts for: its size, or what the sidecar says where the record has none. -/
def FolderState.charge (fs : FolderState) (r : Record) : ℕ :=
  if r.vsize = 0 then mapGet 0 fs.sizes r.uid else r.vsize

/-- The sum over the handle's messages, and their number. -/
def FolderState.tally (fs : FolderState) : ℕ × ℕ :=
  ((fs.file.records.map fs.charge).sum, fs.file.records.length)

/-- A size that fits its field and is not the mark of a missing one. -/
def Sized (n : ℕ) : Prop := 0 < n ∧ n < 2 ^ 32

instance (n : ℕ) : Decidable (Sized n) := inferInstanceAs (Decidable (_ ∧ _))

def weight (records : List Record) : ℕ := (records.map (·.vsize)).sum

/-- The aggregate counts exactly these records. -/
structure HdrVsize.Weighs (v : HdrVsize) (records : List Record) : Prop where
  bytes : v.vsize = weight records
  messages : v.messageCount = records.length

/-- Records whose sizes fit, and few enough for the counters. -/
structure Countable (records : List Record) : Prop where
  sized : ∀ r ∈ records, Sized r.vsize
  few : records.length < 2 ^ 32

theorem weight_le (sized : ∀ r ∈ records, Sized r.vsize) :
    weight records ≤ records.length * (2 ^ 32 - 1) := by
  induction records with
  | nil => simp [weight]
  | cons r records ih =>
    have first := (sized r (.head _)).2
    have rest := ih fun r member => sized r (.tail _ member)
    simp only [weight, map_cons, sum_cons, length_cons] at rest ⊢
    omega

theorem Countable.weight_lt (countable : Countable records) : weight records < 2 ^ 64 := by
  have bound := weight_le countable.sized
  have few := countable.few
  omega

theorem countable_of_sublist {sizes : List ℕ} (sublist : (records.map (·.vsize)).Sublist sizes)
    (sized : ∀ n ∈ sizes, Sized n) (few : sizes.length < 2 ^ 32) : Countable records := by
  refine ⟨fun r member => sized _ (sublist.subset (mem_map_of_mem member)), ?_⟩
  have length := sublist.length_le
  rw [length_map] at length
  omega

/-- Records whose sizes are those of others. -/
theorem Countable.congr (countable : Countable records)
    (same : records'.map (·.vsize) = records.map (·.vsize)) : Countable records' :=
  countable_of_sublist (same ▸ .refl _ : _ <+ records.map (·.vsize)) (by simpa using countable.sized)
    (by simpa using countable.few)

theorem HdrVsize.Weighs.perm (weighs : v.Weighs records)
    (perm : (records'.map (·.vsize)).Perm (records.map (·.vsize))) : v.Weighs records' := by
  have length : records'.length = records.length := by simpa using perm.length_eq
  exact ⟨weighs.bytes.trans perm.sum_nat.symm, weighs.messages.trans length.symm⟩

theorem Countable.charges (countable : Countable fs.file.records) :
    fs.file.records.map fs.charge = fs.file.records.map (·.vsize) := by
  apply map_congr_left
  intro r member
  rw [FolderState.charge, if_neg (Nat.ne_of_gt (countable.sized r member).1)]

theorem recalcVsize_weighs (countable : Countable fs.file.records) :
    fs.recalcVsize.vsize.Weighs fs.file.records := by
  constructor
  · show u64 (fs.file.records.map fs.charge).sum = _
    rw [countable.charges]
    exact Nat.mod_eq_of_lt countable.weight_lt
  · exact Nat.mod_eq_of_lt countable.few

/-- A handle whose aggregate is exact. -/
structure FolderState.Weighed (fs : FolderState) : Prop where
  countable : Countable fs.file.records
  weighs : fs.vsize.Weighs fs.file.records

theorem FolderState.Weighed.exact (weighed : fs.Weighed) : fs.folderVSize = fs.tally := by
  rw [FolderState.folderVSize, FolderState.tally, weighed.countable.charges, weighed.weighs.bytes,
    weighed.weighs.messages]
  rfl

end Weight

section Replay

def Replay.sizes (s : Replay) : List ℕ := s.file.records.map (·.vsize)

def broughtBy (txs : List TxRecord) : List Record := txs.flatMap TxRecord.brought

variable {tx : TxRecord}

theorem removeFirst_sublist (uid : ℕ) (records : List Record) :
    (removeFirst uid records).Sublist records := by
  induction records with
  | nil => exact .refl _
  | cons r rest ih =>
    unfold removeFirst
    split
    · exact sublist_cons_self ..
    · exact ih.cons_cons r

theorem map_vsize_map {change : Record → Record} (keeps : ∀ r, (change r).vsize = r.vsize)
    (records : List Record) : (records.map change).map (·.vsize) = records.map (·.vsize) := by
  rw [map_map]
  exact map_congr_left fun r _ => keeps r

/-- A loop each round of which keeps what is there or drops some of it, and may add its own. -/
theorem foldl_sublist {σ β : Type} (view : σ → List ℕ) (f : σ → β → σ) (brings : β → List ℕ)
    (step : ∀ s b, (view (f s b)).Sublist (view s ++ brings b)) (l : List β) (s : σ) :
    (view (l.foldl f s)).Sublist (view s ++ l.flatMap brings) := by
  induction l generalizing s with
  | nil => simp
  | cons b l ih =>
    rw [foldl_cons, flatMap_cons, ← append_assoc]
    exact (ih (f s b)).trans ((step s b).append_right _)

theorem applyExpunge_sizes (s : Replay) (e : Expunge) : (s.applyExpunge e).sizes.Sublist (s.sizes ++ []) := by
  rw [append_nil]
  unfold applyExpunge
  dsimp only
  split
  · exact .refl _
  · exact (removeFirst_sublist e.uid _).map _

theorem applyAppend_sizes (s : Replay) (r : Record) :
    (s.applyAppend r).sizes.Sublist (s.sizes ++ [r.vsize]) := by
  unfold applyAppend
  split
  · exact sublist_append_left ..
  · simp [Replay.sizes, Replay.mapFile, Record.stored]

theorem applyTx_sizes {s : Replay} (success : applyTx s tx = some s') :
    s'.sizes.Sublist (s.sizes ++ tx.brought.map (·.vsize)) := by
  have nothing : ∀ {l : List ℕ}, l = s.sizes → l.Sublist (s.sizes ++ []) := by
    rintro l rfl
    rw [append_nil]
  cases tx with
  | modseqUpdate updates =>
    cases success
    apply nothing
    refine foldl_frame Replay.sizes _ (fun s u => ?_) _ _
    exact map_view_updateFirst (fun r => { r with modseq := u.2 }) (fun _ => rfl) s.file.records
  | flagUpdate updates =>
    cases success
    apply nothing
    refine foldl_frame Replay.sizes _ (fun _ u => ?_) _ _
    exact map_vsize_map (fun r => by split <;> rfl) _
  | expungeGUID expunges =>
    cases success
    have dropped := foldl_sublist sizes applyExpunge (fun _ => []) applyExpunge_sizes
      expunges s
    rwa [flatMap_eq_nil_iff.mpr fun _ _ => rfl] at dropped
  | headerUpdate offset value =>
    cases success
    exact nothing rfl
  | append records =>
    cases success
    have added := foldl_sublist sizes applyAppend (fun r => [r.vsize])
      applyAppend_sizes records s
    rwa [← map_eq_flatMap] at added
  | keywordUpdate modify name uid1 uid2 =>
    obtain ⟨_, _, rfl⟩ := Option.map_eq_some_iff.mp success
    apply nothing
    exact map_vsize_map (fun r => by split <;> rfl) _
  | keywordReset uid1 uid2 =>
    cases success
    apply nothing
    exact map_vsize_map (fun r => by split <;> rfl) _

/-- A replay keeps sizes, drops some, and adds some of those the log brings. -/
theorem applyTxs_sizes {s : Replay} (applied : applyTxs s txs = (s', true)) :
    s'.sizes.Sublist (s.sizes ++ (broughtBy txs).map (·.vsize)) := by
  induction txs generalizing s with
  | nil =>
    cases applied
    simp [broughtBy]
  | cons tx txs ih =>
    obtain ⟨middle, first, applied⟩ := applyTxs_cons applied
    refine (ih applied).trans ?_
    have both : s.sizes ++ (broughtBy (tx :: txs)).map (·.vsize) =
        (s.sizes ++ tx.brought.map (·.vsize)) ++ (broughtBy txs).map (·.vsize) := by
      simp [broughtBy]
    rw [both]
    exact (applyTx_sizes first).append_right _

/-- What a log record does to the size of the message with this UID. -/
def TxRecord.resize (uid : ℕ) (size : Option ℕ) : TxRecord → Option ℕ
  | .expungeGUID expunges => expunges.foldl (fun m e => if e.uid = uid then none else m) size
  | .append records =>
    records.foldl (fun m r => if r.uid = uid then some (m.getD r.vsize) else m) size
  | _ => size

def resizeAll (uid : ℕ) (txs : List TxRecord) (size : Option ℕ) : Option ℕ :=
  txs.foldl (TxRecord.resize uid) size

/-- The log's appends and expunges, taken in order, leave these messages and their sizes as they
are. -/
def Repeats (records : List Record) (txs : List TxRecord) : Prop := (records.map (·.uid)).Nodup ∧
    ∀ uid, resizeAll uid txs (look (·.vsize) records uid) = look (·.vsize) records uid

theorem TxRecord.vsize_act (uid : ℕ) (m : Option Record) (tx : TxRecord) :
    (tx.act uid m).map (·.vsize) = tx.resize uid (m.map (·.vsize)) := by
  cases tx with
  | modseqUpdate updates => exact foldl_frame _ _ (fun m _ => by split <;> cases m <;> rfl) m updates
  | flagUpdate updates => exact foldl_frame _ _ (fun m _ => by split <;> cases m <;> rfl) m updates
  | expungeGUID expunges => exact foldl_follow _ _ _ (fun m _ => by split <;> rfl) m expunges
  | append records => exact foldl_follow _ _ _ (fun m _ => by split <;> cases m <;> rfl) m records
  | headerUpdate offset value => rfl
  | keywordUpdate modify name uid1 uid2 => rfl
  | keywordReset uid1 uid2 => rfl

theorem vsize_actAll (uid : ℕ) (txs : List TxRecord) (m : Option Record) :
    (actAll uid txs m).map (·.vsize) = resizeAll uid txs (m.map (·.vsize)) :=
  foldl_follow _ _ _ (fun m tx => tx.vsize_act uid m) m txs

theorem vsize_message (records : List Record) (uid : ℕ) :
    (message records uid).map (·.vsize) = look (·.vsize) records uid := by
  rw [message, look, Option.map_map]
  rfl

/-- A replay that repeats what is there leaves the sizes. -/
theorem Repeats.sizes_perm {s : Replay} (repeats : Repeats s.file.records txs)
    (applied : applyTxs s txs = (s', true)) : s'.sizes.Perm s.sizes := by
  obtain ⟨nodup', shows⟩ := applyTxs_messages repeats.1 applied
  refine look_perm (·.vsize) repeats.1 nodup' fun uid => ?_
  rw [← vsize_message s'.file.records, shows, vsize_actAll, vsize_message]
  exact repeats.2 uid

end Replay

section Check

/-- The UIDs these log records append are above `highest`, and the last NEXTUID update among them is
above them. -/
def Ascending (highest : ℕ) (txs : List TxRecord) : Prop :=
  ∀ uid, (∃ tx ∈ txs, tx.Appends uid) → highest < uid ∧ uid < txs.foldl nextUIDStep 0

/-- The log records, taken from where an aggregate `highest` was made, repeat what is there up to some
point, and behind it add only messages the check on the highest UID notices. -/
def Noticed (highest : ℕ) (records : List Record) (txs : List TxRecord) : Prop :=
  ∃ pre post, txs = pre ++ post ∧ (pre = [] ∨ Repeats records pre) ∧ Ascending highest post

/-- Without a NEXTUID update the counter stays, with one its start does not matter. -/
theorem foldl_nextUIDStep (n m : ℕ) (txs : List TxRecord) :
    txs.foldl nextUIDStep n = txs.foldl nextUIDStep m ∨ txs.foldl nextUIDStep m = m := by
  induction txs generalizing n m with
  | nil => exact .inr rfl
  | cons tx txs ih =>
    rw [foldl_cons, foldl_cons]
    have first : nextUIDStep n tx = nextUIDStep m tx ∨ nextUIDStep n tx = n ∧ nextUIDStep m tx = m := by
      unfold nextUIDStep
      split
      · split
        · exact .inl rfl
        · exact .inr ⟨rfl, rfl⟩
      · exact .inr ⟨rfl, rfl⟩
    rcases first with equal | ⟨left, right⟩
    · exact .inl (by rw [equal])
    · rw [left, right]
      exact ih n m

theorem broughtBy_eq_nil (none_ : ∀ uid, ¬∃ tx ∈ txs, tx.Appends uid) : broughtBy txs = [] := by
  refine flatMap_eq_nil_iff.mpr fun tx member => ?_
  cases tx with
  | append records =>
    cases records with
    | nil => rfl
    | cons r records =>
      exact absurd ⟨_, member, r, .head _, rfl⟩ (none_ r.uid)
  | _ => rfl

theorem applyTxs_split {s : Replay} {more : List TxRecord} (applied : applyTxs s (txs ++ more) = (s', true)) :
    ∃ middle, applyTxs s txs = (middle, true) ∧ applyTxs middle more = (s', true) := by
  rw [applyTxs_append] at applied
  split at applied
  · exact ⟨_, Prod.ext rfl ‹_›, applied⟩
  · exact absurd (congrArg Prod.snd applied) ‹_›

/-- An aggregate that passes the check after a replay still counts the records. -/
theorem weighs_of_noticed {s : Replay} (weighs : v.Weighs s.file.records)
    (noticed : Noticed v.highestUID s.file.records txs) (applied : applyTxs s txs = (s', true))
    (messages : v.messageCount = s'.file.records.length) (next : u32 (v.highestUID + 1) = s'.nextUID) :
    v.Weighs s'.file.records := by
  obtain ⟨pre, post, rfl, repeats, ascending⟩ := noticed
  obtain ⟨middle, first, second⟩ := applyTxs_split applied
  have kept : middle.sizes.Perm s.sizes := by
    rcases repeats with rfl | repeats
    · cases first
      exact .refl _
    · exact repeats.sizes_perm first
  have quiet : ∀ uid, ¬∃ tx ∈ post, tx.Appends uid := by
    intro uid appends
    obtain ⟨above, below⟩ := ascending uid appends
    have follows := applyTxs_follow nextUID applyTx_nextUID second
    have small : u32 (v.highestUID + 1) ≤ v.highestUID + 1 := Nat.mod_le ..
    rcases foldl_nextUIDStep middle.nextUID 0 post with same | unset <;> omega
  have sublist := applyTxs_sizes second
  rw [broughtBy_eq_nil quiet, map_nil, append_nil] at sublist
  have lengths : s'.sizes.length = middle.sizes.length := by
    have counted := weighs.messages
    have length : middle.sizes.length = s.sizes.length := kept.length_eq
    simp only [Replay.sizes, length_map] at length ⊢
    omega
  have perm : s'.sizes.Perm s.sizes := sublist.eq_of_length lengths ▸ kept
  exact weighs.perm perm

end Check

section Files

/-- The base counts its records exactly, and every record the log brings has a size. -/
structure Disk.Weighed (disk : Disk) : Prop where
  countable : ∀ b, disk.base = some b → Countable b.file.records
  weighs : ∀ b, disk.base = some b → b.file.ext.hdrVsize.Weighs b.file.records
  log : ∀ r ∈ broughtBy (disk.tail 0), Sized r.vsize

/-- The files and the handle of an operation. -/
structure Local.Weighed (s : Local) : Prop where
  disk : s.disk.Weighed
  handle : s.fs.Weighed

theorem Disk.Weighed.tail (weighed : disk.Weighed) (off : ℕ) :
    ∀ r ∈ broughtBy (disk.tail off), Sized r.vsize := by
  intro r member
  obtain ⟨tx, late, brings⟩ := mem_flatMap.mp member
  obtain ⟨group, from_, inside⟩ := mem_flatten.mp late
  have whole : group ∈ groupsFrom 0 logHeaderSize ((disk.log.map (·.groups)).getD []) := by
    rw [groupsFrom_zero]
    exact (groupsFrom_suffix ..).subset from_
  exact weighed.log r (mem_flatMap.mpr ⟨tx, mem_flatten.mpr ⟨group, whole, inside⟩, brings⟩)

/-- Only the base and the log matter. -/
theorem Disk.Weighed.congr {disk' : Disk} (weighed : disk.Weighed) (base : disk'.base = disk.base)
    (log : disk'.log = disk.log) : disk'.Weighed := by
  refine ⟨base ▸ weighed.countable, base ▸ weighed.weighs, ?_⟩
  have tail : disk'.tail 0 = disk.tail 0 := by rw [Disk.tail, Disk.tail, log]
  exact tail ▸ weighed.log

/-- An edit that leaves sizes and aggregate alone. -/
theorem Local.Weighed.touch (weighed : s.Weighed) (fs : FolderState)
    (sizes : fs.file.records.map (·.vsize) = s.fs.file.records.map (·.vsize))
    (vsize : fs.vsize = s.fs.vsize) : Local.Weighed { s with fs := fs } :=
  ⟨weighed.disk, weighed.handle.countable.congr sizes, vsize ▸ weighed.handle.weighs.perm (.of_eq sizes)⟩

/-- A base just written, next to a log that was there. -/
theorem Local.flush_weighed (countable : Countable s.fs.file.records)
    (log : ∀ r ∈ broughtBy (s.disk.tail 0), Sized r.vsize) (wholeNames : Bool) :
    (s.flush wholeNames).Weighed := by
  have counted := recalcVsize_weighs countable
  have stored : (s.fs.file.records.map Record.stored).map (·.vsize) =
      s.fs.file.records.map (·.vsize) := map_vsize_map (fun r => show r.stored.vsize = _ from rfl) _
  have disk : (s.flush false).disk.Weighed := by
    refine ⟨fun b base => ?_, fun b base => ?_, log⟩
    · cases base
      exact countable.congr stored
    · cases base
      exact counted.perm (.of_eq stored)
  cases wholeNames with
  | false => exact ⟨disk, countable, counted⟩
  | true => exact ⟨disk.congr rfl rfl, countable, counted⟩

/-- An empty log in the place of the old one. -/
theorem Disk.Weighed.empty (weighed : disk.Weighed) {log : LogFile} (empty : log.groups = [])
    (nextIdent : ℕ) : Disk.Weighed { disk with log := some log, nextIdent := nextIdent } := by
  refine ⟨weighed.countable, weighed.weighs, ?_⟩
  have tail : Disk.tail { disk with log := some log, nextIdent := nextIdent } 0 = [] := by
    simp [Disk.tail, empty, groupsFrom]
  rw [tail]
  exact forall_mem_nil _

theorem Local.Weighed.truncateLog (weighed : s.Weighed) : s.truncateLog.Weighed :=
  ⟨weighed.disk.empty rfl _, weighed.handle.countable, weighed.handle.weighs⟩

theorem Local.compact_weighed (countable : Countable s.fs.file.records)
    (log : ∀ r ∈ broughtBy (s.disk.tail 0), Sized r.vsize) (wholeNames : Bool) :
    (s.compact wholeNames).Weighed :=
  (Local.flush_weighed (s := s.mapFs (·.stampExpungeFloor)) countable log wholeNames).truncateLog

theorem Local.Weighed.ensureLogStub (weighed : s.Weighed) : s.ensureLogStub.Weighed := by
  unfold Local.ensureLogStub
  split
  · exact weighed
  · exact ⟨weighed.disk.empty rfl _, weighed.handle⟩

theorem Local.Weighed.appendName (weighed : s.Weighed) (uid : ℕ) (name : Bytes) (size : ℕ) :
    (s.appendName uid name size).Weighed := by
  unfold Local.appendName
  split
  · exact weighed
  split
  · exact ⟨weighed.disk.congr rfl rfl, weighed.handle⟩
  · split <;> exact ⟨weighed.disk.congr rfl rfl, weighed.handle.countable, weighed.handle.weighs⟩

/-- The log with one more group, written where a reader finds it or not. -/
theorem Disk.Weighed.append (weighed : disk.Weighed) (sized : ∀ r ∈ broughtBy group, Sized r.vsize)
    (here : LogFile → Prop) [DecidablePred here] :
    Disk.Weighed
      { disk with
        log := disk.log.map fun log =>
          if here log then { log with groups := log.groups ++ [group] } else log } := by
  cases held : disk.log with
  | none => exact weighed.congr rfl held.symm
  | some log =>
    rw [Option.map_some]
    split
    · refine ⟨weighed.countable, weighed.weighs, fun r member => ?_⟩
      have old : broughtBy (disk.tail 0) = broughtBy log.groups.flatten := by
        simp [Disk.tail, held, groupsFrom_zero]
      have brought : r ∈ broughtBy log.groups.flatten ∨ r ∈ broughtBy group := by
        simpa [Disk.tail, groupsFrom_zero, broughtBy] using member
      exact brought.elim (fun member => weighed.log r (old ▸ member)) (sized r)
    · exact weighed.congr rfl held.symm

theorem Local.Weighed.appendMutLog (weighed : s.Weighed) (sized : ∀ r ∈ broughtBy group, Sized r.vsize) :
    (s.appendMutLog group).Weighed := by
  have append {disk : Disk} (weighed : disk.Weighed) (fd : Option ℕ) :=
    weighed.append sized fun log => fd = some log.ident
  unfold Local.appendMutLog
  split
  · exact ⟨append weighed.disk _, weighed.handle.countable, weighed.handle.weighs⟩
  split
  · exact ⟨append weighed.disk _, weighed.handle.countable, weighed.handle.weighs⟩
  · exact ⟨append (weighed.disk.empty rfl _) _, weighed.handle.countable, weighed.handle.weighs⟩

end Files

section Reload

/-- The registry takes every name these log records bring. -/
def Takes (registry : Registry) (txs : List TxRecord) : Prop := (txs.foldlM keywordStep registry).isSome

/-- These log records can be replayed over these records, and leave room for one message more. -/
structure Fits (records : List Record) (registry : Registry) (txs : List TxRecord) : Prop where
  takes : Takes registry txs
  few : records.length + (broughtBy txs).length + 1 < 2 ^ 32

/-- What a reload needs. A base is adopted only by a handle with the same sizes, and with a log that
adds nothing to them; otherwise the check notices every message the replayed log records add. -/
def Local.ReloadSafe (s : Local) : Prop := ∀ b, s.disk.base = some b →
    if s.Adopts b then
      s.fs.file.records.map (·.vsize) = b.file.records.map (·.vsize) ∧
        Repeats s.fs.file.records (s.disk.tail 0) ∧
        Fits s.fs.file.records b.file.ext.keywords (s.disk.tail 0)
    else if s.logReplaced = true ∨ s.fs.baseIdent ≠ b.ident then
      let txs := s.disk.tail ((replayStart (readLineage b.file) (logLineage s.disk.log)).getD 0)
      Noticed b.file.ext.hdrVsize.highestUID b.file.records txs ∧
        Fits b.file.records b.file.ext.keywords txs
    else
      let txs := s.disk.tail s.fs.logSize
      Noticed s.fs.vsize.highestUID s.fs.file.records txs ∧ Fits s.fs.file.records s.fs.keywords txs

/-- A reloaded handle: exact, and with room for one message more. -/
structure Local.Ready (s : Local) : Prop extends Local.Weighed s where
  room : s.fs.file.records.length + 1 < 2 ^ 32

variable {c : Content} {b : BaseFile}

theorem replay_countable {r : Replay} (countable : Countable c.file.records)
    (sized : ∀ r ∈ broughtBy txs, Sized r.vsize)
    (few : c.file.records.length + (broughtBy txs).length + 1 < 2 ^ 32)
    (applied : applyTxs c.startReplay txs = (r, true)) :
    Countable r.file.records ∧ r.file.records.length + 1 < 2 ^ 32 := by
  have sublist : (r.file.records.map (·.vsize)).Sublist
      (c.file.records.map (·.vsize) ++ (broughtBy txs).map (·.vsize)) := applyTxs_sizes applied
  have length := sublist.length_le
  rw [length_append, length_map, length_map, length_map] at length
  refine ⟨countable_of_sublist sublist (fun n member => ?_) ?_, by omega⟩
  · rcases mem_append.mp member with old | new
    · obtain ⟨record, held, rfl⟩ := mem_map.mp old
      exact countable.sized record held
    · obtain ⟨record, brought, rfl⟩ := mem_map.mp new
      exact sized record brought
  · rw [length_append, length_map, length_map]
    omega

/-- The check after a replay keeps the aggregate only where it still counts the records. -/
theorem ensureVsize_replayed {r : Replay} (weighs : fs.vsize.Weighs c.file.records)
    (noticed : Noticed fs.vsize.highestUID c.file.records txs)
    (applied : applyTxs c.startReplay txs = (r, true)) (file : fs.file = r.finish.file)
    (countable : Countable fs.file.records) : fs.ensureVsize.Weighed := by
  unfold FolderState.ensureVsize
  split
  · rename_i passes
    refine ⟨countable, ?_⟩
    have counted : fs.file.header.messagesCount = r.file.records.length := by
      rw [file]
      rw [file] at countable
      exact Nat.mod_eq_of_lt countable.few
    have next : fs.file.header.nextUID = r.nextUID := by rw [file]; rfl
    rw [counted, next] at passes
    rw [file]
    exact weighs_of_noticed weighs noticed applied passes.1 passes.2
  · exact ⟨countable, recalcVsize_weighs countable⟩

theorem FolderState.Weighed.ensureVsize (weighed : fs.Weighed) : fs.ensureVsize.Weighed := by
  unfold FolderState.ensureVsize
  split
  · exact weighed
  · exact ⟨weighed.countable, recalcVsize_weighs weighed.countable⟩

section

variable (weighed : s.Weighed)

include weighed

/-- Folding in the tail leaves a handle that is ready, or one whose records are those of the replay
under the old aggregate. -/
theorem applyLogTail_weighed (fits : Fits s.fs.file.records s.fs.keywords (s.disk.tail s.fs.logSize)) :
    ∃ s', s.applyLogTail = (.ok (), s') ∧ (s'.Ready ∨
      s'.disk.Weighed ∧ Countable s'.fs.file.records ∧ s'.fs.file.records.length + 1 < 2 ^ 32 ∧
        s'.fs.vsize = s.fs.vsize ∧ ∃ r, s'.fs.toContent = r.finish ∧
          applyTxs s.fs.toContent.startReplay (s.disk.tail s.fs.logSize) = (r, true)) := by
  have takes : (applyTxs s.fs.toContent.startReplay (s.disk.tail s.fs.logSize)).2 = true :=
    (applyTxs_accepted ..).trans fits.takes
  obtain ⟨r, applied⟩ : ∃ r, applyTxs s.fs.toContent.startReplay _ = (r, true) := ⟨_, Prod.ext rfl takes⟩
  have room : s.fs.file.records.length + 1 < 2 ^ 32 := by
    have few := fits.few
    omega
  rcases s.applyLogTail_cases with ⟨_, result⟩ | ⟨l, _, log, _, rfl, ⟨_, result⟩ | ⟨_, c, _, _, found⟩⟩
  · exact ⟨s, result, .inl ⟨weighed, room⟩⟩
  · have flushed := flush_weighed (s := s.mapFs (·.stampExpungeFloor)) weighed.handle.countable
      weighed.disk.log false
    refine ⟨_, result, .inl ⟨⟨flushed.truncateLog.disk, ?_⟩, room⟩⟩
    exact ⟨flushed.handle.countable, flushed.handle.weighs⟩
  · have tail : s.disk.tail s.fs.logSize = (groupsFrom s.fs.logSize logHeaderSize l.groups).flatten := by
      simp [Disk.tail, log]
    rw [Content.replay, ← tail, applied] at found
    rcases found with ⟨replayed, result⟩ | ⟨replayed, _⟩ <;> cases replayed
    obtain ⟨countable, room'⟩ := replay_countable weighed.handle.countable (weighed.disk.tail _)
      fits.few applied
    exact ⟨_, result, .inr ⟨weighed.disk, countable, room', rfl, r, rfl, applied⟩⟩

theorem ensureVsize_ready
    (noticed : Noticed s.fs.vsize.highestUID s.fs.file.records (s.disk.tail s.fs.logSize))
    (fits : Fits s.fs.file.records s.fs.keywords (s.disk.tail s.fs.logSize)) :
    ∃ s', Local.ensureVsize s.applyLogTail = (.ok (), s') ∧ s'.Ready := by
  obtain ⟨s', result, outcome⟩ := applyLogTail_weighed weighed fits
  rw [result]
  refine ⟨s'.mapFs (·.ensureVsize), rfl, ?_⟩
  have records : s'.fs.ensureVsize.file.records = s'.fs.file.records := by
    rw [(ensureVsize_book s'.fs).2]
  rcases outcome with ready | ⟨disk, countable, room, same, r, content, applied⟩
  · refine ⟨⟨ready.disk, ready.handle.ensureVsize⟩, ?_⟩
    show s'.fs.ensureVsize.file.records.length + 1 < 2 ^ 32
    rw [records]
    exact ready.room
  · refine ⟨⟨disk, ?_⟩, ?_⟩
    · exact ensureVsize_replayed (same ▸ weighed.handle.weighs) (same ▸ noticed) applied
        (congrArg Content.file content) countable
    · show s'.fs.ensureVsize.file.records.length + 1 < 2 ^ 32
      rw [records]
      exact room

/-- A handle that adopts keeps its records, and takes an aggregate that counts them. -/
theorem adopt_ready (base : s.disk.base = some b)
    (sizes : s.fs.file.records.map (·.vsize) = b.file.records.map (·.vsize))
    (repeats : Repeats s.fs.file.records (s.disk.tail 0))
    (fits : Fits s.fs.file.records b.file.ext.keywords (s.disk.tail 0)) :
    ∃ s', s.adopt b = (.ok (), s') ∧ s'.Ready := by
  have counts : b.file.ext.hdrVsize.Weighs s.fs.file.records := 
    (weighed.disk.weighs b base).perm (.of_eq sizes)
  have good : (s.adopting b).Weighed := ⟨weighed.disk, weighed.handle.countable, counts⟩
  obtain ⟨s', result, outcome⟩ := applyLogTail_weighed good fits
  refine ⟨s', result, outcome.elim id ?_⟩
  rintro ⟨disk, countable, room, same, r, content, applied⟩
  have file : s'.fs.file = r.finish.file := congrArg Content.file content
  refine ⟨⟨disk, countable, ?_⟩, room⟩
  rw [same, file]
  exact counts.perm (Repeats.sizes_perm (s := (s.adopting b).fs.toContent.startReplay) repeats applied)

theorem reload_ready (base : s.disk.base = some b) (safe : s.ReloadSafe) :
    ∃ s', s.reload = (.ok (), s') ∧ s'.Ready := by
  have safe := safe b base
  rcases reload_cases base with ⟨kept, same, _, result⟩ | ⟨adopts, result⟩ |
    ⟨moved, rereads, t, closed, _, result⟩ | ⟨kept, same, result⟩
  · rw [if_neg (fun adopts => adopts.2.1 same), if_neg (by simp [kept, same])] at safe
    refine ⟨s, result, weighed, ?_⟩
    have few := safe.2.few
    omega
  · rw [if_pos adopts] at safe
    rw [result]
    exact adopt_ready weighed base safe.1 safe.2.1 safe.2.2
  · rw [if_neg rereads, if_pos moved] at safe
    have disk : t.disk = s.disk := by rcases closed with rfl | rfl <;> rfl
    rw [← disk] at safe base
    rw [result]
    refine ensureVsize_ready (s := t.mapFs _) ⟨disk ▸ weighed.disk, ?_, ?_⟩ safe.1 safe.2
    · exact (disk ▸ weighed.disk).countable b base
    · exact (disk ▸ weighed.disk).weighs b base
  · rw [if_neg (fun adopts => adopts.2.1 same), if_neg (by simp [kept, same])] at safe
    rw [result]
    exact ensureVsize_ready weighed safe.1 safe.2

/-- A reload leaves everything exact, and what it found ready. -/
theorem reload_weighed (safe : s.ReloadSafe) :
    s.reload.2.Weighed ∧ (s.reload.1 = .ok () → s.reload.2.Ready) := by
  cases base : s.disk.base with
  | some b =>
    obtain ⟨s', result, ready⟩ := reload_ready weighed base safe
    rw [result]
    exact ⟨ready.toWeighed, fun _ => ready⟩
  | none =>
    obtain ⟨t, closed, result⟩ := reload_missing base
    rw [result]
    refine ⟨?_, nofun⟩
    rcases closed with rfl | rfl
    · exact weighed
    · exact weighed.touch _ rfl rfl

end

end Reload

section Bodies

/-- A group without an append. -/
theorem Local.Weighed.journal (weighed : s.Weighed) (quiet : ∀ tx ∈ group, tx.brought = []) :
    (s.appendMutLog group).Weighed := by
  apply weighed.appendMutLog
  have nothing : broughtBy group = [] := flatMap_eq_nil_iff.mpr quiet
  rw [nothing]
  nofun

variable {r : Record}

theorem FolderState.Weighed.addRecord (weighed : fs.Weighed) (m : MessageMeta)
    (size : r.vsize = m.rfc822Size) (sized : Sized m.rfc822Size)
    (room : fs.file.records.length + 1 < 2 ^ 32) : (fs.addRecord m r).Weighed := by
  have countable : Countable (fs.file.records ++ [r]) := by
    refine ⟨forall_mem_concat weighed.countable.sized (size ▸ sized), ?_⟩
    rw [length_append, length_singleton]
    exact room
  have heavier : weight (fs.file.records ++ [r]) = weight fs.file.records + m.rfc822Size := by
    simp [weight, size]
  refine ⟨countable, ?_, ?_⟩
  · show u64 (fs.vsize.vsize + m.rfc822Size) = weight (fs.file.records ++ [r])
    rw [weighed.weighs.bytes, ← heavier]
    exact Nat.mod_eq_of_lt countable.weight_lt
  · show u32 (fs.vsize.messageCount + 1) = (fs.file.records ++ [r]).length
    rw [weighed.weighs.messages, length_append, length_singleton]
    exact Nat.mod_eq_of_lt room

theorem removeFirst_weight (found : records.find? (·.uid = r.uid) = some r) :
    weight records = r.vsize + weight (removeFirst r.uid records) ∧
      records.length = (removeFirst r.uid records).length + 1 := by
  induction records with
  | nil => cases found
  | cons first rest ih =>
    rw [find?_cons] at found
    unfold removeFirst
    by_cases same : first.uid = r.uid
    · rw [if_pos same]
      obtain rfl : first = r := by simpa [same] using found
      simp [weight]
    rw [if_neg same]
    have later : rest.find? (·.uid = r.uid) = some r := by simpa [same] using found
    obtain ⟨bytes, messages⟩ := ih later
    simp only [weight, map_cons, sum_cons, length_cons] at bytes ⊢
    omega

theorem FolderState.Weighed.removeRecord (weighed : fs.Weighed) (found : fs.target r.uid = some r) :
    (fs.removeRecord r).Weighed := by
  obtain ⟨bytes, messages⟩ := removeFirst_weight found
  have sized := weighed.countable.sized r (mem_of_find?_eq_some found)
  have few := weighed.countable.few
  have sublist := removeFirst_sublist r.uid fs.file.records
  refine ⟨⟨fun other member => weighed.countable.sized other (sublist.subset member), ?_⟩, ?_, ?_⟩
  · show (removeFirst r.uid fs.file.records).length < 2 ^ 32
    omega
  · show fs.vsize.vsize - (if r.vsize = 0 then mapGet 0 fs.sizes r.uid else r.vsize) =
      weight (removeFirst r.uid fs.file.records)
    rw [if_neg (Nat.ne_of_gt sized.1), weighed.weighs.bytes]
    omega
  · show fs.vsize.messageCount - 1 = (removeFirst r.uid fs.file.records).length
    rw [weighed.weighs.messages]
    omega

theorem Local.Weighed.sturdy : Sturdy Local.Weighed where
  touch weighed alike := weighed.touch _ alike.sizes alike.vsize
  journal weighed quiet := weighed.journal quiet
  flush wholeNames weighed := flush_weighed weighed.handle.countable weighed.disk.log wholeNames
  compact wholeNames weighed := compact_weighed weighed.handle.countable weighed.disk.log wholeNames

end Bodies

section Runs

/-- What an operation needs: messages with a size, and a reset whose names fit the registry. -/
def Op.QuotaSafe (s : Local) : Op → Prop
  | .appendMessage m _ => Sized m.rfc822Size
  | .allocateAndAppendNamed m _ _ => Sized m.rfc822Size
  | .resetFolder metas => (∀ m ∈ metas, m.uid ≠ 0 → Sized m.rfc822Size) ∧ metas.length < 2 ^ 32 ∧
      (keywordsBitmaskFor s.fs.keywords (resetNames metas)).isSome
  | _ => True

theorem Rebuild.loop_countable {b b' : Rebuild} {metas : List MessageMeta} (start : b.records = [])
    (sized : ∀ m ∈ metas, m.uid ≠ 0 → Sized m.rfc822Size) (few : metas.length < 2 ^ 32)
    (looped : b.loop metas = (b', true)) : Countable b'.records := by
  constructor
  · suffices all : ∀ r ∈ (b.loop metas).1.records, Sized r.vsize by rwa [looped] at all
    refine loop_induction (P := fun b => ∀ r ∈ b.records, Sized r.vsize)
      (fun b m b' member stepped good => ?_) ?_
    · unfold step at stepped
      split at stepped
      · cases stepped
        exact good
      rename_i nonzero
      obtain ⟨_, _, rfl⟩ := Option.map_eq_some_iff.mp stepped
      exact forall_mem_concat good (sized m member nonzero)
    · rw [start]
      nofun
  · have uids := congrArg length (loop_uids looped)
    have kept : (resetUIDs metas).length ≤ (metas.map (·.uid)).length := length_filter_le ..
    rw [start, map_nil, nil_append, length_map] at uids
    rw [length_map] at kept
    omega

theorem Local.Ready.resetFolder (ready : s.Ready) (metas : List MessageMeta)
    (safe : (Op.resetFolder metas).QuotaSafe s) : (s.resetFolder metas).2.Weighed := by
  obtain ⟨sized, few, names⟩ := safe
  have fits := loop_ok (b := start s.fs) names
  obtain ⟨b, _, looped, ⟨rfl, -⟩ | ⟨rfl, fs, _, rebuilt, -, -, result⟩⟩ := resetFolder_cases metas s
  · rw [looped] at fits
    cases fits
  rw [result]
  refine compact_weighed (s := { s with fs := fs }) ?_ ready.disk.log true
  rw [rebuilt.records]
  exact loop_countable rfl sized few looped

theorem Local.Ready.body (ready : s.Ready) (op : Op) (safe : op.QuotaSafe s) : (op.body s).2.Weighed := by
  have bumped : Local.Weighed (s.mapFs (·.bumpModSeqHeader)) := ready.toWeighed.touch _ rfl rfl
  refine Local.Weighed.sturdy.body ready.toWeighed op (fun s' m r delivered grown length size => ?_)
    (fun r found => ⟨bumped.disk, bumped.handle.removeRecord found⟩) ?_
  · have sized : Sized m.rfc822Size := by
      cases op with
      | appendMessage | allocateAndAppendNamed => exact Option.some.inj delivered ▸ safe
      | _ => cases delivered
    have added : (s'.mapFs (·.addRecord m r)).Weighed :=
      ⟨grown.disk, grown.handle.addRecord m size sized (length ▸ ready.room)⟩
    exact (added.appendName _ _ _).appendMutLog (forall_mem_singleton.mpr (size ▸ sized))
  · rintro metas rfl
    exact ready.resetFolder metas safe

/-- What a fresh open needs: the check notices every message the log adds to the base. -/
def Disk.OpenSafe (disk : Disk) : Prop := ∀ b, disk.base = some b →
    Noticed b.file.ext.hdrVsize.highestUID b.file.records (disk.tail 0) ∧
      b.file.records.length + (broughtBy (disk.tail 0)).length + 1 < 2 ^ 32

theorem openFolder_weighed (weighed : disk.Weighed) (safe : disk.OpenSafe) :
    (openFolder disk).2.Weighed ∧ ∀ fs, (openFolder disk).1 = .ok fs → fs.Weighed := by
  -- What is left once the replay is through: the aggregate of the base, checked.
  have finish : ∀ {disk' : Disk} {fs : FolderState}, disk'.Weighed → fs.Weighed →
      (ensureLogStub { disk := disk', fs := fs }).disk.Weighed ∧
        ∀ fs', .ok (ensureLogStub { disk := disk', fs := fs }).fs =
          (.ok fs' : Except Err FolderState) → fs'.Weighed := by
    intro disk' fs good handle
    have stub := Local.Weighed.ensureLogStub (s := { disk := disk', fs := fs }) ⟨good, handle⟩
    refine ⟨stub.disk, fun fs' same => ?_⟩
    cases same
    exact stub.handle
  cases base : disk.base with
  | none =>
    rw [openFolder, base]
    exact ⟨weighed, nofun⟩
  | some b =>
    obtain ⟨noticed, few⟩ := safe b base
    have unread : FolderState.Weighed
        { unread disk b with
          keywords := b.file.ext.keywords
          vsize := b.file.ext.hdrVsize } :=
      ⟨weighed.countable b base, weighed.weighs b base⟩
    cases log : disk.log with
    | none =>
      rw [openFolder, base]
      rw [log]
      exact finish weighed unread.ensureVsize
    | some l =>
      by_cases mine : l.indexID = b.file.header.indexID
      · rcases openFolder_cases base log mine with
          ⟨_, done⟩ | ⟨c, fs, replayed, content, vsize, _, done⟩ <;> rw [done]
        · exact ⟨weighed, nofun⟩
        have tail : disk.tail 0 = l.groups.flatten := by simp [Disk.tail, log, groupsFrom_zero]
        rw [tail] at noticed few
        obtain ⟨r, applied, rfl⟩ := replayGroups_eq_some replayed
        obtain ⟨countable, _⟩ := replay_countable (weighed.countable b base)
          (tail ▸ weighed.log) few applied
        have kept : fs.vsize = b.file.ext.hdrVsize := by
          have fixed := congrArg (fun f => f.2.2.2.2.2.2)
            (applyTxs_fixed (Content.startReplay { file := b.file, keywords := [] }) l.groups.flatten)
          rw [applied] at fixed
          exact vsize.trans fixed
        have file : fs.file = r.finish.file := congrArg (·.file) content
        refine ⟨weighed, fun fs' same => ?_⟩
        cases same
        exact ensureVsize_replayed (kept ▸ weighed.weighs b base) (kept ▸ noticed) applied file
          (file ▸ countable)
      · rw [openFolder, base]
        rw [log]
        dsimp only
        rw [if_pos (by exact mine)]
        exact finish (weighed.empty rfl _)
          (.ensureVsize ⟨unread.countable, unread.weighs⟩)

/-- A system whose files and handles all count exactly. -/
structure Sys.Weighed (sys : Sys) : Prop where
  disk : sys.disk.Weighed
  handles : ∀ fs ∈ sys.handles, fs.Weighed

/-- What a step needs to leave every aggregate exact. -/
def QuotaSafe (_ : List Event) (sys : Sys) : Step → Prop
  | .op i op =>
    (∀ fs, sys.handles[i]? = some fs → Local.ReloadSafe { disk := sys.disk, fs := fs }) ∧
      ∀ s, sys.locked i = some s → op.QuotaSafe s
  | .openFolder => sys.disk.OpenSafe

variable {sys : Sys}

theorem Sys.Weighed.set (weighed : sys.Weighed) (i : ℕ) (good : s.Weighed) :
    Sys.Weighed { disk := s.disk, handles := sys.handles.set i s.fs } := by
  refine ⟨good.disk, fun fs member => ?_⟩
  rcases mem_or_eq_of_mem_set member with other | rfl
  · exact weighed.handles fs other
  · exact good.handle

theorem Sys.Weighed.step {past : List Event} {step : Step} (weighed : sys.Weighed)
    (safe : QuotaSafe past sys step) : (sys.step step).2.Weighed := by
  cases step with
  | op i op =>
    have reloads : ∀ fs, sys.handles[i]? = some fs →
        (reload { disk := sys.disk, fs := fs }).2.Weighed ∧
          ((reload { disk := sys.disk, fs := fs }).1 = .ok () →
            (reload { disk := sys.disk, fs := fs }).2.Ready) := fun fs handle =>
      reload_weighed ⟨weighed.disk, weighed.handles fs (mem_of_getElem? handle)⟩
        (safe.1 fs handle)
    rcases sys.step_op_cases i op with
      ⟨answer, result, _⟩ | ⟨fs, e, s, handle, reloaded, result⟩ | ⟨s, locked, _, result⟩
    · rw [result]
      exact weighed
    · have failed := (reloads fs handle).1
      rw [reloaded] at failed
      rw [result]
      exact weighed.set i failed
    · obtain ⟨fs, handle, reloaded⟩ := Sys.locked_eq_some locked
      have ready := (reloads fs handle).2
      rw [reloaded] at ready
      rw [result]
      exact weighed.set i ((ready rfl).body op (safe.2 s locked))
  | openFolder =>
    obtain ⟨disk, opened⟩ := openFolder_weighed weighed.disk safe
    simp only [Sys.step]
    split
    · rename_i fs disk' result
      rw [result] at disk opened
      exact ⟨disk, forall_mem_concat weighed.handles (opened fs rfl)⟩
    · rename_i e disk' result
      rw [result] at disk
      exact ⟨disk, weighed.handles⟩

theorem Sys.init_weighed (uidValidity indexID : ℕ) : (Sys.init uidValidity indexID).Weighed := by
  have created : (createFresh uidValidity indexID).Weighed := by
    refine (flush_weighed ⟨?_, ?_⟩ ?_ true).ensureLogStub
    · nofun
    · show 0 < 2 ^ 32
      decide
    · nofun
  exact ⟨created.disk, forall_mem_singleton.mpr created.handle⟩

theorem Event.view_mem {e : Event} (view : e.view = some fs) : fs ∈ e.after.handles := by
  unfold Event.view at view
  split at view
  · exact mem_of_getElem? view
  · exact mem_of_getLast? view
  · cases view

/-- What a run keeps: everything counts exactly, and every answer so far did. -/
structure QuotaInv (past : List Event) (sys : Sys) : Prop where
  weighed : sys.Weighed
  answered : ∀ e ∈ past, ∀ fs, e.view = some fs → fs.folderVSize = fs.tally

theorem QuotaInv.step (past : List Event) (sys : Sys) (step : Step) (inv : QuotaInv past sys)
    (safe : QuotaSafe past sys step) : QuotaInv (past ++ [sys.event step]) (sys.step step).2 := by
  have next := inv.weighed.step safe
  exact ⟨next, forall_mem_concat inv.answered fun fs view =>
    (next.handles fs (Event.view_mem view)).exact⟩

/-- In every run whose steps are safe for the aggregate, what a handle answers after a successful
reload or open is the sum over its messages and their number. -/
theorem folderVSize_exact (uidValidity indexID : ℕ) (steps : List Step)
    (guarded : Sys.Guarded QuotaSafe [] (Sys.init uidValidity indexID) steps) :
    ∀ e ∈ (Sys.init uidValidity indexID).trace steps, ∀ fs, e.view = some fs →
      fs.folderVSize = fs.tally := by
  have start : QuotaInv [] (.init uidValidity indexID) :=
    ⟨Sys.init_weighed uidValidity indexID, fun e member => by cases member⟩
  have inv := Sys.run_induction QuotaInv.step start guarded
  rw [nil_append] at inv
  exact inv.answered

theorem ascending_iff {highest : ℕ} : Ascending highest txs ↔
      ∀ r ∈ broughtBy txs, highest < r.uid ∧ r.uid < txs.foldl nextUIDStep 0 := by
  constructor
  · intro ascending r brought
    obtain ⟨tx, member, inside⟩ := mem_flatMap.mp brought
    cases tx with
    | append records => exact ascending r.uid ⟨_, member, r, inside, rfl⟩
    | _ => cases inside
  · rintro above uid ⟨tx, member, appends⟩
    cases tx with
    | append records =>
      obtain ⟨r, inside, rfl⟩ := appends
      exact above r (mem_flatMap.mpr ⟨_, member, inside⟩)
    | _ => cases appends

instance (highest : ℕ) (txs : List TxRecord) : Decidable (Ascending highest txs) :=
  decidable_of_iff _ ascending_iff.symm

instance (registry : Registry) (txs : List TxRecord) : Decidable (Takes registry txs) :=
  inferInstanceAs (Decidable (_ = true))

/-- A reload that adopts nothing and replays only new messages above the highest UID is safe. -/
def Local.Ascends (s : Local) : Prop := ∀ b ∈ s.disk.base, ¬s.Adopts b ∧
    if s.logReplaced = true ∨ s.fs.baseIdent ≠ b.ident then
      let txs := s.disk.tail ((replayStart (readLineage b.file) (logLineage s.disk.log)).getD 0)
      Ascending b.file.ext.hdrVsize.highestUID txs ∧ Takes b.file.ext.keywords txs ∧
        b.file.records.length + (broughtBy txs).length + 1 < 2 ^ 32
    else
      let txs := s.disk.tail s.fs.logSize
      Ascending s.fs.vsize.highestUID txs ∧ Takes s.fs.keywords txs ∧
        s.fs.file.records.length + (broughtBy txs).length + 1 < 2 ^ 32

instance (s : Local) : Decidable s.Ascends := inferInstanceAs (Decidable (∀ _ ∈ _, _))

theorem Local.Ascends.reloadSafe (ascends : s.Ascends) : s.ReloadSafe := by
  intro b base
  obtain ⟨adopts, checked⟩ := ascends b base
  rw [if_neg adopts]
  split
  · rename_i moved
    rw [if_pos moved] at checked
    exact ⟨⟨[], _, rfl, .inl rfl, checked.1⟩, checked.2.1, checked.2.2⟩
  rename_i kept
  rw [if_neg kept] at checked
  exact ⟨⟨[], _, rfl, .inl rfl, checked.1⟩, checked.2.1, checked.2.2⟩

/-- The conditions hold in a run in which one handle appends and another reads: its answer counts the
new message. -/
theorem folderVSize_exact_two_handles :
    (((Sys.init 7 9).run [.openFolder, .op 0 (.appendMessage (plainMessage 1 0) false)]).event
        (.op 1 .read)).view.map (fun fs => (fs.folderVSize, fs.tally)) = some ((10, 1), (10, 1)) ∧
      ∀ e ∈ (Sys.init 7 9).trace [.openFolder, .op 0 (.appendMessage (plainMessage 1 0) false),
          .op 1 .read], ∀ fs, e.view = some fs → fs.folderVSize = fs.tally := by
  refine ⟨by decide, folderVSize_exact 7 9 _ ⟨?_, ⟨fun fs handle => ?_, ?_⟩,
    ⟨fun fs handle => ?_, fun s locked => trivial⟩, trivial⟩⟩
  · intro b base
    exact ⟨⟨[], _, rfl, .inl rfl, by revert b; decide⟩, by revert b; decide⟩
  · apply Local.Ascends.reloadSafe
    revert fs
    decide
  · intro s locked
    show Sized _
    decide
  · apply Local.Ascends.reloadSafe
    revert fs
    decide

/-- The second handle rewrites the base, and appends to the log behind it. The third adopts the base
with its aggregate and folds the tail in without checking it. -/
theorem adopted_aggregate_misses_tail :
    (((Sys.init 7 9).run [.openFolder, .openFolder, .op 0 (.appendMessage (plainMessage 1 0) false),
        .op 1 .read, .op 2 .read, .op 1 .saveFolder,
        .op 1 (.appendMessage (plainMessage 2 0) false)]).event (.op 2 .read)).view.map
      (fun fs => (fs.folderVSize, fs.tally)) = some ((10, 1), (20, 2)) := by
  decide +kernel

end Runs

end Yarilo.FileIndex

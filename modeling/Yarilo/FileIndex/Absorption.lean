import Yarilo.FileIndex.Messages

/-! # Replaying over a prefix

A replay comes to groups that a base has folded already. Every log record writes a part of a message or of
the header over, or leaves it: replaying records once more changes nothing behind their last write, a message
that is there is not appended again, and one that was expunged goes again.
-/

namespace Yarilo.FileIndex

open Library MailIndex TxRecord Record List

variable {β : Type} {held : List ℕ} {txs : List TxRecord} {s : Replay}

section Edits

/-- Bits are set and cleared, a modseq is written or left. -/
structure Edit where
  flags : MailFlag × MailFlag
  modseq : Option ℕ
  keywords : BitVec 32 × BitVec 32

def overwrite {w : ℕ} (x : BitVec w) (bits : BitVec w × BitVec w) : BitVec w := (x ||| bits.1) &&& ~~~bits.2

variable {w : ℕ} {step : Option Record → Option Record}

private theorem overwrite_overwrite (x : BitVec w) (b c : BitVec w × BitVec w) :
    overwrite (overwrite x b) c = overwrite x ((b.1 &&& ~~~b.2) ||| c.1, (b.2 &&& ~~~c.1) ||| c.2) := by
  ext i
  simp only [overwrite, BitVec.getElem_and, BitVec.getElem_or, BitVec.getElem_not]
  generalize x[i] = x, b.1[i] = b, b.2[i] = b', c.1[i] = c, c.2[i] = c'
  revert x b b' c c'
  decide

private theorem overwrite_twice (x : BitVec w) (b : BitVec w × BitVec w) :
    overwrite (overwrite x b) b = overwrite x b := by
  ext i
  simp only [overwrite, BitVec.getElem_and, BitVec.getElem_or, BitVec.getElem_not]
  generalize x[i] = x, b.1[i] = b, b.2[i] = b'
  revert x b b'
  decide

@[simp] theorem overwrite_set (x b : BitVec w) : overwrite x (b, 0#w) = x ||| b := by
  ext i
  simp [overwrite]

@[simp] theorem overwrite_clear (x b : BitVec w) : overwrite x (0#w, b) = x &&& ~~~b := by
  ext i
  simp [overwrite]

namespace Edit

def apply (e : Edit) (r : Record) : Record :=
  { r with
    flags := overwrite r.flags e.flags
    modseq := e.modseq.getD r.modseq
    keywords := overwrite r.keywords e.keywords }

private theorem apply_twice (e : Edit) (r : Record) : e.apply (e.apply r) = e.apply r := by
  cases e with
  | mk flags modseq keywords => cases modseq <;> simp [apply, overwrite_twice]

private theorem exists_comp (e e' : Edit) : ∃ both : Edit, ∀ r, e'.apply (e.apply r) = both.apply r :=
  ⟨⟨_, e'.modseq.or e.modseq, _⟩, fun r => by
    cases h : e'.modseq <;> simp [apply, overwrite_overwrite, h] <;> exact ⟨rfl, rfl⟩⟩

end Edit

/-- A step that edits a message that is there. -/
def IsEdit (step : Option Record → Option Record) : Prop := ∃ e : Edit, ∀ m, step m = m.map e.apply

private theorem IsEdit.of_map {change : Record → Record} (e : Edit) (same : ∀ r, change r = e.apply r) :
    IsEdit (·.map change) :=
  ⟨e, fun m => by rw [funext same]⟩

private theorem IsEdit.id : IsEdit fun m => m := by
  refine ⟨⟨(0, 0), none, (0, 0)⟩, fun m => ?_⟩
  cases m <;> simp [Edit.apply]

private theorem IsEdit.ite {p : Prop} [Decidable p] (edit : IsEdit step) :
    IsEdit fun m => if p then step m else m := by
  split
  · exact edit
  · exact .id

private theorem IsEdit.foldl {step : Option Record → β → Option Record} {l : List β}
    (edits : ∀ b ∈ l, IsEdit (step · b)) : IsEdit (l.foldl step) := by
  induction l with
  | nil => exact .id
  | cons b l ih =>
    obtain ⟨first, rest⟩ := forall_mem_cons.mp edits
    obtain ⟨e, shows⟩ := first
    obtain ⟨e', shows'⟩ := ih rest
    obtain ⟨both, same⟩ := e.exists_comp e'
    refine ⟨both, fun m => ?_⟩
    have steps : (b :: l).foldl step m = (m.map e.apply).map e'.apply := by
      rw [← shows, ← shows', foldl_cons]
    rw [Option.map_map] at steps
    exact steps.trans (congrArg (fun f => m.map f) (funext same))

private theorem IsEdit.twice (edit : IsEdit step) (m : Option Record) : step (step m) = step m := by
  obtain ⟨e, shows⟩ := edit
  cases m <;> simp [shows, e.apply_twice]

end Edits

namespace TxRecord

/-- The log record is about the UID. -/
def Touches (uid : ℕ) : TxRecord → Prop
  | .keywordUpdate _ _ uid1 uid2 => uid1 ≤ uid ∧ uid ≤ uid2
  | .keywordReset uid1 uid2 => uid1 ≤ uid ∧ uid ≤ uid2
  | tx => tx.Names uid

variable {tx : TxRecord} (names : Registry) {uid : ℕ}

private theorem isEdit_write (kept : ¬tx.Expunges uid) (old : ¬tx.Appends uid) : IsEdit fun m =>
    tx.write names uid m := by
  cases tx with
  | modseqUpdate updates =>
    refine .foldl fun u _ => .ite (.of_map ⟨(0, 0), some u.2, (0, 0)⟩ fun r => ?_)
    simp [Edit.apply]
  | flagUpdate updates =>
    refine .foldl fun u _ => .ite (.of_map ⟨(u.add, u.remove), none, (0, 0)⟩ fun r => ?_)
    simp [Edit.apply, overwrite.eq_1 r.flags]
  | expungeGUID expunges =>
    have same : (fun m => (expungeGUID expunges).write names uid m) = fun m => m :=
      funext (act_of_not_names (show ¬Names uid (.expungeGUID expunges) from kept))
    rw [same]
    exact .id
  | headerUpdate offset value => exact .id
  | append records =>
    refine .foldl fun r member => ?_
    simp only [show ¬r.uid = uid from fun same => old ⟨r, member, same⟩, if_false]
    exact .id
  | keywordUpdate modify name uid1 uid2 =>
    refine .ite (.of_map ?_ ?_)
    · exact ⟨(0, 0), none, if modify = .remove then (0, ((keywordsBitmaskFor names [name]).map (·.1)).getD 0)
        else (((keywordsBitmaskFor names [name]).map (·.1)).getD 0, 0)⟩
    · intro r
      cases modify <;> simp [Edit.apply]
  | keywordReset uid1 uid2 =>
    refine .ite (.of_map ⟨(0, 0), none, (0, .allOnes 32)⟩ fun r => ?_)
    simp [Edit.apply]

private theorem write_of_not_touches (other : ¬tx.Touches uid) (m : Option Record) :
    tx.write names uid m = m := by
  cases tx with
  | append records => exact foldl_of_fixed fun r member => if_neg fun same => other ⟨r, member, same⟩
  | keywordUpdate modify name uid1 uid2 => exact if_neg other
  | keywordReset uid1 uid2 => exact if_neg other
  | modseqUpdate updates => exact act_of_not_names (show ¬Names uid (.modseqUpdate updates) from other) m
  | flagUpdate updates => exact act_of_not_names (show ¬Names uid (.flagUpdate updates) from other) m
  | expungeGUID expunges => exact act_of_not_names (show ¬Names uid (.expungeGUID expunges) from other) m
  | headerUpdate offset value => rfl

private theorem write_of_expunges (expunges : tx.Expunges uid) (m : Option Record) :
    tx.write names uid m = none := by
  cases tx with
  | expungeGUID _ => exact act_of_expunges expunges m
  | _ => exact expunges.elim

private theorem write_of_appends (appends : tx.Appends uid) :
    ∃ r, ∀ m, tx.write names uid m = some (m.getD r) := by
  cases tx with
  | append records =>
    obtain ⟨r, member, same⟩ := appends
    induction records with
    | nil => cases member
    | cons first rest ih =>
      by_cases equal : first.uid = uid
      · refine ⟨first.stored, fun m => ?_⟩
        simp only [write, foldl_cons, equal, if_true]
        exact foldl_fixed' (fun _ => ite_self _) rest
      · have later : r ∈ rest := (mem_cons.mp member).resolve_left fun here => equal (here ▸ same)
        obtain ⟨r', shows⟩ := ih later
        refine ⟨r', fun m => ?_⟩
        have := shows m
        simpa [write, equal] using this
  | _ => exact appends.elim

private theorem write_none (old : ¬tx.Appends uid) : tx.write names uid none = none := by
  by_cases expunges : tx.Expunges uid
  · exact write_of_expunges names expunges none
  · obtain ⟨e, shows⟩ := isEdit_write names expunges old
    exact shows none

private theorem Expunges.touches (expunges : tx.Expunges uid) : tx.Touches uid := by
  cases tx <;> first | exact expunges | exact expunges.elim

private theorem Appends.touches (appends : tx.Appends uid) : tx.Touches uid := by
  cases tx <;> first | exact appends | exact appends.elim

end TxRecord

/-- UIDs are appended once, and never behind a record that is about them. -/
def FreshAppends (held : List ℕ) (txs : List TxRecord) : Prop :=
  ∀ before tx after, txs = before ++ tx :: after → ∀ uid, tx.Appends uid → uid ∉ held ∧
    ∀ earlier ∈ before, ¬earlier.Touches uid

private theorem FreshAppends.not_after {before after : List TxRecord} {tx : TxRecord}
    (fresh : FreshAppends held (before ++ tx :: after)) {uid : ℕ} (touches : tx.Touches uid) :
    ∀ later ∈ after, ¬later.Appends uid := by
  intro later member appends
  obtain ⟨between, rest, rfl⟩ := append_of_mem member
  exact (fresh (before ++ tx :: between) later rest (by simp) uid appends).2 tx (by simp) touches

/-- Replaying records twice writes what replaying them once does. -/
private theorem foldl_write_twice (fresh : FreshAppends held txs) (names : Registry) {uid : ℕ}
    {m : Option Record} (unheld : uid ∉ held → m = none) :
    txs.foldl (TxRecord.write names uid)
      (txs.foldl (TxRecord.write names uid) m) = txs.foldl (TxRecord.write names uid) m := by
  have plain {l : List TxRecord} (kept : ∀ tx ∈ l, ¬tx.Expunges uid) (old : ∀ tx ∈ l, ¬tx.Appends uid) :
      IsEdit (l.foldl (write names uid)) :=
    .foldl fun tx member => isEdit_write names (kept tx member) (old tx member)
  by_cases expunged : ∃ tx ∈ txs, tx.Expunges uid
  · obtain ⟨tx, member, expunges⟩ := expunged
    obtain ⟨before, after, rfl⟩ := append_of_mem member
    have stays {l : List TxRecord} (old : ∀ later ∈ l, ¬later.Appends uid) :
        l.foldl (write names uid) none = none :=
      foldl_of_fixed fun later inside => write_none names (old later inside)
    have gone (m : Option Record) : (before ++ tx :: after).foldl (write names uid) m = none := by
      rw [foldl_append, foldl_cons, write_of_expunges names expunges,
        stays (fresh.not_after expunges.touches)]
    rw [gone, gone]
  · push Not at expunged
    by_cases appended : ∃ tx ∈ txs, tx.Appends uid
    · obtain ⟨tx, member, appends⟩ := appended
      obtain ⟨before, after, rfl⟩ := append_of_mem member
      obtain ⟨new, untouched⟩ := fresh before tx after rfl uid appends
      obtain ⟨r, added⟩ := write_of_appends names appends
      obtain ⟨e, edits⟩ := plain (l := after) (fun later inside => expunged later (by simp [inside]))
        (fresh.not_after appends.touches)
      have whole (m : Option Record) :
          (before ++ tx :: after).foldl (write names uid) m = some (e.apply (m.getD r)) := by
        have skipped : before.foldl (write names uid) m = m :=
          foldl_of_fixed fun earlier inside =>
            write_of_not_touches names (untouched earlier inside) m
        rw [foldl_append, foldl_cons, skipped, added]
        exact edits _
      rw [whole, whole, unheld new, Option.getD_some, Option.getD_none, e.apply_twice]
    · push Not at appended
      exact (plain expunged appended).twice m

section Replay

variable {s' t : Replay}

/-- Whether records are refused, and the names behind them, follow from the names before. -/
private theorem applyTxs_names (same : s.keywords = t.keywords) (txs : List TxRecord) :
    (applyTxs s txs).2 = (applyTxs t txs).2 ∧ (applyTxs s txs).1.keywords = (applyTxs t txs).1.keywords := by
  induction txs generalizing s t with
  | nil => exact ⟨rfl, same⟩
  | cons tx txs ih =>
    have step := (applyTx_keywords s tx).trans ((congrArg (keywordStep · tx)
        same).trans (applyTx_keywords t tx).symm)
    rw [applyTxs, applyTxs]
    cases first : applyTx s tx <;> cases second : applyTx t tx <;> rw [first, second] at step
    · exact ⟨rfl, same⟩
    · cases step
    · cases step
    · exact ih (Option.some.inj step)

/-- Records whose names are registered are taken, and register nothing. -/
private theorem applyTxs_registered (applied : applyTxs s txs = (s', true))
    (known : s'.keywords <+: t.keywords) :
    (applyTxs t txs).2 = true ∧ (applyTxs t txs).1.keywords = t.keywords := by
  induction txs generalizing s t with
  | nil => exact ⟨rfl, rfl⟩
  | cons tx txs ih =>
    obtain ⟨middle, first, applied⟩ := applyTxs_cons applied
    have grew := applyTxs_keywords_grow middle txs
    rw [applied] at grew
    have step := applyTx_keywords s tx
    rw [first] at step
    have again := applyTx_keywords t tx
    rw [(keywordStep_grows step.symm).2 _ (grew.trans known), Option.map_eq_some_iff] at again
    obtain ⟨next, second, names⟩ := again
    obtain ⟨taken, kept⟩ := ih applied (names ▸ known)
    rw [applyTxs, second]
    exact ⟨taken, kept.trans names⟩

end Replay

/-- Steps that leave a value or write it are absorbed. -/
private theorem foldl_twice {δ : Type} {step : δ → β → δ}
    (writes : ∀ b, (∀ x, step x b = x) ∨ ∃ v, ∀ x, step x b = v) (l : List β) (x : δ) :
    l.foldl step (l.foldl step x) = l.foldl step x := by
  rcases foldl_settles writes l with same | ⟨v, constant⟩
  · rw [same]
  · rw [constant, constant]

private theorem nextUIDStep_writes (tx : TxRecord) :
    (∀ n, nextUIDStep n tx = n) ∨ ∃ v, ∀ n, nextUIDStep n tx = v := by
  cases tx with
  | headerUpdate offset value =>
    by_cases here : offset = 28
    · exact .inr ⟨value, fun _ => if_pos here⟩
    · exact .inl fun _ => if_neg here
  | _ => exact .inl fun _ => rfl

private theorem flagsStep_writes (tx : TxRecord) : (∀ flags, flagsStep flags tx = flags) ∨
    ∃ v, ∀ flags, flagsStep flags tx = v := by
  cases tx with
  | headerUpdate offset value =>
    by_cases here : offset = 20
    · exact .inr ⟨.ofNat 32 value, fun _ => if_pos here⟩
    · exact .inl fun _ => if_neg here
  | _ => exact .inl fun _ => rfl

/-- What a replay makes of a folder: its messages by UID, the keyword names, and the header. -/
structure Seen where
  messages : ℕ → Option Record
  keywords : Registry
  nextUID : ℕ
  flags : BitVec 32
  messagesCount : ℕ
  seenMessagesCount : ℕ
  deletedMessagesCount : ℕ
  highestModSeq : ℕ

def Content.seen (c : Content) : Seen where
  messages := look Record.stored c.file.records
  keywords := c.keywords
  nextUID := c.file.header.nextUID
  flags := c.file.header.flags
  messagesCount := c.file.header.messagesCount
  seenMessagesCount := c.file.header.seenMessagesCount
  deletedMessagesCount := c.file.header.deletedMessagesCount
  highestModSeq := c.file.ext.highestModSeq

private theorem recount_congr {f f' : File} (distinct : (f.records.map (·.uid)).Nodup)
    (distinct' : (f'.records.map (·.uid)).Nodup)
    (same : ∀ uid, look Record.stored f'.records uid = look Record.stored f.records uid) :
    f'.recount.header.messagesCount = f.recount.header.messagesCount ∧
      f'.recount.header.seenMessagesCount = f.recount.header.seenMessagesCount ∧
      f'.recount.header.deletedMessagesCount = f.recount.header.deletedMessagesCount := by
  have perm := look_perm stored distinct distinct' same
  have counted (p : Record → Bool) (stored : ∀ r : Record, p r.stored = p r) :
      f'.records.countP p = f.records.countP p := by
    have equal := perm.countP_eq p
    have plain : p ∘ .stored = p := funext stored
    rwa [countP_map, countP_map, plain] at equal
  have size := perm.length_eq
  rw [length_map, length_map] at size
  exact ⟨congrArg u32 size, congrArg u32 (counted seen fun _ => rfl),
    congrArg u32 (counted deleted fun _ => rfl)⟩

/-- The header and the highest modseq behind a replay. -/
private theorem finish_header {c : Content} (applied : applyTxs c.startReplay txs = (s, true)) :
    s.finish.file.header.nextUID = txs.foldl nextUIDStep c.file.header.nextUID ∧
      s.finish.file.header.flags = txs.foldl flagsStep c.file.header.flags ∧
      s.finish.file.ext.highestModSeq = max c.file.ext.highestModSeq (txs.foldl modseqStep 0) := by
  have fixed := applyTxs_fixed c.startReplay txs
  rw [applied] at fixed
  have highest : s.file.ext.highestModSeq = c.file.ext.highestModSeq :=
    (Prod.mk.inj (Prod.mk.inj (Prod.mk.inj fixed).2).2).1
  have modseq := applyTxs_follow (·.maxModseq) applyTx_maxModseq applied
  refine ⟨applyTxs_follow Replay.nextUID applyTx_nextUID applied,
    applyTxs_follow (fun s : Replay => s.file.header.flags) applyTx_flags applied, ?_⟩
  show max s.file.ext.highestModSeq s.maxModseq = _
  rw [highest, modseq]
  rfl

section Twice

variable {c : Content} {t t' : Replay} {more : List TxRecord} (applied : applyTxs c.startReplay txs = (s, true))

include applied

/-- Over the base and over the state reached, the same names are known behind the first records, so both
replays end at the same record and with the same names. -/
private theorem names_twice (more : List TxRecord) :
    (applyTxs s.finish.startReplay (txs ++ more)).2 = (applyTxs c.startReplay (txs ++ more)).2 ∧
      (applyTxs s.finish.startReplay (txs ++ more)).1.keywords =
        (applyTxs c.startReplay (txs ++ more)).1.keywords := by
  obtain ⟨taken, kept⟩ := applyTxs_registered (t := s.finish.startReplay) applied (prefix_refl _)
  simpa [applyTxs_append, applied, taken] using applyTxs_names (t := s) kept more

variable (whole : applyTxs c.startReplay (txs ++ more) = (t, true))
  (whole' : applyTxs s.finish.startReplay (txs ++ more) = (t', true))

include whole whole'

private theorem look_twice (distinct : (c.file.records.map (·.uid)).Nodup)
    (fresh : FreshAppends (c.file.records.map (·.uid)) txs) (names : t'.keywords = t.keywords) :
    t.uids.Nodup ∧ t'.uids.Nodup ∧
      ∀ uid, look stored t'.file.records uid = look stored t.file.records uid := by
  have grew : s.keywords <+: t.keywords := by
    have grew := applyTxs_keywords_grow s more
    rw [applyTxs_append, applied] at whole
    exact (congrArg (·.1.keywords) whole).subst grew
  have start : c.startReplay.uids.Nodup := distinct
  obtain ⟨unique, writes⟩ := applyTxs_writes start whole (prefix_refl _)
  obtain ⟨uniqueFirst, writesFirst⟩ := applyTxs_writes start applied grew
  have restart : s.finish.startReplay.uids.Nodup := uniqueFirst
  have known : t'.keywords <+: t.keywords := names ▸ prefix_refl _
  obtain ⟨unique', writes'⟩ := applyTxs_writes restart whole' known
  refine ⟨unique, unique', fun uid => ?_⟩
  have unheld : uid ∉ c.file.records.map (·.uid) → look stored c.file.records uid = none :=
    (look_eq_none _).mpr
  have before : look stored s.finish.startReplay.file.records uid =
      txs.foldl (write t.keywords uid) (look stored c.file.records uid) := writesFirst uid
  rw [writes, writes', before, foldl_append, foldl_append]
  exact congrArg (more.foldl _) (foldl_write_twice fresh t.keywords unheld)

private theorem header_twice : t'.finish.file.header.nextUID = t.finish.file.header.nextUID ∧
    t'.finish.file.header.flags = t.finish.file.header.flags ∧
    t'.finish.file.ext.highestModSeq = t.finish.file.ext.highestModSeq := by
  obtain ⟨nextUID, flags, highest⟩ := finish_header whole
  obtain ⟨nextUID', flags', highest'⟩ := finish_header whole'
  obtain ⟨nextUIDFirst, flagsFirst, highestFirst⟩ := finish_header applied
  refine ⟨?_, ?_, ?_⟩
  · rw [nextUID', nextUIDFirst, nextUID, foldl_append, foldl_append, foldl_twice nextUIDStep_writes]
  · rw [flags', flagsFirst, flags, foldl_append, foldl_append, foldl_twice flagsStep_writes]
  · have later := foldl_modseqStep_max (txs.foldl modseqStep 0) 0 more
    rw [max_eq_left (Nat.zero_le _)] at later
    rw [highest', highestFirst, highest, foldl_append, later]
    omega

end Twice

/-- Replaying a log over the state its first groups made gives what replaying it over the base does. -/
theorem replay_absorbs_prefix (c : Content) (groups : List Group) (k : ℕ)
    (distinct : (c.file.records.map (·.uid)).Nodup)
    (fresh : FreshAppends (c.file.records.map (·.uid)) groups.flatten) (reached : Content)
    (first : replayGroups c (groups.take k) = some reached) :
    (replayGroups reached groups).map Content.seen = (replayGroups c groups).map Content.seen := by
  obtain ⟨s, applied, rfl⟩ := replayGroups_eq_some first
  have parts : groups.flatten = (groups.take k).flatten ++ (groups.drop k).flatten := by
    rw [← flatten_append, take_append_drop]
  unfold replayGroups Content.replay
  revert fresh applied
  rw [parts]
  generalize (groups.take k).flatten = txs, (groups.drop k).flatten = more
  intro fresh applied
  have freshFirst : FreshAppends (c.file.records.map (·.uid)) txs := fun before tx after split uid appends =>
    fresh before tx (after ++ more) (by simp [split]) uid appends
  obtain ⟨refused, names⟩ := names_twice applied more
  cases whole : applyTxs c.startReplay (txs ++ more) with
  | mk t ok =>
    cases whole' : applyTxs s.finish.startReplay (txs ++ more) with
    | mk t' ok' =>
      rw [whole, whole'] at refused names
      obtain rfl : ok' = ok := refused
      cases ok' with
      | false => rfl
      | true =>
        obtain ⟨unique, unique', shows⟩ := look_twice applied whole whole' distinct freshFirst names
        obtain ⟨messages, seen, deleted⟩ := recount_congr unique unique' shows
        obtain ⟨nextUID, flags, highest⟩ := header_twice applied whole whole'
        have same : t'.finish.seen = t.finish.seen := by
          simp only [Content.seen, Seen.mk.injEq]
          exact ⟨funext shows, names, nextUID, flags, messages, seen, deleted, highest⟩
        exact congrArg some same

def sampleRecord (uid : ℕ) : Record := ⟨uid, 0, 1, 0, 0, 0, none, none, none⟩

def oneMessage : Content where
  file := { (createFresh 7 9).fs.file with records := [sampleRecord 1] }
  keywords := []

/-- A folder with one message, whose log appends another and flags it. -/
theorem replay_absorbs_prefix_append :
    (replayGroups ((replayGroups oneMessage [[.append [sampleRecord 2]]]).get (by decide))
        [[.append [sampleRecord 2]], [.flagUpdate [⟨2, 2, flagSeen, 0⟩]]]).map Content.seen =
      (replayGroups oneMessage
        [[.append [sampleRecord 2]], [.flagUpdate [⟨2, 2, flagSeen, 0⟩]]]).map Content.seen := by
  refine replay_absorbs_prefix oneMessage
    [[.append [sampleRecord 2]], [.flagUpdate [⟨2, 2, flagSeen, 0⟩]]] 1 (by decide) ?_ _
    (Option.some_get _).symm
  intro before tx after split uid appends
  match before, split with
  | [], split =>
    cases split
    obtain ⟨r, member, rfl⟩ := appends
    obtain rfl := mem_singleton.mp member
    exact ⟨by decide, by simp⟩
  | [_], split =>
    cases split
    exact appends.elim
  | _ :: _ :: _, split => simp at split

/-- Of two records of one UID an expunge takes the first, and replayed once more the second. -/
theorem duplicate_uid_not_absorbed :
    let log : List Group := [[.expungeGUID [⟨1, 0, none⟩]]]
    let base : Content := { oneMessage with
      file := { oneMessage.file with records := [sampleRecord 1, sampleRecord 1] } }
    (replayGroups base log).map (·.file.records.map (·.uid)) = some [1] ∧
      ((replayGroups base (log.take 1)).bind fun reached =>
        (replayGroups reached log).map (·.file.records.map (·.uid))) = some [] := by
  decide

end Yarilo.FileIndex

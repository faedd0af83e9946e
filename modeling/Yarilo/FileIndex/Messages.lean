import Mathlib.Data.List.Nodup
import Yarilo.FileIndex.Locked

/-! # The messages of a folder, UID by UID

Everything a record says but its keywords, looked up by UID. A log record acts on each UID on its
own: it sets the flags or the modseq of a message that is there, removes it, or adds one that is not
there. Replaying a log over messages that already went through it changes nothing as long as no UID
is appended after the log has named it.
-/

namespace Yarilo.FileIndex

open Library Record TxRecord
open List hiding modify

/-- The record as a reader decodes it, without its keywords. -/
def Record.bare (r : Record) : Record := { r.stored with keywords := 0 }

variable {r : Record} {β : Type}

section Lookup

variable {δ : Type} {records : List Record} {uid : ℕ}

/-- What `view` shows of the record with this UID. -/
def look (view : Record → δ) (records : List Record) (uid : ℕ) : Option δ :=
  (records.find? (·.uid = uid)).map view

section

variable (view : Record → δ)

include view

theorem look_cons (r : Record) (records : List Record) (uid : ℕ) :
    look view (r :: records) uid = if r.uid = uid then some (view r) else look view records uid := by
  unfold look
  rw [find?_cons]
  by_cases same : r.uid = uid <;> simp [same]

theorem look_append (before after : List Record) (uid : ℕ) :
    look view (before ++ after) uid = (look view before uid).or (look view after uid) := by
  rw [look, find?_append, Option.map_or]
  rfl

theorem look_isSome : (look view records uid).isSome ↔ uid ∈ records.map (·.uid) := by
  simp [look]

theorem look_eq_none : look view records uid = none ↔ uid ∉ records.map (·.uid) := by
  rw [← look_isSome, Option.not_isSome_iff_eq_none]

/-- A change of every record. -/
theorem look_map (records : List Record) (uid : ℕ) (change : Record → Record) (edit : δ → δ)
    (keeps : ∀ r, (change r).uid = r.uid)
    (shows : ∀ r ∈ records, r.uid = uid → view (change r) = edit (view r)) :
    look view (records.map change) uid = (look view records uid).map edit := by
  induction records with
  | nil => rfl
  | cons r records ih =>
    rw [map_cons, look_cons, look_cons, keeps, ih fun r member => shows r (.tail _ member)]
    by_cases same : r.uid = uid
    · rw [if_pos same, if_pos same, shows r (.head _) same]
      rfl
    · rw [if_neg same, if_neg same]

end

theorem nodup_uids_concat (nodup : (records.map (·.uid)).Nodup) (new : r.uid ∉ records.map (·.uid)) :
    ((records ++ [r]).map (·.uid)).Nodup := by
  rw [map_append, map_singleton, ← concat_eq_append]
  exact nodup.concat new

theorem map_uid_mapRange (records : List Record) (uid1 uid2 : ℕ) {change : Record → Record}
    (keeps : ∀ r, (change r).uid = r.uid) :
    (records.map fun r => if inRange uid1 uid2 r then change r else r).map (·.uid) = records.map (·.uid) := by
  rw [map_map]
  refine map_congr_left fun r _ => ?_
  show (if inRange uid1 uid2 r then change r else r).uid = r.uid
  split
  · exact keeps r
  · rfl

section

variable (view : Record → δ)

include view

/-- A change of the records in a range. -/
theorem look_mapRange (records : List Record) (uid uid1 uid2 : ℕ) (change : Record → Record)
    (edit : δ → δ) (keeps : ∀ r, (change r).uid = r.uid) (shows : ∀ r, view (change r) = edit (view r)) :
    look view (records.map fun r => if inRange uid1 uid2 r then change r else r) uid =
      if uid1 ≤ uid ∧ uid ≤ uid2 then (look view records uid).map edit else look view records uid := by
  have kept : ∀ r, (if inRange uid1 uid2 r then change r else r).uid = r.uid := fun r => by
    split
    · exact keeps r
    · rfl
  by_cases inside : uid1 ≤ uid ∧ uid ≤ uid2
  · rw [if_pos inside]
    refine look_map view records uid _ edit kept fun r _ same => ?_
    have range : inRange uid1 uid2 r = true := decide_eq_true (same ▸ inside)
    rw [if_pos range, shows]
  · have mapped := look_map view records uid _ id kept fun r _ same => by
      have range : ¬inRange uid1 uid2 r = true := fun holds => inside (same ▸ of_decide_eq_true holds)
      rw [if_neg range, id]
    rw [if_neg inside, mapped, Option.map_id, id]

theorem look_updateFirst (target : ℕ) (change : Record → Record) (edit : δ → δ)
    (keeps : ∀ r, (change r).uid = r.uid) (shows : ∀ r, view (change r) = edit (view r)) :
    look view (updateFirst target change records) uid =
      if target = uid then (look view records uid).map edit else look view records uid := by
  induction records with
  | nil => simp [updateFirst, look]
  | cons r records ih =>
    unfold updateFirst
    by_cases first : r.uid = target
    · rw [if_pos first, look_cons, look_cons, keeps, shows, first]
      split <;> rfl
    rw [if_neg first, look_cons, look_cons, ih]
    by_cases same : r.uid = uid
    · rw [if_pos same, if_pos same, if_neg fun target => first (same.trans target.symm)]
    · rw [if_neg same, if_neg same]

theorem look_removeFirst (target uid : ℕ) (nodup : (records.map (·.uid)).Nodup) :
    look view (removeFirst target records) uid =
      if target = uid then none else look view records uid := by
  induction records with
  | nil => simp [removeFirst, look]
  | cons r records ih =>
    rw [map_cons, nodup_cons] at nodup
    unfold removeFirst
    by_cases first : r.uid = target
    · rw [if_pos first, look_cons, first]
      by_cases same : target = uid
      · rw [if_pos same]
        refine (look_eq_none view).mpr ?_
        rw [← same, ← first]
        exact nodup.1
      · rw [if_neg same, if_neg same]
    · rw [if_neg first, look_cons, look_cons, ih nodup.2]
      by_cases same : r.uid = uid
      · rw [if_pos same, if_pos same, if_neg fun target => first (same.trans target.symm)]
      · rw [if_neg same, if_neg same]

theorem look_eq_some_iff (nodup : (records.map (·.uid)).Nodup) {x : δ} :
    look view records uid = some x ↔ (uid, x) ∈ records.map fun r => (r.uid, view r) := by
  induction records with
  | nil => simp [look]
  | cons r records ih =>
    rw [map_cons, nodup_cons] at nodup
    rw [look_cons, map_cons, mem_cons, ← ih nodup.2]
    by_cases same : r.uid = uid
    · have gone : look view records uid = none := (look_eq_none view).mpr (same ▸ nodup.1)
      simp [same, gone, eq_comm]
    · simp [same, Ne.symm same]

/-- Distinct UIDs that show the same make the same list but for the order. -/
theorem look_perm {records' : List Record} (nodup : (records.map (·.uid)).Nodup)
    (nodup' : (records'.map (·.uid)).Nodup) (same : ∀ uid, look view records' uid = look view records uid) :
    (records'.map view).Perm (records.map view) := by
  have pairs : ∀ {l : List Record}, (l.map (·.uid)).Nodup → (l.map fun r => (r.uid, view r)).Nodup := by
    intro l distinct
    apply List.Nodup.of_map Prod.fst
    rwa [map_map]
  have perm : (records'.map fun r => (r.uid, view r)).Perm (records.map fun r => (r.uid, view r)) := by
    refine (perm_ext_iff_of_nodup (pairs nodup') (pairs nodup)).mpr ?_
    rintro ⟨uid, x⟩
    rw [← look_eq_some_iff view nodup', ← look_eq_some_iff view nodup, same]
  have mapped := perm.map Prod.snd
  rwa [map_map, map_map] at mapped

end

/-- The message with this UID. -/
def message (records : List Record) (uid : ℕ) : Option Record :=
  (records.find? (·.uid = uid)).map bare

theorem message_eq_look (records : List Record) (uid : ℕ) :
    message records uid = (look stored records uid).map bare := by
  rw [look, Option.map_map]
  rfl

theorem message_cons (r : Record) (records : List Record) (uid : ℕ) :
    message (r :: records) uid = if r.uid = uid then some r.bare else message records uid :=
  look_cons bare r records uid

theorem message_append (before after : List Record) (uid : ℕ) :
    message (before ++ after) uid = (message before uid).or (message after uid) :=
  look_append bare before after uid

theorem message_isSome : (message records uid).isSome ↔ uid ∈ records.map (·.uid) := look_isSome bare

theorem message_eq_none : message records uid = none ↔ uid ∉ records.map (·.uid) := look_eq_none bare

theorem message_uid (found : message records uid = some r) : r.uid = uid := by
  obtain ⟨r', first, rfl⟩ := Option.map_eq_some_iff.mp found
  show r'.uid = uid
  simpa using find?_some first

end Lookup

namespace TxRecord

/-- What a log record does to the message with this UID. -/
def act (uid : ℕ) (m : Option Record) : TxRecord → Option Record
  | .modseqUpdate updates => updates.foldl
      (fun m u => if u.1 = uid then m.map fun r => { r with modseq := u.2 } else m) m
  | .flagUpdate updates => updates.foldl (fun m u =>
      if u.uid1 ≤ uid ∧ uid ≤ u.uid2 then
        m.map fun r => { r with flags := (r.flags ||| u.add) &&& ~~~u.remove }
      else m) m
  | .expungeGUID expunges => expunges.foldl (fun m e => if e.uid = uid then none else m) m
  | .append records => records.foldl
      (fun m r => if r.uid = uid then some (m.getD r.bare) else m) m
  | _ => m

/-- What a log record does to the message with this UID, its keywords under the bits of a registry. -/
def write (names : Registry) (uid : ℕ) (m : Option Record) : TxRecord → Option Record
  | .append records => records.foldl (fun m r => if r.uid = uid then some (m.getD r.stored) else m) m
  | .keywordUpdate modify name uid1 uid2 =>
    let bits := ((keywordsBitmaskFor names [name]).map (·.1)).getD 0
    if uid1 ≤ uid ∧ uid ≤ uid2 then
      m.map fun r => { r with keywords :=
        if modify = .remove then r.keywords &&& ~~~bits else r.keywords ||| bits }
    else m
  | .keywordReset uid1 uid2 => if uid1 ≤ uid ∧ uid ≤ uid2 then m.map fun r => { r with keywords := 0 } else m
  | tx => tx.act uid m

/-- Without the keywords it is the same under every registry. -/
theorem write_bare (names : Registry) (uid : ℕ) (m : Option Record) (tx : TxRecord) :
    (tx.write names uid m).map bare = tx.act uid (m.map bare) := by
  cases tx with
  | keywordUpdate modify name uid1 uid2 =>
    simp only [write]
    split <;> cases m <;> rfl
  | keywordReset uid1 uid2 =>
    simp only [write]
    split <;> cases m <;> rfl
  | headerUpdate offset value => rfl
  | _ => exact (foldl_hom (Option.map bare) fun m _ => by split <;> cases m <;> rfl).symm

/-- The log record names the UID. -/
def Names (uid : ℕ) : TxRecord → Prop
  | .modseqUpdate updates => ∃ u ∈ updates, u.1 = uid
  | .flagUpdate updates => ∃ u ∈ updates, u.uid1 ≤ uid ∧ uid ≤ u.uid2
  | .expungeGUID expunges => ∃ e ∈ expunges, e.uid = uid
  | .append records => ∃ r ∈ records, r.uid = uid
  | _ => False

/-- The log record adds this UID. -/
def Appends (uid : ℕ) : TxRecord → Prop
  | .append records => ∃ r ∈ records, r.uid = uid
  | _ => False

/-- The log record removes this UID. -/
def Expunges (uid : ℕ) : TxRecord → Prop
  | .expungeGUID expunges => ∃ e ∈ expunges, e.uid = uid
  | _ => False

/-- The log record writes this UID's flags. -/
def Flags (uid : ℕ) : TxRecord → Prop
  | .flagUpdate updates => ∃ u ∈ updates, u.uid1 ≤ uid ∧ uid ≤ u.uid2
  | _ => False

instance (uid : ℕ) (tx : TxRecord) : Decidable (tx.Names uid) := by
  unfold Names; cases tx <;> infer_instance

instance (uid : ℕ) (tx : TxRecord) : Decidable (tx.Flags uid) := by
  unfold Flags; cases tx <;> infer_instance

end TxRecord

section Replay

/-- A step that keeps UIDs apart and acts on what is seen of each record on its own. -/
def Acts {β δ : Type} (view : Record → δ) (f : Replay → β → Replay)
    (step : ℕ → Option δ → β → Option δ) : Prop :=
  ∀ s b, s.uids.Nodup → (f s b).uids.Nodup ∧
    ∀ uid, look view (f s b).file.records uid = step uid (look view s.file.records uid) b

variable {s s' : Replay} {txs : List TxRecord} {registry registry' : Registry} {name : Keyword}

theorem Acts.foldl {δ : Type} {view : Record → δ} {f : Replay → β → Replay}
    {step : ℕ → Option δ → β → Option δ} (acts : Acts view f step) (nodup : s.uids.Nodup) (l : List β) :
    (l.foldl f s).uids.Nodup ∧ ∀ uid, look view (l.foldl f s).file.records uid =
      l.foldl (step uid) (look view s.file.records uid) := by
  induction l generalizing s with
  | nil => exact ⟨nodup, fun _ => rfl⟩
  | cons b l ih =>
    obtain ⟨next, shows⟩ := acts s b nodup
    obtain ⟨last, rest⟩ := ih next
    refine ⟨last, fun uid => ?_⟩
    rw [foldl_cons, foldl_cons, rest, shows]

theorem applyModseq_acts : Acts stored .applyModseq fun uid m u =>
    if u.1 = uid then m.map fun r => { r with modseq := u.2 } else m := by
  intro s u nodup
  refine ⟨?_, fun uid => look_updateFirst stored _ _ _ (fun _ => rfl) fun _ => rfl⟩
  have same : (s.applyModseq u).uids = s.uids :=
    map_view_updateFirst (fun r => { r with modseq := u.2 }) (fun _ => rfl) s.file.records
  rw [same]
  exact nodup

theorem applyFlags_acts : Acts stored .applyFlags fun uid m u => if u.uid1 ≤ uid ∧ uid ≤ u.uid2 then
      m.map fun r => { r with flags := (r.flags ||| u.add) &&& ~~~u.remove }
    else m := by
  intro s u nodup
  refine ⟨?_, fun uid => look_mapRange stored _ uid _ _ _ _ (fun _ => rfl) fun _ => rfl⟩
  have same : (s.applyFlags u).uids = s.uids := map_uid_mapRange _ _ _ fun _ => rfl
  rw [same]
  exact nodup

theorem applyExpunge_acts : Acts stored .applyExpunge fun uid m e => if e.uid = uid then none else m := by
  intro s e nodup
  unfold Replay.applyExpunge
  dsimp only
  split
  · rename_i absent
    refine ⟨nodup, fun uid => ?_⟩
    have removed := look_removeFirst stored e.uid uid nodup
    rw [removeFirst_of_find_none absent] at removed
    exact removed
  · refine ⟨?_, fun uid => look_removeFirst stored e.uid uid nodup⟩
    show ((removeFirst e.uid s.file.records).map (·.uid)).Nodup
    rw [map_uid_removeFirst]
    exact nodup.erase e.uid

theorem applyAppend_acts : Acts stored .applyAppend fun uid m r =>
    if r.uid = uid then some (m.getD r.stored) else m := by
  intro s r nodup
  unfold Replay.applyAppend
  split
  · rename_i present
    refine ⟨nodup, fun uid => ?_⟩
    dsimp only
    by_cases same : r.uid = uid
    · have there : (look stored s.file.records uid).isSome := by
        rw [look_isSome, ← same]
        simpa using present
      rw [if_pos same]
      obtain ⟨r', found⟩ := Option.isSome_iff_exists.mp there
      rw [found]
      rfl
    · rw [if_neg same]
  · rename_i absent
    have new : r.uid ∉ s.file.records.map (·.uid) := by simpa using absent
    refine ⟨?_, fun uid => ?_⟩
    · exact nodup_uids_concat (r := r.stored) nodup new
    · show look stored (s.file.records ++ [r.stored]) uid = _
      rw [look_append, look_cons]
      dsimp only
      by_cases same : r.uid = uid
      · rw [if_pos same, if_pos (show r.stored.uid = uid from same), (look_eq_none _).mpr (same ▸ new)]
        rfl
      · rw [if_neg same, if_neg (show ¬r.stored.uid = uid from same)]
        simp [look]

theorem registerKeyword_again {names : Registry} {bit : BitVec 32}
    (registered : registerKeyword registry name = some (bit, registry')) (known : registry' <+: names) :
    registerKeyword names name = some (bit, names) := by
  obtain ⟨old, rfl, -⟩ := registerKeyword_eq_some_iff.mp registered
  exact registerKeyword_eq_some_iff.mpr ⟨old.mono known, (keywordBit_of_grown old known).symm, .inl rfl⟩

theorem keywordsBitmaskFor_again {names : Registry} {bits : BitVec 32}
    (registered : keywordsBitmaskFor registry [name] = some (bits, registry'))
    (known : registry' <+: names) : keywordsBitmaskFor names [name] = some (bits, names) := by
  obtain ⟨bit, middle, rest, first, tail, rfl⟩ := keywordsBitmaskFor_cons_eq_some registered
  cases tail
  rw [keywordsBitmaskFor_cons, registerKeyword_again first known]
  rfl

/-- A record under a registry that only grows writes what it writes under the last one. -/
theorem applyTx_writes {tx : TxRecord} {names : Registry} (nodup : s.uids.Nodup)
    (applied : applyTx s tx = some s') (known : s'.keywords <+: names) :
    s'.uids.Nodup ∧ ∀ uid, look stored s'.file.records uid =
      tx.write names uid (look stored s.file.records uid) := by
  cases tx with
  | modseqUpdate updates =>
    cases applied
    exact applyModseq_acts.foldl nodup updates
  | flagUpdate updates =>
    cases applied
    exact applyFlags_acts.foldl nodup updates
  | expungeGUID expunges =>
    cases applied
    exact applyExpunge_acts.foldl nodup expunges
  | headerUpdate offset value =>
    cases applied
    exact ⟨nodup, fun _ => rfl⟩
  | append records =>
    cases applied
    exact applyAppend_acts.foldl nodup records
  | keywordUpdate modify name uid1 uid2 =>
    refine ⟨applyKeyword_uids applied ▸ nodup, fun uid => ?_⟩
    obtain ⟨found, found', rfl⟩ := Option.map_eq_some_iff.mp applied
    have again : keywordsBitmaskFor names [name] = some (found.1, names) :=
      keywordsBitmaskFor_again found' known
    simp only [write, again, Option.map_some, Option.getD_some]
    exact look_mapRange stored s.file.records uid uid1 uid2 _ _ (fun _ => rfl) fun _ => rfl
  | keywordReset uid1 uid2 =>
    cases applied
    have same : (s.applyKeywordReset uid1 uid2).uids = s.uids := map_uid_mapRange _ _ _ fun _ => rfl
    exact ⟨same ▸ nodup, fun uid =>
      look_mapRange stored s.file.records uid uid1 uid2 _ _ (fun _ => rfl) fun _ => rfl⟩

theorem applyTxs_writes {names : Registry} (nodup : s.uids.Nodup)
    (applied : applyTxs s txs = (s', true)) (known : s'.keywords <+: names) :
    s'.uids.Nodup ∧ ∀ uid, look stored s'.file.records uid =
      txs.foldl (write names uid) (look stored s.file.records uid) := by
  induction txs generalizing s with
  | nil =>
    cases applied
    exact ⟨nodup, fun _ => rfl⟩
  | cons tx txs ih =>
    obtain ⟨middle, first, applied⟩ := applyTxs_cons applied
    have grew := applyTxs_keywords_grow middle txs
    rw [applied] at grew
    obtain ⟨next, shows⟩ := applyTx_writes nodup first (grew.trans known)
    obtain ⟨last, rest⟩ := ih next applied
    refine ⟨last, fun uid => ?_⟩
    rw [rest, shows]
    rfl

/-- What a run of log records does to the message with this UID. -/
def actAll (uid : ℕ) (txs : List TxRecord) (m : Option Record) : Option Record :=
  txs.foldl (act uid) m

theorem actAll_append (uid : ℕ) (txs more : List TxRecord) (m : Option Record) :
    actAll uid (txs ++ more) m = actAll uid more (actAll uid txs m) := List.foldl_append

theorem applyTxs_messages (nodup : s.uids.Nodup) (applied : applyTxs s txs = (s', true)) :
    s'.uids.Nodup ∧ ∀ uid, message s'.file.records uid = actAll uid txs (message s.file.records uid) := by
  obtain ⟨last, shows⟩ := applyTxs_writes nodup applied (prefix_refl _)
  refine ⟨last, fun uid => ?_⟩
  rw [message_eq_look, shows, message_eq_look]
  exact (foldl_hom (Option.map bare) fun m tx => (tx.write_bare _ uid m).symm).symm

theorem replayGroups_messages {c c' : Content} {groups : List Group}
    (nodup : (c.file.records.map (·.uid)).Nodup) (replayed : replayGroups c groups = some c') :
    (c'.file.records.map (·.uid)).Nodup ∧
      ∀ uid, message c'.file.records uid = actAll uid groups.flatten (message c.file.records uid) := by
  obtain ⟨s, applied, rfl⟩ := replayGroups_eq_some replayed
  exact applyTxs_messages (s := c.startReplay) nodup applied

end Replay

section Shape

/-- Flags and modseq changed, the rest kept. -/
def Record.touch (r : Record) (flags : MailFlag → MailFlag) (modseq : ℕ → ℕ) : Record :=
  { r with flags := flags r.flags, modseq := modseq r.modseq }

namespace TxRecord

variable {uid : ℕ} {tx : TxRecord}

/-- Steps that each leave a value or settle it leave it together or settle it. -/
theorem foldl_settles {δ : Type} {f : δ → β → δ} (settles : ∀ b, (∀ x, f x b = x) ∨ ∃ v, ∀ x, f x b = v)
    (l : List β) : (∀ x, l.foldl f x = x) ∨ ∃ v, ∀ x, l.foldl f x = v := by
  induction l with
  | nil => exact .inl fun _ => rfl
  | cons b l ih =>
    rcases ih with same | ⟨v, constant⟩
    · simpa only [foldl_cons, same] using settles b
    · exact .inr ⟨v, fun x => constant _⟩

/-- A record that does not name the UID leaves its message. -/
theorem act_of_not_names (other : ¬tx.Names uid) (m : Option Record) : tx.act uid m = m := by
  cases tx with
  | modseqUpdate updates =>
    exact foldl_of_fixed fun u member => if_neg fun same => other ⟨u, member, same⟩
  | flagUpdate updates =>
    exact foldl_of_fixed fun u member => if_neg fun inside => other ⟨u, member, inside⟩
  | expungeGUID expunges =>
    exact foldl_of_fixed fun e member => if_neg fun same => other ⟨e, member, same⟩
  | append records =>
    exact foldl_of_fixed fun r member => if_neg fun same => other ⟨r, member, same⟩
  | _ => rfl

theorem Appends.names (appends : tx.Appends uid) : tx.Names uid := by
  cases tx <;> first | exact appends | exact appends.elim

theorem Expunges.names (expunges : tx.Expunges uid) : tx.Names uid := by
  cases tx <;> first | exact expunges | exact expunges.elim

/-- Only an append brings a message. -/
theorem act_none (kept : ¬tx.Appends uid) : tx.act uid none = none := by
  cases tx with
  | modseqUpdate updates => exact foldl_fixed' (fun u => by split <;> rfl) _
  | flagUpdate updates => exact foldl_fixed' (fun u => by split <;> rfl) _
  | expungeGUID expunges => exact foldl_fixed' (fun e => by split <;> rfl) _
  | append records =>
    exact act_of_not_names (show ¬(append records).Names uid from kept) none
  | _ => rfl

/-- An expunge leaves nothing. -/
theorem act_of_expunges (expunges : tx.Expunges uid) (m : Option Record) : tx.act uid m = none := by
  cases tx with
  | expungeGUID es =>
    obtain ⟨e, member, same⟩ := expunges
    obtain ⟨before, after, rfl⟩ := append_of_mem member
    show (before ++ e :: after).foldl _ m = none
    rw [foldl_append, foldl_cons, if_pos same]
    exact foldl_fixed' (fun _ => ite_self _) after
  | _ => exact expunges.elim

/-- A record that does not remove a message changes at most its flags and its modseq. -/
theorem act_some (kept : ¬tx.Expunges uid) : ∃ flags modseq, (¬tx.Flags uid → flags = id) ∧
      ∀ r : Record, tx.act uid (some r) = some (r.touch flags modseq) := by
  cases tx with
  | modseqUpdate updates =>
    refine ⟨id, fun modseq => updates.foldl (fun n u => if u.1 = uid then u.2 else n) modseq,
      fun _ => rfl, fun r => ?_⟩
    refine foldl_hom (fun n => some (r.touch id fun _ => n)) fun n u => ?_
    split <;> rfl
  | flagUpdate updates =>
    refine ⟨fun flags => updates.foldl (fun f u => if u.uid1 ≤ uid ∧ uid ≤ u.uid2 then
      (f ||| u.add) &&& ~~~u.remove else f) flags, id, fun other => ?_, fun r => ?_⟩
    · funext flags
      exact foldl_of_fixed fun u member => if_neg fun inside => other ⟨u, member, inside⟩
    · refine foldl_hom (fun f => some (r.touch (fun _ => f) id)) fun f u => ?_
      split <;> rfl
  | expungeGUID expunges =>
    exact ⟨id, id, fun _ => rfl, fun r =>
      act_of_not_names (show ¬(expungeGUID expunges).Names uid from kept) _⟩
  | append records =>
    refine ⟨id, id, fun _ => rfl, fun r => ?_⟩
    exact foldl_fixed' (fun r' => ite_self _) records
  | _ => exact ⟨id, id, fun _ => rfl, fun _ => rfl⟩

end TxRecord

variable {uid : ℕ} {txs : List TxRecord}

theorem actAll_of_not_names (other : ∀ tx ∈ txs, ¬tx.Names uid) (m : Option Record) :
    actAll uid txs m = m :=
  foldl_of_fixed fun tx member => act_of_not_names (other tx member) m

theorem actAll_some (kept : ∀ tx ∈ txs, ¬tx.Expunges uid) :
    ∃ flags modseq, ((∀ tx ∈ txs, ¬tx.Flags uid) → flags = id) ∧
      ∀ r : Record, actAll uid txs (some r) = some (r.touch flags modseq) := by
  induction txs with
  | nil => exact ⟨id, id, fun _ => rfl, fun _ => rfl⟩
  | cons tx txs ih =>
    obtain ⟨flags, modseq, plain, first⟩ := act_some (kept tx (.head _))
    obtain ⟨flags', modseq', plain', rest⟩ := ih fun tx member =>
      kept tx (.tail _ member)
    refine ⟨flags' ∘ flags, modseq' ∘ modseq, fun none_ => ?_, fun r => ?_⟩
    · rw [plain (none_ tx (.head _)), plain' fun tx member => none_ tx (.tail _ member)]
      rfl
    · show actAll uid txs (tx.act uid (some r)) = _
      rw [first, rest]
      rfl

/-- After an expunge a run of records forgets what was there before. -/
theorem actAll_const (expunged : ∃ tx ∈ txs, tx.Expunges uid) (m m' : Option Record) :
    actAll uid txs m = actAll uid txs m' := by
  obtain ⟨tx, member, expunges⟩ := expunged
  obtain ⟨before, after, rfl⟩ := append_of_mem member
  have forgets : ∀ m, actAll uid (before ++ tx :: after) m = actAll uid after none := by
    intro m
    rw [actAll_append]
    show actAll uid after (tx.act uid _) = _
    rw [act_of_expunges expunges]
  rw [forgets, forgets]

/-- No UID is appended after the log has named it. -/
def Orderly (txs : List TxRecord) : Prop :=
  ∀ before tx after, txs = before ++ tx :: after → ∀ uid, tx.Appends uid →
    ∀ earlier ∈ before, ¬earlier.Names uid

theorem Orderly.nil : Orderly [] := by
  intro before tx after split
  simp at split

/-- In an orderly log a message that was expunged is gone. -/
theorem Orderly.actAll_of_expunged (orderly : Orderly txs) (expunged : ∃ tx ∈ txs, tx.Expunges uid)
    (m : Option Record) : actAll uid txs m = none := by
  obtain ⟨tx, member, expunges⟩ := expunged
  obtain ⟨before, after, rfl⟩ := append_of_mem member
  rw [actAll_append]
  show actAll uid after (tx.act uid _) = none
  rw [act_of_expunges expunges]
  refine foldl_of_fixed fun later inside => act_none fun appends => ?_
  obtain ⟨between, rest, rfl⟩ := append_of_mem inside
  have earlier := orderly (before ++ tx :: between) later rest (by simp) uid appends tx (by simp)
  exact earlier expunges.names

/-- Records that append nothing keep a log orderly. -/
theorem Orderly.append (orderly : Orderly txs) {more : List TxRecord}
    (fresh : ∀ before tx after, more = before ++ tx :: after → ∀ uid, tx.Appends uid →
      ∀ earlier ∈ txs ++ before, ¬earlier.Names uid) : Orderly (txs ++ more) := by
  intro before tx after split uid appends earlier member
  rcases append_eq_append_iff.mp split with ⟨gap, rfl, tail⟩ | ⟨gap, whole, tail⟩
  · exact fresh gap tx after tail uid appends earlier member
  cases gap with
  | nil =>
    rw [append_nil] at whole
    rw [nil_append] at tail
    exact fresh [] tx after tail.symm uid appends earlier (by simpa [whole] using member)
  | cons first gap =>
    cases tail
    exact orderly before tx gap whole uid appends earlier member

end Shape

section Theory

/-- The messages of a folder by UID. -/
abbrev MessageMap := ℕ → Option Record

/-- Copies have to show the same messages. An entry may be appended when replaying it once more
behind the log changes nothing. -/
def messages : Journal.Theory Content Group MessageMap where
  replay := replayGroups
  advance g group uid := actAll uid group (g uid)
  Rel c g := (c.file.records.map (·.uid)).Nodup ∧ ∀ uid, message c.file.records uid = g uid
  Core c g := (c.file.records.map (·.uid)).Nodup ∧ ∀ uid, message c.file.records uid = g uid
  Ok g groups group := Orderly (groups ++ [group]).flatten ∧
    ∀ uid, actAll uid (groups ++ [group]).flatten (actAll uid group (g uid)) = actAll uid group (g uid)
  Settled g groups := Orderly groups.flatten ∧ ∀ uid, actAll uid groups.flatten (g uid) = g uid

theorem messages_after (g : MessageMap) (groups : List Group) (uid : ℕ) :
    messages.after g groups uid = actAll uid groups.flatten (g uid) := by
  induction groups generalizing g with
  | nil => rfl
  | cons group groups ih =>
    rw [flatten_cons, actAll_append]
    exact ih _

theorem messages_lawful : messages.Lawful where
  caughtUp := by
    intro a g rel
    have same : messages.replay a [] = some a.startReplay.finish := rfl
    have good := rel _ same
    exact good
  core rel := rel
  follow := by
    intro a b g es more rel _ replayed
    obtain ⟨nodup, shows⟩ := replayGroups_messages rel.1 replayed
    refine ⟨nodup, fun uid => ?_⟩
    rw [shows, rel.2, messages_after]
  absorb := by
    intro a b g es more settled rel _ replayed
    obtain ⟨nodup, shows⟩ := replayGroups_messages rel.1 replayed
    refine ⟨nodup, fun uid => ?_⟩
    rw [shows, rel.2, messages_after, flatten_append, actAll_append, settled.2]
  settle _ ok := ok

theorem message_stored (records : List Record) (uid : ℕ) :
    message (records.map stored) uid = message records uid := by
  have mapped := look_map bare records uid stored id (fun _ => rfl) fun _ _ _ => rfl
  rwa [Option.map_id] at mapped

theorem messages_stable : Stable messages := by
  intro c c' g same rel
  have records : c.file.records.map stored = c'.file.records.map stored :=
    congrArg (fun e => e.2.2.2.2.2.2.1) same
  have uids : c.file.records.map (·.uid) = c'.file.records.map (·.uid) := by
    have stored := congrArg (map (·.uid)) records
    simpa [map_map, Function.comp_def] using stored
  refine ⟨uids ▸ rel.1, fun uid => ?_⟩
  rw [← message_stored, ← records, message_stored]
  exact rel.2 uid

variable {g : MessageMap} {groups : List Group} {group : Group}

/-- What one group does to one message: nothing, new flags and a new modseq, or remove it. -/
inductive Overwrites (uid : ℕ) (group : Group) : Prop
  | leaves (same : ∀ m, actAll uid group m = m)
  | stamps (flags : MailFlag) (modseq : ℕ)
      (stamped : ∀ m, actAll uid group m = m.map fun r => r.touch (fun _ => flags) fun _ => modseq)
  | removes (gone : ∀ m, actAll uid group m = none)

variable (settled : messages.Settled g groups)

include settled

/-- A group that overwrites may follow any settled log. -/
theorem ok_of_overwrites (appendsNone : ∀ tx ∈ group, ∀ uid, ¬tx.Appends uid)
    (overwrites : ∀ uid, Overwrites uid group) : messages.Ok g groups group := by
  obtain ⟨orderly, fixed⟩ := settled
  have flat : (groups ++ [group]).flatten = groups.flatten ++ group := by simp
  refine ⟨?_, fun uid => ?_⟩
  · rw [flat]
    refine orderly.append fun before tx after split uid appends => ?_
    exact absurd appends (appendsNone tx (by simp [split]) uid)
  · rw [flat, actAll_append]
    cases overwrites uid with
    | leaves same => rw [same, same, fixed]
    | removes gone => rw [gone, gone]
    | stamps flags modseq stamped =>
      have before := fixed uid
      cases found : g uid with
      | none =>
        rw [found] at before
        rw [stamped, stamped, Option.map_none, before]
        rfl
      | some r =>
        rw [found] at before
        rw [stamped, stamped, Option.map_some]
        by_cases expunged : ∃ tx ∈ groups.flatten, tx.Expunges uid
        · rw [actAll_const expunged _ (some r), before]
          rfl
        have kept : ∀ tx ∈ groups.flatten, ¬tx.Expunges uid := fun tx member expunges =>
          expunged ⟨tx, member, expunges⟩
        obtain ⟨flags', modseq', _, touched⟩ := actAll_some kept
        rw [touched]
        rfl

/-- A message that is new to folder and log may be appended. -/
theorem ok_of_appends {uid : ℕ}
    (shape : ∃ rest, group = .append [r] :: rest ∧ ∀ tx ∈ rest, ∀ uid, ¬tx.Appends uid)
    (named : r.uid = uid) (absent : g uid = none) (unnamed : ∀ tx ∈ groups.flatten, ¬tx.Names uid)
    (others : ∀ other, other ≠ uid → ∀ m, actAll other group m = m)
    (again : ∀ m, actAll uid group none = some m → actAll uid group (some m) = some m) :
    messages.Ok g groups group := by
  obtain ⟨orderly, fixed⟩ := settled
  have flat : (groups ++ [group]).flatten = groups.flatten ++ group := by simp
  refine ⟨?_, fun other => ?_⟩
  · rw [flat]
    obtain ⟨rest, rfl, plain⟩ := shape
    refine orderly.append fun before tx after split other appends earlier member => ?_
    cases before with
    | nil =>
      cases split
      obtain ⟨r', inside, rfl⟩ := appends
      obtain rfl := mem_singleton.mp inside
      rw [named]
      exact unnamed earlier (by simpa using member)
    | cons first before =>
      obtain ⟨_, rest'⟩ := cons.inj split
      exact absurd appends (plain tx (by simp [rest']) other)
  · rw [flat, actAll_append]
    by_cases same : other = uid
    · subst same
      rw [absent, actAll_of_not_names unnamed]
      cases added : actAll other group none with
      | none => rw [added]
      | some m => exact again m added
    · rw [others other same, others other same, fixed]

/-- A change of messages behind the log's back is kept by a replay when it leaves the modseq alone,
and the flags of messages whose flags the log writes. -/
theorem settled_of_edit {edit : ℕ → Record → Record} (keeps : ∀ uid r, (edit uid r).modseq = r.modseq)
    (flags : ∀ uid, (∃ tx ∈ groups.flatten, tx.Flags uid) → ∀ r, g uid = some r →
      (edit uid r).flags = r.flags) : messages.Settled (fun uid => (g uid).map (edit uid)) groups := by
  obtain ⟨orderly, fixed⟩ := settled
  refine ⟨orderly, fun uid => ?_⟩
  have before := fixed uid
  show actAll uid groups.flatten ((g uid).map (edit uid)) = (g uid).map (edit uid)
  cases found : g uid with
  | none =>
    rw [found] at before
    exact before
  | some r =>
    rw [found] at before
    have kept : ∀ tx ∈ groups.flatten, ¬tx.Expunges uid := by
      intro tx member expunges
      rw [orderly.actAll_of_expunged ⟨tx, member, expunges⟩] at before
      cases before
    obtain ⟨flags', modseq', plain, touched⟩ := actAll_some kept
    rw [touched] at before
    have same : r.touch flags' modseq' = r := Option.some.inj before
    have sameModseq : modseq' r.modseq = r.modseq := congrArg modseq same
    have sameFlags : flags' (edit uid r).flags = (edit uid r).flags := by
      by_cases written : ∃ tx ∈ groups.flatten, tx.Flags uid
      · rw [flags uid written r found]
        exact congrArg Record.flags same
      · rw [plain fun tx member writes => written ⟨tx, member, writes⟩]
        rfl
    rw [Option.map_some, touched]
    refine congrArg some ?_
    show { edit uid r with flags := flags' (edit uid r).flags, modseq := modseq' (edit uid r).modseq } =
      edit uid r
    rw [sameFlags, keeps, sameModseq, ← keeps uid]

end Theory

end Yarilo.FileIndex

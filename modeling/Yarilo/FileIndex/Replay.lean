import Yarilo.FileIndex.Transaction

/-! # What a replay does

Projections of a replay: the parts of the file a transaction moves are followed one by one, each by
a step function on that part alone. A replay that was refused once is refused again, because the
names before the refused one are registered by then.
-/

namespace Yarilo.FileIndex

open Library Replay List

variable {σ β δ : Type} {s s' : Replay} {tx : TxRecord} {txs : List TxRecord}

theorem foldl_frame (proj : σ → δ) (f : σ → β → σ) (frame : ∀ s b, proj (f s b) = proj s) (s : σ)
    (l : List β) : proj (l.foldl f s) = proj s :=
  foldlRecOn l f (motive := fun t => proj t = proj s) rfl fun t same b _ => (frame t b).trans same

/-- A loop none of whose rounds moves its start. -/
theorem foldl_of_fixed {f : σ → β → σ} {s : σ} {l : List β} (fixed : ∀ b ∈ l, f s b = s) :
    l.foldl f s = s :=
  foldlRecOn l f (motive := (· = s)) rfl fun t same b member => by rw [same, fixed b member]

theorem foldl_follow (proj : σ → δ) (f : σ → β → σ) (step : δ → β → δ)
    (follow : ∀ s b, proj (f s b) = step (proj s) b) (s : σ) (l : List β) :
    proj (l.foldl f s) = l.foldl step (proj s) :=
  (foldl_hom proj fun s b => (follow s b).symm).symm

namespace Replay

/-- The parts of a file no log record touches. -/
def fixed (s : Replay) : ℕ × ℕ × ℕ × Option LineageHdr × Option ℕ × List ExtName × HdrVsize :=
  (s.file.header.indexID, s.file.header.uidValidity, s.file.ext.highestModSeq, s.file.ext.lineage,
    s.file.ext.expungeFloor, s.file.ext.order, s.file.ext.hdrVsize)

def nextUID (s : Replay) : ℕ := s.file.header.nextUID
def uids (s : Replay) : List ℕ := s.file.records.map (·.uid)

end Replay

theorem map_view_updateFirst {view : Record → β} {uid : ℕ} (change : Record → Record)
    (keeps : ∀ r, view (change r) = view r) (records : List Record) :
    (updateFirst uid change records).map view = records.map view := by
  induction records with
  | nil => rfl
  | cons r rest ih =>
    unfold updateFirst
    split
    · simp [keeps]
    · simp [ih]

/-- Removes the first occurrence of a UID. -/
theorem map_uid_removeFirst (uid : ℕ) (records : List Record) :
    (removeFirst uid records).map (·.uid) = (records.map (·.uid)).erase uid := by
  induction records with
  | nil => rfl
  | cons r rest ih =>
    unfold removeFirst
    split
    · rename_i same
      simp [same]
    · rename_i other
      rw [map_cons, map_cons, erase_cons_tail (by simpa using other), ih]

theorem removeFirst_of_find_none {uid : ℕ} {records : List Record}
    (absent : records.find? (·.uid = uid) = none) : removeFirst uid records = records := by
  induction records with
  | nil => rfl
  | cons r rest ih =>
    rw [find?_cons] at absent
    unfold removeFirst
    split at absent
    · cases absent
    · rename_i other
      rw [if_neg (by simpa using other), ih absent]

section Frame

theorem applyModseq_fixed (s : Replay) (u : ℕ × ℕ) : (s.applyModseq u).fixed = s.fixed := rfl

theorem applyFlags_fixed (s : Replay) (u : FlagUpdate) : (s.applyFlags u).fixed = s.fixed := rfl

theorem applyExpunge_fixed (s : Replay) (e : Expunge) : (s.applyExpunge e).fixed = s.fixed := by
  unfold applyExpunge
  dsimp only
  split <;> simp [fixed, mapFile, Header.countExpunge]

theorem applyHeader_fixed (s : Replay) (offset value : ℕ) : (s.applyHeader offset value).fixed = s.fixed := by
  unfold applyHeader mapFile fixed
  split_ifs <;> rfl

theorem applyAppend_fixed (s : Replay) (r : Record) : (s.applyAppend r).fixed = s.fixed := by
  unfold applyAppend
  split <;> simp [fixed, mapFile, Header.countAppend]

theorem applyKeyword_uids {modify : KeywordModify} {name : Keyword} {uid1 uid2 : ℕ}
    (success : s.applyKeyword modify name uid1 uid2 = some s') : s'.uids = s.uids := by
  obtain ⟨_, _, rfl⟩ := Option.map_eq_some_iff.mp success
  simp only [uids, map_map]
  apply map_congr_left
  intro r _
  simp only [Function.comp]
  split <;> rfl

theorem applyTx_fixed (success : applyTx s tx = some s') : s'.fixed = s.fixed := by
  cases tx with
  | modseqUpdate updates =>
    cases success
    exact foldl_frame _ _ applyModseq_fixed _ _
  | flagUpdate updates =>
    cases success
    exact foldl_frame _ _ applyFlags_fixed _ _
  | expungeGUID expunges =>
    cases success
    exact foldl_frame _ _ applyExpunge_fixed _ _
  | headerUpdate offset value =>
    cases success
    exact applyHeader_fixed _ _ _
  | append records =>
    cases success
    exact foldl_frame _ _ applyAppend_fixed _ _
  | keywordUpdate modify name uid1 uid2 =>
    obtain ⟨_, _, rfl⟩ := Option.map_eq_some_iff.mp success
    rfl
  | keywordReset uid1 uid2 =>
    cases success
    rfl

end Frame

section Sequence

theorem applyTxs_cons {tx : TxRecord} (applied : applyTxs s (tx :: txs) = (s', true)) :
    ∃ middle, applyTx s tx = some middle ∧ applyTxs middle txs = (s', true) := by
  unfold applyTxs at applied
  split at applied
  · cases applied
  · exact ⟨_, ‹_›, applied⟩

theorem applyTxs_append (s : Replay) (txs more : List TxRecord) :
    applyTxs s (txs ++ more) =
      if (applyTxs s txs).2 then applyTxs (applyTxs s txs).1 more else applyTxs s txs := by
  induction txs generalizing s with
  | nil => rfl
  | cons tx txs ih =>
    rw [cons_append, applyTxs, applyTxs]
    cases applyTx s tx with
    | none => rfl
    | some middle => exact ih middle

/-- A projection every record moves by its own step is moved by a sequence of records. -/
theorem applyTxs_follow (proj : Replay → δ) {step : δ → TxRecord → δ}
    (follow : ∀ {s s' tx}, applyTx s tx = some s' → proj s' = step (proj s) tx)
    (success : applyTxs s txs = (s', true)) : proj s' = txs.foldl step (proj s) := by
  induction txs generalizing s with
  | nil =>
    cases success
    rfl
  | cons tx txs ih =>
    obtain ⟨middle, applied, rest⟩ := applyTxs_cons success
    rw [ih rest, foldl_cons, follow applied]

/-- A projection no record moves survives even a refused sequence. -/
theorem applyTxs_frame (proj : Replay → δ)
    (frame : ∀ {s s' tx}, applyTx s tx = some s' → proj s' = proj s) (s : Replay) (txs : List TxRecord) :
    proj (applyTxs s txs).1 = proj s := by
  induction txs generalizing s with
  | nil => rfl
  | cons tx txs ih =>
    unfold applyTxs
    split
    · rfl
    · rename_i middle applied
      rw [ih, frame applied]

theorem applyTxs_fixed (s : Replay) (txs : List TxRecord) : (applyTxs s txs).1.fixed = s.fixed :=
  applyTxs_frame Replay.fixed (fun success => applyTx_fixed success) s txs

end Sequence

section Counters

/-- What a record does to the next UID. -/
def nextUIDStep (n : ℕ) : TxRecord → ℕ
  | .headerUpdate offset value => if offset = 28 then value else n
  | _ => n

/-- What a record does to the greatest modseq met. -/
def modseqStep (n : ℕ) : TxRecord → ℕ
  | .modseqUpdate updates => updates.foldl (fun n u => max n u.2) n
  | .expungeGUID expunges => expunges.foldl (fun n e => max n (e.modseq.getD 0)) n
  | _ => n

theorem nextUIDStep_mono (tx : TxRecord) : Monotone (nextUIDStep · tx) := by
  intro m n le
  cases tx with
  | headerUpdate offset value =>
    simp only [nextUIDStep]
    split
    · exact Nat.le_refl _
    · exact le
  | _ => exact le

/-- What a record does to the header's flags. -/
def flagsStep (flags : BitVec 32) : TxRecord → BitVec 32
  | .headerUpdate offset value => if offset = 20 then BitVec.ofNat 32 value else flags
  | _ => flags

/-- A part of the header that the counters leave alone follows the header records. -/
theorem applyTx_header (proj : Header → δ)
    (counts : ∀ h r, proj (.countAppend h r) = proj h ∧ proj (.countExpunge h r) = proj h)
    (success : applyTx s tx = some s') :
    proj s'.file.header = match tx with
      | .headerUpdate offset value => proj (s.applyHeader offset value).file.header
      | _ => proj s.file.header := by
  have expunge (s : Replay) (e : Expunge) : proj (s.applyExpunge e).file.header = proj s.file.header := by
    unfold applyExpunge
    dsimp only
    split
    · rfl
    · exact (counts _ _).2
  have append (s : Replay) (r : Record) : proj (s.applyAppend r).file.header = proj s.file.header := by
    unfold applyAppend
    split
    · rfl
    · exact (counts _ _).1
  cases tx with
  | modseqUpdate updates =>
    cases success
    exact foldl_frame (fun s : Replay => proj s.file.header) applyModseq (fun _ _ => rfl) s updates
  | flagUpdate updates =>
    cases success
    exact foldl_frame (fun s : Replay => proj s.file.header) applyFlags (fun _ _ => rfl) s updates
  | expungeGUID expunges =>
    cases success
    exact foldl_frame (fun s : Replay => proj s.file.header) applyExpunge expunge s expunges
  | headerUpdate offset value =>
    cases success
    rfl
  | append records =>
    cases success
    exact foldl_frame (fun s : Replay => proj s.file.header) applyAppend append s records
  | keywordUpdate modify name uid1 uid2 =>
    obtain ⟨_, _, rfl⟩ := Option.map_eq_some_iff.mp success
    rfl
  | keywordReset uid1 uid2 =>
    cases success
    rfl

theorem applyTx_nextUID (success : applyTx s tx = some s') : s'.nextUID = nextUIDStep s.nextUID tx := by
  rw [nextUID, applyTx_header Header.nextUID (fun _ _ => ⟨rfl, rfl⟩) success]
  cases tx with
  | headerUpdate offset value =>
    simp only [applyHeader, mapFile, nextUIDStep]
    split_ifs <;> first | rfl | omega
  | _ => rfl

theorem applyTx_flags (success : applyTx s tx = some s') :
    s'.file.header.flags = flagsStep s.file.header.flags tx := by
  rw [applyTx_header Header.flags (fun _ _ => ⟨rfl, rfl⟩) success]
  cases tx with
  | headerUpdate offset value =>
    simp only [applyHeader, mapFile, flagsStep]
    split_ifs <;> rfl
  | _ => rfl

private theorem applyExpunge_maxModseq (s : Replay) (e : Expunge) :
    (s.applyExpunge e).maxModseq = max s.maxModseq (e.modseq.getD 0) := by
  unfold applyExpunge
  dsimp only
  split <;> simp [mapFile]

private theorem applyAppend_maxModseq (s : Replay) (r : Record) :
    (s.applyAppend r).maxModseq = s.maxModseq := by
  unfold applyAppend
  split <;> simp [mapFile]

theorem applyTx_maxModseq (success : applyTx s tx = some s') : s'.maxModseq = modseqStep s.maxModseq tx := by
  cases tx with
  | modseqUpdate updates =>
    cases success
    exact foldl_follow (·.maxModseq) applyModseq (fun n u => max n u.2) (fun _ _ => rfl) s updates
  | flagUpdate updates =>
    cases success
    exact foldl_frame (·.maxModseq) applyFlags (fun _ _ => rfl) s updates
  | expungeGUID expunges =>
    cases success
    exact foldl_follow (·.maxModseq) applyExpunge (fun n e => max n (e.modseq.getD 0))
      applyExpunge_maxModseq s expunges
  | headerUpdate offset value =>
    cases success
    rfl
  | append records =>
    cases success
    exact foldl_frame (·.maxModseq) applyAppend applyAppend_maxModseq s records
  | keywordUpdate modify name uid1 uid2 =>
    obtain ⟨_, _, rfl⟩ := Option.map_eq_some_iff.mp success
    rfl
  | keywordReset uid1 uid2 =>
    cases success
    rfl

/-- A running maximum is below a limit as soon as its start and what it meets are. -/
theorem foldl_max_le {f : β → ℕ} {n limit : ℕ} {l : List β} :
    l.foldl (fun n b => max n (f b)) n ≤ limit ↔ n ≤ limit ∧ ∀ b ∈ l, f b ≤ limit := by
  induction l generalizing n with
  | nil => simp
  | cons b l ih => rw [foldl_cons, ih, max_le_iff, forall_mem_cons, and_assoc]

private theorem foldl_max_max (f : β → ℕ) (n m : ℕ) (l : List β) :
    l.foldl (fun n b => max n (f b)) (max n m) = max n (l.foldl (fun n b => max n (f b)) m) := by
  induction l generalizing m with
  | nil => rfl
  | cons b l ih => rw [foldl_cons, foldl_cons, Nat.max_assoc, ih]

theorem modseqStep_max (n m : ℕ) (tx : TxRecord) : modseqStep (max n m) tx = max n (modseqStep m tx) := by
  cases tx with
  | modseqUpdate updates => exact foldl_max_max (·.2) n m updates
  | expungeGUID expunges => exact foldl_max_max (fun e : Expunge => e.modseq.getD 0) n m expunges
  | _ => rfl

theorem foldl_modseqStep_max (n m : ℕ) (txs : List TxRecord) :
    txs.foldl modseqStep (max n m) = max n (txs.foldl modseqStep m) := by
  induction txs generalizing m with
  | nil => rfl
  | cons tx txs ih => rw [foldl_cons, foldl_cons, modseqStep_max, ih]

end Counters

section Refused

/-- What a record does to the registry; `none` when it refuses its name. -/
def keywordStep (registry : Registry) : TxRecord → Option Registry
  | .keywordUpdate _ name _ _ => (keywordsBitmaskFor registry [name]).map (·.2)
  | _ => some registry

private theorem applyExpunge_keywords (s : Replay) (e : Expunge) :
    (s.applyExpunge e).keywords = s.keywords := by
  unfold applyExpunge
  dsimp only
  split <;> simp [mapFile]

private theorem applyAppend_keywords (s : Replay) (r : Record) : (s.applyAppend r).keywords = s.keywords := by
  unfold applyAppend
  split <;> simp [mapFile]

theorem applyTx_keywords (s : Replay) (tx : TxRecord) :
    (applyTx s tx).map (·.keywords) = keywordStep s.keywords tx := by
  cases tx with
  | modseqUpdate updates =>
    exact congrArg some (foldl_frame (·.keywords) applyModseq (fun _ _ => rfl) s updates)
  | flagUpdate updates =>
    exact congrArg some (foldl_frame (·.keywords) applyFlags (fun _ _ => rfl) s updates)
  | expungeGUID expunges =>
    exact congrArg some
      (foldl_frame (·.keywords) applyExpunge applyExpunge_keywords s expunges)
  | headerUpdate offset value => rfl
  | append records =>
    exact congrArg some (foldl_frame (·.keywords) applyAppend applyAppend_keywords s records)
  | keywordUpdate modify name uid1 uid2 =>
    simp only [applyTx, applyKeyword, keywordStep, Option.map_map]
    rfl
  | keywordReset uid1 uid2 => rfl

theorem applyTxs_accepted (s : Replay) (txs : List TxRecord) :
    (applyTxs s txs).2 = (txs.foldlM keywordStep s.keywords).isSome := by
  induction txs generalizing s with
  | nil => rfl
  | cons tx txs ih =>
    have step := applyTx_keywords s tx
    rw [applyTxs, foldlM_cons, ← step]
    cases applyTx s tx with
    | none => rfl
    | some middle => exact ih middle

theorem keywordStep_grows {registry registry' : Registry}
    (success : keywordStep registry tx = some registry') :
    registry <+: registry' ∧ ∀ registry'', registry' <+: registry'' →
      keywordStep registry'' tx = some registry'' := by
  cases tx with
  | keywordUpdate modify name uid1 uid2 =>
    obtain ⟨⟨bits, middle⟩, known, rfl⟩ := Option.map_eq_some_iff.mp success
    obtain ⟨grew, registered⟩ := keywordsBitmaskFor_spec known
    refine ⟨grew, fun registry'' extends_ => ?_⟩
    obtain ⟨bits', again⟩ := keywordsBitmaskFor_of_registered
      (fun other member => (registered other member).mono extends_)
    simp [keywordStep, again]
  | _ =>
    cases success
    exact ⟨prefix_refl _, fun _ _ => rfl⟩

theorem applyTxs_keywords_grow (s : Replay) (txs : List TxRecord) :
    s.keywords <+: (applyTxs s txs).1.keywords := by
  induction txs generalizing s with
  | nil => exact prefix_refl _
  | cons tx txs ih =>
    unfold applyTxs
    split
    · exact prefix_refl _
    · rename_i middle applied
      have step := applyTx_keywords s tx
      rw [applied] at step
      exact (keywordStep_grows step.symm).1.trans (ih middle)

/-- Retrying with the names already registered stops at the same record. -/
theorem applyTxs_refused_again {t : Replay} (more : List TxRecord)
    (refused : (applyTxs s txs).2 = false) (names : t.keywords = (applyTxs s txs).1.keywords) :
    (applyTxs t (txs ++ more)).2 = false := by
  induction txs generalizing s t with
  | nil => simp [applyTxs] at refused
  | cons tx txs ih =>
    have step := applyTx_keywords s tx
    have step' := applyTx_keywords t tx
    unfold applyTxs at refused names
    cases applied : applyTx s tx with
    | none =>
      rw [applied] at refused names step
      rw [names, ← step, Option.map_none, Option.map_eq_none_iff] at step'
      simp [applyTxs, step']
    | some middle =>
      rw [applied] at refused names step
      have grew := applyTxs_keywords_grow middle txs
      have settled := (keywordStep_grows step.symm).2 _ grew
      rw [names] at step'
      rw [settled, Option.map_eq_some_iff] at step'
      obtain ⟨next, applied', same⟩ := step'
      have rest := ih refused same
      simpa [applyTxs, applied'] using rest

end Refused

end Yarilo.FileIndex

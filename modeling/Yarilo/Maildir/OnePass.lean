import Yarilo.Maildir.Passes

/-! # Reconciliation in one pass

After one reconciliation the records of the index are the messages of `cur/`, and a second one finds
nothing to do, exactly when a few things about the folder and the index before it hold (`OnePass`).
-/

namespace Yarilo.Maildir

open Library FileIndex Folder List Pass
open Mailbox (DirEntry MailDir)

/-- An index whose messages all have filenames. -/
structure NamedIndex where
  state : Local
  distinct : state.ledger.uids.Nodup
  named : ∀ uid ∈ state.ledger.uids, state.ledger.name uid ≠ []

/-- The records of the index are the messages of `cur/`. -/
structure Converged (f : Folder) (before after : List MessageMeta) : Prop where
  /-- No base has two records. -/
  single : (after.map baseOfMessage).Nodup
  /-- The bases with a record are those with a file in `cur/`. -/
  same : ∀ base, base ∈ after.map baseOfMessage ↔
    ∃ name, (⟨name, false⟩ : DirEntry) ∈ f.cur ∧ maildirBase name = base
  /-- A base that had records has kept the lowest UID of them. -/
  lowest : ∀ m ∈ after, ∀ old ∈ before, baseOfMessage old = baseOfMessage m →
    m.uid ≤ old.uid ∧ ∃ first ∈ before, baseOfMessage first = baseOfMessage m ∧ first.uid = m.uid
  /-- A record's filename is a file of `cur/`. -/
  onDisk : ∀ m ∈ after, (⟨m.filename, false⟩ : DirEntry) ∈ f.cur

/-- What one pass over a folder without waiting deliveries needs. -/
structure OnePass (host : Host) (f : Folder) (s : Local) : Prop where
  /-- A record whose base has no file does not have the name of a directory either. -/
  gone : ∀ m ∈ s.fs.getMessages, baseOfMessage m ∈ f.files.map maildirBase ∨
    f.stillOnDisk m.filename = false
  /-- A base with two files has a record. -/
  paired : ∀ a ∈ f.files, ∀ b ∈ f.files, maildirBase a = maildirBase b →
    a = b ∨ maildirBase a ∈ s.fs.getMessages.map baseOfMessage
  /-- The clean check does not pass over records of one base. -/
  unshared : reconcileIsClean s.fs.getMessages (f.scan host) = true → (f.files.map maildirBase).Nodup
  /-- The imports get UIDs of their own. -/
  numbered : ((f.kept s).map (·.1) ++ f.incomingUIDs s).Nodup

/-! ## What stays and what comes in -/

variable {name : Bytes} {host : Host} {g f' : Folder} {s' : Local} {st : SyncStats}

section Outcome

variable {f : Folder} {s : Local} {e : ℕ × Bytes}

/-- The messages after a pass that gives no UID twice. -/
def outcome (f : Folder) (s : Local) : List (ℕ × Bytes) := f.kept s ++ (f.incomingUIDs s).zip (f.incoming s)

theorem lastOf_lawful (files : List Bytes) (base name : Bytes) (found : lastOf files base = some name) :
    maildirBase name = base :=
  (lastOf_eq_some found).2

theorem exists_lastOf {files : List Bytes} (listed : name ∈ files) :
    ∃ last ∈ files, lastOf files (maildirBase name) = some last ∧ maildirBase last = maildirBase name := by
  obtain ⟨last, found⟩ := Option.isSome_iff_exists.mp (lastOf_isSome.mpr (mem_map_of_mem listed))
  obtain ⟨inside, base⟩ := lastOf_eq_some found
  exact ⟨last, inside, found, base⟩

theorem exists_first {files : List Bytes} (listed : name ∈ files) :
    ∃ x, files.find? (maildirBase · = maildirBase x) = some x ∧ maildirBase x = maildirBase name := by
  have first : (files.find? (maildirBase · = maildirBase name)).isSome := by
    rw [find?_isSome]
    exact ⟨name, listed, by simp⟩
  obtain ⟨x, found⟩ := Option.isSome_iff_exists.mp first
  have base : maildirBase x = maildirBase name := by simpa using find?_some found
  exact ⟨x, base ▸ found, base⟩

theorem mem_incoming (member : name ∈ f.incoming s) :
    name ∈ f.files ∧ maildirBase name ∉ (mailOf s).map baseOf := by
  obtain ⟨listed, new⟩ := mem_imports member
  refine ⟨listed, fun old => new (mem_claim.mpr (.inr ⟨?_, old⟩))⟩
  exact lastOf_isSome.mpr (mem_map_of_mem listed)

theorem zip_snd_mem (member : e ∈ (f.incomingUIDs s).zip (f.incoming s)) : e.2 ∈ f.incoming s :=
  (List.of_mem_zip member).2

theorem zip_names (f : Folder) (s : Local) :
    ((f.incomingUIDs s).zip (f.incoming s)).map Prod.snd = f.incoming s :=
  List.map_snd_zip (length_numbers _ _ _).ge

theorem zip_bases (f : Folder) (s : Local) :
    ((f.incomingUIDs s).zip (f.incoming s)).map baseOf = (f.incoming s).map maildirBase := by
  rw [← zip_names, map_map, zip_names]
  rfl

section

variable
  (gone : ∀ m ∈ s.fs.getMessages, baseOfMessage m ∈ f.files.map maildirBase ∨ f.stillOnDisk m.filename = false)

include gone

theorem gone_present : ∀ m ∈ mailOf s, lastOf f.files (baseOf m) = none → f.stillOnDisk m.2 = false := by
  intro e member missing
  obtain ⟨m, held, rfl⟩ := mem_map.mp member
  refine (gone m held).resolve_left fun listed => ?_
  rw [← lastOf_isSome, show baseOfMessage m = baseOf (pairOf m) from rfl, missing] at listed
  cases listed

theorem mem_kept (member : e ∈ f.kept s) :
    lastOf f.files (baseOf e) = some e.2 ∧ ∃ m ∈ mailOf s, m.1 = e.1 ∧ baseOf m = baseOf e := by
  rcases mem_keep member with ⟨old, missing, there⟩ | ⟨m, old, uid, found, _⟩
  · rw [gone_present gone e old missing] at there
    cases there
  · have base : baseOf m = baseOf e := (lastOf_lawful _ _ _ found).symm
    exact ⟨base ▸ found, m, old, uid, base⟩

theorem outcome_bases_nodup : ((outcome f s).map baseOf).Nodup := by
  unfold outcome
  rw [map_append, zip_bases, nodup_append]
  refine ⟨keep_bases_nodup (lastOf_lawful _) (gone_present gone), imports_bases_nodup _ _, ?_⟩
  rintro base stays _ comes rfl
  obtain ⟨e, member, rfl⟩ := mem_map.mp stays
  obtain ⟨name, new, eq⟩ := mem_map.mp comes
  obtain ⟨_, m, old, _, same⟩ := mem_kept gone member
  exact (mem_incoming new).2 (eq ▸ same ▸ mem_map_of_mem old)

theorem outcome_listed (member : e ∈ outcome f s) : e.2 ∈ f.files := by
  rcases mem_append.mp member with stays | comes
  · exact (lastOf_eq_some (mem_kept gone stays).1).1
  · exact (mem_incoming (zip_snd_mem comes)).1

theorem outcome_lowest {m : ℕ × Bytes} (member : e ∈ outcome f s) (old : m ∈ mailOf s)
    (same : baseOf m = baseOf e) :
    e.1 ≤ m.1 ∧ ∃ first ∈ mailOf s, baseOf first = baseOf e ∧ first.1 = e.1 := by
  rcases mem_append.mp member with stays | comes
  · obtain ⟨found, first, held, uid, base⟩ := mem_kept gone stays
    refine ⟨keep_lowest (lastOf_lawful _) (getMessages_sorted s.fs) stays ?_ old same,
      first, held, base, uid⟩
    rw [found]
    rfl
  · have known : baseOf e ∈ (mailOf s).map baseOf := same ▸ mem_map_of_mem old
    exact absurd known (mem_incoming (zip_snd_mem comes)).2

end

/-- Every message of `cur/` ends with a record. -/
theorem mem_outcome_bases (listed : name ∈ f.files) : maildirBase name ∈ (outcome f s).map baseOf := by
  unfold outcome
  rw [map_append, zip_bases, mem_append]
  by_cases old : maildirBase name ∈ (mailOf s).map baseOf
  · obtain ⟨m, held, base⟩ := mem_map.mp old
    obtain ⟨last, _, found, same⟩ := exists_lastOf listed
    obtain ⟨uid, stays⟩ : ∃ uid, (uid, last) ∈ f.kept s :=
      exists_mem_keep held (base ▸ found) not_mem_nil
    exact .inl (mem_map.mpr ⟨_, stays, same⟩)
  · obtain ⟨x, found, base⟩ := exists_first listed
    refine .inr (mem_map.mpr ⟨x, find_mem_imports found ?_, base⟩)
    rw [mem_claim, base]
    rintro (none | ⟨_, inside⟩)
    · cases none
    · exact old inside

/-- The next listing has the names of the records. -/
theorem outcome_agrees (fit : OnePass host f s) (member : e ∈ outcome f s) :
    lastOf f.files (baseOf e) = some e.2 := by
  rcases mem_append.mp member with stays | comes
  · exact (mem_kept fit.gone stays).1
  obtain ⟨listed, new⟩ := mem_incoming (zip_snd_mem comes)
  obtain ⟨last, inside, found, base⟩ := exists_lastOf listed
  rcases fit.paired last inside e.2 listed base with rfl | old
  · exact found
  · rw [base, ← map_baseOf] at old
    exact absurd old new

end Outcome

/-! ## The second pass -/

theorem reconcileIndex_eq {f : Folder} (fetched : f.fetchNew = .ok g) (s : Local) :
    reconcileIndex host f s =
      if reconcileIsClean s.fs.getMessages (g.scan host) then .ok (.none, g, s)
      else applyLocked host g (g.scan host) s := by
  unfold reconcileIndex
  rw [fetched]
  rfl

theorem mailOf_uids_nodup {s : Local} (nodup : s.ledger.uids.Nodup) : ((mailOf s).map (·.1)).Nodup := by
  rw [← Ledger.entries_uids] at nodup
  exact ((getMessages_perm s.fs).map _).nodup_iff.mpr nodup

/-- An index that agrees with the listing is left as it is. -/
theorem reconcileIndex_agree (host : Host) {f : Folder} {s : Local} (settled : f.Settled)
    (agree : ∀ e ∈ mailOf s, lastOf f.files (baseOf e) = some e.2) (bases : ((mailOf s).map baseOf).Nodup)
    (cover : ∀ name ∈ f.files, maildirBase name ∈ (mailOf s).map baseOf) :
    ∃ f' s', reconcileIndex host f s = .ok (.none, f', s') := by
  rw [reconcileIndex_eq (fetchNew_of_settled settled)]
  split
  · exact ⟨f, s, rfl⟩
  obtain ⟨t, adopted, _, _, _, same⟩ := adopt_ok f s
  have filenames := scan_filenames host settled
  have agree' : ∀ m ∈ t.fs.getMessages, diskOf (f.scan host) (baseOfMessage m) = some m.filename := by
    intro m member
    rw [diskOf_eq_lastOf, filenames]
    exact agree (pairOf m) (same ▸ mem_map_of_mem member)
  have named : ∀ m ∈ t.fs.getMessages, m.filename ≠ [] := by
    intro m member
    have found := agree' m member
    rw [diskOf_eq_lastOf, filenames] at found
    exact files_named (lastOf_eq_some found).1
  have bases' : (t.fs.getMessages.map baseOfMessage).Nodup := by
    rwa [← map_baseOf, show t.fs.getMessages.map pairOf = mailOf s from same]
  obtain ⟨p, visited, stats, _, all⟩ :=
    @visits_agree (start t) _ f.stillOnDisk _ named agree' bases'
      fun _ _ => not_mem_nil
  have known : ∀ r ∈ f.scan host, maildirBase r.filename ∈ p.tracked := by
    intro r member
    refine all ?_
    rw [← map_baseOf, show t.fs.getMessages.map pairOf = mailOf s from same]
    exact cover _ (filenames ▸ mem_map_of_mem member)
  have stamped : ∃ s', p.stamped = .ok s' := by
    unfold stamped
    split
    · exact ⟨_, rfl⟩
    obtain ⟨s', result, _⟩ := Local.setGUIDs_ledger p.restamp p.index
    rw [result]
    exact ⟨s', rfl⟩
  obtain ⟨s', stamped⟩ := stamped
  exact ⟨_, s', (applyLocked_eq_ok adopted).mpr
    ⟨p, p, visited, bringIn_known known, stamped, stats.symm, rfl⟩⟩

/-- A pass that reports no change met records under the names of the listing only. -/
theorem agree_of_unchanged {f : Folder} {s : Local} (settled : f.Settled)
    (named : ∀ e ∈ mailOf s, e.2 ≠ []) (done : reconcileIndex host f s = .ok (st, f', s'))
    (unchanged : st.changed = false) :
    reconcileIsClean s.fs.getMessages (f.scan host) = true ∨
      ∀ e ∈ mailOf s, ∀ name, lastOf f.files (baseOf e) = some name → name = e.2 := by
  rw [reconcileIndex_eq (fetchNew_of_settled settled)] at done
  split at done
  · rename_i clean
    exact .inl clean
  obtain ⟨t, adopted, _, _, _, same⟩ := adopt_ok f s
  obtain ⟨p, q, visited, imported, _, rfl, _⟩ := (applyLocked_eq_ok adopted).mp done
  have none : q.changes = 0 := changed_eq_false.mp unchanged
  obtain ⟨_, quiet⟩ := visits_changes visited
  have still : p.changes = (start t).changes := by
    have := bringIn_changes imported
    omega
  refine .inr fun e member name found => ?_
  rw [← same] at member
  obtain ⟨m, held, rfl⟩ := mem_map.mp member
  refine quiet (scan_steady host settled) still m held (named _ (same ▸ member)) name ?_
  rw [diskOf_eq_lastOf, scan_filenames host settled]
  exact found

/-! ## The result -/

/-- A second reconciliation reports no change. -/
def Quiet (f : Folder) (s : Local) : Prop :=
  ∀ again : Host, ∃ st f' s', reconcileIndex again f s = .ok (st, f', s') ∧ st.changed = false

theorem files_congr {f : Folder} (cur : f.cur = g.cur) : f.files = g.files := by
  unfold files
  rw [cur]

/-- The messages after a pass are its outcome: the index converges, and agrees with the folder. -/
theorem converged_of_outcome {f : Folder} {s : Local} (cur : f.cur = g.cur) (new : f.new = g.new)
    (settled : g.Settled) (fit : OnePass host g s) (held : (mailOf s').Perm (outcome g s)) :
    Converged f s.fs.getMessages s'.fs.getMessages ∧ Quiet f s' := by
  have bases := held.map baseOf
  have nodup : ((mailOf s').map baseOf).Nodup := bases.nodup_iff.mpr (outcome_bases_nodup fit.gone)
  have listed : ∀ e ∈ mailOf s', e.2 ∈ g.files := fun e member =>
    outcome_listed fit.gone (held.mem_iff.mp member)
  have cover : ∀ name ∈ g.files, maildirBase name ∈ (mailOf s').map baseOf := fun name inside =>
    bases.mem_iff.mpr (mem_outcome_bases inside)
  refine ⟨⟨?_, fun base => ?_, fun m member old before same => ?_, fun m member => ?_⟩, fun again => ?_⟩
  · rwa [← map_baseOf]
  · rw [← map_baseOf, cur]
    constructor
    · intro member
      obtain ⟨e, inside, rfl⟩ := mem_map.mp member
      exact ⟨e.2, mem_files.mp (listed e inside), rfl⟩
    · rintro ⟨name, inside, rfl⟩
      exact cover name (mem_files.mpr inside)
  · obtain ⟨le, first, inside, base, uid⟩ := outcome_lowest fit.gone
      (held.mem_iff.mp (mem_map_of_mem member)) (mem_map_of_mem before) same
    obtain ⟨first, held, rfl⟩ := mem_map.mp inside
    exact ⟨le, first, held, base, uid⟩
  · rw [cur]
    exact mem_files.mp (listed (pairOf m) (mem_map_of_mem member))
  · have files := files_congr cur
    obtain ⟨f', s'', done⟩ := reconcileIndex_agree again (f := f) (s := s') (by rwa [Settled, new])
      (fun e member => by
        rw [files]
        exact outcome_agrees fit (held.mem_iff.mp member))
      nodup (by rwa [files])
    exact ⟨_, f', s'', done, rfl⟩

/-- Where the check is clean nothing is imported. -/
theorem incoming_of_clean {s : Local} (settled : g.Settled)
    (clean : reconcileIsClean s.fs.getMessages (g.scan host) = true) :
    ((mailOf s).map (·.2)).Perm g.files ∧ g.incoming s = [] := by
  have filenames := scan_filenames host settled
  have names : ((mailOf s).map (·.2)).Perm g.files := by
    have perm := names_of_clean clean (by rw [filenames]; exact g.files_nodup)
    rw [filenames] at perm
    rwa [mailOf, map_map]
  refine ⟨names, imports_eq_nil fun name listed => ?_⟩
  obtain ⟨e, held, rfl⟩ := mem_map.mp (names.mem_iff.mpr listed)
  exact mem_claim.mpr (.inr ⟨lastOf_isSome.mpr (mem_map_of_mem listed), mem_map_of_mem held⟩)

theorem map_maildirBase_mailOf (s : Local) :
    ((mailOf s).map (·.2)).map maildirBase = (mailOf s).map baseOf := by
  rw [map_map]
  rfl

theorem lastOf_unique {files : List Bytes} (bases : (files.map maildirBase).Nodup)
    (listed : name ∈ files) : lastOf files (maildirBase name) = some name := by
  obtain ⟨last, inside, found, base⟩ := exists_lastOf listed
  rw [found, inj_on_of_nodup_map bases inside listed base]

/-- The case of a clean check, where the pass does nothing. -/
theorem converged_iff_of_clean {s : Local} (settled : g.Settled) (nodup : s.ledger.uids.Nodup)
    (clean : reconcileIsClean s.fs.getMessages (g.scan host) = true) :
    Converged g s.fs.getMessages s.fs.getMessages ∧ Quiet g s ↔ OnePass host g s := by
  obtain ⟨names, none⟩ := incoming_of_clean settled clean
  have bases := names.map maildirBase
  rw [map_maildirBase_mailOf] at bases
  constructor
  · rintro ⟨converged, _⟩
    refine ⟨fun m member => .inl ?_, fun a listed b _ _ => .inr ?_, fun _ => ?_, ?_⟩
    · exact bases.mem_iff.mp (mem_map_of_mem (mem_map_of_mem member))
    · rw [← map_baseOf]
      exact bases.mem_iff.mpr (mem_map_of_mem listed)
    · refine bases.nodup_iff.mp ?_
      rw [mailOf, map_baseOf]
      exact converged.single
    · rw [incomingUIDs, none, numbers, append_nil]
      exact (mailOf_uids_nodup nodup).sublist (keep_uids _ _)
  · intro fit
    have single := fit.unshared clean
    have kept : g.kept s = mailOf s := by
      refine keep_agree (fun e member => ?_) (bases.nodup_iff.mpr single) fun _ _ => not_mem_nil
      exact lastOf_unique single (names.mem_iff.mp (mem_map_of_mem member))
    refine converged_of_outcome rfl rfl settled fit (.of_eq ?_)
    rw [outcome, kept, none, zip_nil_right, append_nil]

/-- The case of a pass that runs. -/
theorem converged_iff_of_applied {s : Local} (settled : g.Settled) (nodup : s.ledger.uids.Nodup)
    (named : ∀ uid ∈ s.ledger.uids, s.ledger.name uid ≠ [])
    (unclean : reconcileIsClean s.fs.getMessages (g.scan host) ≠ true)
    (done : applyLocked host g (g.scan host) s = .ok (st, f', s')) :
    Converged f' s.fs.getMessages s'.fs.getMessages ∧ Quiet f' s' ↔ OnePass host g s := by
  obtain ⟨cur, new, uids, entries⟩ := applyLocked_ledger settled nodup named done
  have after (distinct : s'.ledger.uids.Nodup) : (mailOf s').Perm (outcome g s) :=
    (getMessages_perm s'.fs).trans (entries distinct)
  refine ⟨fun ⟨converged, quiet⟩ => ?_, fun fit => ?_⟩
  · have bases : ((mailOf s').map baseOf).Nodup := by
      rw [mailOf, map_baseOf]
      exact converged.single
    have distinct : s'.ledger.uids.Nodup := by
      have perm := ((getMessages_perm s'.fs).map baseOf).nodup_iff.mp bases
      exact .of_map _ (.of_map _ perm)
    have held := after distinct
    have files := files_congr cur
    have settled' : f'.Settled := by rwa [Settled, new]
    have named' : ∀ e ∈ mailOf s', e.2 ≠ [] := by
      intro e member
      obtain ⟨m, inside, rfl⟩ := mem_map.mp member
      exact f'.named _ (converged.onDisk m inside)
    refine ⟨fun m member => ?_, fun a listed b listed' same => ?_, fun clean => absurd clean unclean,
      uids.nodup_iff.mp distinct⟩
    · by_contra stays
      obtain ⟨missing, there⟩ := not_or.mp stays
      have none : lastOf g.files (baseOf (pairOf m)) = none := by
        rw [← Option.not_isSome_iff_eq_none, lastOf_isSome]
        exact missing
      have kept : pairOf m ∈ outcome g s := mem_append_left _
        (mem_keep_of_present (mem_map_of_mem member) none (Bool.eq_true_of_not_eq_false there))
      have base : baseOfMessage m ∈ s'.fs.getMessages.map baseOfMessage := by
        rw [← map_baseOf]
        exact mem_map_of_mem (held.mem_iff.mpr kept)
      obtain ⟨name, inside, eq⟩ := (converged.same _).mp base
      exact missing (eq ▸ mem_map_of_mem (mem_files.mpr (cur ▸ inside)))
    · by_contra double
      obtain ⟨other, unknown⟩ := not_or.mp double
      rw [← map_baseOf] at unknown
      -- The file that is listed first was imported; the next pass takes the last one.
      obtain ⟨x, found, base⟩ := exists_first listed
      have incoming : x ∈ g.incoming s := by
        refine find_mem_imports found fun known => ?_
        rcases mem_claim.mp known with none | ⟨_, inside⟩
        · cases none
        · exact unknown (base ▸ inside)
      rw [← zip_names] at incoming
      obtain ⟨e, zipped, rfl⟩ := mem_map.mp incoming
      have inside : e ∈ mailOf s' := held.mem_iff.mpr (mem_append_right _ zipped)
      obtain ⟨st', f'', s'', again, unchanged⟩ := quiet host
      rcases agree_of_unchanged settled' named' again unchanged with clean | agree
      · have names := (incoming_of_clean settled' clean).1.map maildirBase
        rw [map_maildirBase_mailOf, files] at names
        exact other (inj_on_of_nodup_map (names.nodup_iff.mp bases) listed listed' same)
      rw [files] at agree
      have last : lastOf g.files (maildirBase e.2) = some e.2 := by
        obtain ⟨y, _, last, _⟩ := exists_lastOf (mem_of_find?_eq_some found)
        rw [last, agree e inside y last]
      have only := fun c => @eq_of_first_last _ g.files_nodup _ c found last
      exact other ((only a listed base.symm).trans (only b listed' (same ▸ base.symm)).symm)
  · refine converged_of_outcome cur new settled fit (after ?_)
    exact uids.nodup_iff.mpr fit.numbered

/-- What a folder and an index need for one pass, deliveries included. -/
def Convergible (host : Host) (f : Folder) (s : Local) : Prop := ∀ g, f.fetchNew = .ok g → OnePass host g s

/-- After a successful reconciliation the index has converged and a second one reports no change,
exactly if no record without a file has the name of a directory, every base with two files has a
record, the clean check does not pass over records of one base, and no UID is given twice. -/
theorem reconcile_converges_iff (host : Host) (f : Folder) (index : NamedIndex) {st : SyncStats}
    {f' : Folder} {s' : Local} (done : reconcileIndex host f index.state = .ok (st, f', s')) :
    Converged f' index.state.fs.getMessages s'.fs.getMessages ∧ Quiet f' s' ↔
      Convergible host f index.state := by
  have fetched : ∃ g, f.fetchNew = .ok g := by
    obtain ⟨g, fetched, _⟩ := bind_eq_ok.mp done
    exact ⟨g, fetched⟩
  obtain ⟨g, fetched⟩ := fetched
  have only : Convergible host f index.state ↔ OnePass host g index.state := by
    unfold Convergible
    rw [fetched]
    exact ⟨fun fit => fit g rfl, fun fit h eq => Except.ok.inj eq ▸ fit⟩
  rw [only]
  rw [reconcileIndex_eq fetched] at done
  have settled := fetchNew_settled fetched
  split at done
  · rename_i clean
    injection done with done
    injection done with _ rest
    injection rest with folder final
    subst folder final
    exact converged_iff_of_clean settled index.distinct clean
  · rename_i unclean
    exact converged_iff_of_applied settled index.distinct index.named unclean done

/-! ## Two folders -/

/-- Names carry no flags, and every message is one byte long. -/
def plainHost : Host where
  facts := fun _ => ⟨1, 1, 0, [], []⟩
  guidFromBase := fun _ => 1
  now := 7
  rotate := fun _ => false

def emptyIndex : NamedIndex where
  state := createFresh 1 1
  distinct := by decide +kernel
  named := by decide +kernel

/-- One message under two names: `a:2,` and `a:2,S`. -/
def doubledFolder : Folder where
  cur := [⟨[97, 58, 50, 44], false⟩, ⟨[97, 58, 50, 44, 83], false⟩]
  new := []
  uidList := none
  distinct := by decide
  named := by decide

/-- Whether the second of two reconciliations reports a change. -/
def secondChanges (host : Host) (f : Folder) (s : Local) : Option Bool :=
  match reconcileIndex host f s with
  | .ok (_, f', s') =>
    match reconcileIndex host f' s' with
    | .ok (st, _, _) => some st.changed
    | .error _ => none
  | .error _ => none

/-- A message without a record that has two files is imported under the first name, and the next pass
follows it to the last one. -/
theorem doubled_message_never_quiet :
    ∃ st f' s', reconcileIndex plainHost doubledFolder emptyIndex.state = .ok (st, f', s') ∧
      ¬Quiet f' s' := by
  have changes : secondChanges plainHost doubledFolder emptyIndex.state = some true := by
    decide +kernel
  unfold secondChanges at changes
  cases first : reconcileIndex plainHost doubledFolder emptyIndex.state with
  | error e =>
    rw [first] at changes
    cases changes
  | ok result =>
    obtain ⟨st, f', s'⟩ := result
    refine ⟨st, f', s', rfl, fun quiet => ?_⟩
    obtain ⟨st', f'', s'', second, unchanged⟩ := quiet plainHost
    rw [first] at changes
    dsimp only at changes
    rw [second] at changes
    dsimp only at changes
    rw [unchanged] at changes
    cases changes

/-- A message `a` with the UID 1, last seen without flags. -/
def oneMessage : NamedIndex where
  state := ((createFresh 1 1).commitAppend
    (metaFor ⟨⟨1, 1, 0, [], []⟩, [97, 58, 50, 44], 1⟩ 1) false).2
  distinct := by decide +kernel
  named := by decide +kernel

/-- The message has been read since, and `b` has come in. -/
def readFolder : Folder where
  cur := [⟨[98, 58, 50, 44], false⟩, ⟨[97, 58, 50, 44, 83], false⟩]
  new := []
  uidList := none
  distinct := by decide
  named := by decide

theorem reconcile_converges_iff_read :
    ∃ st f' s', reconcileIndex plainHost readFolder oneMessage.state = .ok (st, f', s') ∧
      Converged f' oneMessage.state.fs.getMessages s'.fs.getMessages ∧ Quiet f' s' := by
  have succeeds : (reconcileIndex plainHost readFolder oneMessage.state).toOption.isSome = true := by
    decide +kernel
  have settled : readFolder.Settled := nofun
  cases done : reconcileIndex plainHost readFolder oneMessage.state with
  | error e =>
    rw [done] at succeeds
    cases succeeds
  | ok result =>
    obtain ⟨st, f', s'⟩ := result
    refine ⟨st, f', s', rfl, (reconcile_converges_iff plainHost readFolder oneMessage done).mpr ?_⟩
    intro g fetched
    rw [fetchNew_of_settled settled] at fetched
    cases fetched
    exact ⟨by decide +kernel, by decide +kernel, by decide +kernel, by decide +kernel⟩

end Yarilo.Maildir

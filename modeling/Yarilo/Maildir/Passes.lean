import Yarilo.Maildir.Listings

/-! # The passes of a reconciliation

A pass over an index that agrees with the listing does nothing, and a pass that reports no change has
met only records that agree. Of any pass that succeeds the ledger afterwards is known: the records that
stay and the files that are imported.
-/

namespace Yarilo.Maildir

open Library FileIndex List
open Mailbox (DirEntry MailDir)

/-! ## A pass that finds nothing to do -/

namespace Pass

variable {p p' : Pass} {scanned rs : List ScanRecord} {present : Bytes → Bool} {m : MessageMeta}
  {r : ScanRecord}

/-- Records that have the names of the listing, one for a base, are left alone. -/
theorem visits_agree {messages : List MessageMeta} (named : ∀ m ∈ messages, m.filename ≠ [])
    (agree : ∀ m ∈ messages, diskOf scanned (baseOfMessage m) = some m.filename)
    (bases : (messages.map baseOfMessage).Nodup) (new : ∀ m ∈ messages, baseOfMessage m ∉ p.tracked) :
    ∃ p', messages.foldlM (fun p m => p.visit scanned present m) p = .ok p' ∧
      p'.toSyncStats = p.toSyncStats ∧ p.tracked ⊆ p'.tracked ∧
      messages.map baseOfMessage ⊆ p'.tracked := by
  induction messages generalizing p with
  | nil => exact ⟨p, rfl, rfl, .refl _, nil_subset _⟩
  | cons m rest ih =>
    obtain ⟨r, found, same⟩ := Option.map_eq_some_iff.mp (agree m (.head _))
    obtain ⟨fresh, bases⟩ := nodup_cons.mp bases
    have unknown : maildirBase m.filename ∉ p.tracked := new m (.head _)
    have first : p.visit scanned present m = .ok (p.track m r) := by
      unfold visit
      rw [if_neg (named m (.head _)),
        show onDisk scanned (maildirBase m.filename) = some r from found]
      dsimp only
      rw [if_neg unknown, if_pos (.inl same)]
    have new' : ∀ m' ∈ rest, baseOfMessage m' ∉ (p.track m r).tracked := by
      intro m' later known
      rcases mem_cons.mp known with again | known
      · exact fresh (mem_map.mpr ⟨m', later, again⟩)
      · exact new m' (.tail _ later) known
    obtain ⟨p', done, stats, tracked, all⟩ := ih (fun m later => named m (.tail _ later))
        (fun m later => agree m (.tail _ later)) bases new'
    refine ⟨p', ?_, stats, fun b known => tracked (.tail _ known), ?_⟩
    · rw [foldlM_cons, first]
      exact done
    · rw [map_cons]
      exact cons_subset.mpr ⟨tracked (.head _), all⟩

variable {rotate : Bytes → Bool} {uidFor : Bytes → Option ℕ} {inCur : Bytes → Bool}

/-- Nothing is imported of a listing whose bases all have their record. -/
theorem bringIn_known (known : ∀ r ∈ rs, maildirBase r.filename ∈ p.tracked) :
    rs.foldlM (fun p r => p.bringIn rotate uidFor inCur r) p = .ok p := by
  induction rs with
  | nil => rfl
  | cons r rest ih =>
    have first : p.bringIn rotate uidFor inCur r = .ok p :=
      if_pos (.inr (.inl (known r (.head _))))
    rw [foldlM_cons, first]
    exact ih fun r later => known r (.tail _ later)

/-! ## A pass that finds something to do -/

def changes (p : Pass) : ℕ := p.imported + p.updated + p.expunged

theorem expunge_changes {uid : ℕ} (done : p.expunge uid = .ok p') : p'.changes = p.changes + 1 := by
  obtain ⟨result, _, done⟩ := bind_eq_ok.mp done
  cases done
  exact rfl

theorem follow_changes (done : p.follow m r = .ok p') : p'.changes = p.changes + 1 := by
  obtain ⟨index, _, done⟩ := bind_eq_ok.mp done
  obtain ⟨result, _, done⟩ := bind_eq_ok.mp done
  cases done
  show p.imported + (p.updated + 1) + p.expunged = p.imported + p.updated + p.expunged + 1
  omega

/-- A visit counts what it changes, and a record whose base is listed under another name is a
change. -/
theorem visit_changes (done : p.visit scanned present m = .ok p') :
    p.changes ≤ p'.changes ∧ (m.filename ≠ [] → Steady scanned present →
      ∀ name, diskOf scanned (baseOfMessage m) = some name → name ≠ m.filename →
        p.changes < p'.changes) := by
  unfold visit at done
  split at done
  · rename_i unnamed
    cases done
    exact ⟨le_rfl, fun named => absurd unnamed named⟩
  split at done
  · rename_i missing
    refine ⟨?_, fun _ _ name found => ?_⟩
    · split at done
      · rw [Except.ok.inj done]
      · rw [expunge_changes done]
        omega
    · unfold diskOf baseOfMessage at found
      rw [missing] at found
      cases found
  · rename_i r found
    split at done
    · rw [expunge_changes done]
      exact ⟨by omega, fun _ _ _ _ _ => by omega⟩
    split at done
    · rename_i still
      cases done
      refine ⟨le_rfl, fun _ steady name listed other => ?_⟩
      unfold diskOf baseOfMessage at listed
      rw [found] at listed
      cases listed
      rcases still with same | lost
      · exact absurd same other
      · rw [(steady _ _ found).2] at lost
        cases lost
    · rw [follow_changes done]
      exact ⟨Nat.le_succ _, fun _ _ _ _ _ => Nat.lt_succ_self _⟩

theorem visits_changes {messages : List MessageMeta}
    (done : messages.foldlM (fun p m => p.visit scanned present m) p = .ok p') :
    p.changes ≤ p'.changes ∧ (Steady scanned present → p'.changes = p.changes →
      ∀ m ∈ messages, m.filename ≠ [] → ∀ name, diskOf scanned (baseOfMessage m) = some name →
        name = m.filename) := by
  induction messages generalizing p with
  | nil =>
    cases done
    exact ⟨le_rfl, nofun⟩
  | cons m rest ih =>
    rw [foldlM_cons] at done
    obtain ⟨q, first, done⟩ := bind_eq_ok.mp done
    obtain ⟨mono, counts⟩ := visit_changes first
    obtain ⟨mono', quiet⟩ := ih done
    refine ⟨mono.trans mono', fun steady same m' member named name found => ?_⟩
    rcases mem_cons.mp member with rfl | later
    · by_contra other
      have := counts named steady name found other
      omega
    · exact quiet steady (by omega) m' later named name found

theorem append_changes {recordedUID : Option ℕ} (done : p.append rotate recordedUID r = .ok p') :
    p'.changes = p.changes + 1 := by
  unfold append at done
  split at done <;>
  · obtain ⟨result, _, done⟩ := bind_eq_ok.mp done
    cases done
    show p.imported + 1 + p.updated + p.expunged = p.imported + p.updated + p.expunged + 1
    omega

theorem bringIn_changes (done : rs.foldlM (fun p r => p.bringIn rotate uidFor inCur r) p = .ok p') :
    p.changes ≤ p'.changes := by
  induction rs generalizing p with
  | nil => rw [Except.ok.inj done]
  | cons r rest ih =>
    rw [foldlM_cons] at done
    obtain ⟨q, first, done⟩ := bind_eq_ok.mp done
    refine le_trans ?_ (ih done)
    unfold bringIn at first
    split at first
    · rw [Except.ok.inj first]
    · rw [append_changes first]
      omega

theorem changed_eq_false : p.toSyncStats.changed = false ↔ p.changes = 0 := by
  unfold SyncStats.changed changes
  simp
  omega

end Pass

/-! ## The first pass -/

namespace Folder

variable {f f' g : Folder} {s s' : Local}

/-- Whether the list's UID space is taken over. -/
def adopts (f : Folder) (s : Local) : Bool := f.uidSpace.isSome && s.ledger.uids.isEmpty

/-- The UIDs of the list, where they count. -/
def recordedFor (f : Folder) (s : Local) (name : Bytes) : Option ℕ :=
  if f.adopts s then f.uidFor name else none

/-- The next UID as the imports find it. -/
def firstUID (f : Folder) (s : Local) : ℕ :=
  if f.adopts s then max s.ledger.next ((f.uidSpace.map (·.2)).getD 0) else s.ledger.next

/-- The messages of the index before a pass. -/
def mailOf (s : Local) : List (ℕ × Bytes) := s.fs.getMessages.map pairOf

/-- The records that stay, each under the name it gets. -/
def kept (f : Folder) (s : Local) : List (ℕ × Bytes) := keep (lastOf f.files) f.stillOnDisk [] (mailOf s)

/-- The files that are imported. -/
def incoming (f : Folder) (s : Local) : List Bytes := imports (claim (lastOf f.files) [] (mailOf s)) f.files

def incomingUIDs (f : Folder) (s : Local) : List ℕ :=
  numbers (f.recordedFor s) (f.firstUID s) (f.incoming s)

theorem adopt_ok (f : Folder) (s : Local) :
    ∃ s', adopt f s = .ok (f.adopts s, s') ∧ s'.ledger.uids = s.ledger.uids ∧
      s'.ledger.name = s.ledger.name ∧ s'.ledger.next = f.firstUID s ∧ mailOf s' = mailOf s := by
  unfold adopt adopts firstUID adopts
  cases space : f.uidSpace with
  | none => exact ⟨s, rfl, rfl, rfl, by simp, rfl⟩
  | some header =>
    rcases Local.adoptUIDSpace_ledger header.1 header.2 s with ⟨held, refused⟩ | ⟨empty, s', done, ledger⟩
    · refine ⟨s, ?_, rfl, rfl, by simp [held], rfl⟩
      simp only [refused]
      simp [held]
    refine ⟨s', ?_, by rw [ledger], by rw [ledger], by simp [ledger, empty], ?_⟩
    · simp only [done]
      simp [empty]
    · have none (t : Local) (no : t.ledger.uids = []) : mailOf t = [] := by
        have perm := getMessages_perm t.fs
        rw [show t.fs.ledger.entries = [] by
          rw [Ledger.entries, show t.fs.ledger.uids = [] from no]; rfl] at perm
        exact perm.eq_nil
      rw [none s empty, none s' (by rw [ledger]; exact empty)]

theorem stamped_ledger {p : Pass} (done : p.stamped = .ok s) : s.ledger = p.index.ledger := by
  unfold Pass.stamped at done
  split at done
  · rw [Except.ok.inj done]
  obtain ⟨s', result, ledger⟩ := Local.setGUIDs_ledger p.restamp p.index
  rw [result] at done
  rw [← ledger, show s' = s from Except.ok.inj done]

theorem scan_steady (host : Host) (settled : g.Settled) : Pass.Steady (g.scan host) g.stillOnDisk := by
  intro base r found
  have member : r.filename ∈ g.files := by
    rw [← scan_filenames host settled]
    exact mem_map.mpr ⟨r, mem_reverse.mp (mem_of_find?_eq_some found), rfl⟩
  exact ⟨files_named member, files_stillOnDisk member⟩

end Folder

variable {host : Host} {st : SyncStats}

/-- The steps of the locked section. -/
theorem applyLocked_eq_ok {g f' : Folder} {scanned : List ScanRecord} {s t s' : Local} {adopted : Bool}
    (adopting : adopt g s = .ok (adopted, t)) :
    applyLocked host g scanned s = .ok (st, f', s') ↔
      ∃ p q, t.fs.getMessages.foldlM (fun p m => p.visit scanned g.stillOnDisk m) (Pass.start t) = .ok p ∧
        scanned.foldlM (fun p r => p.bringIn host.rotate
          (fun name => if adopted then g.uidFor name else none) g.inCurDir r) p = .ok q ∧
        q.stamped = .ok s' ∧ st = q.toSyncStats ∧
        f' = if q.recorded = [] then g else g.recordUIDsLocked host q.recorded := by
  unfold applyLocked
  rw [adopting]
  constructor
  · intro done
    obtain ⟨_, same, done⟩ := bind_eq_ok.mp done
    cases same
    obtain ⟨p, visited, done⟩ := bind_eq_ok.mp done
    obtain ⟨q, imported, done⟩ := bind_eq_ok.mp done
    obtain ⟨index, stamped, done⟩ := bind_eq_ok.mp done
    injection done with done
    injection done with stats rest
    injection rest with folder final
    exact ⟨p, q, visited, imported, final ▸ stamped, stats.symm, folder.symm⟩
  · rintro ⟨p, q, visited, imported, stamped, rfl, rfl⟩
    refine bind_eq_ok.mpr ⟨_, rfl, bind_eq_ok.mpr ⟨p, visited, bind_eq_ok.mpr ⟨q, imported, ?_⟩⟩⟩
    exact bind_eq_ok.mpr ⟨s', stamped, rfl⟩

open Folder in
/-- The locked section, on the ledger: what stays, and behind it what is imported. -/
theorem applyLocked_ledger {g f' : Folder} {s s' : Local} (settled : g.Settled)
    (nodup : s.ledger.uids.Nodup) (named : ∀ uid ∈ s.ledger.uids, s.ledger.name uid ≠ [])
    (done : applyLocked host g (g.scan host) s = .ok (st, f', s')) :
    f'.cur = g.cur ∧ f'.new = g.new ∧ s'.ledger.uids.Perm ((g.kept s).map (·.1) ++ g.incomingUIDs s) ∧
      (s'.ledger.uids.Nodup → s'.ledger.entries.Perm
        (g.kept s ++ (g.incomingUIDs s).zip (g.incoming s))) := by
  obtain ⟨t, adopted, uids, name, next, same⟩ := adopt_ok g s
  obtain ⟨p, q, visited, imported, stamped, _, rfl⟩ := (applyLocked_eq_ok adopted).mp done
  have filenames := scan_filenames host settled
  have held : t.ledger.entries.Perm (t.fs.getMessages.map pairOf ++ []) := by
    rw [append_nil]
    exact (getMessages_perm t.fs).symm
  have named' : ∀ m ∈ t.fs.getMessages, m.filename ≠ [] := by
    intro m member
    have entry := (getMessages_perm t.fs).mem_iff.mp (mem_map_of_mem member)
    obtain ⟨inside, eq⟩ := Ledger.mem_entries.mp entry
    rw [show m.filename = t.ledger.name m.uid from eq.symm, name]
    exact named m.uid (uids ▸ inside)
  have nodup' : (Pass.start t).index.ledger.uids.Nodup := by
    show t.ledger.uids.Nodup
    rwa [uids]
  obtain ⟨entries, tracked, next'⟩ :=
    Pass.visits_ledger (scan_steady host settled) nodup' held named' visited
  rw [append_nil, diskOf_eq_lastOf, filenames, show t.fs.getMessages.map pairOf = mailOf s from same]
    at entries
  rw [diskOf_eq_lastOf, filenames, show t.fs.getMessages.map pairOf = mailOf s from same] at tracked
  have listed : ∀ r ∈ g.scan host, r.filename ∈ g.files := fun r member =>
    filenames ▸ mem_map_of_mem member
  obtain ⟨uids', entries'⟩ := Pass.imports_ledger
    (fun r member => files_named (listed r member)) (fun r member => files_inCurDir (listed r member))
    imported
  have fresh : numbers (fun name => if g.adopts s then g.uidFor name else none)
      p.index.ledger.next (imports p.tracked ((g.scan host).map (·.filename))) = g.incomingUIDs s := by
    rw [tracked, filenames, next', show (Pass.start t).index.ledger.next = g.firstUID s from next]
    rfl
  rw [fresh] at uids' entries'
  have ledger := stamped_ledger stamped
  have files : imports p.tracked ((g.scan host).map (·.filename)) = g.incoming s := by
    rw [tracked, filenames]
    rfl
  refine ⟨?_, ?_, ?_, fun distinct => ?_⟩
  · split <;> rfl
  · split <;> rfl
  · rw [ledger, uids', ← Ledger.entries_uids]
    exact (entries.map _).append_right _
  · rw [ledger, entries' (ledger ▸ distinct), files]
    exact entries.append_right _

end Yarilo.Maildir

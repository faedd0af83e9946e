import Yarilo.Maildir.OnePass

/-! # Reconciliation while flags change

Other processes rename files of `cur/` while one reconciliation runs: a flag change keeps the base of a
name. The walk over `cur/` holds no lock and takes time, so a file that is renamed meanwhile may be
missing from the listing; each check for one name sees the directory as it is at that moment.

A `Timeline` is one interleaving. Time counts the renames that have happened.
-/

namespace Yarilo.Maildir

open Library FileIndex Folder List Pass
open Mailbox (DirEntry MailDir)

/-- A flag change. -/
structure Rename where
  old : Bytes
  new : Bytes
  keeps : maildirBase new = maildirBase old
  named : new ≠ []

/-- A rename takes place if there is such a file and no directory in the way. -/
def Folder.renamed (f : Folder) (r : Rename) : Folder :=
  if (⟨r.old, false⟩ : DirEntry) ∈ f.cur ∧ (⟨r.new, true⟩ : DirEntry) ∉ f.cur then
    { f with
      cur := (f.cur.filter (·.name ≠ r.old)).filter (·.name ≠ r.new) ++ [⟨r.new, false⟩]
      distinct := filter_concat_distinct (f.distinct.sublist (List.filter_sublist.map _)) _
      named := forall_mem_concat
        (fun e old => f.named e (List.mem_filter.mp (List.mem_filter.mp old).1).1) r.named }
  else f

variable {base : Bytes} {done rest : List (MessageMeta × (Bytes → Bool))} {t : Local}

/-- A message survives a rename, perhaps under another name. -/
theorem Folder.renamed_bases {f : Folder} (r : Rename) (present : base ∈ f.files.map maildirBase) :
    base ∈ (f.renamed r).files.map maildirBase := by
  obtain ⟨name, listed, rfl⟩ := mem_map.mp present
  have file := mem_files.mp listed
  unfold renamed
  split
  · by_cases moved : name = r.old ∨ name = r.new
    · refine mem_map.mpr ⟨r.new, mem_files.mpr (mem_append_right _ (.head _)), ?_⟩
      rcases moved with rfl | rfl
      · exact r.keeps
      · rfl
    · obtain ⟨notOld, notNew⟩ := not_or.mp moved
      refine mem_map_of_mem (mem_files.mpr (mem_append_left _ ?_))
      exact mem_filter.mpr ⟨mem_filter.mpr ⟨file, by simpa using notOld⟩, by simpa using notNew⟩
  · exact present

/-- A record of the listing, from a name. -/
def Folder.describe (f : Folder) (host : Host) (name : Bytes) : ScanRecord :=
  { host.facts name with filename := name, guid := f.guidFor host name }

/-- Imports, each with its own check for a name in `cur/`. -/
def Folder.bringInAll (f : Folder) (host : Host) (adopted : Bool) (p : Pass)
    (done : List (ScanRecord × (Bytes → Bool))) : Except Fault Pass :=
  done.foldlM (fun p r =>
    p.bringIn host.rotate (fun name => if adopted then f.uidFor name else none) r.2 r.1) p

/-- One interleaving, from the folder as it is when the deliveries have been moved in. The walk over
`cur/` lasts from the time `opened` to the time `closed` and reports `listing`; the check for the `i`-th
record of the locked section happens at the time `check i`. -/
structure Timeline (f : Folder) where
  renames : List Rename
  opened : ℕ
  closed : ℕ
  listing : List Bytes
  check : ℕ → ℕ
  walk : opened ≤ closed
  later : ∀ i, closed ≤ check i
  monotone : Monotone check
  /-- A name is reported only if there was such a file. -/
  sound : ∀ name ∈ listing, ∃ t, opened ≤ t ∧ t ≤ closed ∧
    name ∈ ((renames.take t).foldl Folder.renamed f).files
  /-- A file that is not renamed meanwhile is reported. -/
  complete : ∀ name, (∀ t, opened ≤ t → t ≤ closed →
    name ∈ ((renames.take t).foldl Folder.renamed f).files) → name ∈ listing

namespace Timeline

variable {f : Folder} (tl : Timeline f)

def disk (t : ℕ) : Folder := (tl.renames.take t).foldl Folder.renamed f

/-- The base belongs to a file of `cur/` during the whole run. -/
def Live (base : Bytes) : Prop := ∀ t, base ∈ (tl.disk t).files.map maildirBase

theorem live_of_start (start : base ∈ f.files.map maildirBase) : tl.Live base := by
  have kept : ∀ (rs : List Rename) (g : Folder), base ∈ g.files.map maildirBase →
      base ∈ (rs.foldl .renamed g).files.map maildirBase := by
    intro rs
    induction rs with
    | nil => exact fun g here => here
    | cons r rest ih => exact fun g here => ih _ (renamed_bases r here)
  exact fun t => kept _ f start

/-- The result of the scan: what the walk over `cur/` reports, and the files of `new/`. -/
def scanned (host : Host) : List ScanRecord :=
  (tl.listing ++ (f.new.readDir.filter (!·.isDir)).map (·.name)).map (f.describe host)

/-- The visits of the locked section, each with its check for a name. -/
def visits (s : Local) : List (MessageMeta × (Bytes → Bool)) :=
  s.fs.getMessages.zipIdx.map fun m => (m.1, (tl.disk (tl.check m.2)).stillOnDisk)

/-- The imports, each with its check for a name in `cur/`. -/
def arrivals (host : Host) (s : Local) : List (ScanRecord × (Bytes → Bool)) :=
  ((tl.scanned host).zipIdx s.fs.getMessages.length).map fun r => (r.1, (tl.disk (tl.check r.2)).inCurDir)

def visitAll (host : Host) (p : Pass) (done : List (MessageMeta × (Bytes → Bool))) : Except Fault Pass :=
  done.foldlM (fun p v => p.visit (tl.scanned host) v.2 v.1) p

/-- The states of the index during one reconciliation that finds the index in the state `s`: before the
locked section, which a clean check leaves out, and after each of its visits and imports. -/
inductive Reached (host : Host) (s : Local) : Local → Prop
  | untouched : Reached host s s
  | visiting {adopted : Bool} {t : Local} {done rest : List (MessageMeta × (Bytes → Bool))} {p : Pass}
      (adopting : adopt f s = .ok (adopted, t)) (visits : tl.visits t = done ++ rest)
      (run : tl.visitAll host (start t) done = .ok p) : Reached host s p.index
  | importing {adopted : Bool} {t : Local} {done rest : List (ScanRecord × (Bytes → Bool))} {p q : Pass}
      (adopting : adopt f s = .ok (adopted, t))
      (visited : tl.visitAll host (start t) (tl.visits t) = .ok p)
      (arrivals : tl.arrivals host t = done ++ rest)
      (run : f.bringInAll host adopted p done = .ok q) : Reached host s q.index
  | finished {adopted : Bool} {t s' : Local} {p q : Pass}
      (adopting : adopt f s = .ok (adopted, t))
      (visited : tl.visitAll host (start t) (tl.visits t) = .ok p)
      (imported : f.bringInAll host adopted p (tl.arrivals host t) = .ok q)
      (stamped : q.stamped = .ok s') : Reached host s s'

/-- Every message of `cur/` that has a record is seen: the walk over `cur/` reports a file of it, or one
waits in `new/`, or one of its records has the name of a file when it is checked. -/
def Seen (s : Local) : Prop := ∀ base, tl.Live base → base ∈ (mailOf s).map baseOf →
    (∃ name, maildirBase name = base ∧ (name ∈ tl.listing ∨ (⟨name, false⟩ : DirEntry) ∈ f.new)) ∨
    ∃ i e, (mailOf s)[i]? = some e ∧ baseOf e = base ∧ (tl.disk (tl.check i)).stillOnDisk e.2 = true

end Timeline

/-! ## What a visit removes -/

namespace Pass

variable {p p' : Pass} {scanned : List ScanRecord} {present : Bytes → Bool} {m : MessageMeta}
  {r : ScanRecord}

theorem follow_uids (done : p.follow m r = .ok p') :
    p'.index.ledger.uids = p.index.ledger.uids ∧ p'.tracked = p.tracked := by
  obtain ⟨index, flagged, done⟩ := bind_eq_ok.mp done
  obtain ⟨⟨answer, s⟩, named, done⟩ := bind_eq_ok.mp done
  cases done
  refine ⟨?_, rfl⟩
  rw [← adoptFlags_ledger flagged]
  have result := call_eq_ok.mp named
  unfold Local.updateFilename at result
  split at result
  · cases result
    rfl
  cases result
  rw [Local.appendName_ledger]
  rfl

/-- A visit keeps every record, or removes the visited one: because the listing does not have its base
and its name is not found, or because its base has its record. -/
theorem visit_uids (done : p.visit scanned present m = .ok p') :
    p'.index.ledger.uids = p.index.ledger.uids ∧
        (p'.tracked = p.tracked ∨ p'.tracked = maildirBase m.filename :: p.tracked) ∨
      p'.index.ledger = p.index.ledger.expunge m.uid ∧ p'.tracked = p.tracked ∧
        (onDisk scanned (maildirBase m.filename) = none ∧ present m.filename = false ∨
          maildirBase m.filename ∈ p.tracked) := by
  unfold visit at done
  split at done
  · cases done
    exact .inl ⟨rfl, .inl rfl⟩
  split at done
  · rename_i missing
    split at done
    · cases done
      exact .inl ⟨rfl, .inl rfl⟩
    rename_i lost
    obtain ⟨ledger, tracked⟩ := expunge_ledger done
    exact .inr ⟨ledger, tracked, .inl ⟨missing, Bool.eq_false_iff.mpr lost⟩⟩
  · split at done
    · rename_i known
      obtain ⟨ledger, tracked⟩ := expunge_ledger done
      exact .inr ⟨ledger, tracked, .inr known⟩
    split at done
    · cases done
      exact .inl ⟨rfl, .inr rfl⟩
    · obtain ⟨uids, tracked⟩ := follow_uids done
      exact .inl ⟨uids, .inr tracked⟩

theorem bringIn_uids {rotate : Bytes → Bool} {uidFor : Bytes → Option ℕ} {inCur : Bytes → Bool}
    (done : p.bringIn rotate uidFor inCur r = .ok p') : p.index.ledger.uids ⊆ p'.index.ledger.uids := by
  unfold bringIn at done
  split at done
  · rw [Except.ok.inj done]
    exact .refl _
  rename_i needed
  rw [(append_ledger (fun unnamed => needed (.inl unnamed)) done).1, takenIn_uids]
  exact subset_append_left _ _

end Pass

/-! ## What a run removes -/

/-- After the visits `done` and before the visits `rest`: a record that is gone was not found, or its
base has a record. -/
structure Watched (scanned : List ScanRecord) (done rest : List (MessageMeta × (Bytes → Bool)))
    (p : Pass) : Prop where
  later : ∀ v ∈ rest, v.1.uid ∈ p.index.ledger.uids
  owner : ∀ base ∈ p.tracked, ∃ v ∈ done, baseOfMessage v.1 = base ∧ v.1.uid ∈ p.index.ledger.uids
  lost : ∀ v ∈ done, v.1.uid ∉ p.index.ledger.uids →
    onDisk scanned (baseOfMessage v.1) = none ∧ v.2 v.1.filename = false ∨
      ∃ k ∈ done, baseOfMessage k.1 = baseOfMessage v.1 ∧ k.1.uid ∈ p.index.ledger.uids

theorem Watched.visit {scanned : List ScanRecord} {v : MessageMeta × (Bytes → Bool)} {p p' : Pass}
    (watched : Watched scanned done (v :: rest) p)
    (distinct : ((done ++ v :: rest).map (·.1.uid)).Nodup) (step : p.visit scanned v.2 v.1 = .ok p') :
    Watched scanned (done ++ [v]) rest p' := by
  have here : v.1.uid ∈ p.index.ledger.uids := watched.later v (.head _)
  rw [map_append, map_cons, nodup_append] at distinct
  have inDone : ∀ w ∈ done, w.1.uid ≠ v.1.uid := fun w member =>
    distinct.2.2 _ (mem_map_of_mem member) _ (.head _)
  have inRest : ∀ w ∈ rest, w.1.uid ≠ v.1.uid := fun w member same =>
    (nodup_cons.mp distinct.2.1).1 (same ▸ mem_map_of_mem (f := fun w => w.1.uid) member)
  -- What was visited before stays as it was, if the step keeps its records.
  have carried (keeps : ∀ w ∈ done, w.1.uid ∈ p.index.ledger.uids → w.1.uid ∈ p'.index.ledger.uids) :
      (∀ base ∈ p.tracked, ∃ w ∈ done ++ [v], baseOfMessage w.1 = base ∧ w.1.uid ∈ p'.index.ledger.uids) ∧
      ∀ w ∈ done, w.1.uid ∉ p'.index.ledger.uids →
        onDisk scanned (baseOfMessage w.1) = none ∧ w.2 w.1.filename = false ∨
          ∃ k ∈ done ++ [v], baseOfMessage k.1 = baseOfMessage w.1 ∧ k.1.uid ∈ p'.index.ledger.uids := by
    constructor
    · intro base known
      obtain ⟨w, member, eq, held⟩ := watched.owner base known
      exact ⟨w, mem_append_left _ member, eq, keeps w member held⟩
    · intro w member gone
      rcases watched.lost w member fun held => gone (keeps w member held) with
        missing | ⟨k, inside, eq, held⟩
      · exact .inl missing
      · exact .inr ⟨k, mem_append_left _ inside, eq, keeps k inside held⟩
  rcases visit_uids step with ⟨uids, tracked⟩ | ⟨ledger, tracked, why⟩
  · -- The record stays; it may be the first of its base.
    obtain ⟨owner, lost⟩ := carried fun w _ held => uids ▸ held
    refine ⟨fun w member => uids ▸ watched.later w (.tail _ member), fun base known => ?_, ?_⟩
    · rcases tracked with same | first
      · exact owner base (same ▸ known)
      rw [first] at known
      rcases mem_cons.mp known with rfl | known
      · exact ⟨v, mem_append_right _ (.head _), rfl, uids ▸ here⟩
      · exact owner base known
    · exact forall_mem_concat lost fun gone => absurd (uids ▸ here) gone
  · -- The record goes; every other one stays.
    have stays : ∀ uid ∈ p.index.ledger.uids, uid ≠ v.1.uid → uid ∈ p'.index.ledger.uids := by
      intro uid member other
      rw [ledger, Ledger.expunge, if_pos here]
      exact (mem_erase_of_ne other).mpr member
    obtain ⟨owner, lost⟩ := carried fun w member held => stays _ held (inDone w member)
    refine ⟨fun w member => stays _ (watched.later w (.tail _ member)) (inRest w member),
      tracked ▸ owner, forall_mem_concat lost fun _ => ?_⟩
    exact why.imp id fun known => owner _ known

theorem Watched.run {scanned : List ScanRecord} {p : Pass} (distinct : ((done ++ rest).map (·.1.uid)).Nodup)
    (held : ∀ v ∈ done ++ rest, v.1.uid ∈ t.ledger.uids)
    (run : done.foldlM (fun p v => p.visit scanned v.2 v.1) (start t) = .ok p) :
    Watched scanned done rest p := by
  induction done using reverseRecOn generalizing rest p with
  | nil =>
    cases run
    exact ⟨held, nofun, nofun⟩
  | append_singleton done v ih =>
    rw [foldlM_append] at run
    obtain ⟨q, before, run⟩ := bind_eq_ok.mp run
    rw [foldlM_cons] at run
    obtain ⟨q', step, last⟩ := bind_eq_ok.mp run
    cases last
    rw [append_assoc, singleton_append] at distinct held
    exact (ih distinct held before).visit distinct step

namespace Timeline

variable {f : Folder} (tl : Timeline f) {host : Host}

theorem visits_fst (s : Local) : (tl.visits s).map (·.1) = s.fs.getMessages := by
  unfold visits
  rw [map_map]
  exact zipIdx_map_fst 0 s.fs.getMessages

theorem onDisk_of_listed {name : Bytes} (listed : name ∈ tl.listing ∨ (⟨name, false⟩ : DirEntry) ∈ f.new) :
    onDisk (tl.scanned host) (maildirBase name) ≠ none := by
  intro missing
  have member : f.describe host name ∈ tl.scanned host := by
    refine mem_map_of_mem (mem_append.mpr ?_)
    rcases listed with inside | waiting
    · exact .inl inside
    · refine .inr (mem_map.mpr ⟨⟨name, false⟩, mem_filter.mpr ⟨?_, rfl⟩, rfl⟩)
      exact (readDir_perm f.new).mem_iff.mpr waiting
  have away := find?_eq_none.mp missing _ (mem_reverse.mpr member)
  exact away (by simp [describe])

/-- A record is there, or another one of its base. -/
def Survives (mail : List (ℕ × Bytes)) (uids : List ℕ) (e : ℕ × Bytes) : Prop :=
  e.1 ∈ uids ∨ ∃ k ∈ mail, baseOf k = baseOf e ∧ k.1 ≠ e.1 ∧ k.1 ∈ uids

/-- A live message that is seen keeps a record through the visits. -/
theorem visits_keep (distinct : t.ledger.uids.Nodup) (seen : tl.Seen t)
    (visits : tl.visits t = done ++ rest) {p : Pass}
    (run : tl.visitAll host (start t) done = .ok p) {e : ℕ × Bytes} (member : e ∈ mailOf t)
    (live : tl.Live (baseOf e)) : Survives (mailOf t) p.index.ledger.uids e := by
  have fst : (done ++ rest).map (·.1) = t.fs.getMessages := visits ▸ tl.visits_fst t
  have uids : (done ++ rest).map (·.1.uid) = (mailOf t).map (·.1) := by
    rw [mailOf, map_map, ← fst, map_map]
    rfl
  have mem : ∀ v ∈ done ++ rest, pairOf v.1 ∈ mailOf t := fun v inside =>
    mem_map_of_mem (fst ▸ mem_map_of_mem inside)
  have watched : Watched (tl.scanned host) done rest p := by
    refine .run ?_ (fun v inside => ?_) run
    · rw [uids]
      exact mailOf_uids_nodup distinct
    · exact (Ledger.mem_entries.mp ((getMessages_perm t.fs).mem_iff.mp (mem v inside))).1
  by_contra none
  obtain ⟨gone, alone⟩ := not_or.mp none
  -- No record of the base is in the index.
  have all : ∀ v ∈ done ++ rest, baseOf (pairOf v.1) = baseOf e → v.1.uid ∉ p.index.ledger.uids := by
    intro v inside base held
    exact alone ⟨pairOf v.1, mem v inside, base, fun same => gone (same ▸ held), held⟩
  have absent : ∀ v ∈ done ++ rest, baseOf (pairOf v.1) = baseOf e →
      onDisk (tl.scanned host) (baseOf e) = .none ∧ v.2 v.1.filename = false := by
    intro v inside base
    have out := all v inside base
    rcases mem_append.mp inside with before | after
    · rcases watched.lost v before out with missing | ⟨k, kept, same, held⟩
      · exact ⟨base ▸ missing.1, missing.2⟩
      · exact absurd held (all k (mem_append_left _ kept) (same.trans base))
    · exact absurd (watched.later v after) out
  have visited : ∃ v ∈ done ++ rest, pairOf v.1 = e := by
    obtain ⟨m, held, rfl⟩ := mem_map.mp member
    rw [← fst] at held
    obtain ⟨v, inside, rfl⟩ := mem_map.mp held
    exact ⟨v, inside, rfl⟩
  obtain ⟨v, inside, rfl⟩ := visited
  obtain ⟨missing, _⟩ := absent v inside rfl
  rcases seen _ live (mem_map_of_mem member) with
    ⟨name, base, listed⟩ | ⟨i, e', at_, base, found⟩
  · exact tl.onDisk_of_listed listed (base ▸ missing)
  have visit : ∃ w ∈ done ++ rest, pairOf w.1 = e' ∧ w.2 = (tl.disk (tl.check i)).stillOnDisk := by
    rw [mailOf, getElem?_map] at at_
    obtain ⟨m, place, rfl⟩ := Option.map_eq_some_iff.mp at_
    refine ⟨(m, (tl.disk (tl.check i)).stillOnDisk), ?_, rfl, rfl⟩
    rw [← visits, Timeline.visits]
    refine mem_map.mpr ⟨(m, i), ?_, rfl⟩
    exact mem_zipIdx_iff_getElem?.mpr place
  obtain ⟨w, among, rfl, check⟩ := visit
  have away := (absent w among base).2
  rw [check] at away
  rw [show (pairOf w.1).2 = w.1.filename from rfl, away] at found
  cases found

theorem bringInAll_uids {adopted : Bool} {p q : Pass} {done : List (ScanRecord × (Bytes → Bool))}
    (run : f.bringInAll host adopted p done = .ok q) : p.index.ledger.uids ⊆ q.index.ledger.uids := by
  unfold bringInAll at run
  induction done generalizing p with
  | nil =>
    rw [Except.ok.inj run]
    exact .refl _
  | cons r rest ih =>
    rw [foldlM_cons] at run
    obtain ⟨p', first, run⟩ := bind_eq_ok.mp run
    exact List.Subset.trans (bringIn_uids first) (ih run)

/-- In every run in which the messages of `cur/` are seen, no record of a message that is in `cur/`
all along is expunged, except beside another record of the same base. -/
theorem live_messages_kept (host : Host) {s s' : Local}
    (distinct : s.ledger.uids.Nodup) (seen : tl.Seen s) (reached : tl.Reached host s s')
    {e : ℕ × Bytes} (member : e ∈ mailOf s) (live : tl.Live (baseOf e)) :
    e.1 ∈ s'.ledger.uids ∨ ∃ k ∈ mailOf s, baseOf k = baseOf e ∧ k.1 ≠ e.1 ∧ k.1 ∈ s'.ledger.uids := by
  -- Taking over a UID space leaves the messages alone.
  have unmoved {adopted : Bool} {t : Local} (adopting : adopt f s = .ok (adopted, t)) :
      t.ledger.uids = s.ledger.uids ∧ mailOf t = mailOf s := by
    obtain ⟨t', done, uids, _, _, same⟩ := adopt_ok f s
    rw [done] at adopting
    cases adopting
    exact ⟨uids, same⟩
  have visited {adopted : Bool} {t : Local} {done rest : List (MessageMeta × (Bytes → Bool))} {p : Pass}
      (adopting : adopt f s = .ok (adopted, t)) (visits : tl.visits t = done ++ rest)
      (run : tl.visitAll host (start t) done = .ok p) : Survives (mailOf s) p.index.ledger.uids e := by
    obtain ⟨uids, same⟩ := unmoved adopting
    have seen' : tl.Seen t := by
      unfold Seen
      rwa [same]
    rw [← same]
    exact tl.visits_keep (uids ▸ distinct) seen' visits run (same ▸ member) live
  have more {p q : Pass} (sub : p.index.ledger.uids ⊆ q.index.ledger.uids)
      (kept : Survives (mailOf s) p.index.ledger.uids e) : Survives (mailOf s) q.index.ledger.uids e :=
    kept.imp (fun held => sub held) fun ⟨k, inside, base, other, held⟩ =>
      ⟨k, inside, base, other, sub held⟩
  cases reached with
  | untouched =>
    exact .inl (Ledger.mem_entries.mp ((getMessages_perm s.fs).mem_iff.mp member)).1
  | visiting adopting visits run => exact visited adopting visits run
  | importing adopting run _ imports =>
    exact more (bringInAll_uids imports) (visited adopting (append_nil _).symm run)
  | finished adopting run imports stamped =>
    rw [stamped_ledger stamped]
    exact more (bringInAll_uids imports) (visited adopting (append_nil _).symm run)

end Timeline

/-! ## A message read while the folder is listed -/

def unreadFolder : Folder where
  cur := [⟨[97, 58, 50, 44], false⟩]
  new := []
  uidList := none
  distinct := by decide
  named := by decide

/-- The flag change of a reader: `a:2,` becomes `a:2,S`. -/
def reading : Rename where
  old := [97, 58, 50, 44]
  new := [97, 58, 50, 44, 83]
  keeps := by decide
  named := by decide

/-- The message is read while `cur/` is walked over, and not reported. -/
def missed : Timeline unreadFolder where
  renames := [reading]
  opened := 0
  closed := 1
  listing := []
  check := fun _ => 1
  walk := by decide
  later := fun _ => le_rfl
  monotone := monotone_const
  sound := nofun
  complete := by
    intro name always
    have first : name = [97, 58, 50, 44] := List.mem_singleton.mp (always 0 le_rfl (by decide))
    have last : name = [97, 58, 50, 44, 83] := List.mem_singleton.mp (always 1 (by decide) le_rfl)
    rw [first] at last
    exact absurd last (by decide)

/-- The record of the message is expunged, and there is no other. -/
theorem message_read_during_listing_expunged : ∃ s', missed.Reached plainHost oneMessage.state s' ∧
      (1, [97, 58, 50, 44]) ∈ mailOf oneMessage.state ∧ missed.Live [97] ∧ s'.ledger.uids = [] := by
  have expunged : (missed.visitAll plainHost (start oneMessage.state)
      (missed.visits oneMessage.state)).toOption.map (·.index.ledger.uids) = some [] := by
    decide +kernel
  cases run : missed.visitAll plainHost (start oneMessage.state) (missed.visits oneMessage.state) with
  | error e =>
    rw [run] at expunged
    cases expunged
  | ok p =>
    rw [run] at expunged
    exact ⟨p.index, .visiting rfl (append_nil _).symm run, by decide +kernel,
      missed.live_of_start (by decide), Option.some.inj expunged⟩

/-- The message is read while `cur/` is walked over, and reported under its new name. -/
def reported : Timeline unreadFolder where
  renames := [reading]
  opened := 0
  closed := 1
  listing := [[97, 58, 50, 44, 83]]
  check := fun _ => 1
  walk := by decide
  later := fun _ => le_rfl
  monotone := monotone_const
  sound := fun name member => ⟨1, by decide, le_rfl, member⟩
  complete := fun name always => always 1 (by decide) le_rfl

theorem live_messages_kept_reported :
    ∃ s', reported.Reached plainHost oneMessage.state s' ∧ s'.ledger.name 1 = [97, 58, 50, 44, 83] ∧
      (1 ∈ s'.ledger.uids ∨ ∃ k ∈ mailOf oneMessage.state,
        baseOf k = [97] ∧ k.1 ≠ 1 ∧ k.1 ∈ s'.ledger.uids) := by
  have followed : (reported.visitAll plainHost (start oneMessage.state)
      (reported.visits oneMessage.state)).toOption.map (·.index.ledger.name 1) =
        some [97, 58, 50, 44, 83] := by
    decide +kernel
  have member : (1, [97, 58, 50, 44]) ∈ mailOf oneMessage.state := by decide +kernel
  have only : (mailOf oneMessage.state).map baseOf = [[97]] := by decide +kernel
  have seen : reported.Seen oneMessage.state := by
    intro base _ known
    rw [only, mem_singleton] at known
    exact .inl ⟨[97, 58, 50, 44, 83], known ▸ by decide, .inl (.head _)⟩
  cases run : reported.visitAll plainHost (start oneMessage.state)
      (reported.visits oneMessage.state) with
  | error e =>
    rw [run] at followed
    cases followed
  | ok p =>
    rw [run] at followed
    have reached : reported.Reached plainHost oneMessage.state p.index :=
      .visiting rfl (append_nil _).symm run
    exact ⟨p.index, reached, Option.some.inj followed,
      reported.live_messages_kept plainHost oneMessage.distinct seen reached member
        (reported.live_of_start (by decide))⟩

end Yarilo.Maildir

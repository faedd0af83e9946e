import Yarilo.Maildir.Matching

/-! # What a pass does to the ledger

The two loops of the locked section, read on the ledger of the index: the visits leave the records of
`keep`, the imports add the files of `imports` at the UIDs of `numbers`.
-/

namespace Yarilo.FileIndex.Ledger

open Library List

variable {l : Ledger} {e : ℕ × Bytes} {others : List (ℕ × Bytes)}

theorem entries_uids (l : Ledger) : l.entries.map (·.1) = l.uids := by
  simp [entries, Function.comp_def]

theorem mem_entries : e ∈ l.entries ↔ e.1 ∈ l.uids ∧ l.name e.1 = e.2 := by
  unfold entries
  rw [mem_map]
  constructor
  · rintro ⟨uid, member, rfl⟩
    exact ⟨member, rfl⟩
  · rintro ⟨member, name⟩
    exact ⟨e.1, member, by rw [name]⟩

theorem expunge_entries (nodup : l.uids.Nodup) (uid : ℕ) :
    (l.expunge uid).entries = l.entries.filter (·.1 ≠ uid) := by
  unfold expunge
  split
  · unfold entries
    dsimp only
    rw [nodup.erase_eq_filter, filter_map]
    have kept : l.uids.filter (· != uid) =
        l.uids.filter ((fun e : ℕ × Bytes => decide (e.1 ≠ uid)) ∘ fun x => (x, l.name x)) :=
      filter_congr fun x _ => by simp [bne, Bool.beq_eq_decide_eq]
    rw [← kept]
    refine map_congr_left fun x member => ?_
    have other : x ≠ uid := by simpa using (mem_filter.mp member).2
    rw [Function.update_of_ne other]
  · rename_i absent
    refine (filter_eq_self.mpr fun e member => ?_).symm
    have : e.1 ≠ uid := fun same => absent (same ▸ (mem_entries.mp member).1)
    simpa using this

theorem rename_entries (l : Ledger) (uid : ℕ) (name : Bytes) :
    (l.rename uid name).entries = l.entries.map fun e => if e.1 = uid then (uid, name) else e := by
  unfold entries rename
  rw [map_map]
  refine map_congr_left fun x _ => ?_
  by_cases same : x = uid
  · simp [same]
  · simp [same]

theorem append_entries {uid : ℕ} (fresh : uid ∉ l.uids) (name : Bytes) :
    (l.append uid name).entries = l.entries ++ [(uid, name)] := by
  unfold entries append
  dsimp only
  rw [map_append, map_singleton, Function.update_self]
  congr 1
  refine map_congr_left fun x member => ?_
  have other : x ≠ uid := fun same => fresh (same ▸ member)
  rw [Function.update_of_ne other]

section

variable (nodup : l.uids.Nodup) (held : l.entries.Perm (e :: others))

include nodup held

theorem uid_ne_of_perm {x : ℕ × Bytes} (member : x ∈ others) : x.1 ≠ e.1 := by
  rw [← entries_uids] at nodup
  have uids := (held.map Prod.fst).nodup_iff.mp nodup
  exact fun same => (nodup_cons.mp uids).1 (mem_map.mpr ⟨x, member, same⟩)

/-- One message leaves. -/
theorem expunge_perm : (l.expunge e.1).entries.Perm others := by
  rw [expunge_entries nodup]
  refine (held.filter _).trans ?_
  rw [filter_cons_of_neg (by simp), filter_eq_self.mpr]
  intro x member
  simpa using uid_ne_of_perm nodup held member

/-- One message changes its name. -/
theorem rename_perm (name : Bytes) : (l.rename e.1 name).entries.Perm ((e.1, name) :: others) := by
  rw [rename_entries]
  refine (held.map _).trans (.of_eq ?_)
  rw [map_cons, if_pos rfl]
  congr 1
  conv_rhs => rw [← map_id others]
  refine map_congr_left fun x member => ?_
  rw [if_neg (uid_ne_of_perm nodup held member)]
  rfl

end

end Yarilo.FileIndex.Ledger

namespace Yarilo.Maildir

open Library FileIndex List

theorem bind_eq_ok {ε α β : Type} {x : Except ε α} {f : α → Except ε β} {b : β} :
    x >>= f = .ok b ↔ ∃ a, x = .ok a ∧ f a = .ok b := by
  cases x with
  | error e => exact ⟨nofun, fun ⟨_, eq, _⟩ => (nomatch eq)⟩
  | ok a => exact ⟨fun eq => ⟨a, rfl, eq⟩, fun ⟨_, eq, rest⟩ => Except.ok.inj eq ▸ rest⟩

theorem call_eq_ok {result : Result} {answer : Answer} {s : Local} :
    call result = .ok (answer, s) ↔ result = (.ok answer, s) := by
  obtain ⟨outcome, t⟩ := result
  cases outcome with
  | error e => simp [call]
  | ok a => simp [call]

/-- A message as the ledger has it. -/
def pairOf (m : MessageMeta) : ℕ × Bytes := (m.uid, m.filename)

/-- The name a listing has for a base. -/
def diskOf (scanned : List ScanRecord) (base : Bytes) : Option Bytes :=
  (onDisk scanned base).map (·.filename)

namespace Pass

variable {p p' : Pass} {scanned : List ScanRecord} {present : Bytes → Bool} {m : MessageMeta}
  {r : ScanRecord}

theorem expunge_ledger {uid : ℕ} (done : p.expunge uid = .ok p') :
    p'.index.ledger = p.index.ledger.expunge uid ∧ p'.tracked = p.tracked := by
  obtain ⟨s, result, ledger⟩ := Local.expungeMessage_ledger uid p.index
  unfold expunge at done
  rw [result] at done
  cases done
  exact ⟨ledger, rfl⟩

theorem adoptFlags_ledger {index : Local} (done : p.adoptFlags m r = .ok index) :
    index.ledger = p.index.ledger := by
  unfold adoptFlags at done
  split at done
  · rw [Except.ok.inj done]
  cases written : call (p.index.writeFlags .replace m.uid r.flags r.keywords) with
  | error e =>
    rw [written] at done
    cases done
  | ok result =>
    rw [written] at done
    cases done
    exact Local.writeFlags_ledger (call_eq_ok.mp written)

theorem follow_ledger (known : p.index.ledger.name m.uid ≠ []) (named : r.filename ≠ [])
    (done : p.follow m r = .ok p') :
    p'.index.ledger = p.index.ledger.rename m.uid r.filename ∧ p'.tracked = p.tracked := by
  obtain ⟨index, flagged, done⟩ := bind_eq_ok.mp done
  have same := adoptFlags_ledger flagged
  have known' : index.ledger.name m.uid ≠ [] := by rwa [same]
  obtain ⟨s, result, ledger⟩ := Local.updateFilename_ledger index named known'
  rw [result] at done
  cases done
  exact ⟨ledger.trans (by rw [same]), rfl⟩

/-- A listing whose names are not empty and still there when they are looked for. -/
def Steady (scanned : List ScanRecord) (present : Bytes → Bool) : Prop :=
  ∀ base r, onDisk scanned base = some r → r.filename ≠ [] ∧ present r.filename = true

/-- One visit. The messages are the one that is visited and `others`. -/
theorem visit_ledger {others : List (ℕ × Bytes)} (steady : Steady scanned present)
    (nodup : p.index.ledger.uids.Nodup) (held : p.index.ledger.entries.Perm (pairOf m :: others))
    (named : m.filename ≠ []) (done : p.visit scanned present m = .ok p') :
    p'.index.ledger.entries.Perm
        (keep (diskOf scanned) present p.tracked [pairOf m] ++ others) ∧
      p'.tracked = claim (diskOf scanned) p.tracked [pairOf m] ∧
      p'.index.ledger.next = p.index.ledger.next := by
  have next (uid : ℕ) : (p.index.ledger.expunge uid).next = p.index.ledger.next := by
    unfold Ledger.expunge
    split <;> rfl
  have base : baseOf (pairOf m) = maildirBase m.filename := rfl
  unfold visit at done
  rw [if_neg named] at done
  unfold keep claim diskOf
  rw [base]
  split at done
  · rename_i missing
    simp only [missing, Option.map_none, Option.isSome_none, Bool.false_eq_true, false_and, if_false]
    split at done
    · rename_i there
      cases done
      rw [show present (pairOf m).2 = true from there, if_pos rfl]
      exact ⟨held, rfl, rfl⟩
    · rename_i gone
      obtain ⟨ledger, tracked⟩ := expunge_ledger done
      rw [show present (pairOf m).2 = false from Bool.eq_false_iff.mpr gone, ledger, next]
      exact ⟨Ledger.expunge_perm nodup held, tracked, rfl⟩
  · rename_i r found
    simp only [found, Option.map_some, Option.isSome_some, true_and]
    split at done
    · rename_i known
      obtain ⟨ledger, tracked⟩ := expunge_ledger done
      rw [if_pos known, if_neg (not_not.mpr known), ledger, next]
      exact ⟨Ledger.expunge_perm nodup held, tracked, rfl⟩
    · rename_i new
      rw [if_neg new, if_pos new]
      split at done
      · rename_i still
        cases done
        have same : r.filename = m.filename := by
          rcases still with same | lost
          · exact same
          · rw [(steady _ _ found).2] at lost
            cases lost
        rw [same]
        exact ⟨held, rfl, rfl⟩
      · have member := Ledger.mem_entries.mp (held.mem_iff.mpr (.head _))
        have known : (p.track m r).index.ledger.name m.uid ≠ [] := by
          rw [show (p.track m r).index = p.index from rfl]
          exact member.2 ▸ named
        obtain ⟨ledger, tracked⟩ := follow_ledger known (steady _ _ found).1 done
        rw [ledger]
        exact ⟨Ledger.rename_perm nodup held r.filename, tracked, rfl⟩

/-- The visits of all messages, one after the other. `others` are messages that are not visited. -/
theorem visits_ledger {messages : List MessageMeta} {others : List (ℕ × Bytes)}
    (steady : Steady scanned present) (nodup : p.index.ledger.uids.Nodup)
    (held : p.index.ledger.entries.Perm (messages.map pairOf ++ others))
    (named : ∀ m ∈ messages, m.filename ≠ [])
    (done : messages.foldlM (fun p m => p.visit scanned present m) p = .ok p') :
    p'.index.ledger.entries.Perm
        (keep (diskOf scanned) present p.tracked (messages.map pairOf) ++ others) ∧
      p'.tracked = claim (diskOf scanned) p.tracked (messages.map pairOf) ∧
      p'.index.ledger.next = p.index.ledger.next := by
  induction messages generalizing p others with
  | nil =>
    cases done
    exact ⟨held, rfl, rfl⟩
  | cons m rest ih =>
    rw [foldlM_cons] at done
    obtain ⟨q, first, done⟩ := bind_eq_ok.mp done
    obtain ⟨entries, tracked, next⟩ :=
      visit_ledger steady nodup held (named m (.head _)) first
    set kept := keep (diskOf scanned) present p.tracked [pairOf m]
    have before : ((pairOf m :: rest.map pairOf ++ others).map (·.1)).Nodup := by
      rw [← Ledger.entries_uids] at nodup
      exact (held.map _).nodup_iff.mp nodup
    have shrunk : ((kept ++ (rest.map pairOf ++ others)).map (·.1)).Sublist
        ((pairOf m :: rest.map pairOf ++ others).map (·.1)) := by
      rw [map_append, cons_append, map_cons]
      exact (keep_uids p.tracked [pairOf m]).append (.refl _)
    have nodup' : q.index.ledger.uids.Nodup := by
      rw [← Ledger.entries_uids]
      exact (entries.map _).nodup_iff.mpr (before.sublist shrunk)
    have held' : q.index.ledger.entries.Perm (rest.map pairOf ++ (kept ++ others)) :=
      entries.trans (perm_append_comm_assoc ..)
    obtain ⟨entries', tracked', next'⟩ :=
      ih nodup' held' (fun m later => named m (.tail _ later)) done
    rw [tracked] at entries' tracked'
    refine ⟨?_, ?_, next'.trans next⟩
    · rw [map_cons, keep_cons, append_assoc]
      exact entries'.trans (perm_append_comm_assoc ..)
    · rw [tracked', map_cons]
      simp only [claim]
      split <;> rfl

/-! ## The imports -/

/-- The ledger after the import of one file. -/
def takenIn (l : Ledger) (recordedUID : Option ℕ) (name : Bytes) : Ledger :=
  match recordedUID with
  | .some uid => l.append uid name
  | .none => l.allocate name

theorem takenIn_uids (l : Ledger) (uidFor : Bytes → Option ℕ) (name : Bytes) :
    (takenIn l (uidFor name) name).uids = l.uids ++ numbers uidFor l.next [name] := by
  unfold numbers
  cases uidFor name <;> rfl

theorem numbers_cons (l : Ledger) (uidFor : Bytes → Option ℕ) (name : Bytes) (rest : List Bytes) :
    numbers uidFor l.next (name :: rest) =
      numbers uidFor l.next [name] ++ numbers uidFor (takenIn l (uidFor name) name).next rest := by
  simp only [numbers]
  cases uidFor name with
  | some uid => rfl
  | none =>
    have next : (l.allocate name).next = u32 (l.fresh + 1) := by
      unfold Ledger.allocate Ledger.append
      split <;> rfl
    simp only [takenIn, next, singleton_append]
    rfl

theorem takenIn_entries {l : Ledger} {uidFor : Bytes → Option ℕ} {name : Bytes}
    (nodup : (takenIn l (uidFor name) name).uids.Nodup) :
    (takenIn l (uidFor name) name).entries = l.entries ++ (numbers uidFor l.next [name]).zip [name] := by
  rw [takenIn_uids] at nodup
  have fresh := (nodup_append.mp nodup).2.2
  simp only [numbers] at fresh ⊢
  cases known : uidFor name with
  | some uid =>
    rw [known] at fresh
    exact Ledger.append_entries (fun member => fresh uid member uid (.head _) rfl) name
  | none =>
    rw [known] at fresh
    exact @Ledger.append_entries { l with next := u32 (l.fresh + 1) } l.fresh
      (fun member => fresh _ member _ (.head _) rfl) name

variable {rotate : Bytes → Bool} {uidFor : Bytes → Option ℕ} {inCur : Bytes → Bool}

theorem append_ledger {recordedUID : Option ℕ} (named : r.filename ≠ [])
    (done : p.append rotate recordedUID r = .ok p') :
    p'.index.ledger = takenIn p.index.ledger recordedUID r.filename ∧
      p'.tracked = maildirBase r.filename :: p.tracked := by
  unfold append at done
  split at done
  · rename_i uid
    obtain ⟨⟨answer, s⟩, appended, done⟩ := bind_eq_ok.mp done
    cases done
    exact ⟨Local.commitAppend_ledger (by exact named) (call_eq_ok.mp appended), rfl⟩
  · obtain ⟨⟨answer, s⟩, appended, done⟩ := bind_eq_ok.mp done
    cases done
    exact ⟨Local.allocateAndAppendNamed_ledger (by exact named) (call_eq_ok.mp appended), rfl⟩

/-- The imports of a listing whose files are all in `cur/`. -/
theorem imports_ledger {rs : List ScanRecord} (named : ∀ r ∈ rs, r.filename ≠ [])
    (inside : ∀ r ∈ rs, inCur r.filename = true)
    (done : rs.foldlM (fun p r => p.bringIn rotate uidFor inCur r) p = .ok p') :
    p'.index.ledger.uids = p.index.ledger.uids ++
        numbers uidFor p.index.ledger.next (imports p.tracked (rs.map (·.filename))) ∧
      (p'.index.ledger.uids.Nodup → p'.index.ledger.entries = p.index.ledger.entries ++
        (numbers uidFor p.index.ledger.next (imports p.tracked (rs.map (·.filename)))).zip
          (imports p.tracked (rs.map (·.filename)))) := by
  induction rs generalizing p with
  | nil =>
    cases done
    exact ⟨(append_nil _).symm, fun _ => (append_nil _).symm⟩
  | cons r rest ih =>
    rw [foldlM_cons] at done
    obtain ⟨q, first, done⟩ := bind_eq_ok.mp done
    have step := fun q => @ih q (fun r later => named r (.tail _ later))
      (fun r later => inside r (.tail _ later))
    have here := named r (.head _)
    unfold bringIn at first
    rw [map_cons]
    unfold imports
    by_cases known : maildirBase r.filename ∈ p.tracked
    · rw [if_pos (.inr (.inl known))] at first
      cases first
      rw [if_pos known]
      exact step p done
    · rw [if_neg (by simp [here, known, inside r (.head _)])] at first
      rw [if_neg known]
      obtain ⟨ledger, tracked⟩ := append_ledger here first
      obtain ⟨uids, entries⟩ := step q done
      rw [ledger, tracked, takenIn_uids, append_assoc, ← numbers_cons] at uids
      refine ⟨uids, fun nodup => ?_⟩
      have nodup' : (takenIn p.index.ledger (uidFor r.filename) r.filename).uids.Nodup := by
        rw [takenIn_uids]
        rw [uids, numbers_cons, ← append_assoc] at nodup
        exact (nodup_append.mp nodup).1
      have cons := numbers_cons p.index.ledger uidFor r.filename
        (imports (maildirBase r.filename :: p.tracked) (rest.map (·.filename)))
      rw [entries nodup, ledger, tracked, takenIn_entries nodup', append_assoc, cons,
        ← zip_append (length_numbers ..)]
      rfl

end Pass

end Yarilo.Maildir

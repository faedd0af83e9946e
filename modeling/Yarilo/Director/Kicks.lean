import Yarilo.Director.Sessions

/-! # A remote reassignment kicks

What kicking a user's sessions off a backend does to a registry that sessions opened: exactly the
login connections that own such a session are written to, and every other session stays, where the
index of the backend lists no copy of the user's sessions and none that has since opened elsewhere.
-/

namespace Yarilo.Director

open Library List

variable {rec_ : SessionRec} {backend : Bytes}

namespace Sessions

variable {ss : Sessions}

theorem Indexed.get_eq_some (indexed : ss.Indexed) {id : Bytes} :
    ss.get id = some rec_ ↔ rec_ ∈ ss.byId ∧ rec_.id = id := by
  constructor
  · intro found
    exact ⟨mem_of_find?_eq_some found, by simpa using find?_some found⟩
  · rintro ⟨member, rfl⟩
    rcases found : ss.get rec_.id with _ | other
    · have unlike := find?_eq_none.mp found rec_ member
      simp at unlike
    · have there := mem_of_find?_eq_some found
      have same : other.id = rec_.id := by simpa using find?_some found
      rw [inj_on_of_nodup_map indexed.keyed there member same]

theorem mem_insert_byBE (ss : Sessions) (rec_ : SessionRec) {id : Bytes} :
    id ∈ (ss.insert rec_).byBE backend ↔ id ∈ ss.byBE backend ∨ backend = rec_.backend ∧ id = rec_.id := by
  by_cases own : backend = rec_.backend
  · subst own
    simp only [insert, Function.update_self, true_and]
    split
    · next known =>
      constructor
      · exact .inl
      · rintro (member | rfl)
        · exact member
        · exact known
    · rw [mem_cons, or_comm]
  · simp [insert, own]

theorem Indexed.insert (indexed : ss.Indexed) (rec_ : SessionRec) : (ss.insert rec_).Indexed := by
  constructor
  · simp only [Sessions.insert, map_cons, nodup_cons]
    refine ⟨?_, (filter_sublist.map _).nodup indexed.keyed⟩
    intro member
    obtain ⟨other, kept, same⟩ := mem_map.mp member
    have apart := of_decide_eq_true (mem_filter.mp kept).2
    exact apart same
  · intro other member
    rw [mem_insert_byBE]
    rcases mem_cons.mp member with rfl | kept
    · exact .inr ⟨rfl, rfl⟩
    · exact .inl (indexed.listed other (mem_filter.mp kept).1)

end Sessions

namespace Server

variable {o : Options} {s : Server}

@[simp] theorem noteSessionOpened_sessions (s : Server) (user : Bytes) :
    (s.noteSessionOpened o user).sessions = s.sessions := by
  unfold noteSessionOpened
  split <;> rfl

theorem openSession_indexed (indexed : s.sessions.Indexed) (event : SessionOpen) :
    (s.openSession o event).sessions.Indexed := by
  cases event with
  | ofLogin c id user backend proto =>
    simp only [openSession, handleSessionOpen, noteSessionOpened_sessions]
    exact indexed.insert _
  | ofPeer origin id user backend proto =>
    simp only [openSession, applyRemoteSessionOpen]
    split
    · exact indexed
    · rw [noteSessionOpened_sessions]
      exact indexed.insert _

theorem afterOpens_indexed (s : Server) (opens : List SessionOpen) :
    (s.afterOpens o opens).sessions.Indexed := by
  have whole {s : Server} (indexed : s.sessions.Indexed) (opens : List SessionOpen) :
      (opens.foldl (openSession o) s).sessions.Indexed := by
    induction opens generalizing s with
    | nil => exact indexed
    | cons event opens ih => exact ih (openSession_indexed indexed event)
  have none_ : (⟨[], fun _ => []⟩ : Sessions).Indexed :=
    ⟨nodup_nil, nofun⟩
  exact whole (s := { s with sessions := ⟨[], fun _ => []⟩ }) none_ opens

/-! ## One kick -/

theorem mem_victims {ss : Sessions} (indexed : ss.Indexed) {hash : UInt32} {ip : Bytes} {rec_ : SessionRec} :
    rec_ ∈ victims o ss hash ip ↔ rec_ ∈ ss.byId ∧ rec_.id ∈ ss.byBE ip ∧ o.userHash rec_.user = hash := by
  simp only [victims, mem_filterMap, Option.filter_eq_some_iff, decide_eq_true_eq, indexed.get_eq_some]
  constructor
  · rintro ⟨id, listed, ⟨member, rfl⟩, hashed⟩
    exact ⟨member, listed, hashed⟩
  · rintro ⟨member, listed, hashed⟩
    exact ⟨rec_.id, listed, ⟨member, rfl⟩, hashed⟩

theorem writeKicks_crashed (recs : List SessionRec) :
    (writeKicks recs).2 = false ↔ ∀ rec_ ∈ recs, rec_.cl ≠ none := by
  induction recs with
  | nil => simp [writeKicks]
  | cons rec_ rest ih =>
    rcases owner : rec_.cl with _ | c
    · simp [writeKicks, owner]
    · simp [writeKicks, owner, ih]

theorem mem_writeKicks {recs : List SessionRec} (owned : ∀ rec_ ∈ recs, rec_.cl ≠ none) {k : Kick} :
    k ∈ (writeKicks recs).1 ↔ ∃ rec_ ∈ recs, rec_.cl = some k.conn ∧ rec_.user = k.user := by
  induction recs with
  | nil => simp [writeKicks]
  | cons rec_ rest ih =>
    obtain ⟨mine, later⟩ := forall_mem_cons.mp owned
    obtain ⟨c, owner⟩ := Option.ne_none_iff_exists'.mp mine
    have here : k = ⟨c, rec_.user⟩ ↔ rec_.cl = some k.conn ∧ rec_.user = k.user := by
      obtain ⟨conn, user⟩ := k
      rw [owner, Kick.mk.injEq, Option.some.injEq, eq_comm, @eq_comm _ user]
    simp only [writeKicks, owner, mem_cons, ih later, exists_eq_or_imp]
    rw [here, owner]

theorem foldl_erase_byId (ss : Sessions) (ip : Bytes) (recs : List SessionRec) :
    rec_ ∈ (recs.foldl (fun ss r => ss.erase r.id ip) ss).byId ↔
      rec_ ∈ ss.byId ∧ ∀ r ∈ recs, rec_.id ≠ r.id := by
  induction recs generalizing ss with
  | nil => simp
  | cons r rest ih =>
    rw [foldl_cons, ih]
    simp [Sessions.erase, and_assoc]

theorem foldl_erase_byBE (ss : Sessions) (ip : Bytes) (recs : List SessionRec) {id : Bytes} :
    id ∈ (recs.foldl (fun ss r => ss.erase r.id ip) ss).byBE backend ↔
      id ∈ ss.byBE backend ∧ (backend = ip → ∀ r ∈ recs, id ≠ r.id) := by
  induction recs generalizing ss with
  | nil => simp
  | cons r rest ih =>
    rw [foldl_cons, ih]
    by_cases own : backend = ip
    · subst own
      simp [Sessions.erase, and_assoc]
    · simp [Sessions.erase, own]

/-- The kick completes, writes to exactly the connections that own a session of the user on the
backend, and leaves every other session in both indexes. -/
structure KickedExactly (o : Options) (before : Sessions) (hash : UInt32) (ip : Bytes)
    (out : KickOutcome) : Prop where
  completes : out.crashed = false
  kicks : ∀ k, k ∈ out.kicks ↔ ∃ rec_ ∈ before.byId,
    (o.userHash rec_.user = hash ∧ rec_.backend = ip) ∧ rec_.cl = some k.conn ∧ rec_.user = k.user
  others : ∀ rec_ ∈ before.byId, ¬(o.userHash rec_.user = hash ∧ rec_.backend = ip) →
    rec_ ∈ out.server.sessions.byId ∧ rec_.id ∈ out.server.sessions.byBE rec_.backend

/-- What the index lists of the user under the backend is owned here, and still is on that backend. -/
def Clear (o : Options) (ss : Sessions) (hash : UInt32) (ip : Bytes) : Prop :=
  ∀ rec_ ∈ ss.byId, rec_.id ∈ ss.byBE ip → o.userHash rec_.user = hash → rec_.cl ≠ none ∧ rec_.backend = ip

theorem kickStaleSessions_exact_iff (indexed : s.sessions.Indexed) (hash : UInt32) (oldHost : Bytes) :
    KickedExactly o s.sessions hash (hostOf oldHost) (s.kickStaleSessions o hash oldHost) ↔
      Clear o s.sessions hash (hostOf oldHost) := by
  have victim {rec_ : SessionRec} := @mem_victims o s.sessions indexed hash (hostOf oldHost) rec_
  constructor
  · rintro ⟨completes, -, others⟩ rec_ member listed hashed
    have mine := victim.mpr ⟨member, listed, hashed⟩
    refine ⟨(writeKicks_crashed _).mp completes rec_ mine, ?_⟩
    by_contra elsewhere
    have kept := (others rec_ member fun both => elsewhere both.2).1
    exact ((foldl_erase_byId _ _ _).mp kept).2 rec_ mine rfl
  · intro clear
    have owned : ∀ rec_ ∈ victims o s.sessions hash (hostOf oldHost), rec_.cl ≠ none := by
      intro rec_ mine
      obtain ⟨member, listed, hashed⟩ := victim.mp mine
      exact (clear rec_ member listed hashed).1
    refine ⟨(writeKicks_crashed _).mpr owned, fun k => ?_, fun rec_ member other => ?_⟩
    · change k ∈ (writeKicks (victims o s.sessions hash (hostOf oldHost))).1 ↔ _
      rw [mem_writeKicks owned]
      constructor
      · rintro ⟨rec_, mine, written⟩
        obtain ⟨member, listed, hashed⟩ := victim.mp mine
        exact ⟨rec_, member, ⟨hashed, (clear rec_ member listed hashed).2⟩, written⟩
      · rintro ⟨rec_, member, ⟨hashed, backend⟩, written⟩
        refine ⟨rec_, victim.mpr ⟨member, ?_, hashed⟩, written⟩
        rw [← backend]
        exact indexed.listed rec_ member
    · have spared : ∀ r ∈ victims o s.sessions hash (hostOf oldHost), rec_.id ≠ r.id := by
        intro r mine same
        obtain ⟨there, listed, hashed⟩ := victim.mp mine
        obtain rfl := inj_on_of_nodup_map indexed.keyed member there same
        exact other ⟨hashed, (clear _ there listed hashed).2⟩
      exact ⟨(foldl_erase_byId _ _ _).mpr ⟨member, spared⟩,
        (foldl_erase_byBE _ _ _).mpr ⟨indexed.listed rec_ member, fun _ => spared⟩⟩

end Server

/-- After any sessions opened here and elsewhere, an assignment that moves a user off a backend kicks
exactly the sessions the user has there exactly where the backend's index is clear. -/
theorem reassignment_kicks_iff (o : Options) (s : Server) (opens : List SessionOpen) (now : ℤ)
    (hash : UInt32) (host old by_ : Bytes) (weak : Bool) (seq : ℕ)
    (moved : ((s.afterOpens o opens).userDir.mergeByHash now hash host weak seq by_).2 = old)
    (off : old ≠ []) :
    Server.KickedExactly o (s.afterOpens o opens).sessions hash (hostOf old)
        ((s.afterOpens o opens).applyUserAssign o now hash host weak seq by_) ↔
      Server.Clear o (s.afterOpens o opens).sessions hash (hostOf old) := by
  simp only [Server.applyUserAssign, moved, if_pos off]
  exact Server.kickStaleSessions_exact_iff
    (s := { s.afterOpens o opens with
      userDir := ((s.afterOpens o opens).userDir.mergeByHash now hash host weak seq by_).1 })
    (Server.afterOpens_indexed s opens) hash old

/-- A user's name is its own key, and all keys have one hash. -/
def plainOptions : Options := ⟨⟨fun _ => 0, id, [⟨.user, [], false⟩]⟩, false, .hash, 0, 0, false⟩

/-- A director on which the user is pinned to `A:1`. -/
def pinnedToA : Server :=
  { Server.fresh Ring.empty with
    userDir := (Server.fresh Ring.empty).userDir.setByHash 0 0 [65, 58, 49] false }

/-- One session of the user on `A`, owned here. -/
theorem reassignment_kicks_ownSession : Server.KickedExactly plainOptions
      (pinnedToA.afterOpens plainOptions [.ofLogin 7 [1] [117] [65] []]).sessions 0 (hostOf [65, 58, 49])
      ((pinnedToA.afterOpens plainOptions [.ofLogin 7 [1] [117] [65] []]).applyUserAssign plainOptions 0 0
        [66, 58, 49] false 2 []) := by
  refine (reassignment_kicks_iff plainOptions pinnedToA [.ofLogin 7 [1] [117] [65] []] 0 0 [66, 58, 49]
    [65, 58, 49] [] false 2 (by decide) (by decide)).mpr ?_
  intro rec_ member listed hashed
  obtain rfl := mem_singleton.mp member
  exact ⟨by decide, by decide⟩

/-- The user's session opened on `A`, and again on `B`. -/
def reopenedOnB : Server :=
  pinnedToA.afterOpens plainOptions [.ofLogin 7 [1] [117] [65] [], .ofLogin 7 [1] [117] [66] []]

/-- A copy of another director's session ends the process. A session that has opened again on `B` is
still listed under `A`: it is kicked there, and forgotten. -/
theorem reassignment_crashes_or_kicks_elsewhere :
    ((pinnedToA.afterOpens plainOptions [.ofPeer [112] [1] [117] [65] []]).applyUserAssign plainOptions 0 0
        [66, 58, 49] false 2 []).crashed = true ∧
      reopenedOnB.sessions.get [1] = some ⟨[1], [117], [66], [], some 7, []⟩ ∧
      (reopenedOnB.applyUserAssign plainOptions 0 0 [66, 58, 49] false 2 []).kicks = [⟨7, [117]⟩] ∧
      (reopenedOnB.applyUserAssign plainOptions 0 0 [66, 58, 49] false 2 []).server.sessions.get [1] =
        none := by
  refine ⟨by decide, by decide, by decide, by decide⟩

end Yarilo.Director

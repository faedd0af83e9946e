import Yarilo.Director.Confirm
import Yarilo.Director.Kicks

/-! # The registry of sessions over time

Nine writers keep the records of the sessions and the lists of the backends by hand. The two agree
as long as no session opens anew elsewhere: the record is replaced, the id stays in the list of the
old backend, and a session that runs well is kicked when that backend goes.
-/

namespace Yarilo.Director

open Library List

inductive SessionEvent where
  | opened (session : SessionOpen)
  | removed (removal : Removal)

/-- The record an open asks for. -/
def SessionOpen.rec_ : SessionOpen → SessionRec
  | .ofLogin c id user backend proto => ⟨id, user, backend, proto, some c, []⟩
  | .ofPeer origin id user backend proto => ⟨id, user, backend, proto, none, origin⟩

variable {o : Options} {id ip : Bytes} {session : SessionOpen}

namespace Sessions

variable {ss ss' : Sessions} {r : SessionRec} {gone : SessionRec → Prop}

def step (o : Options) (ss : Sessions) : SessionEvent → Sessions
  | .opened session => (ss.register session).1
  | .removed removal => (ss.remove o removal).1

/-- The registry of a director that starts, after events. -/
def after (o : Options) (events : List SessionEvent) : Sessions :=
  events.foldl (step o) ⟨[], fun _ => []⟩

/-- An id has one record, and is listed under a backend exactly if that record names the backend. -/
structure Agree (ss : Sessions) : Prop where
  keyed : (ss.byId.map (·.id)).Nodup
  listed : ∀ id ip, id ∈ ss.byBE ip ↔ ∃ r ∈ ss.byId, r.id = id ∧ r.backend = ip

/-- An open takes effect unless it is a copy of a session that is ours. -/
def Takes (ss : Sessions) (session : SessionOpen) : Prop :=
  session.rec_.cl = none → ∀ r, ss.get session.rec_.id = some r → r.cl = none

theorem register_cases (ss : Sessions) (session : SessionOpen) :
    ss.Takes session ∧ ss.register session = (ss.insert session.rec_, some session.rec_.user) ∨
      ¬ss.Takes session ∧ ss.register session = (ss, none) := by
  cases session with
  | ofLogin c id user backend proto => exact .inl ⟨nofun, rfl⟩
  | ofPeer origin id user backend proto =>
    rcases found : ss.get id with _ | ⟨_, _, _, _, _ | c, _⟩ <;>
      simp [Takes, SessionOpen.rec_, register, found]

/-! ## Removals -/

/-- The records that are gone leave both indexes. -/
structure Cut (gone : SessionRec → Prop) (ss ss' : Sessions) : Prop where
  sub : ss'.byId.Sublist ss.byId
  kept : ∀ r, r ∈ ss'.byId ↔ r ∈ ss.byId ∧ ¬gone r
  listed : ∀ id ip, id ∈ ss'.byBE ip ↔
    id ∈ ss.byBE ip ∧ ∀ r ∈ ss.byId, r.id = id → r.backend = ip → ¬gone r

theorem Agree.unique (agree : ss.Agree) (member : r ∈ ss.byId) : r.id ∈ ss.byBE ip ↔ r.backend = ip := by
  rw [agree.listed]
  constructor
  · rintro ⟨other, there, same, rfl⟩
    rw [inj_on_of_nodup_map agree.keyed there member same]
  · intro here
    exact ⟨r, member, rfl, here⟩

theorem Agree.cut (agree : ss.Agree) (cut : Cut gone ss ss') : ss'.Agree := by
  refine ⟨(cut.sub.map _).nodup agree.keyed, fun id ip => ?_⟩
  rw [cut.listed, agree.listed]
  constructor
  · rintro ⟨⟨r, member, same, here⟩, kept⟩
    exact ⟨r, (cut.kept r).mpr ⟨member, kept r member same here⟩, same, here⟩
  · rintro ⟨r, member, rfl, here⟩
    obtain ⟨member, kept⟩ := (cut.kept r).mp member
    refine ⟨⟨r, member, rfl, here⟩, fun other there same _ => ?_⟩
    rwa [inj_on_of_nodup_map agree.keyed there member same]

theorem Agree.cut_erase (agree : ss.Agree) (found : ss.get id = some r) :
    Cut (·.id = id) ss (ss.erase id r.backend) := by
  have member := mem_of_find?_eq_some found
  obtain rfl : r.id = id := by simpa using find?_some found
  refine ⟨filter_sublist, fun x => by simp [erase], fun id ip => ?_⟩
  by_cases own : ip = r.backend
  · subst own
    simp only [erase, Function.update_self, mem_filter, decide_eq_true_eq]
    refine and_congr_right fun _ => ⟨?_, fun apart same => apart r member same.symm rfl rfl⟩
    rintro other x - rfl -
    exact other
  · simp only [erase, Function.update_of_ne own]
    refine (and_iff_left ?_).symm
    rintro x there - rfl same
    exact own (congrArg _ (inj_on_of_nodup_map agree.keyed there member same))

theorem cut_dropWhere (ss : Sessions) (p : SessionRec → Bool) : Cut (p ·) ss (ss.dropWhere p) := by
  refine ⟨filter_sublist, fun r => by simp [dropWhere], fun id ip => ?_⟩
  simp only [dropWhere, mem_filter, Bool.not_eq_true', any_eq_false, Bool.and_eq_true,
    decide_eq_true_eq]
  exact and_congr_right fun _ =>
    ⟨fun none r member same here met => none r member ⟨⟨met, same⟩, here⟩,
      fun none r member ⟨⟨met, same⟩, here⟩ => none r member same here met⟩

/-- The sessions that go with a backend are those that run on it. -/
theorem Agree.cut_backendDown (agree : ss.Agree) (o : Options) (ip : Bytes) :
    Cut (·.backend = ip) ss (ss.remove o (.backendDown ip)).1 := by
  refine ⟨filter_sublist, fun r => ?_, fun id other => ?_⟩
  · simp only [Sessions.remove, mem_filter, Bool.not_eq_true', contains_eq_mem,
      decide_eq_false_iff_not]
    exact and_congr_right fun member => not_congr (agree.unique member)
  · by_cases own : other = ip
    · subst own
      simp only [Sessions.remove, Function.update_self, not_mem_nil, false_iff]
      rintro ⟨member, apart⟩
      obtain ⟨r, there, same, here⟩ := (agree.listed id other).mp member
      exact apart r there same here here
    · simp only [Sessions.remove, Function.update_of_ne own]
      refine (and_iff_left ?_).symm
      rintro r - - rfl
      exact own

theorem Agree.indexed (agree : ss.Agree) : ss.Indexed :=
  ⟨agree.keyed, fun _ member => (agree.unique member).mpr rfl⟩

theorem foldl_erase_sublist (ss : Sessions) (ip : Bytes) (recs : List SessionRec) :
    (recs.foldl (fun ss r => ss.erase r.id ip) ss).byId.Sublist ss.byId := by
  induction recs generalizing ss with
  | nil => exact .refl _
  | cons r rest ih => exact (ih _).trans filter_sublist

theorem Agree.cut_stale (agree : ss.Agree) (o : Options) (hash : UInt32) (oldHost : Bytes) :
    Cut (fun r => r.backend = hostOf oldHost ∧ o.userHash r.user = hash) ss
      (ss.remove o (.stale hash oldHost)).1 := by
  have victim {r : SessionRec} (member : r ∈ ss.byId) :
      (∀ v ∈ Server.victims o ss hash (hostOf oldHost), r.id ≠ v.id) ↔
        ¬(r.backend = hostOf oldHost ∧ o.userHash r.user = hash) := by
    simp only [Server.mem_victims agree.indexed, ← agree.unique member]
    constructor
    · rintro apart ⟨listed, hashed⟩
      exact apart r ⟨member, listed, hashed⟩ rfl
    · rintro kept v ⟨there, listed, hashed⟩ same
      rw [inj_on_of_nodup_map agree.keyed member there same] at kept
      exact kept ⟨listed, hashed⟩
  refine ⟨foldl_erase_sublist .., fun r => ?_, fun id ip => ?_⟩
  · rw [Sessions.remove, Server.foldl_erase_byId]
    exact and_congr_right victim
  · rw [Sessions.remove, Server.foldl_erase_byBE]
    refine and_congr_right fun listed => ?_
    obtain ⟨r, member, rfl, rfl⟩ := (agree.listed id ip).mp listed
    rw [victim member]
    constructor
    · intro kept x there same here
      rw [inj_on_of_nodup_map agree.keyed there member same]
      exact fun gone => kept gone.1 gone
    · exact fun kept _ => kept r member rfl rfl

theorem Agree.remove (agree : ss.Agree) (o : Options) (removal : Removal) :
    (ss.remove o removal).1.Agree := by
  cases removal with
  | close id =>
    rcases found : ss.get id with _ | r <;> simp [Sessions.remove, found]
    · exact agree
    · exact agree.cut (agree.cut_erase found)
  | remoteClose id =>
    rcases found : ss.get id with _ | ⟨_, _, _, _, _ | c, _⟩ <;> simp [Sessions.remove, found]
    · exact agree
    · exact agree.cut (agree.cut_erase found)
    · exact agree
  | reconcile c live => exact agree.cut (ss.cut_dropWhere _)
  | disconnect c => exact agree.cut (ss.cut_dropWhere _)
  | purgeReplicas origin =>
    simp only [Sessions.remove]
    split
    · exact agree
    · exact agree.cut (ss.cut_dropWhere _)
  | backendDown ip => exact agree.cut (agree.cut_backendDown o ip)
  | stale hash oldHost => exact agree.cut (agree.cut_stale o hash oldHost)

/-! ## Opens -/

/-- A session that opens again opens where it is registered. -/
def Stays (ss : Sessions) : SessionEvent → Prop
  | .opened session => ss.Takes session →
    ∀ r, ss.get session.rec_.id = some r → r.backend = session.rec_.backend
  | .removed _ => True

theorem Agree.insert_iff (agree : ss.Agree) (new : SessionRec) :
    (ss.insert new).Agree ↔ ∀ r, ss.get new.id = some r → r.backend = new.backend := by
  simp only [agree.indexed.get_eq_some]
  constructor
  · rintro agree' r ⟨member, same⟩
    have still : new.id ∈ (ss.insert new).byBE r.backend :=
      (ss.mem_insert_byBE new).mpr (.inl (same ▸ (agree.unique member).mpr rfl))
    exact ((agree'.unique (.head _)).mp still).symm
  · intro stays
    refine ⟨(agree.indexed.insert new).keyed, fun id ip => ?_⟩
    rw [mem_insert_byBE, agree.listed]
    simp only [insert, mem_cons, mem_filter, decide_eq_true_eq, exists_eq_or_imp]
    constructor
    · rintro (⟨r, member, rfl, rfl⟩ | ⟨rfl, rfl⟩)
      · by_cases same : r.id = new.id
        · exact .inl ⟨same.symm, (stays r ⟨member, same⟩).symm⟩
        · exact .inr ⟨r, ⟨member, same⟩, rfl, rfl⟩
      · exact .inl ⟨rfl, rfl⟩
    · rintro (⟨rfl, rfl⟩ | ⟨r, ⟨member, -⟩, rfl, rfl⟩)
      · exact .inr ⟨rfl, rfl⟩
      · exact .inl ⟨r, member, rfl, rfl⟩

theorem Agree.step_iff (agree : ss.Agree) (o : Options) (event : SessionEvent) :
    (ss.step o event).Agree ↔ ss.Stays event := by
  cases event with
  | opened session =>
    rcases ss.register_cases session with ⟨takes, same⟩ | ⟨refuses, same⟩ <;> rw [step, same, Stays]
    · rw [agree.insert_iff, forall_prop_of_true takes]
    · exact iff_of_true agree fun takes => absurd takes refuses
  | removed removal => exact iff_of_true (agree.remove o removal) trivial

/-- The indexes agree all along, and removing a backend kicks only sessions that run on it, exactly if
every open of a registered session names the backend it is registered with. -/
theorem indexes_agree_iff (o : Options) (events : List SessionEvent) :
    (∀ before, before <+: events → (after o before).Agree ∧
      ∀ ip, ∀ r ∈ (after o before).byId,
        r ∉ ((after o before).remove o (.backendDown ip)).1.byId → r.backend = ip) ↔
      EachStep (fun before event => (after o before).Stays event) events := by
  have concat (before : List SessionEvent) (event : SessionEvent) :
      after o (before ++ [event]) = (after o before).step o event := by
    rw [after, foldl_append]
    rfl
  constructor
  · rintro all before event rest rfl
    have later := (all (before ++ [event]) ⟨rest, by simp⟩).1
    rw [concat] at later
    exact ((all before ⟨_, rfl⟩).1.step_iff o event).mp later
  · rintro each before ⟨rest, rfl⟩
    have agree : (after o before).Agree := by
      refine EachStep.induction (I := fun before => (after o before).Agree) each.left
        ⟨nodup_nil, by simp [after]⟩ fun before event agree stays => ?_
      rw [concat]
      exact (agree.step_iff o event).mpr stays
    refine ⟨agree, fun ip r member gone => by_contra fun other => gone ?_⟩
    exact ((agree.cut_backendDown o ip).kept r).mpr ⟨member, other⟩

/-- A session opens again on another backend; the first one goes, and takes it along. -/
theorem reopened_session_kicked :
    let opens (backend : Bytes) : SessionEvent := .opened (.ofLogin 1 [115] [117] backend [])
    let ss := after shortGrace [opens [97], opens [98]]
    [115] ∈ ss.byBE [97] ∧ (ss.get [115]).map (·.backend) = some [98] ∧
      (ss.remove shortGrace (.backendDown [97])).1.get [115] = none := by
  decide

end Sessions

end Yarilo.Director

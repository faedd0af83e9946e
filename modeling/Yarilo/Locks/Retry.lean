import Mathlib.Data.BitVec
import Mathlib.Tactic.Abel
import Yarilo.Locks.Exclusion
import Yarilo.Locks.Roundtrip

/-! # A command that is sent again

The server draws the identifiers of locks and counts every increment it executes. So a command that
was executed before its reply got lost is executed once more when it is sent again: a lock then
refuses itself, and a counter moves twice.
-/

namespace Yarilo.Locks

open Library MemoryBackend Session Event List

/-! ## The backend's calls -/

def Command.calls (c : Call) : Command → List Call
  | .lock resource owner site ttlMs =>
    if ttlMs ≤ 0 then [] else [{ c with op := lockOp resource owner site ttlMs }]
  | .counterInc _ _ => []

def Event.calls (cmd : Command) : Event → List Call
  | .other c => [c]
  | .otherInc _ _ => []
  | .own c => cmd.calls c

/-- The calls the backend gets during the roundtrip. -/
def Network.calls (net : Network) (cmd : Command) : List Call := (net.events cmd).flatMap (Event.calls cmd)

theorem Session.event_backend (cmd : Command) (x : Session) (e : Event) :
    (x.event cmd e).server.backend = x.server.backend.run (e.calls cmd) := by
  cases e with
  | other c => rfl
  | otherInc key delta => rfl
  | own c =>
    cases cmd with
    | lock resource owner site ttlMs =>
      by_cases refused : ttlMs ≤ 0
      · simp [event, execute, Server.execute, calls, Command.calls, refused, run]
      · simp [event, execute, Server.execute, calls, Command.calls, refused, run]
    | counterInc key delta =>
      by_cases missing : key = []
      · simp [event, execute, Server.execute, calls, Command.calls, missing, run]
      · simp [event, execute, Server.execute, Server.increment, calls, Command.calls, missing, run]

theorem Session.events_backend (cmd : Command) (x : Session) (es : List Event) :
    (x.events cmd es).server.backend = x.server.backend.run (es.flatMap (Event.calls cmd)) := by
  induction es generalizing x with
  | nil => rfl
  | cons e rest ih =>
    rw [flatMap_cons, run_append, ← event_backend]
    exact ih (x.event cmd e)

variable {b : MemoryBackend} {c : Call} {after : List Event} {ttl : ℤ} {key : Bytes} {net : Network}

/-- A lock in the table after a call is the one drawn in it, or was there before. -/
theorem MemoryBackend.Indexed.step_kept (indexed : b.Indexed)
    (covers : b.Covers c.order ∧ b.Covers c.sharedOrder) {id : Bytes} {l : MemLock}
    (found : (b.step c).2.locks id = some l) :
    c.rand = some id ∨
      ∃ old, b.locks id = some old ∧ old.resource = l.resource ∧ old.shared = l.shared := by
  have swept : ∀ {id l}, (b.expire c.now c.order).locks id = some l → b.locks id = some l :=
    fun found => ((expire_eq_some covers.1).mp found).1
  rcases indexed.step_cases covers.1 covers.2 with
    same | ⟨_, same, -⟩ | ⟨new, rand, -, -, same⟩ | ⟨gone, _, -, -, same⟩ |
    ⟨moved, ttl, old, -, live, same⟩
  · rw [same] at found
    exact .inr ⟨l, found, rfl, rfl⟩
  · rw [same] at found
    exact .inr ⟨l, swept found, rfl, rfl⟩
  · rw [same, addLock_locks, update_some_eq_some] at found
    rcases found with ⟨rfl, -⟩ | ⟨-, found⟩
    · exact .inl rand
    · exact .inr ⟨l, swept found, rfl, rfl⟩
  · rw [same, dropLock_locks, update_none_eq_some] at found
    exact .inr ⟨l, swept found.2, rfl, rfl⟩
  · rw [same] at found
    rcases update_some_eq_some.mp found with ⟨rfl, rfl⟩ | ⟨-, found⟩
    · exact .inr ⟨old, live.1, rfl, rfl⟩
    · exact .inr ⟨l, swept found, rfl, rfl⟩

/-- A lock command is refused for the sake of a live lock, or there is none and it may be granted
one. -/
theorem MemoryBackend.Indexed.lock_cases (indexed : b.Indexed)
    (covers : b.Covers c.order ∧ b.Covers c.sharedOrder) {resource owner site : Bytes} {ttlMs : ℤ}
    (named : ¬(resource = [] ∨ owner = [])) :
    (∃ id l holder, b.Live c.now id l ∧ l.resource = resource ∧
        b.step { c with op := lockOp resource owner site ttlMs } = (.busy holder, b.expire c.now c.order)) ∨
      (∀ id l, b.Live c.now id l → l.resource ≠ resource) ∧
        (b.step { c with op := lockOp resource owner site ttlMs } = (.generateID, b.expire c.now c.order) ∨
          ∃ l, c.rand = some l.id ∧ l.resource = resource ∧ l.shared = false ∧
            b.step { c with op := lockOp resource owner site ttlMs } =
              (.acquired l.id, (b.expire c.now c.order).addLock l)) := by
  rcases indexed.acquire_answers covers.1 covers.2 named (if site = [] then siteUnknown else site)
    (ttlMs * 1000000) with ⟨id, l, holder, live, same, -, busy⟩ | ⟨idle, granted⟩
  · exact .inl ⟨id, l, holder, live, same, busy⟩
  refine .inr ⟨fun id l live same => Bool.noConfusion (idle id l live same).1, ?_⟩
  have step : b.step { c with op := lockOp resource owner site ttlMs } = _ := granted
  rw [step, grant]
  cases rand : c.rand with
  | none => exact .inl rfl
  | some id => exact .inr ⟨⟨id, resource, owner, _, _, false⟩, rfl, rfl, rfl, rfl⟩

/-! ## The locks of a call -/

section Owned

variable {resource owner site : Bytes} {ttlMs : ℤ} {used : List Bytes} {x y : Session} {t : ℤ}

/-- Every lock granted to the call is an exclusive one of its resource, as long as it is there. -/
structure Owned (resource owner : Bytes) (ttlMs : ℤ) (used : List Bytes) (x : Session) : Prop where
  reached : Reached used x.server.backend
  drawn : ∀ id ∈ x.mine, id ∈ used
  kind : ∀ id ∈ x.mine, ∀ l, x.server.backend.locks id = some l → l.resource = resource ∧ l.shared = false
  asked : x.mine ≠ [] → 0 < ttlMs ∧ ¬(resource = [] ∨ owner = [])

variable (owned : Owned resource owner ttlMs used x)

include owned

section

variable (covers : x.server.backend.Covers c.order ∧ x.server.backend.Covers c.sharedOrder)
  (fresh : ∀ id, c.rand = some id → id ∉ used)

include covers fresh

/-- A call of the backend that grants the call nothing. -/
theorem Owned.step (stepped : y.server.backend = (x.server.backend.step c).2) (same : y.mine = x.mine) :
    Owned resource owner ttlMs (used ++ c.rand.toList) y where
  reached := by
    rw [stepped]
    exact owned.reached.step covers fresh
  drawn id member := mem_append_left _ (owned.drawn id (same ▸ member))
  kind id member l found := by
    rw [same] at member
    rw [stepped] at found
    rcases owned.reached.indexed.step_kept covers found with rand | ⟨old, before, resource, shared⟩
    · exact absurd (owned.drawn id member) (fresh id rand)
    · rw [← resource, ← shared]
      exact owned.kind id member old before
  asked some := owned.asked (same ▸ some)

/-- The execution of the call's own command. -/
theorem Owned.own (positive : 0 < ttlMs) :
    Owned resource owner ttlMs (used ++ c.rand.toList)
      (x.execute (.lock resource owner site ttlMs) c).2 := by
  let c' : Call := { c with op := lockOp resource owner site ttlMs }
  have step : x.execute (.lock resource owner site ttlMs) c = (.lock (x.server.backend.step c').1,
        ⟨{ x.server with backend := (x.server.backend.step c').2 },
          x.mine ++ (ServerAnswer.lock (x.server.backend.step c').1).granted⟩) := by
    simp [execute, Server.execute, not_le.mpr positive, c']
  have idle : ∀ answer after, x.server.backend.step c' = (answer, after) →
      (∀ id, answer ≠ .acquired id) → Owned resource owner ttlMs (used ++ c.rand.toList)
        (x.execute (.lock resource owner site ttlMs) c).2 := by
    intro answer after done refused
    have none : (ServerAnswer.lock answer).granted = [] := by
      cases answer <;> first | rfl | exact absurd rfl (refused _)
    refine .step (c := c') owned covers fresh ?_ ?_
    · rw [step]
    · rw [step, done, none, append_nil]
  by_cases named : resource = [] ∨ owner = []
  · refine idle .emptyArgument x.server.backend ?_ (by simp)
    change x.server.backend.acquire c' resource owner _ _ = _
    simp [acquire, if_pos named]
  rcases owned.reached.indexed.lock_cases covers named with
    ⟨_, _, holder, -, -, busy⟩ | ⟨-, failed | ⟨l, rand, same, exclusive, added⟩⟩
  · exact idle _ _ busy (by simp)
  · exact idle _ _ failed (by simp)
  have reached := Reached.step (c := c') owned.reached covers fresh
  rw [step]
  refine ⟨reached, ?_, ?_, fun _ => ⟨positive, named⟩⟩
  · intro id member
    rw [added] at member
    rcases mem_append.mp member with member | member
    · exact mem_append_left _ (owned.drawn id member)
    · rw [mem_singleton.mp member]
      simp [rand]
  · intro id member l' found
    rw [added] at member found
    rw [addLock_locks, update_some_eq_some] at found
    rcases found with ⟨rfl, rfl⟩ | ⟨other, found⟩
    · exact ⟨same, exclusive⟩
    rcases mem_append.mp member with member | member
    · exact owned.kind id member l' ((expire_eq_some covers.1).mp found).1
    · exact absurd (mem_singleton.mp member) other

end

theorem Owned.events {es : List Event}
    (orderly : x.server.backend.Orderly t (es.flatMap (Event.calls (.lock resource owner site ttlMs))))
    (fresh : (used ++ MemoryBackend.drawn (es.flatMap (Event.calls (.lock resource owner site ttlMs)))).Nodup) :
    Owned resource owner ttlMs
      (used ++ MemoryBackend.drawn (es.flatMap (Event.calls (.lock resource owner site ttlMs))))
      (x.events (.lock resource owner site ttlMs) es) := by
  induction es generalizing used x t with
  | nil => simpa [MemoryBackend.drawn, events] using owned
  | cons e rest ih =>
    rw [flatMap_cons] at orderly fresh ⊢
    cases e with
    | other c =>
      rw [calls, singleton_append] at orderly fresh ⊢
      rw [append_drawn_cons] at fresh ⊢
      exact ih (owned.step orderly.2.1 (fun id => rand_notMem fresh) rfl rfl) orderly.2.2 fresh
    | otherInc key delta =>
      exact ih (x := x.event _ (.otherInc key delta))
        ⟨owned.reached, owned.drawn, owned.kind, owned.asked⟩ orderly fresh
    | own c =>
      by_cases positive : ttlMs ≤ 0
      · have same : x.event (.lock resource owner site ttlMs) (.own c) = x := by
          simp [event, execute, Server.execute, positive, ServerAnswer.granted]
        rw [calls, Command.calls, if_pos positive, nil_append] at orderly fresh ⊢
        rw [events, foldl_cons, same]
        exact ih owned orderly fresh
      · rw [calls, Command.calls, if_neg positive, singleton_append] at orderly fresh ⊢
        rw [append_drawn_cons] at fresh ⊢
        have backend : (x.event (.lock resource owner site ttlMs) (.own c)).server.backend =
            (x.server.backend.step { c with op := lockOp resource owner site ttlMs }).2 := by
          simp [event, execute, Server.execute, if_neg positive]
        refine ih (x := x.event _ (.own c)) ?_ (backend ▸ orderly.2.2) fresh
        exact owned.own orderly.2.1 (fun id => rand_notMem fresh) (not_le.mp positive)

/-- The state in which a command of the call is executed. -/
theorem Owned.before {before : List Event} (orderly : x.server.backend.Orderly t
      ((before ++ .own c :: after).flatMap (Event.calls (.lock resource owner site ttlMs))))
    (fresh : (used ++ MemoryBackend.drawn
      ((before ++ .own c :: after).flatMap (Event.calls (.lock resource owner site ttlMs)))).Nodup)
    (reaches : y = x.events (.lock resource owner site ttlMs) before) :
    (∃ known, Owned resource owner ttlMs known y) ∧
      (0 < ttlMs → y.server.backend.Covers c.order ∧ y.server.backend.Covers c.sharedOrder) := by
  rw [flatMap_append] at orderly fresh
  obtain ⟨first, rest⟩ := orderly.append
  rw [← events_backend, ← reaches, flatMap_cons, calls, Command.calls] at rest
  rw [drawn_append, ← append_assoc] at fresh
  have owned := owned.events first (nodup_append.mp fresh).1
  refine ⟨⟨_, reaches ▸ owned⟩, fun positive => ?_⟩
  rw [if_neg (not_le.mpr positive)] at rest
  exact rest.2.1

end Owned

/-! ## What the client is told -/

/-- A lock call takes effect once: a success leaves exactly one lock of the call, with the identifier
returned, and a refusal is for the sake of a lock the call did not create. -/
structure LockOnce (resource : Bytes) (result : ClientAnswer) (answered : Answered) : Prop where
  success : ∀ id, result = .locked id → ∀ id', id' ∈ answered.after.mine ∧
    answered.after.server.backend.locks id' ≠ none ↔ id' = id
  busy : ∀ owner site, result = .busy owner site → ∃ id l,
    answered.before.server.backend.Live answered.call.now id l ∧ l.resource = resource ∧
      id ∉ answered.before.mine

section

variable (c : Client) (gid : ℕ) (resource : Bytes) (positive : 0 < ttl)

include positive

theorem lock_acquired (id : Bytes) : (c.lock gid resource ttl (.fields [respOK, id])).1 = .locked id := by
  simp [Client.lock, Client.take, not_le.mpr positive]

theorem lock_busy (owner site : Bytes) :
    ∃ shown, (c.lock gid resource ttl (.fields [respBusy, owner, site])).1 = .busy owner shown := by
  have other : respBusy ≠ respOK := by decide
  exact ⟨_, by
    simp only [Client.lock, Client.take, not_le.mpr positive, other, if_false, if_true]
    rfl⟩

theorem lock_error (text : Bytes) :
    (c.lock gid resource ttl (.fields [respError, text])).1 = .serverError [text] := by
  have other : respError ≠ respOK ∧ respError ≠ respBusy := by decide
  simp [Client.lock, Client.take, not_le.mpr positive, other]

end

section Once

variable {resource owner site : Bytes} {ttlMs : ℤ} {used : List Bytes} {x : Session}

/-- Nothing is claimed of a call that ends with an error. -/
theorem lockOnce_of_error {result : ClientAnswer} {answered : Answered} {message : List Bytes}
    (error : result = .serverError message) : LockOnce resource result answered where
  success id locked := by simp [error] at locked
  busy owner site busy := by simp [error] at busy

/-- No lock of the call lives if its resource has no live lock. -/
theorem Owned.dead_of_idle (owned : Owned resource owner ttlMs used x) {now : ℤ}
    (idle : ∀ id l, x.server.backend.Live now id l → l.resource ≠ resource) :
    ∀ id ∈ x.mine, x.server.backend.Dead now id :=
  fun id member l live => idle id l live (owned.kind id member l live.1).1

theorem Owned.once_iff (owned : Owned resource owner ttlMs used x) (site : Bytes)
    (covers : x.server.backend.Covers c.order ∧ x.server.backend.Covers c.sharedOrder)
    (positive : 0 < ttlMs) (client : Client) (gid : ℕ) (ttlOK : 0 < ttl) :
    let done := x.execute (.lock resource owner site ttlMs) c
    LockOnce resource (client.lock gid resource ttl (.fields done.1.line)).1
        ⟨x, c, done.1, done.2⟩ ↔
      ∀ id ∈ x.mine, x.server.backend.Dead c.now id := by
  intro done
  have line : ∀ answer after,
      x.server.backend.step { c with op := lockOp resource owner site ttlMs } = (answer, after) →
      done = (.lock answer, ⟨{ x.server with backend := after },
        x.mine ++ (ServerAnswer.lock answer).granted⟩) := by
    intro answer after step
    simp [done, execute, Server.execute, not_le.mpr positive, step]
  by_cases named : resource = [] ∨ owner = []
  · have step : x.server.backend.step { c with op := lockOp resource owner site ttlMs } =
        (.emptyArgument, x.server.backend) := by
      change x.server.backend.acquire _ resource owner _ _ = _
      simp [acquire, if_pos named]
    have nothing : x.mine = [] := by
      by_contra some
      exact (owned.asked some).2 named
    rw [line _ _ step]
    refine iff_of_true ?_ (by simp [nothing])
    exact lockOnce_of_error (lock_error client gid resource ttlOK _)
  · rcases owned.reached.indexed.lock_cases covers named with
      ⟨id, l, holder, live, same, step⟩ | ⟨idle, step | ⟨l, rand, same, exclusive, step⟩⟩
    · -- refused: the lock in the way is the only one of the resource
      obtain ⟨shown, busy⟩ := lock_busy client gid resource ttlOK holder.owner holder.site
      rw [line _ _ step]
      constructor
      · intro once id₀ member l₀ live₀
        obtain ⟨id', l', live', same', apart⟩ := once.busy _ _ busy
        obtain ⟨mine, exclusive⟩ := owned.kind id₀ member l₀ live₀.1
        have only := owned.reached.indexed.alone live₀.1 live'.1 (same'.trans mine.symm) exclusive
        exact apart (only ▸ member)
      · intro dead
        refine ⟨fun _ locked => ?_, fun _ _ _ => ?_⟩
        · cases busy.symm.trans locked
        · exact ⟨id, l, live, same, fun member => dead id member l live⟩
    · rw [line _ _ step]
      exact iff_of_true (lockOnce_of_error (lock_error client gid resource ttlOK _))
        (owned.dead_of_idle idle)
    · have dead := owned.dead_of_idle idle
      have locked := lock_acquired client gid resource ttlOK l.id
      rw [line _ _ step]
      refine iff_of_true ⟨fun id result id' => ?_, fun _ _ busy => ?_⟩ dead
      · cases locked.symm.trans result
        have gone : id' ∈ x.mine → id' ≠ l.id →
            ((x.server.backend.expire c.now c.order).addLock l).locks id' = none := by
          intro member other
          rw [addLock_locks, Function.update_of_ne other]
          exact (dead id' member).expire le_rfl covers.1
        constructor
        · rintro ⟨member, present⟩
          by_contra other
          rcases mem_append.mp member with old | new
          · exact present (gone old other)
          · exact other (mem_singleton.mp new)
        · rintro rfl
          exact ⟨mem_append_right _ (mem_singleton_self _), by simp⟩
      · cases locked.symm.trans busy

end Once

/-! ## Counters -/

/-- What others add to a counter in a turn. -/
def Event.added (key : Bytes) : Event → BitVec 64
  | .otherInc key' delta => if key' = key then delta else 0
  | _ => 0

/-- What others add to a counter during the roundtrip. -/
def Network.added (net : Network) (cmd : Command) (key : Bytes) : BitVec 64 :=
  ((net.events cmd).map (Event.added key)).sum

/-- How often the server executes the command of the call. -/
def Network.executions (net : Network) (cmd : Command) : ℕ := ((net.events cmd).filter Event.isOwn).length

theorem counters_events (named : key ≠ []) (delta : BitVec 64) (es : List Event) (x : Session) :
    (x.events (.counterInc key delta) es).server.counters key =
      x.server.counters key + (es.map (Event.added key)).sum + (es.filter Event.isOwn).length • delta := by
  induction es generalizing x with
  | nil => simp [events]
  | cons e rest ih =>
    have tail := ih (x.event (.counterInc key delta) e)
    rw [events, foldl_cons, ← events, tail]
    cases e with
    | other c => simp [event, added, isOwn]
    | otherInc key' delta' =>
      by_cases same : key' = key
      · subst same
        simp only [event, Server.increment, Function.update_self, map_cons, added,
          if_true, sum_cons, filter_cons, isOwn, Bool.false_eq_true, if_false]
        abel
      · have other : key ≠ key' := Ne.symm same
        simp [event, Server.increment, added, isOwn, same, other]
    | own c =>
      simp only [event, execute, Server.execute, named, if_false, Server.increment,
        Function.update_self, map_cons, added, sum_cons, zero_add, filter_cons,
        isOwn, if_true, length_cons, succ_nsmul]
      abel

theorem Attempt.own_events (a : Attempt) : (a.events.filter Event.isOwn).length =
    ((a.before ++ a.after).filter Event.isOwn).length + a.executes.toList.length := by
  cases executes : a.executes with
  | none => simp [events, executes]
  | some c =>
    simp only [events, executes, Option.map_some, Option.toList_some, filter_append,
      length_append, filter_cons, filter_nil, isOwn, if_true, length_cons,
      length_nil]
    omega

theorem Network.executions_le (net : Network) (cmd : Command) : net.executions cmd ≤ 2 := by
  have alone : ((net.first.before ++ net.first.after).filter isOwn).length = 0 := by
    rw [length_eq_zero_iff, filter_eq_nil_iff]
    exact fun e member => by simp [net.first_alone e member]
  have first := net.first.own_events
  have second := net.second.own_events
  have bound : net.second.executes.toList.length ≤ 1 := by
    cases net.second.executes <;> simp
  have once := net.once
  simp only [executions, Network.events]
  split
  · simp
  split
  · rw [filter_append, length_append]
    omega
  · omega

theorem Network.executions_pos {cmd : Command} {before : List Event}
    (turns : net.events cmd = before ++ .own c :: after) : 0 < net.executions cmd := by
  rw [executions, turns, filter_append, length_append, filter_cons]
  simp [isOwn]

theorem incrementOver_success {delta value : BitVec 64} {s after : Server}
    (counted : incrementOver net key delta s = (some value, after)) :
    ∃ answered, (net.roundtrip (.counterInc key delta) ⟨s, []⟩).1 = some answered ∧
      answered.answer = .counted value ∧
      after = (net.roundtrip (.counterInc key delta) ⟨s, []⟩).2.server := by
  rcases trip : net.roundtrip (.counterInc key delta) ⟨s, []⟩ with ⟨_ | answered, x⟩
  · simp [incrementOver, trip] at counted
  simp only [incrementOver, trip, Prod.mk.injEq] at counted
  refine ⟨answered, rfl, ?_, counted.2.symm⟩
  rcases answered with ⟨_, _, _ | _ | _ | _, _⟩ <;> simp_all

/-- A retried command takes effect once in exactly these cases: for a lock, if none of the locks the
server granted to the call before lives when it executes the command whose answer is read; for a
counter, if the server executes the command only once or it adds nothing. -/
theorem retried_command_once_iff (net : Network) (s : Server) (used : List Bytes) (t : ℤ)
    (reached : Reached used s.backend) :
    (∀ client gid resource owner site ttl result answered,
      s.backend.Orderly t (net.calls (.lock resource owner site (ttl / 1000000))) →
      (used ++ drawn (net.calls (.lock resource owner site (ttl / 1000000)))).Nodup →
      lockOver net client gid resource owner site ttl s = (result, some answered) →
      (LockOnce resource result answered ↔ ∀ id ∈ answered.before.mine,
        answered.before.server.backend.Dead answered.call.now id)) ∧
    ∀ key delta value after, incrementOver net key delta s = (some value, after) → (after.counters key =
          s.counters key + net.added (.counterInc key delta) key + delta ↔
        net.executions (.counterInc key delta) ≤ 1 ∨ delta = 0) := by
  constructor
  · intro client gid resource owner site ttl result answered orderly fresh locked
    unfold lockOver at locked
    split at locked
    · cases locked
    rename_i ttlOK
    obtain ⟨rfl, read⟩ := Prod.mk.inj locked
    obtain ⟨executed, before, after, turns, reaches⟩ := Network.roundtrip_fst read
    have start : Owned resource owner (ttl / 1000000) used ⟨s, []⟩ := ⟨reached, by simp, by simp, by simp⟩
    rw [Network.calls, turns] at orderly fresh
    simp only [read]
    obtain ⟨⟨known, owned⟩, covers⟩ := start.before orderly fresh reaches
    by_cases positive : 0 < ttl / 1000000
    · have once := owned.once_iff site (covers positive) positive client gid (not_le.mp ttlOK)
      rw [← executed] at once
      exact once
    have refused : answered.answer = .badTtl := by
      have answer := congrArg Prod.fst executed
      simpa [execute, Server.execute, not_lt.mp positive] using answer
    have nothing : answered.before.mine = [] := by
      by_contra some
      exact positive (owned.asked some).1
    refine iff_of_true ?_ (by simp [nothing])
    rw [refused]
    exact lockOnce_of_error (lock_error client gid resource (not_le.mp ttlOK) _)
  · intro key delta value after counted
    obtain ⟨answered, read, success, rfl⟩ := incrementOver_success counted
    obtain ⟨executed, before, after, turns, -⟩ := Network.roundtrip_fst read
    have named : key ≠ [] := by
      rintro rfl
      have answer := congrArg Prod.fst executed
      simp [execute, Server.execute, success] at answer
    have lower := Network.executions_pos turns
    have upper := net.executions_le (.counterInc key delta)
    rw [net.roundtrip_snd, counters_events named, ← Network.added, ← Network.executions]
    obtain one | two : net.executions (.counterInc key delta) = 1 ∨
        net.executions (.counterInc key delta) = 2 := by omega
    · simp [one]
    · rw [two, two_nsmul, ← add_assoc]
      simp

/-! ## Two broken connections -/

def exampleCall (now : ℤ) (rand : Bytes) : Call where
  op := .sweep
  now := now
  stamp := now
  order := [[1], [2]]
  sharedOrder := [[1], [2]]
  rand := some rand

def newServer : Server := ⟨newMemoryBackend, fun _ => 0⟩

/-- The first command gets lost on its way. -/
def lostCommand : Network where
  connects := true
  first := ⟨[], none, [], .writeFails true⟩
  reconnects := true
  second := ⟨[], some (exampleCall 1 [2]), [], .replied⟩
  first_alone := by simp
  once := by simp

/-- The first command is executed and its reply gets lost. -/
def lostReply : Network where
  connects := true
  first := ⟨[], some (exampleCall 0 [1]), [], .readFails true⟩
  reconnects := true
  second := ⟨[], some (exampleCall 1 [2]), [], .replied⟩
  first_alone := by simp
  once := by simp

theorem retried_command_once_lostCommand :
    (∃ answered, lockOver lostCommand newClient 0 [114] [97] [115] 5000000 newServer =
        (.locked [2], some answered) ∧ LockOnce [114] (.locked [2]) answered) ∧
      ∃ after, incrementOver lostCommand [107] 3 newServer = (some 3, after) ∧
        after.counters [107] = 3 := by
  have holds := retried_command_once_iff lostCommand newServer [] 0 reached_newMemoryBackend
  refine ⟨⟨_, rfl, ?_⟩, _, rfl, ?_⟩
  · refine (holds.1 newClient 0 [114] [97] [115] 5000000 _ _ ?_ (by decide) rfl).mpr ?_
    · apply reached_newMemoryBackend.orderly
      · exact ⟨⟨by decide, by decide⟩, trivial⟩
      · decide
      · decide
    · exact fun id member => absurd member (not_mem_nil (a := id))
  · exact (holds.2 [107] 3 3 _ rfl).mpr (.inl (by decide))

/-- After the lost reply the call is refused for the sake of the lock it was granted itself, and a
counter has moved twice. -/
theorem lost_reply_refuses_itself :
    (lockOver lostReply newClient 0 [114] [97] [115] 5000000 newServer).1 = .busy [97] [115] ∧
      ((lockOver lostReply newClient 0 [114] [97] [115] 5000000 newServer).2.map fun answered =>
        (answered.before.mine, answered.before.server.backend.byRes [114])) = some ([[1]], some [1]) ∧
      (incrementOver lostReply [107] 3 newServer).1 = some 6 ∧
      (incrementOver lostReply [107] 3 newServer).2.counters [107] = 6 := by
  decide

end Yarilo.Locks

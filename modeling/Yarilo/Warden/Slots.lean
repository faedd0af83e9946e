import Mathlib.Data.List.Perm.Basic
import Yarilo.Library.Bytes
import Yarilo.Library.Runs

/-! # Limiter slots

The warden's state in memory: the registered sessions under one lock, the slots of the connection
limiter under another. A call is between the two while others run.
-/

namespace Yarilo.Warden

open Library List Function

structure SessionInfo where
  id : Bytes
  user : Bytes
  ip : Bytes

/-- What a call in progress has still to do: to take a slot, to register with it, to give it back. -/
inductive Pending where
  | acquire (s : SessionInfo) (now : ℤ)
  | register (s : SessionInfo) (now : ℤ)
  | release (s : SessionInfo)

structure MemoryBackend where
  sessions : List SessionInfo
  lastSeen : Bytes → ℤ
  count : Bytes → ℕ
  pending : List Pending

inductive Event where
  | sessionConnect (s : SessionInfo) (now : ℤ)
  | sessionDisconnect (s : SessionInfo)
  | maintain (cutoff : ℤ)
  | resume (k : ℕ)

/-- The key of the limiter. -/
def SessionInfo.slot (s : SessionInfo) : Bytes := s.user ++ 0 :: s.ip

/-- The slot a call holds. -/
def Pending.slot : Pending → Option Bytes
  | .acquire .. => none
  | .register s _ | .release s => some s.slot

namespace MemoryBackend

def empty : MemoryBackend := ⟨[], fun _ => 0, fun _ => 0, []⟩

/-- The next section of a call; without a limit no slot is counted. -/
def run (max : ℕ) (b : MemoryBackend) : Pending → MemoryBackend
  | .acquire s now =>
    if max = 0 then { b with pending := .register s now :: b.pending }
    else if max ≤ b.count s.slot then b
    else
      { b with
        count := update b.count s.slot (b.count s.slot + 1)
        pending := .register s now :: b.pending }
  | .register s now =>
    let b := { b with lastSeen := update b.lastSeen s.id now }
    -- another call with the id may have been first
    if b.sessions.any (·.id = s.id) then { b with pending := .release s :: b.pending }
    else { b with sessions := s :: b.sessions }
  | .release s =>
    if max = 0 then b else { b with count := update b.count s.slot (b.count s.slot - 1) }

/-- The first section of a call, or the next one of a call that is under way. -/
def step (max : ℕ) (b : MemoryBackend) : Event → MemoryBackend
  | .sessionConnect s now =>
    if b.sessions.any (·.id = s.id) then { b with lastSeen := update b.lastSeen s.id now }
    else { b with pending := .acquire s now :: b.pending }
  | .sessionDisconnect s =>
    if b.sessions.any (·.id = s.id) then
      { b with
        sessions := b.sessions.eraseP (·.id = s.id)
        pending := .release s :: b.pending }
    else b
  | .maintain cutoff =>
    let (stale, fresh) := b.sessions.partition fun s => b.lastSeen s.id < cutoff
    { b with
      sessions := fresh
      pending := stale.map .release ++ b.pending }
  | .resume k =>
    match b.pending[k]? with
    | none => b
    | some call => run max { b with pending := b.pending.eraseIdx k } call

def after (max : ℕ) (events : List Event) : MemoryBackend := events.foldl (step max) empty

/-- `Count` -/
def slots (max : ℕ) (b : MemoryBackend) (user ip : Bytes) : ℕ :=
  if max = 0 then 0 else b.count (user ++ 0 :: ip)

def registered (b : MemoryBackend) (user ip : Bytes) : ℕ :=
  b.sessions.countP fun s => s.user = user ∧ s.ip = ip

end MemoryBackend

def SessionInfo.Plain (s : SessionInfo) : Prop := 0 ∉ s.user ∧ 0 ∉ s.ip

/-- A registered session is disconnected under its own user and address. -/
def Event.Own (max : ℕ) (before : List Event) : Event → Prop
  | .sessionDisconnect s => ∀ t ∈ (MemoryBackend.after max before).sessions, t.id = s.id → t = s
  | _ => True

def Event.Plain : Event → Prop
  | .sessionConnect s _ => s.Plain
  | _ => True

/-- Users and addresses without a NUL connect, and a registered session is disconnected under its own. -/
def Event.Honest (max : ℕ) (before : List Event) (e : Event) : Prop := e.Plain ∧ e.Own max before

def Pending.Plain : Pending → Prop
  | .acquire s _ | .register s _ => s.Plain
  | .release _ => True

namespace MemoryBackend

variable {max : ℕ} {b : MemoryBackend}

/-- Every slot is a session's, or that of a call that is to register or to release it. -/
def Accounted (b : MemoryBackend) : Prop :=
  ∀ key, b.count key = b.sessions.countP (·.slot = key) + b.pending.countP (·.slot = some key)

/-- A call that goes on. -/
theorem Accounted.run {call : Pending} (positive : 0 < max)
    (accounted : Accounted { b with pending := call :: b.pending }) : Accounted (b.run max call) := by
  intro key
  have slots := accounted key
  have counted := accounted (call.slot.getD [])
  simp only [countP_cons] at slots counted
  cases call with
  | acquire s now =>
    simp only [MemoryBackend.run, positive.ne', if_false]
    split <;> grind [Pending.slot, update_apply]
  | register s now =>
    simp only [MemoryBackend.run]
    split <;> grind [Pending.slot]
  | release s =>
    simp only [MemoryBackend.run, positive.ne', if_false]
    grind [Pending.slot, update_apply]

theorem Accounted.step {before : List Event} {e : Event} (positive : 0 < max)
    (accounted : Accounted (after max before)) (own : e.Own max before) :
    Accounted (after max (before ++ [e])) := by
  rw [after, foldl_append]
  change Accounted (MemoryBackend.step max (after max before) e)
  cases e with
  | sessionConnect s now =>
    simp only [MemoryBackend.step]
    split
    · exact accounted
    · intro key
      simpa [Pending.slot] using accounted key
  | sessionDisconnect s =>
    simp only [MemoryBackend.step]
    split
    · rename_i there
      obtain ⟨t, member, named⟩ := any_eq_true.mp there
      obtain ⟨t, front, rest, -, named, split, erased⟩ := exists_of_eraseP (p := (·.id = s.id)) member named
      obtain rfl := own t (split ▸ by simp) (by simpa using named)
      intro key
      rw [accounted, erased, split]
      simp [countP_cons, Pending.slot]
      omega
    · exact accounted
  | maintain cutoff =>
    simp only [MemoryBackend.step, partition_eq_filter_filter]
    intro key
    have parts := countP_eq_countP_filter_add (after max before).sessions
      (·.slot = key) fun s => decide ((after max before).lastSeen s.id < cutoff)
    rw [accounted, parts]
    simp [countP_append, countP_map, comp_def, Pending.slot]
    omega
  | resume k =>
    simp only [MemoryBackend.step]
    split
    · exact accounted
    · rename_i call found
      obtain ⟨inside, rfl⟩ := List.getElem?_eq_some_iff.mp found
      refine Accounted.run positive fun key => ?_
      rw [accounted, (getElem_cons_eraseIdx_perm inside).countP_eq]

theorem accounted_after {events : List Event} (positive : 0 < max) (own : EachStep (Event.Own max) events) :
    Accounted (after max events) :=
  own.induction (I := fun events => Accounted (after max events)) (fun _ => rfl)
    fun _ _ => Accounted.step positive

/-- No session or call has a NUL in its user or address. -/
structure Plain (b : MemoryBackend) : Prop where
  sessions : ∀ s ∈ b.sessions, s.Plain
  calls : ∀ c ∈ b.pending, c.Plain

theorem Plain.step {e : Event} (plain : b.Plain) (honest : e.Plain) : (b.step max e).Plain := by
  obtain ⟨sessions, calls⟩ := plain
  cases e with
  | sessionConnect s now =>
    simp only [MemoryBackend.step]
    split
    · exact ⟨sessions, calls⟩
    · exact ⟨sessions, forall_mem_cons.mpr ⟨honest, calls⟩⟩
  | sessionDisconnect s =>
    simp only [MemoryBackend.step]
    split
    · exact ⟨fun t held => sessions t (eraseP_subset held), forall_mem_cons.mpr ⟨trivial, calls⟩⟩
    · exact ⟨sessions, calls⟩
  | maintain cutoff =>
    simp only [MemoryBackend.step, partition_eq_filter_filter]
    refine ⟨fun s held => sessions s (mem_of_mem_filter held), forall_mem_append.mpr ⟨?_, calls⟩⟩
    exact forall_mem_map.mpr fun _ _ => trivial
  | resume k =>
    simp only [MemoryBackend.step]
    split
    · exact ⟨sessions, calls⟩
    rename_i call found
    have own := calls call (mem_of_getElem? found)
    have others : ∀ c ∈ b.pending.eraseIdx k, c.Plain := fun c held => calls c (mem_of_mem_eraseIdx held)
    cases call with
    | acquire s now =>
      simp only [MemoryBackend.run]
      split_ifs
      · exact ⟨sessions, forall_mem_cons.mpr ⟨own, others⟩⟩
      · exact ⟨sessions, others⟩
      · exact ⟨sessions, forall_mem_cons.mpr ⟨own, others⟩⟩
    | register s now =>
      simp only [MemoryBackend.run]
      split
      · exact ⟨sessions, forall_mem_cons.mpr ⟨trivial, others⟩⟩
      · exact ⟨forall_mem_cons.mpr ⟨own, sessions⟩, others⟩
    | release s =>
      simp only [MemoryBackend.run]
      split <;> exact ⟨sessions, others⟩

end MemoryBackend

open MemoryBackend

/-- The slots of a user at an address are the sessions, between calls. -/
theorem slots_eq_registered (max : ℕ) (events : List Event) (positive : 0 < max)
    (honest : EachStep (Event.Honest max) events) (idle : (MemoryBackend.after max events).pending = [])
    (user ip : Bytes) :
    (MemoryBackend.after max events).slots max user ip = (MemoryBackend.after max events).registered user ip := by
  have plain : (MemoryBackend.after max events).Plain := by
    refine honest.induction (I := fun events => (MemoryBackend.after max events).Plain) ⟨nofun, nofun⟩ ?_
    intro before e plain honest
    rw [MemoryBackend.after, foldl_append]
    exact plain.step honest.1
  have accounted := accounted_after positive fun before e rest split => (honest before e rest split).2
  rw [MemoryBackend.slots, if_neg positive.ne', accounted, idle]
  refine countP_congr fun s held => ?_
  obtain ⟨user', ip'⟩ := plain.sessions s held
  simp [SessionInfo.slot, append_cons_inj_of_notMem user' ip']

/-- One session connects; its call runs to its end. -/
def connected : List Event :=
  let s : SessionInfo := ⟨[1], [117], [49]⟩
  [.sessionConnect s 0, .resume 0, .resume 0]

/-- It disconnects; another is swept, and a third one stays. -/
def served : List Event :=
  connected ++ [.sessionDisconnect ⟨[1], [117], [49]⟩, .resume 0, .sessionConnect ⟨[2], [117], [49]⟩ 1, .resume 0,
    .resume 0, .maintain 5, .resume 0, .sessionConnect ⟨[3], [117], [49]⟩ 6, .resume 0, .resume 0]

theorem served_honest : EachStep (Event.Honest 1) served := by
  simp only [served, connected, cons_append, nil_append, eachStep_cons, eachStep_nil, Event.Honest,
    Event.Plain, Event.Own, SessionInfo.Plain]
  refine ⟨by simp, by simp, by simp, ⟨trivial, fun t held _ => mem_singleton.mp held⟩, by simp⟩

theorem slots_eq_registered_connected :
    (MemoryBackend.after 1 served).slots 1 [117] [49] = (MemoryBackend.after 1 served).registered [117] [49] :=
  slots_eq_registered 1 served (by decide) served_honest rfl [117] [49]

/-- A disconnect under another user's name takes the session and leaves its slot. -/
theorem disconnect_leaks_slot :
    let b := MemoryBackend.after 1 (connected ++ [.sessionDisconnect ⟨[1], [118], [49]⟩, .resume 0])
    b.pending = [] ∧ b.slots 1 [117] [49] = 1 ∧ b.registered [117] [49] = 0 := by
  refine ⟨rfl, rfl, rfl⟩

theorem count_step_le {max : ℕ} {b : MemoryBackend} (le : ∀ key, b.count key ≤ max) (e : Event)
    (key : Bytes) : (b.step max e).count key ≤ max := by
  have bound := le key
  cases e with
  | resume k =>
    simp only [MemoryBackend.step]
    split
    · exact bound
    · rename_i call _
      cases call <;> simp only [MemoryBackend.run] <;> split_ifs <;> grind [update_apply]
  | _ => grind [MemoryBackend.step]

/-- Even while calls are under way, a user has no more sessions at an address than the limit. -/
theorem registered_le_max (max : ℕ) (events : List Event) (positive : 0 < max)
    (own : EachStep (Event.Own max) events) (user ip : Bytes) :
    (MemoryBackend.after max events).registered user ip ≤ max := by
  have within : ∀ key, (MemoryBackend.after max events).count key ≤ max :=
    foldlRecOn (motive := fun b : MemoryBackend => ∀ key, b.count key ≤ max) events _
      (fun _ => max.zero_le) fun b le e _ => count_step_le le e
  refine le_trans ?_ (within (user ++ 0 :: ip))
  -- the other slots are those of calls
  rw [accounted_after positive own]
  refine (countP_mono_left fun s _ same => ?_).trans (Nat.le_add_right _ _)
  simp_all [SessionInfo.slot]

theorem registered_le_max_connected : (MemoryBackend.after 1 served).registered [117] [49] ≤ 1 :=
  registered_le_max 1 served (by decide) (fun before e rest split => (served_honest before e rest split).2)
    [117] [49]

end Yarilo.Warden

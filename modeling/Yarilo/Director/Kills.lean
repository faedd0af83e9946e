import Yarilo.Director.Sessions

/-! # Kills

A user that is kicked or moved is held until the sessions are gone: a record of the kill notes since
when the registry has been without a session of the user, and the sweep confirms the kill after a
grace. The registry and the records stand under different locks, so a call takes several locked
sections, and the sections of different calls come in any order.
-/

namespace Yarilo.Director

open Library Function

/-! ## Sections of the registry -/

/-- The calls that take sessions off the registry. -/
inductive Removal where
  | close (id : Bytes)
  | remoteClose (id : Bytes)
  | reconcile (c : ℕ) (live : List Bytes)
  | disconnect (c : ℕ)
  | purgeReplicas (origin : Bytes)
  | backendDown (ip : Bytes)
  | stale (hash : UInt32) (oldHost : Bytes)

namespace Sessions

/-- Deletes the records that meet a test from both indexes. -/
def dropWhere (ss : Sessions) (p : SessionRec → Bool) : Sessions where
  byId := ss.byId.filter fun r => !p r
  byBE ip := (ss.byBE ip).filter fun id => !ss.byId.any fun r => p r && r.id = id && r.backend = ip

/-- The registry without the records a call removes, and the users whose sessions it notes as closed. -/
def remove (o : Options) (ss : Sessions) : Removal → Sessions × List Bytes
  | .close id =>
    match ss.get id with
    | none => (ss, [])
    | some r => (ss.erase id r.backend, if r.user = [] then [] else [r.user])
  | .remoteClose id =>
    match ss.get id with
    | some ⟨_, user, backend, _, none, _⟩ => (ss.erase id backend, if user = [] then [] else [user])
    | _ => (ss, [])
  | .reconcile c live =>
    let gone : SessionRec → Bool := fun r => r.cl = some c && !live.contains r.id
    (ss.dropWhere gone, (ss.byId.filter gone).map (·.user))
  | .disconnect c =>
    let gone : SessionRec → Bool := fun r => r.cl = some c
    (ss.dropWhere gone, (ss.byId.filter gone).map (·.user))
  | .purgeReplicas origin =>
    let gone : SessionRec → Bool := fun r => r.cl = none && r.origin = origin
    if origin = [] then (ss, []) else (ss.dropWhere gone, (ss.byId.filter gone).map (·.user))
  | .backendDown ip =>
    ({ byId := ss.byId.filter fun r => !(ss.byBE ip).contains r.id
       byBE := update ss.byBE ip [] },
      ((ss.byBE ip).filterMap ss.get).map (·.user))
  | .stale hash oldHost =>
    -- Nothing is noted: a kill of the user goes on waiting.
    let victims := Server.victims o ss hash (hostOf oldHost)
    (victims.foldl (fun ss r => ss.erase r.id (hostOf oldHost)) ss, [])

end Sessions

/-- The calls that put a session on the registry; a copy never replaces a session of our own. -/
def Sessions.register (ss : Sessions) : SessionOpen → Sessions × Option Bytes
  | .ofLogin c id user backend proto => (ss.insert ⟨id, user, backend, proto, some c, []⟩, some user)
  | .ofPeer origin id user backend proto =>
    match ss.get id with
    | some ⟨_, _, _, _, some _, _⟩ => (ss, none)
    | _ => (ss.insert ⟨id, user, backend, proto, none, origin⟩, some user)

/-! ## Sections of the records -/

namespace Server

/-- The second section of `noteSessionClosed`: armed once, at the transition to zero. -/
def arm (s : Server) (now : ℤ) (hash : UInt32) : Server :=
  match s.killing hash with
  | none => s
  | some st =>
    if st.zeroSince.isSome then s
    else { s with killing := update s.killing hash (some { st with zeroSince := some now }) }

/-- The section of `startKilling`, with what the count before it saw. -/
def setKilling (o : Options) (s : Server) (now : ℤ) (hash : UInt32) (quiesced : Bool) : Server :=
  { s with
    killing := update s.killing hash
      (some ⟨now + o.userKillTimeout, if quiesced then some now else none, none, true⟩) }

def attachFlush (o : Options) (s : Server) (hash : UInt32) (ctx : FlushCtx) : Server :=
  if o.hasFlushProgram then
    match s.killing hash with
    | none => s
    | some st => { s with killing := update s.killing hash (some { st with flush := some ctx }) }
  else s

/-- A kill of another director: the deadline is counted from here, a zero that was seen is kept. -/
def applyKilling (s : Server) (now : ℤ) (hash : UInt32) (ttl : ℤ) : Server :=
  let st := (s.killing hash).getD ⟨0, none, none, false⟩
  { s with killing := update s.killing hash (some { st with deadline := now + ttl }) }

/-- The record is dropped; the hook runs if it is ours and a zero was seen. -/
def applyKillDone (s : Server) (hash : UInt32) : Server × Option FlushCtx :=
  ({ s with killing := update s.killing hash none },
    (s.killing hash).bind fun st => if st.originated ∧ st.zeroSince.isSome then st.flush else none)

end Server

namespace KillState

def timedOut (st : KillState) (now : ℤ) : Bool := decide (st.deadline < now)

/-- The zero has stood for the grace, and the deadline has not passed. -/
def confirmed (st : KillState) (now grace : ℤ) : Bool :=
  !st.timedOut now && st.zeroSince.any fun z => decide (grace ≤ now - z)

end KillState

/-- The section of the sweep: every record that is confirmed or timed out is dropped. -/
def Server.sweepKills (o : Options) (s : Server) (now : ℤ) : Server :=
  { s with
    killing := fun hash =>
      (s.killing hash).filter fun st => !st.timedOut now && !st.confirmed now o.userKillConfirmGrace }

/-! ## Calls in progress -/

/-- What a call has still to do, from its next section on. -/
inductive Todo where
  | noteOpened (user : Bytes)
  /-- the first section of `noteSessionClosed`, for each user in turn -/
  | noteClosed (users : List Bytes)
  /-- a record was found -/
  | count (user : Bytes) (rest : List Bytes)
  /-- no session was found -/
  | arm (user : Bytes) (rest : List Bytes)
  | setKilling (hash : UInt32) (quiesced : Bool)
  | sweep (now : ℤ)
deriving DecidableEq

inductive Call where
  | open_ (session : SessionOpen)
  | remove (removal : Removal)
  | startKilling (hash : UInt32)
  | attachFlush (hash : UInt32) (ctx : FlushCtx)
  | applyKilling (hash : UInt32) (ttl : ℤ)
  | applyKillDone (hash : UInt32)
  | sweep

/-- Time passes, a call takes its first section, or a call in progress its next. -/
inductive Action where
  | tick (d : ℕ)
  | call (c : Call)
  | resume (i : ℕ)

structure Node where
  server : Server
  clock : ℤ
  todo : List Todo

namespace Node

/-- The first section of a call. -/
def begin_ (o : Options) (d : Node) : Call → Node
  | .open_ session =>
    let (sessions, noted) := d.server.sessions.register session
    { d with
      server := { d.server with sessions := sessions }
      todo := noted.toList.map .noteOpened ++ d.todo }
  | .remove removal =>
    let (sessions, users) := d.server.sessions.remove o removal
    { d with
      server := { d.server with sessions := sessions }
      todo := .noteClosed users :: d.todo }
  | .startKilling hash =>
    { d with todo := .setKilling hash (d.server.userSessionCount o hash = 0) :: d.todo }
  | .attachFlush hash ctx => { d with server := d.server.attachFlush o hash ctx }
  | .applyKilling hash ttl => { d with server := d.server.applyKilling d.clock hash ttl }
  | .applyKillDone hash => { d with server := (d.server.applyKillDone hash).1 }
  | .sweep => { d with todo := .sweep d.clock :: d.todo }

/-- A section of a call in progress, and what the call has to do after it. -/
def section_ (o : Options) (s : Server) (clock : ℤ) : Todo → Server × List Todo
  | .noteOpened user => (s.noteSessionOpened o user, [])
  | .noteClosed [] => (s, [])
  | .noteClosed (user :: rest) =>
    if (s.killing (o.userHash user)).isSome then (s, [.count user rest]) else (s, [.noteClosed rest])
  | .count user rest =>
    if s.userSessionCount o (o.userHash user) ≠ 0 then (s, [.noteClosed rest]) else (s, [.arm user rest])
  | .arm user rest => (s.arm clock (o.userHash user), [.noteClosed rest])
  | .setKilling hash quiesced => (s.setKilling o clock hash quiesced, [])
  | .sweep now => (s.sweepKills o now, [])

def step (o : Options) (d : Node) : Action → Node
  | .tick t => { d with clock := d.clock + t }
  | .call c => d.begin_ o c
  | .resume i =>
    match d.todo[i]? with
    | none => d
    | some next =>
      let (server, more) := section_ o d.server d.clock next
      { d with
        server := server
        todo := more ++ d.todo.eraseIdx i }

def after (o : Options) (d : Node) (actions : List Action) : Node := actions.foldl (step o) d

/-- The action is the section of a sweep that confirms the kill of the user. -/
def confirms (o : Options) (d : Node) (a : Action) (hash : UInt32) : Bool :=
  match a with
  | .resume i =>
    match d.todo[i]? with
    | some (.sweep now) => (d.server.killing hash).any fun st => st.confirmed now o.userKillConfirmGrace
    | _ => false
  | _ => false

/-! ### Calls that are not interrupted -/

variable {o : Options} {d : Node}

/-- A call that takes its sections one after the other does what its handler does. -/
theorem open_uninterrupted (c : ℕ) (id user backend proto : Bytes) :
    (d.after o [.call (.open_ (.ofLogin c id user backend proto)), .resume 0]).server =
      (d.server.handleSessionOpen o c id user backend proto).1 := rfl

theorem noteClosed_uninterrupted (user : Bytes) (quiet : d.todo = [.noteClosed [user]]) :
    (d.after o [.resume 0, .resume 0, .resume 0]).server = d.server.noteSessionClosed o d.clock user := by
  obtain ⟨s, clock, todo⟩ := d
  cases quiet
  simp only [after, List.foldl_cons, List.foldl_nil, step, List.getElem?_cons_zero, section_,
    Server.noteSessionClosed]
  cases known : s.killing (o.userHash user) with
  | none => simp
  | some st =>
    by_cases some : s.userSessionCount o (o.userHash user) = 0
    · simp [known, some, Server.arm]
    · simp [some]

theorem close_uninterrupted (id : Bytes) (quiet : d.todo = []) :
    (d.after o [.call (.remove (.close id)), .resume 0, .resume 0, .resume 0]).server =
      (d.server.handleSessionClose o d.clock id).1 := by
  cases known : d.server.sessions.get id with
  | none => simp [after, step, begin_, Sessions.remove, Server.handleSessionClose, known, quiet, section_]
  | some r =>
    by_cases named : r.user = []
    · simp [after, step, begin_, Sessions.remove, Server.handleSessionClose, known, quiet, section_, named]
    · have noted := noteClosed_uninterrupted (o := o) (d := d.begin_ o (.remove (.close id))) r.user
        (by simp [begin_, Sessions.remove, known, quiet, named])
      refine noted.trans ?_
      simp [begin_, Sessions.remove, Server.handleSessionClose, known, named]

end Node

end Yarilo.Director

import Yarilo.Director.Server

/-! # Sessions and kicks

A login pod reports its sessions to one director, which owns them through the pod's connection and
passes them on; the others keep copies without a connection. The records stand in two indexes, by id
and by backend. A user that another director's assignment moves off a backend has the sessions there
kicked.
-/

namespace Yarilo.Director

open Library

/-- A kick written to a login connection. -/
structure Kick where
  conn : ℕ
  user : Bytes
deriving DecidableEq

namespace Server

variable (o : Options)

/-- A session that opens voids a zero that was seen. -/
def noteSessionOpened (s : Server) (user : Bytes) : Server :=
  match s.killing (o.userHash user) with
  | none => s
  | some st =>
    { s with killing := Function.update s.killing (o.userHash user) (some { st with zeroSince := none }) }

/-- The last session that closes is noted once. -/
def noteSessionClosed (s : Server) (now : ℤ) (user : Bytes) : Server :=
  match s.killing (o.userHash user) with
  | none => s
  | some st =>
    if s.userSessionCount o (o.userHash user) ≠ 0 then s
    else if st.zeroSince.isSome then s
    else
      { s with
        killing := Function.update s.killing (o.userHash user) (some { st with zeroSince := some now }) }

/-- `SESSION-OPEN` of a login connection. -/
def handleSessionOpen (s : Server) (c : ℕ) (id user backend proto : Bytes) :
    Server × List Envelope :=
  let rec_ : SessionRec := ⟨id, user, backend, proto, some c, []⟩
  let s := { s with sessions := s.sessions.insert rec_ }
  (s.noteSessionOpened o user, [.sessionOpen id user backend proto])

/-- `SESSION-CLOSE`; the copies of the others are dropped too. -/
def handleSessionClose (s : Server) (now : ℤ) (id : Bytes) : Server × List Envelope :=
  match s.sessions.get id with
  | none => (s, [.sessionClose id])
  | some rec_ =>
    let s := { s with sessions := s.sessions.erase id rec_.backend }
    (if rec_.user = [] then s else s.noteSessionClosed o now rec_.user, [.sessionClose id])

/-- A copy of a session that another director owns; a record of our own is kept. -/
def applyRemoteSessionOpen (s : Server) (origin id user backend proto : Bytes) : Server :=
  match s.sessions.get id with
  | some ⟨_, _, _, _, some _, _⟩ => s
  | _ =>
    let rec_ : SessionRec := ⟨id, user, backend, proto, none, origin⟩
    { s with sessions := s.sessions.insert rec_ }.noteSessionOpened o user

/-- Drops a copy, never a record of our own. -/
def applyRemoteSessionClose (s : Server) (now : ℤ) (id : Bytes) : Server :=
  match s.sessions.get id with
  | some ⟨_, user, backend, _, none, _⟩ =>
    let s := { s with sessions := s.sessions.erase id backend }
    if user = [] then s else s.noteSessionClosed o now user
  | _ => s

/-- The sessions of a user that the index lists under a backend. -/
def victims (ss : Sessions) (hash : UInt32) (ip : Bytes) : List SessionRec :=
  (ss.byBE ip).filterMap fun id => (ss.get id).filter fun rec_ => decide (o.userHash rec_.user = hash)

/-- The kicks written in turn; a record without a connection ends the process. -/
def writeKicks : List SessionRec → List Kick × Bool
  | [] => ([], false)
  | rec_ :: rest =>
    match rec_.cl with
    | none => ([], true)
    | some c =>
      let (kicks, crashed) := writeKicks rest
      (⟨c, rec_.user⟩ :: kicks, crashed)

/-- The director after a kick, the kicks written, and whether it crashed. -/
structure KickOutcome where
  server : Server
  kicks : List Kick
  crashed : Bool

def kickStaleSessions (s : Server) (hash : UInt32) (oldHost : Bytes) : KickOutcome :=
  let ip := hostOf oldHost
  let victims := victims o s.sessions hash ip
  let sessions := victims.foldl (fun ss rec_ => ss.erase rec_.id ip) s.sessions
  let (kicks, crashed) := writeKicks victims
  ⟨{ s with sessions := sessions }, kicks, crashed⟩

/-- `USER-ASSIGN`, and with its weak mark a `USER` line of a snapshot. -/
def applyUserAssign (s : Server) (now : ℤ) (hash : UInt32) (host : Bytes) (weak : Bool)
    (seq : ℕ) (by_ : Bytes) : KickOutcome :=
  let (userDir, old) := s.userDir.mergeByHash now hash host weak seq by_
  let s := { s with userDir := userDir }
  if old ≠ [] then s.kickStaleSessions o hash old else ⟨s, [], false⟩

end Server

/-! ## Registries that sessions open -/

inductive SessionOpen where
  | ofLogin (c : ℕ) (id user backend proto : Bytes)
  | ofPeer (origin id user backend proto : Bytes)

namespace Server

def openSession (o : Options) (s : Server) : SessionOpen → Server
  | .ofLogin c id user backend proto => (s.handleSessionOpen o c id user backend proto).1
  | .ofPeer origin id user backend proto => s.applyRemoteSessionOpen o origin id user backend proto

/-- A director without sessions after sessions opened. -/
def afterOpens (o : Options) (s : Server) (opens : List SessionOpen) : Server :=
  opens.foldl (openSession o) { s with sessions := ⟨[], fun _ => []⟩ }

end Server

/-- The records are found by id, and each is listed under its backend. -/
structure Sessions.Indexed (ss : Sessions) : Prop where
  keyed : (ss.byId.map (·.id)).Nodup
  listed : ∀ rec_ ∈ ss.byId, rec_.id ∈ ss.byBE rec_.backend

end Yarilo.Director

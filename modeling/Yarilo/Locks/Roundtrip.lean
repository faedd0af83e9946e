import Yarilo.Locks.Client
import Yarilo.Locks.Memory

/-! # One command and its reply

A client sends a command, and sends it again over a fresh connection if the first one breaks before
the reply is read. The server executes a command that reached it, whether or not the reply gets
back, and it may do so after the client has given the connection up. What the network does, and what
the server does for others meanwhile, is an argument.
-/

namespace Yarilo.Locks

open Library

structure Server where
  backend : MemoryBackend
  counters : Bytes → BitVec 64

inductive Command where
  | lock (resource owner site : Bytes) (ttlMs : ℤ)
  | counterInc (key : Bytes) (delta : BitVec 64)

/-- What the server answers a command. -/
inductive ServerAnswer where
  | lock (answer : Answer)
  | badTtl
  | counted (value : BitVec 64)
  | internal
deriving DecidableEq

/-- The backend call a lock command becomes. -/
def lockOp (resource owner site : Bytes) (ttlMs : ℤ) : Op :=
  .acquire resource owner (if site = [] then siteUnknown else site) (ttlMs * 1000000)

namespace Server

/-- `IncrementCounter`; a missing counter is zero. -/
def increment (s : Server) (key : Bytes) (delta : BitVec 64) : Server :=
  { s with counters := Function.update s.counters key (s.counters key + delta) }

/-- `handleLock` and `handleCounterInc`. -/
def execute (s : Server) (c : Call) : Command → ServerAnswer × Server
  | .lock resource owner site ttlMs =>
    if ttlMs ≤ 0 then (.badTtl, s)
    else
      let done := s.backend.step { c with op := lockOp resource owner site ttlMs }
      (.lock done.1, { s with backend := done.2 })
  | .counterInc key delta =>
    if key = [] then (.internal, s)
    else
      let s := s.increment key delta
      (.counted (s.counters key), s)

end Server

/-- The fields the server writes back to a lock command. -/
def Answer.line : Answer → List Bytes
  | .acquired id => [respOK, id]
  | .busy holder => [respBusy, holder.owner, holder.site]
  | _ => [respError, [105, 110, 116, 101, 114, 110, 97, 108]]

/-- `strconv.FormatInt` -/
def decimal (n : ℤ) : Bytes :=
  (if n < 0 then [45] else []) ++ (Nat.toDigits 10 n.natAbs).map fun c => UInt8.ofNat c.toNat

def ServerAnswer.line : ServerAnswer → List Bytes
  | .lock answer => answer.line
  | .badTtl => [respError, [98, 97, 100, 95, 116, 116, 108]]
  | .counted value => [respOK, decimal value.toInt]
  | .internal => [respError, [105, 110, 116, 101, 114, 110, 97, 108]]

/-- The identifiers an answer grants. -/
def ServerAnswer.granted : ServerAnswer → List Bytes
  | .lock (.acquired id) => [id]
  | _ => []

/-- The server, and the locks it has granted to the call so far. -/
structure Session where
  server : Server
  mine : List Bytes

/-- What the server does in its turn: something for others, or the command of the call. -/
inductive Event where
  | other (c : Call)
  | otherInc (key : Bytes) (delta : BitVec 64)
  | own (c : Call)

namespace Session

def execute (cmd : Command) (c : Call) (x : Session) : ServerAnswer × Session :=
  let done := x.server.execute c cmd
  (done.1, { server := done.2, mine := x.mine ++ done.1.granted })

def event (cmd : Command) (x : Session) : Event → Session
  | .other c => { x with server := { x.server with backend := (x.server.backend.step c).2 } }
  | .otherInc key delta => { x with server := x.server.increment key delta }
  | .own c => (x.execute cmd c).2

def events (cmd : Command) (x : Session) (es : List Event) : Session := es.foldl (event cmd) x

end Session

/-- How one attempt looks to the client. -/
inductive Outcome where
  | writeFails (transport : Bool)
  | readFails (transport : Bool)
  | replied
deriving DecidableEq

/-- `isTransport` of the error, if there is one. -/
def Outcome.transport : Outcome → Bool
  | writeFails transport => transport
  | readFails transport => transport
  | replied => false

structure Attempt where
  /-- the server's turns before it comes to the command -/
  before : List Event
  /-- the execution of the command, unless it gets lost -/
  executes : Option Call
  /-- the turns before the client sees the outcome -/
  after : List Event
  outcome : Outcome

def Event.isOwn : Event → Bool
  | .own _ => true
  | _ => false

/-- What happens to one roundtrip. -/
structure Network where
  connects : Bool
  first : Attempt
  reconnects : Bool
  second : Attempt
  /-- during an attempt its own execution is the only one, but that of an attempt given up -/
  first_alone : ∀ e ∈ first.before ++ first.after, e.isOwn = false
  /-- a command given up is executed late at most once, and not if it was in time -/
  once : ((second.before ++ second.after).filter Event.isOwn).length +
    first.executes.toList.length ≤ 1

/-- The answer a client read: the server before and after, and the execution. -/
structure Answered where
  before : Session
  call : Call
  answer : ServerAnswer
  after : Session

namespace Attempt

def serve (a : Attempt) (cmd : Command) (x : Session) : Option Answered × Session :=
  let x := x.events cmd a.before
  match a.executes with
  | none => (none, x.events cmd a.after)
  | some c =>
    let done := x.execute cmd c
    (some ⟨x, c, done.1, done.2⟩, done.2.events cmd a.after)

/-- The server's turns in order. -/
def events (a : Attempt) : List Event :=
  a.before ++ (a.executes.map Event.own).toList ++ a.after

end Attempt

def Command.fields : Command → List Bytes
  | .lock resource owner site _ => [resource, owner, site]
  | .counterInc key _ => [key]

/-- `writeFields` refuses a field with a tab or a line feed; numbers have none. -/
def Command.Sendable (cmd : Command) : Prop := ∀ f ∈ cmd.fields, 9 ∉ f ∧ 10 ∉ f

instance (cmd : Command) : Decidable cmd.Sendable :=
  inferInstanceAs (Decidable (∀ f ∈ cmd.fields, 9 ∉ f ∧ 10 ∉ f))

namespace Network

/-- The command is sent once more. -/
def Resends (net : Network) : Prop := net.first.outcome.transport = true ∧ net.reconnects = true

instance (net : Network) : Decidable net.Resends := inferInstanceAs (Decidable (_ ∧ _))

def roundtrip (net : Network) (cmd : Command) (x : Session) : Option Answered × Session :=
  if net.connects = false ∨ ¬cmd.Sendable then (none, x)
  else
    let first := net.first.serve cmd x
    if net.first.outcome = .replied then first
    else if net.Resends then
      let second := net.second.serve cmd first.2
      (if net.second.outcome = .replied then second.1 else none, second.2)
    else (none, first.2)

/-- The server's turns during the roundtrip. -/
def events (net : Network) (cmd : Command) : List Event :=
  if net.connects = false ∨ ¬cmd.Sendable then []
  else if net.Resends then net.first.events ++ net.second.events
  else net.first.events

end Network

/-- `Client.Lock` over the network. -/
def lockOver (net : Network) (c : Client) (gid : ℕ) (resource owner site : Bytes) (ttl : ℤ)
    (s : Server) : ClientAnswer × Option Answered :=
  if ttl ≤ 0 then (.ttlNotPositive, none)
  else
    let (answered, _) := net.roundtrip (.lock resource owner site (ttl / 1000000)) ⟨s, []⟩
    let reply := match answered with
      | none => Reply.unavailable
      | some answered => .fields answered.answer.line
    ((c.lock gid resource ttl reply).1, answered)

/-- `Client.IncrementCounter` over the network: the value read back, and the server after. -/
def incrementOver (net : Network) (key : Bytes) (delta : BitVec 64) (s : Server) :
    Option (BitVec 64) × Server :=
  let (answered, x) := net.roundtrip (.counterInc key delta) ⟨s, []⟩
  (match answered with
    | some { answer := .counted value, .. } => some value
    | _ => none, x.server)

/-! ## The turns of a roundtrip -/

variable {cmd : Command} {x : Session} {answered : Answered}

theorem Session.events_append (es fs : List Event) :
    x.events cmd (es ++ fs) = (x.events cmd es).events cmd fs :=
  List.foldl_append

theorem Attempt.serve_snd (a : Attempt) : (a.serve cmd x).2 = x.events cmd a.events := by
  simp only [serve, events, Session.events_append]
  cases a.executes <;> rfl

theorem Attempt.serve_fst {a : Attempt} (read : (a.serve cmd x).1 = some answered) :
    a.executes = some answered.call ∧ answered.before = x.events cmd a.before ∧
      (answered.answer, answered.after) = answered.before.execute cmd answered.call := by
  simp only [serve] at read
  cases executes : a.executes with
  | none => simp [executes] at read
  | some c =>
    simp only [executes, Option.some.injEq] at read
    subst read
    exact ⟨rfl, rfl, rfl⟩

theorem Network.roundtrip_snd (net : Network) : (net.roundtrip cmd x).2 = x.events cmd (net.events cmd) := by
  unfold roundtrip events
  split
  · rfl
  by_cases replied : net.first.outcome = .replied
  · have kept : ¬net.Resends := by simp [Resends, replied, Outcome.transport]
    simp [replied, kept, Attempt.serve_snd]
  by_cases resends : net.Resends
  · simp [replied, resends, Attempt.serve_snd, Session.events_append]
  · simp [replied, resends, Attempt.serve_snd]

/-- The answer read is that to one of the executions, in the state the turns before it lead to. -/
theorem Network.roundtrip_fst {net : Network} (read : (net.roundtrip cmd x).1 = some answered) :
    (answered.answer, answered.after) = answered.before.execute cmd answered.call ∧
      ∃ before after, net.events cmd = before ++ .own answered.call :: after ∧
        answered.before = x.events cmd before := by
  unfold roundtrip events at *
  split at read
  · cases read
  rename_i sent
  by_cases replied : net.first.outcome = .replied
  · have kept : ¬net.Resends := by simp [Resends, replied, Outcome.transport]
    simp only [replied, if_true] at read
    obtain ⟨executes, before, answer⟩ := Attempt.serve_fst read
    refine ⟨answer, net.first.before, net.first.after, ?_, before⟩
    simp [sent, kept, Attempt.events, executes]
  · simp only [replied, if_false] at read
    split at read
    · rename_i resends
      split at read
      · obtain ⟨executes, before, answer⟩ := Attempt.serve_fst read
        refine ⟨answer, net.first.events ++ net.second.before, net.second.after, ?_, ?_⟩
        · simp only [sent, if_false, resends, if_true]
          simp [Attempt.events, executes]
        · rw [before, Attempt.serve_snd, Session.events_append]
      · cases read
    · cases read

end Yarilo.Locks

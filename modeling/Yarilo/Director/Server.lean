import Yarilo.Director.Ring
import Yarilo.Director.UserDir

/-! # A director

The state of one director and what its handlers do with it: the lookup of a login, the route of a
delivery, a move, sessions that open and close, kills, and the events that come from other members.
Time, and the choices of sorts and of rebuilds, come with each call.
-/

namespace Yarilo.Director

open Library

inductive Policy where
  | hash
  | leastSessions
deriving DecidableEq

structure Options where
  hashing : Hashing
  /-- user names are folded when they come in; a template of its own leaves that to the template -/
  foldsCase : Bool
  policy : Policy
  userKillTimeout : ℤ
  userKillConfirmGrace : ℤ
  hasFlushProgram : Bool

/-- A session that a login connection owns, or a copy of one that another director has. -/
structure SessionRec where
  id : Bytes
  user : Bytes
  backend : Bytes
  proto : Bytes
  cl : Option ℕ
  origin : Bytes
deriving DecidableEq

structure Sessions where
  byId : List SessionRec
  byBE : Bytes → List Bytes

structure FlushCtx where
  user : Bytes
  oldBackend : Bytes
  newBackend : Bytes
deriving DecidableEq

structure KillState where
  deadline : ℤ
  zeroSince : Option ℤ
  flush : Option FlushCtx
  originated : Bool
deriving DecidableEq

structure BackendLease where
  seq : ℕ
  seenAt : ℤ
deriving DecidableEq

structure BackendTombstone where
  seq : ℕ
  since : ℤ
deriving DecidableEq

structure Server where
  ring : Ring
  userDir : UserDir
  sessions : Sessions
  backendSeen : Bytes → Option BackendLease
  backendTomb : Bytes → Option BackendTombstone
  killing : UInt32 → Option KillState

/-- A director with nothing but a ring. -/
def Server.fresh (r : Ring) : Server where
  ring := r
  userDir := ⟨fun _ => none, 1, [], 0, Int.one_pos⟩
  sessions := ⟨[], fun _ => []⟩
  backendSeen _ := none
  backendTomb _ := none
  killing _ := none

/-- What a call takes from the runtime. -/
structure Moment where
  now : ℤ
  sorter : Sorter
  rebuild : Rebuild

def Moment.start : Moment := ⟨0, .insertion, Ring.walkFirst []⟩

/-- An event for the other members of the ring. -/
inductive Envelope where
  | ringChange (payload : List Bytes)
  | userAssign (hash : UInt32) (addr : Bytes) (seq : ℕ) (by_ : Bytes)
  | userMoved (user ip port : Bytes)
  | userKicked (user oldBackend : Bytes)
  | sessionOpen (id user backend proto : Bytes)
  | sessionClose (id : Bytes)
  | userKilling (hash : UInt32) (ttl : ℤ)
  | userKillDone (hash : UInt32)
deriving DecidableEq

namespace Options

def normalizeUser (o : Options) (username : Bytes) : Bytes :=
  if o.foldsCase then o.hashing.toLower username else username

def userHash (o : Options) (username : Bytes) : UInt32 := o.hashing.userHash username

end Options

/-! ## Sessions -/

namespace Sessions

variable (ss : Sessions)

def get (id : Bytes) : Option SessionRec := ss.byId.find? (·.id = id)

def insert (rec : SessionRec) : Sessions where
  byId := rec :: ss.byId.filter (·.id ≠ rec.id)
  byBE := Function.update ss.byBE rec.backend
    (if rec.id ∈ ss.byBE rec.backend then ss.byBE rec.backend else rec.id :: ss.byBE rec.backend)

/-- Deletes a session from the records, and from the index of a backend. -/
def erase (id backend : Bytes) : Sessions where
  byId := ss.byId.filter (·.id ≠ id)
  byBE := Function.update ss.byBE backend ((ss.byBE backend).filter (· ≠ id))

def total (ip : Bytes) : ℕ := (ss.byBE ip).length

def byProto (ip proto : Bytes) : ℕ :=
  ss.byId.countP fun rec => decide (rec.backend = ip ∧ rec.proto = proto)

end Sessions

namespace Server

variable (o : Options)

def userSessionCount (s : Server) (hash : UInt32) : ℕ :=
  s.sessions.byId.countP fun rec => decide (o.userHash rec.user = hash)

def isKilling (s : Server) (now : ℤ) (hash : UInt32) : Bool :=
  (s.killing hash).any fun st => decide (now ≤ st.deadline)

/-! ## Placement -/

structure Cand where
  b : Backend
  l1 : ℕ
  l2 : ℕ
deriving DecidableEq

/-- By the load of the protocol, if one is named, then by the whole load, then by address. -/
def Cand.less (reqProto : Bytes) (ci cj : Cand) : Bool :=
  if reqProto ≠ [] ∧ ci.l1 ≠ cj.l1 then decide (ci.l1 < cj.l1)
  else if ci.l2 ≠ cj.l2 then decide (ci.l2 < cj.l2)
  else if ci.b.ip ≠ cj.b.ip then decide (ci.b.ip < cj.b.ip)
  else decide (ci.b.port < cj.b.port)

/-- The backends of a tag that take users; a weight of zero drains a backend. -/
def candidates (s : Server) (tag reqProto : Bytes) : List Cand :=
  (s.ring.backends.filter fun b => decide (b.up = true ∧ b.tag = tag ∧ 0 < b.vhosts)).map fun b =>
    { b := b
      l1 := s.sessions.byProto b.ip reqProto * 100 / b.vhosts.toNat
      l2 := s.sessions.total b.ip * 100 / b.vhosts.toNat }

def pickBackend (s : Server) (m : Moment) (user tag reqProto : Bytes) : Option Backend :=
  match o.policy with
  | .hash => s.ring.lookupBackendByTag o.hashing user tag
  | .leastSessions =>
    (m.sorter.sort (Cand.less reqProto) (s.candidates tag reqProto)).head?.map (·.b)

def setUser (s : Server) (now : ℤ) (user addr : Bytes) (weak : Bool) : Server :=
  { s with userDir := s.userDir.setByHash now (o.userHash user) addr weak }

def assignAndPin (s : Server) (m : Moment) (user tag reqProto : Bytes) :
    Server × Option Backend × List Envelope :=
  match s.pickBackend o m user tag reqProto with
  | none => (s, none, [])
  | some b =>
    let addr := joinHostPort b.ip (intText b.port)
    let s := s.setUser o m.now user addr false
    let sent := match s.userDir.lastAssign (o.userHash user) with
      | none => []
      | some (seq, by_) => [.userAssign (o.userHash user) addr seq by_]
    (s, some b, sent)

inductive LookupAnswer where
  | host (ip port tag : Bytes)
  | killing
  | noBackends
deriving DecidableEq

/-- The pin of a user that a lookup for the tag follows: address, host and port. -/
def stickyPin (s : Server) (now : ℤ) (user tag : Bytes) : Option (Bytes × Bytes × Bytes) :=
  match s.userDir.getByHash now (o.userHash user) with
  | none => none
  | some e =>
    if e.weak then none
    else
      match splitHostPort e.host with
      | none => none
      | some (host, port) =>
        match s.ring.getBackend host with
        | none => none
        | some existing =>
          if existing.up ∧ existing.tag = tag then some (e.host, host, port) else none

/-- `LOOKUP`: a user that is being killed is held, a pin is followed and refreshed, and otherwise the
user is placed. -/
def handleLookup (s : Server) (m : Moment) (username tag reqProto : Bytes) :
    Server × LookupAnswer × List Envelope :=
  let user := o.normalizeUser username
  if s.isKilling m.now (o.userHash user) then (s, .killing, [])
  else
    match s.stickyPin o m.now user tag with
    | some (addr, host, port) => (s.setUser o m.now user addr false, .host host port tag, [])
    | none =>
      match s.assignAndPin o m user tag reqProto with
      | (s, none, sent) => (s, .noBackends, sent)
      | (s, some b, sent) => (s, .host b.ip (intText b.port) b.tag, sent)

/-- `lmtp` -/
def lmtp : Bytes := [108, 109, 116, 112]

/-- The host of a pin that a delivery follows, whatever its tag. -/
def pinnedHost (s : Server) (now : ℤ) (user : Bytes) : Option Bytes :=
  match s.userDir.getByHash now (o.userHash user) with
  | none => none
  | some e =>
    if e.weak then none
    else
      match splitHostPort e.host with
      | none => none
      | some (host, _) =>
        match s.ring.getBackend host with
        | none => none
        | some b => if b.up then some host else none

def routeUser (s : Server) (m : Moment) (username : Bytes) :
    Server × Option Bytes × List Envelope :=
  let user := o.normalizeUser username
  match s.pinnedHost o m.now user with
  | some host => (s, some host, [])
  | none =>
    match o.policy with
    | .leastSessions =>
      match s.assignAndPin o m user [] lmtp with
      | (s, b, sent) => (s, b.map (·.ip), sent)
    | .hash => (s, (s.ring.lookupBackend o.hashing user).map (·.ip), [])

end Server

end Yarilo.Director

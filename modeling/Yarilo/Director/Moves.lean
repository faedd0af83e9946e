import Yarilo.Director.Gossip
import Yarilo.Director.Kicks
import Yarilo.Director.Kills

/-! # Moves, and directors that tell each other

A user is moved by a pin on the new backend and a kick off the old one. What a director does is told
to all others, and reaches each of them once, in any order. A kick by `USER-KICK` drops the pin of
those that are told, not of the one that is asked.
-/

namespace Yarilo.Director

open Library

namespace Server

/-- The host of the pin a move replaces, or empty. -/
def oldHost (o : Options) (s : Server) (now : ℤ) (user : Bytes) : Bytes :=
  ((s.userDir.getByHash now (o.userHash user)).bind fun e => (splitHostPort e.host).map (·.1)).getD []

/-- The user is pinned to the address, and unless the backend stays the same held and kicked. -/
def moveUser (o : Options) (s : Server) (now : ℤ) (user addr : Bytes) : Server × List Envelope :=
  let oldIP := s.oldHost o now user
  let hash := o.userHash user
  let s := s.setUser o now user addr false
  let (host, port) := (splitHostPort addr).getD ([], [])
  if oldIP ≠ [] ∧ oldIP ≠ host then
    let s := s.setKilling o now hash (s.userSessionCount o hash = 0)
    (s.attachFlush o hash ⟨user, oldIP, host⟩,
      [.userMoved user host port, .userKilling hash o.userKillTimeout, .userKicked user oldIP])
  else (s, [.userMoved user host port])

/-- `USER-MOVE` -/
def handleUserMove (o : Options) (s : Server) (now : ℤ) (username ip port : Bytes) :
    Server × List Envelope :=
  s.moveUser o now (o.normalizeUser username) (joinHostPort ip port)

/-- Drops the pin of a user that is kicked: off a backend only if it points there. -/
def applyUserKicked (o : Options) (s : Server) (user oldBackend : Bytes) : Server :=
  { s with
    userDir := if oldBackend ≠ [] then s.userDir.deleteIfBackend (o.userHash user) oldBackend
      else s.userDir.deleteByHash (o.userHash user) }

/-- What a director does with an event of another. -/
def applyEnvelope (o : Options) (s : Server) (m : Moment) (origin : Bytes) : Envelope → Server
  | .ringChange payload => s.applyRingChangeFields o.hashing m payload
  | .userAssign hash addr seq by_ => (s.applyUserAssign o m.now hash addr false seq by_).server
  | .userMoved user ip port => s.setUser o m.now user (joinHostPort ip port) false
  | .userKicked user oldBackend => s.applyUserKicked o user oldBackend
  | .sessionOpen id user backend proto => s.applyRemoteSessionOpen o origin id user backend proto
  | .sessionClose id => s.applyRemoteSessionClose o m.now id
  | .userKilling hash ttl => s.applyKilling m.now hash ttl
  | .userKillDone hash => (s.applyKillDone hash).1

end Server

/-- The kinds of events of which one that comes after a later one of its director is refused. -/
def Envelope.guarded : Envelope → Bool
  | .userKicked .. => true
  | .sessionOpen .. => true
  | .sessionClose _ => true
  | .userKilling .. => true
  | .userKillDone _ => true
  | _ => false

/-- Any directors, and the events that are still to reach each of them. -/
structure Cluster (ι : Type) where
  server : ι → Server
  inbox : ι → List Envelope

/-- Whatever else goes on at a director leaves the pins as they are. -/
structure Elsewhere where
  change : Server → Server
  pins : ∀ s, (change s).userDir = s.userDir

/-- What is served, and what is delivered. -/
inductive Deed (ι : Type) where
  | lookup (i : ι) (m : Moment) (username tag reqProto : Bytes)
  | assign (i : ι) (m : Moment) (user tag reqProto : Bytes)
  | move (i : ι) (now : ℤ) (username ip port : Bytes)
  | deliver (i : ι) (k : ℕ) (m : Moment) (origin : Bytes)
  | refuse (i : ι) (k : ℕ)
  | other (i : ι) (e : Elsewhere)

namespace Cluster

variable {ι : Type} [DecidableEq ι]

/-- A director after a call, and the events of the call under way to all others. -/
def tell (c : Cluster ι) (i : ι) (s : Server) (sent : List Envelope) : Cluster ι where
  server := Function.update c.server i s
  inbox j := if j = i then c.inbox j else c.inbox j ++ sent

def step (o : Options) (c : Cluster ι) : Deed ι → Cluster ι
  | .lookup i m username tag reqProto =>
    let (s, _, sent) := (c.server i).handleLookup o m username tag reqProto
    c.tell i s sent
  | .assign i m user tag reqProto =>
    let (s, _, sent) := (c.server i).assignAndPin o m user tag reqProto
    c.tell i s sent
  | .move i now username ip port =>
    let (s, sent) := (c.server i).handleUserMove o now username ip port
    c.tell i s sent
  | .deliver i k m origin =>
    match (c.inbox i)[k]? with
    | none => c
    | some e =>
      { server := Function.update c.server i ((c.server i).applyEnvelope o m origin e)
        inbox := Function.update c.inbox i ((c.inbox i).eraseIdx k) }
  | .refuse i k =>
    match (c.inbox i)[k]? with
    | none => c
    | some e =>
      if e.guarded then { c with inbox := Function.update c.inbox i ((c.inbox i).eraseIdx k) } else c
  | .other i e => { c with server := Function.update c.server i (e.change (c.server i)) }

def after (o : Options) (c : Cluster ι) (deeds : List (Deed ι)) : Cluster ι := deeds.foldl (step o) c

end Cluster

/-! ## One director is asked, the others are told -/

inductive Request where
  | userKick
  | apiUserKick
  | move (addr : Bytes)

namespace Server

/-- `USER-KICK`: the user is held and the others are told; the pin here stays. -/
def handleUserKick (o : Options) (s : Server) (now : ℤ) (username : Bytes) : Server × List Envelope :=
  let user := o.normalizeUser username
  let hash := o.userHash user
  (s.setKilling o now hash (s.userSessionCount o hash = 0),
    [.userKilling hash o.userKillTimeout, .userKicked user []])

/-- The kick of the API drops the pin here too, with the push. -/
def apiUserKick (o : Options) (s : Server) (now : ℤ) (username : Bytes) : Server × List Envelope :=
  let (s, sent) := s.handleUserKick o now username
  ({ s with userDir := s.userDir.deleteByHash (o.userHash (o.normalizeUser username)) }, sent)

def serve (o : Options) (s : Server) (now : ℤ) (username : Bytes) : Request → Server × List Envelope
  | .userKick => s.handleUserKick o now username
  | .apiUserKick => s.apiUserKick o now username
  | .move addr => s.moveUser o now (o.normalizeUser username) addr

def hear (o : Options) (s : Server) (m : Moment) (origin : Bytes) (sent : List Envelope) : Server :=
  sent.foldl (applyEnvelope o · m origin) s

def pinOf (o : Options) (s : Server) (user : Bytes) : Option Bytes :=
  (s.userDir.byHash (o.userHash user)).map (·.host)

variable {o : Options} (s : Server) (now : ℤ) (user addr : Bytes)

theorem pinOf_setUser : (s.setUser o now user addr false).pinOf o user = some addr := by
  simp [pinOf, setUser, UserDir.setByHash_same]

theorem pinOf_moveUser : (s.moveUser o now user addr).1.pinOf o user = some addr := by
  unfold moveUser attachFlush
  dsimp only
  split
  · split
    · split <;> exact pinOf_setUser ..
    · exact pinOf_setUser ..
  · exact pinOf_setUser ..

theorem pinOf_applyKilling (hash : UInt32) (ttl : ℤ) :
    (s.applyKilling now hash ttl).pinOf o user = s.pinOf o user := rfl

/-- A kick drops the pin, unless it is off another backend. -/
theorem pinOf_applyUserKicked (old : Bytes) :
    (s.applyUserKicked o user old).pinOf o user =
      (s.pinOf o user).filter fun addr => decide (old ≠ [] ∧ hostOf addr ≠ old) := by
  unfold pinOf applyUserKicked UserDir.deleteIfBackend
  by_cases off : old = []
  · simp [off, UserDir.deleteByHash]
  · cases held : s.userDir.byHash (o.userHash user) with
    | none => simp [off, held]
    | some e =>
      by_cases same : hostOf e.host = old <;> simp [off, same, held, UserDir.deleteByHash, Option.filter]

end Server

/-- The address others are told of a move, as they write it. -/
def toldAddr (addr : Bytes) : Bytes :=
  joinHostPort ((splitHostPort addr).getD ([], [])).1 ((splitHostPort addr).getD ([], [])).2

theorem hostOf_of_toldAddr {addr : Bytes} (same : toldAddr addr = addr) :
    hostOf addr = ((splitHostPort addr).getD ([], [])).1 := by
  cases parts : splitHostPort addr with
  | none =>
    rw [toldAddr, parts] at same
    subst same
    revert parts
    decide
  | some x => simp [hostOf, parts]

/-- A director that is told of a move holds its pin if it is told the address as it is written. -/
theorem Server.pinOf_hear_move {o : Options} (s t : Server) (now : ℤ) (m : Moment) (origin user addr : Bytes) :
    (s.hear o m origin (t.moveUser o now user addr).2).pinOf o user = some addr ↔ toldAddr addr = addr := by
  unfold moveUser
  dsimp only
  split
  · rename_i off
    simp only [hear, List.foldl_cons, List.foldl_nil, applyEnvelope]
    rw [pinOf_applyUserKicked, pinOf_applyKilling, pinOf_setUser, Option.filter_eq_some_iff, Option.some_inj]
    refine and_iff_left_of_imp fun same => decide_eq_true ⟨off.1, ?_⟩
    rw [hostOf_of_toldAddr same]
    exact off.2.symm
  · simp only [hear, List.foldl_cons, List.foldl_nil, applyEnvelope]
    rw [pinOf_setUser, Option.some_inj]
    rfl

section

variable {ι : Type} [DecidableEq ι]

/-- The pins of all directors once the others have heard. -/
def pinsAfter (o : Options) (server : ι → Server) (i : ι) (now : ℤ) (m : ι → Moment)
    (origin username : Bytes) (request : Request) : ι → Option Bytes :=
  let (s, sent) := (server i).serve o now username request
  let user := o.normalizeUser username
  Function.update (fun j => ((server j).hear o (m j) origin sent).pinOf o user) i (s.pinOf o user)

/-- Every director has dropped the pin, or every one holds that of the move. -/
def Request.Done (request : Request) (pins : ι → Option Bytes) : Prop :=
  (∀ j, pins j = none) ∨ ∃ addr, request = .move addr ∧ ∀ j, pins j = some addr

/-- `USER-KICK` comes to a director without a pin of the user; a move that others hear of is to an
address that is written as its host and port are joined. -/
def Request.Shared (o : Options) (server : ι → Server) (i : ι) (username : Bytes) : Request → Prop
  | .userKick => (server i).pinOf o (o.normalizeUser username) = none
  | .apiUserKick => True
  | .move addr => (∃ j, j ≠ i) → toldAddr addr = addr

theorem kick_clears_pins_iff (o : Options) (server : ι → Server) (i : ι) (now : ℤ) (m : ι → Moment)
    (origin username : Bytes) (request : Request) :
    request.Done (pinsAfter o server i now m origin username request) ↔
      request.Shared o server i username := by
  -- One director serves, the others hear.
  have all (pin : Option Bytes) : (∀ j, pinsAfter o server i now m origin username request j = pin) ↔
      ((server i).serve o now username request).1.pinOf o (o.normalizeUser username) = pin ∧
        ∀ j ≠ i, ((server j).hear o (m j) origin ((server i).serve o now username request).2).pinOf o
          (o.normalizeUser username) = pin :=
    Function.forall_update_iff _ fun _ held => held = pin
  have kicked (s : Server) (m : Moment) (hash : UInt32) (ttl : ℤ) (user : Bytes) :
      (s.hear o m origin [.userKilling hash ttl, .userKicked user []]).pinOf o user = none := by
    simp [Server.hear, Server.applyEnvelope, Server.pinOf_applyUserKicked]
  simp only [Request.Done, all]
  cases request with
  | userKick =>
    refine (or_iff_left ?_).trans (and_iff_left fun j _ => kicked ..)
    rintro ⟨_, ⟨⟩, _⟩
  | apiUserKick =>
    refine iff_of_true (.inl ⟨?_, fun j _ => kicked ..⟩) trivial
    simp [Server.pinOf, Server.serve, Server.apiUserKick, UserDir.deleteByHash]
  | move addr => simp [Request.Shared, Server.serve, Server.pinOf_moveUser, Server.pinOf_hear_move]

end

/-- Two directors hold a pin; the one that is asked to kick keeps it. -/
theorem userKick_keeps_own_pin :
    ¬ Request.userKick.Done (pinsAfter plainOptions (fun _ : Bool => pinnedToA) true 0 (fun _ => .start)
      [] [117] .userKick) := by
  rintro (none | ⟨_, ⟨⟩, _⟩)
  cases none true

end Yarilo.Director

import Yarilo.Director.Server

/-! # Gossip about backends

A member that learns of a backend's state tells the others: up with the lease of a heartbeat, down,
flushed, or of another weight. A removed backend leaves a tombstone with the lease it had, against
snapshots of members that have not heard of it.
-/

namespace Yarilo.Director

open Library Option

/-- `up` -/
def upWord : Bytes := [117, 112]

/-- `vhosts` -/
def vhostsWord : Bytes := [118, 104, 111, 115, 116, 115]

/-- `down` -/
def downWord : Bytes := [100, 111, 119, 110]

/-- `flush` -/
def flushWord : Bytes := [102, 108, 117, 115, 104]

namespace Server

/-- A heartbeat is recorded where its number is new; the second part says whether it was. -/
def recordBackendSeen (s : Server) (now : ℤ) (ip : Bytes) (seq : ℕ) : Server × Bool :=
  if (s.backendSeen ip).any fun cur => decide (seq ≤ cur.seq) then (s, false)
  else ({ s with backendSeen := Function.update s.backendSeen ip (some ⟨seq, now⟩) }, true)

def forgetBackendLease (s : Server) (ip : Bytes) : Server :=
  { s with backendSeen := Function.update s.backendSeen ip none }

/-- The last number of a heartbeat; zero for a backend that never sent one. -/
def backendLeaseSeq (s : Server) (ip : Bytes) : ℕ := ((s.backendSeen ip).map (·.seq)).getD 0

def recordBackendTomb (s : Server) (now : ℤ) (ip : Bytes) : Server :=
  { s with backendTomb := Function.update s.backendTomb ip (some ⟨s.backendLeaseSeq ip, now⟩) }

def clearBackendTomb (s : Server) (ip : Bytes) : Server :=
  { s with backendTomb := Function.update s.backendTomb ip none }

/-- `up` of a known backend, or of a new one where the port is told. -/
def applyUp (H : Hashing) (s : Server) (m : Moment) (ip tag : Bytes) (payload : List Bytes) : Server :=
  let s := s.clearBackendTomb ip
  let s := match payload[3]?.bind (parseUint (2 ^ 64)) with
    | some seq => (s.recordBackendSeen m.now ip seq).1
    | none => s
  match payload[4]?, payload[5]? with
  | some port, some vhosts =>
    match atoi port with
    | some port =>
      { s with
        ring := s.ring.addBackend H m.rebuild ⟨ip, port, tag, true, atoiValue vhosts, m.now, 0, []⟩ }
    | none => { s with ring := (s.ring.setUp H m.rebuild ip true m.now).1 }
  | _, _ => { s with ring := (s.ring.setUp H m.rebuild ip true m.now).1 }

def applyVhosts (H : Hashing) (s : Server) (m : Moment) (ip : Bytes) (payload : List Bytes) : Server :=
  let n := (payload[3]?.map atoiValue).getD 0
  match s.ring.getBackend ip with
  | some b => { s with ring := s.ring.addBackend H m.rebuild { b with vhosts := n } }
  | none => s

def applyDown (H : Hashing) (s : Server) (m : Moment) (ip : Bytes) : Server :=
  let s := (s.recordBackendTomb m.now ip).forgetBackendLease ip
  { s with ring := s.ring.removeBackend H m.rebuild ip }

def applyFlush (H : Hashing) (s : Server) (m : Moment) (ip : Bytes) : Server :=
  { s with
    ring := (s.ring.setUp H m.rebuild ip false m.now).1
    userDir := s.userDir.deleteByBackend ip }

/-- `RING-CHANGE`: address, event, tag, and what the event carries. -/
def applyRingChangeFields (H : Hashing) (s : Server) (m : Moment) (payload : List Bytes) : Server :=
  match payload with
  | ip :: event :: _ =>
    if event = upWord then s.applyUp H m ip (payload[2]?.getD []) payload
    else if event = vhostsWord then s.applyVhosts H m ip payload
    else if event = downWord then s.applyDown H m ip
    else if event = flushWord then s.applyFlush H m ip
    else s
  | _ => s

end Server

/-! ## What is issued -/

/-- A change of a backend as a director issues it. -/
inductive RingChange where
  | up (tag : Bytes) (seq : UInt64) (port weight : Int64)
  | vhosts (tag : Bytes) (n : Int64)
  | down (tag : Bytes)
  | flush (tag : Bytes)
deriving DecidableEq

namespace RingChange

def payload (ip : Bytes) : RingChange → List Bytes
  | up tag seq port weight =>
    [ip, upWord, tag, natText seq.toNat, intText port.toInt, intText weight.toInt]
  | vhosts tag n => [ip, vhostsWord, tag, intText n.toInt]
  | down tag => [ip, downWord, tag]
  | flush tag => [ip, flushWord, tag]

def isUp : RingChange → Bool
  | up .. => true
  | _ => false

def isDown : RingChange → Bool
  | down _ => true
  | _ => false

def isFlush : RingChange → Bool
  | flush _ => true
  | _ => false

/-- The weight a change carries. -/
def weight : RingChange → Option ℤ
  | up _ _ _ n => some n.toInt
  | vhosts _ n => some n.toInt
  | _ => none

end RingChange

/-! ## What a director holds of one backend -/

namespace RingChange

/-- A change as it affects state and weight of the backend, if it is present. -/
def onBackend (c : RingChange) (known : Option (Bool × ℤ)) : Option (Bool × ℤ) :=
  match c with
  | up _ _ _ n => some (true, n.toInt)
  | vhosts _ n => known.map fun b => (b.1, n.toInt)
  | down _ => none
  | flush _ => known.map fun b => (false, b.2)

end RingChange

/-- The lease of a backend and its tombstone. -/
structure Marks where
  lease : Option ℕ
  tomb : Option ℕ
deriving DecidableEq

namespace RingChange

def onMarks (c : RingChange) (m : Marks) : Marks :=
  match c with
  | up _ seq _ _ =>
    { lease := if m.lease.any fun cur => decide (seq.toNat ≤ cur) then m.lease else some seq.toNat
      tomb := none }
  | vhosts _ _ => m
  | down _ =>
    { lease := none
      tomb := some (m.lease.getD 0) }
  | flush _ => m

end RingChange

namespace Server

variable {H : Hashing} {s : Server} {m : Moment} {ip : Bytes}

/-- State and weight of a backend, if it is present. -/
def known (s : Server) (ip : Bytes) : Option (Bool × ℤ) :=
  (s.ring.getBackend ip).map fun b => (b.up, b.vhosts)

def marks (s : Server) (ip : Bytes) : Marks where
  lease := (s.backendSeen ip).map (·.seq)
  tomb := (s.backendTomb ip).map (·.seq)

end Server

namespace Ring

variable {H : Hashing} {r : Ring} {c : Rebuild} {ip : Bytes}

theorem getBackend_addBackend {b : Backend} (same : b.ip = ip) :
    (r.addBackend H c b).getBackend ip = some (merge (r.getBackend ip) b) := by
  simp [addBackend, rebuild, getBackend, merge_ip, same]

theorem merge_state (prev : Option Backend) (b : Backend) :
    ((merge prev b).up, (merge prev b).vhosts) = (b.up, b.vhosts) := by
  cases prev <;> rfl

theorem getBackend_removeBackend : (r.removeBackend H c ip).getBackend ip = none := by
  simp [removeBackend, rebuild, getBackend]

theorem getBackend_setUp (up : Bool) (ts : ℤ) :
    (r.setUp H c ip up ts).1.getBackend ip = (r.getBackend ip).map fun b => marked b up ts := by
  unfold setUp
  split
  · next unknown => rw [unknown, map_none]
  next b known =>
  refine Eq.trans ?_ (congrArg (Option.map fun b => marked b up ts) known).symm
  simp [rebuild, getBackend, marked_ip, getBackend_ip known]

end Ring

namespace Server

variable {H : Hashing} {s : Server} {m : Moment} {ip : Bytes}

theorem marks_clearBackendTomb : (s.clearBackendTomb ip).marks ip = { s.marks ip with tomb := none } := by
  simp [clearBackendTomb, marks]

theorem marks_recordBackendSeen (now : ℤ) (seq : ℕ) :
    ((s.recordBackendSeen now ip seq).1).marks ip =
      { s.marks ip with
        lease := if (s.marks ip).lease.any fun cur => decide (seq ≤ cur) then (s.marks ip).lease
          else some seq } := by
  unfold recordBackendSeen
  simp only [marks, any_map]
  split <;> simp

theorem ring_recordBackendSeen (now : ℤ) (seq : ℕ) : (s.recordBackendSeen now ip seq).1.ring = s.ring := by
  unfold recordBackendSeen
  split <;> rfl

theorem applyRingChangeFields_up (tag : Bytes) (seq : UInt64) (port weight : Int64) :
    s.applyRingChangeFields H m ((RingChange.up tag seq port weight).payload ip) =
      { ((s.clearBackendTomb ip).recordBackendSeen m.now ip seq.toNat).1 with
        ring := s.ring.addBackend H m.rebuild ⟨ip, port.toInt, tag, true, weight.toInt, m.now, 0, []⟩ } := by
  simp only [RingChange.payload, applyRingChangeFields, if_pos, applyUp, List.getElem?_cons_succ,
    List.getElem?_cons_zero, bind_some, getD_some, parseUint_natText seq.toNat_lt,
    atoi_intText port.le_toInt port.toInt_lt, atoiValue_intText weight.le_toInt weight.toInt_lt,
    ring_recordBackendSeen]
  rfl

theorem applyRingChangeFields_vhosts (tag : Bytes) (n : Int64) :
    s.applyRingChangeFields H m ((RingChange.vhosts tag n).payload ip) =
      match s.ring.getBackend ip with
      | some b => { s with ring := s.ring.addBackend H m.rebuild { b with vhosts := n.toInt } }
      | none => s := by
  have other : vhostsWord ≠ upWord := by decide
  simp [RingChange.payload, applyRingChangeFields, if_neg other, applyVhosts,
    atoiValue_intText n.le_toInt n.toInt_lt]

theorem applyRingChangeFields_down (tag : Bytes) :
    s.applyRingChangeFields H m ((RingChange.down tag).payload ip) = s.applyDown H m ip := rfl

theorem applyRingChangeFields_flush (tag : Bytes) :
    s.applyRingChangeFields H m ((RingChange.flush tag).payload ip) = s.applyFlush H m ip := rfl

/-- State and weight of the backend change as the change says. -/
theorem known_applyRingChangeFields (c : RingChange) :
    (s.applyRingChangeFields H m (c.payload ip)).known ip = c.onBackend (s.known ip) := by
  cases c with
  | up tag seq port weight =>
    rw [applyRingChangeFields_up, known, Ring.getBackend_addBackend rfl, map_some, Ring.merge_state]
    rfl
  | vhosts tag n =>
    rw [applyRingChangeFields_vhosts]
    rcases present : s.ring.getBackend ip with _ | b
    · simp [known, present, RingChange.onBackend]
    have same : b.ip = ip := Ring.getBackend_ip present
    simp only [known, present, map_some, RingChange.onBackend]
    rw [Ring.getBackend_addBackend (b := { b with vhosts := n.toInt }) same, map_some,
      Ring.merge_state]
  | down tag =>
    rw [applyRingChangeFields_down]
    simp [known, applyDown, Ring.getBackend_removeBackend, RingChange.onBackend]
  | flush tag =>
    rw [applyRingChangeFields_flush]
    simp only [known, applyFlush, Ring.getBackend_setUp, map_map, RingChange.onBackend]
    rfl

/-- So do the lease and the tombstone. -/
theorem marks_applyRingChangeFields (c : RingChange) :
    (s.applyRingChangeFields H m (c.payload ip)).marks ip = c.onMarks (s.marks ip) := by
  cases c with
  | up tag seq port weight =>
    rw [applyRingChangeFields_up]
    refine (marks_recordBackendSeen m.now seq.toNat).trans ?_
    rw [marks_clearBackendTomb]
    rfl
  | vhosts tag n =>
    rw [applyRingChangeFields_vhosts]
    rcases s.ring.getBackend ip with _ | b <;> rfl
  | down tag =>
    rw [applyRingChangeFields_down]
    simp [marks, applyDown, recordBackendTomb, forgetBackendLease, backendLeaseSeq, RingChange.onMarks]
  | flush tag => rfl

end Server

end Yarilo.Director

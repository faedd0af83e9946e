import Yarilo.Library.Circle
import Yarilo.Library.Decimal
import Yarilo.Library.Sorting

/-! # The hash ring

Every backend that is up has virtual nodes on a circle of hashes, as many as its weight says. A user
is served by the backend of the first node at or after the hash of the user's key, among all nodes or
among those of one tag. The nodes are collected in the order in which the map of backends is walked
and sorted by hash alone; that order, and how equal hashes fall, are choices of each rebuild.
-/

namespace Yarilo.Director

open Library List

def defaultVhosts : ℕ := 100

structure Backend where
  ip : Bytes
  port : ℤ
  tag : Bytes
  up : Bool
  vhosts : ℤ
  lastUp : ℤ
  lastDown : ℤ
  hostname : Bytes
deriving DecidableEq

/-! ## The key of a user -/

inductive HashField where
  | literal
  | user
  | localPart
  | domain
deriving DecidableEq

structure HashSeg where
  field : HashField
  lit : Bytes
  lower : Bool

/-- What positions on the circle come from: the folded digest, lower-casing, and the compiled template
of a user's key. -/
structure Hashing where
  hash : Bytes → UInt32
  toLower : Bytes → Bytes
  segs : List HashSeg

namespace Hashing

variable (H : Hashing)

def fieldValue (username : Bytes) (s : HashSeg) : Bytes :=
  let v := match s.field with
    | .user => username
    | .localPart => username.takeWhile (· ≠ 64)
    | .domain => (username.dropWhile (· ≠ 64)).tail
    | .literal => []
  if s.lower then H.toLower v else v

def key (username : Bytes) : Bytes :=
  H.segs.flatMap fun s => if s.field = .literal then s.lit else H.fieldValue username s

/-- `HashUsername`, and the ring's own hash of a user. -/
def userHash (username : Bytes) : UInt32 := H.hash (H.key username)

end Hashing

/-! ## The ring -/

structure Vhost where
  hash : UInt32
  ip : Bytes
deriving DecidableEq

namespace Vhost

def pos (v : Vhost) : ℕ := v.hash.toNat

def less (a b : Vhost) : Bool := decide (a.pos < b.pos)

theorem comparison : Comparison less where
  asymm := by
    intro a b before
    simp only [less, decide_eq_true_eq, decide_eq_false_iff_not] at before ⊢
    omega
  through := by
    intro a b c first second
    simp only [less, decide_eq_false_iff_not] at first second ⊢
    omega

end Vhost

/-- The map of backends by address, and the sorted nodes. -/
structure Ring where
  backends : List Backend
  vhosts : List Vhost
  tagVhosts : Bytes → List Vhost
  keyed : (backends.map (·.ip)).Nodup

/-- The choices one rebuild leaves to the runtime. -/
structure Rebuild where
  order : List Backend → List Backend
  walks : ∀ l, (order l).Perm l
  full : Sorter
  tagged : Bytes → Sorter

namespace Backend

/-- The virtual nodes of a backend. -/
def nodes (H : Hashing) (b : Backend) : List Vhost :=
  (range (if b.vhosts ≤ 0 then defaultVhosts else b.vhosts.toNat)).map fun i =>
    ⟨H.hash (b.ip ++ 45 :: natText i), b.ip⟩

end Backend

def collect (H : Hashing) (bs : List Backend) : List Vhost :=
  bs.flatMap fun b => if b.up then b.nodes H else []

namespace Ring

def empty : Ring := ⟨[], [], fun _ => [], nodup_nil⟩

/-- Walks the backends of one address first, and sorts by insertion. -/
def walkFirst (ip : Bytes) : Rebuild where
  order l := l.filter (·.ip = ip) ++ l.filter (·.ip ≠ ip)
  walks l := by
    have split := filter_append_perm (fun b : Backend => decide (b.ip = ip)) l
    simpa only [decide_not] using split
  full := .insertion
  tagged _ := .insertion

def rebuild (H : Hashing) (c : Rebuild) (bs : List Backend) (keyed : (bs.map (·.ip)).Nodup) : Ring :=
  { backends := bs
    vhosts := c.full.sort Vhost.less (collect H (c.order bs))
    tagVhosts := fun t =>
      (c.tagged t).sort Vhost.less (collect H ((c.order bs).filter (·.tag = t)))
    keyed := keyed }

def getBackend (r : Ring) (ip : Bytes) : Option Backend := r.backends.find? (·.ip = ip)

variable {ip : Bytes} {b : Backend} {bs : List Backend}

theorem getBackend_ip {r : Ring} (known : r.getBackend ip = some b) : b.ip = ip := by
  simpa using find?_some known

/-- What a backend keeps of the one it replaces: times and name it does not bring itself. -/
def merge (prev : Option Backend) (b : Backend) : Backend :=
  match prev with
  | none => b
  | some p =>
    { b with
      lastDown := if b.lastDown = 0 then p.lastDown else b.lastDown
      lastUp := if b.lastUp = 0 then p.lastUp else b.lastUp
      hostname := if b.hostname = [] then p.hostname else b.hostname }

theorem merge_ip (prev : Option Backend) (b : Backend) : (merge prev b).ip = b.ip := by
  cases prev <;> rfl

theorem keyed_filter (keyed : (bs.map (·.ip)).Nodup) (p : Backend → Bool) :
    ((bs.filter p).map (·.ip)).Nodup :=
  (filter_sublist.map _).nodup keyed

theorem keyed_cons (keyed : (bs.map (·.ip)).Nodup) (same : b.ip = ip) :
    ((b :: bs.filter (·.ip ≠ ip)).map (·.ip)).Nodup := by
  rw [map_cons, nodup_cons]
  refine ⟨?_, keyed_filter keyed _⟩
  intro member
  obtain ⟨other, kept, equal⟩ := mem_map.mp member
  have apart := (mem_filter.mp kept).2
  simp only [decide_eq_true_eq] at apart
  exact apart (equal.trans same)

def addBackend (H : Hashing) (r : Ring) (c : Rebuild) (b : Backend) : Ring :=
  rebuild H c (merge (r.getBackend b.ip) b :: r.backends.filter (·.ip ≠ b.ip))
    (keyed_cons r.keyed (merge_ip _ b))

def removeBackend (H : Hashing) (r : Ring) (c : Rebuild) (ip : Bytes) : Ring :=
  rebuild H c (r.backends.filter (·.ip ≠ ip)) (keyed_filter r.keyed _)

/-- The backend with the state set, and the time of the change unless it is zero. -/
def marked (b : Backend) (up : Bool) (ts : ℤ) : Backend :=
  { b with
    up := up
    lastUp := if ts ≠ 0 ∧ up then ts else b.lastUp
    lastDown := if ts ≠ 0 ∧ ¬up then ts else b.lastDown }

theorem marked_ip (b : Backend) (up : Bool) (ts : ℤ) : (marked b up ts).ip = b.ip := rfl

/-- The ring, and whether the backend is known. -/
def setUp (H : Hashing) (r : Ring) (c : Rebuild) (ip : Bytes) (up : Bool) (ts : ℤ) : Ring × Bool :=
  match known : r.getBackend ip with
  | none => (r, false)
  | some b =>
    (rebuild H c (marked b up ts :: r.backends.filter (·.ip ≠ ip))
      (keyed_cons r.keyed ((marked_ip b up ts).trans (getBackend_ip known))), true)

def lookupLocked (H : Hashing) (r : Ring) (username : Bytes) (vhs : List Vhost) : Option Backend :=
  (Circle.locate Vhost.pos vhs (H.userHash username).toNat).bind fun v => r.getBackend v.ip

def lookupBackend (H : Hashing) (r : Ring) (username : Bytes) : Option Backend :=
  r.lookupLocked H username r.vhosts

def lookupBackendByTag (H : Hashing) (r : Ring) (username tag : Bytes) : Option Backend :=
  r.lookupLocked H username (r.tagVhosts tag)

end Ring

end Yarilo.Director

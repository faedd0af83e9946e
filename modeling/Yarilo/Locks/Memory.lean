import Mathlib.Data.Finset.Card
import Mathlib.Logic.Function.Basic
import Yarilo.Library.Bytes

/-! # The in-memory lock backend

Three maps carry the locks: by id, the exclusive id of a resource, and the set of shared ids of a
resource. Every call first drops what has expired, walking the first map in whatever order the
runtime gives, and then looks at the two others. What the run needs from outside is an argument of
each call: the clock's readings, the orders of the walks and the identifier drawn.
-/

namespace Yarilo.Locks

open Library Function

structure MemLock where
  id : Bytes
  resource : Bytes
  owner : Bytes
  site : Bytes
  expiresAt : ℤ
  shared : Bool
deriving DecidableEq

/-- Who stands in the way of a refused acquisition. -/
structure Holder where
  owner : Bytes
  site : Bytes
deriving DecidableEq

structure MemoryBackend where
  locks : Bytes → Option MemLock
  byRes : Bytes → Option Bytes
  sharedRes : Bytes → Option (Finset Bytes)

def newMemoryBackend : MemoryBackend where
  locks _ := none
  byRes _ := none
  sharedRes _ := none

inductive Op where
  | acquire (resource owner site : Bytes) (ttl : ℤ)
  | acquireShared (resource owner site : Bytes) (ttl : ℤ)
  | release (lockID : Bytes)
  | renew (lockID : Bytes) (ttl : ℤ)
  | sweep

/-- A call with what the runtime supplies to it. -/
structure Call where
  op : Op
  /-- the clock as the sweep reads it -/
  now : ℤ
  /-- the clock as the expiry is stamped -/
  stamp : ℤ
  /-- the order in which the sweep meets the ids -/
  order : List Bytes
  /-- the order in which a refused writer meets the shared ids -/
  sharedOrder : List Bytes
  /-- the identifier drawn, unless the source of randomness fails -/
  rand : Option Bytes

inductive Answer where
  | acquired (id : Bytes)
  | busy (holder : Holder)
  | emptyArgument
  | generateID
  | released
  | notFound
  | renewed
  | expired
  | swept
  /-- the runtime's panic on a lock that is missing from the first map -/
  | nilLock
deriving DecidableEq

namespace MemoryBackend

def releaseFromIndex (b : MemoryBackend) (l : MemLock) : MemoryBackend :=
  if l.shared then
    match b.sharedRes l.resource with
    | some set =>
      let rest := set.erase l.id
      { b with
        sharedRes := update b.sharedRes l.resource (if rest = ∅ then none else some rest) }
    | none => b
  else { b with byRes := update b.byRes l.resource none }

def dropLock (b : MemoryBackend) (id : Bytes) (l : MemLock) : MemoryBackend :=
  releaseFromIndex { b with locks := update b.locks id none } l

/-- One turn of the sweep's loop. -/
def expireOne (now : ℤ) (b : MemoryBackend) (id : Bytes) : MemoryBackend :=
  match b.locks id with
  | some l => if now < l.expiresAt then b else b.dropLock id l
  | none => b

def expire (b : MemoryBackend) (now : ℤ) (order : List Bytes) : MemoryBackend :=
  order.foldl (expireOne now) b

/-- `fmt.Sprintf("%s +%d", who, n)` -/
def others (who : Bytes) (n : ℕ) : Bytes :=
  who ++ [32, 43] ++ (Nat.toDigits 10 n).map fun c => UInt8.ofNat c.toNat

def busyWith (b : MemoryBackend) (id : Bytes) : Answer :=
  match b.locks id with
  | some l => .busy { owner := l.owner, site := l.site }
  | none => .nilLock

def busyShared (b : MemoryBackend) (set : Finset Bytes) (id : Bytes) : Answer :=
  match b.locks id with
  | some l =>
    let n := set.card - 1
    .busy { owner := if 0 < n then others l.owner n else l.owner, site := l.site }
  | none => .nilLock

/-- The new lock and its entry in the index of its kind. -/
def addLock (b : MemoryBackend) (l : MemLock) : MemoryBackend :=
  let locks := update b.locks l.id (some l)
  if l.shared then
    let set := (b.sharedRes l.resource).getD ∅
    { b with
      locks := locks
      sharedRes := update b.sharedRes l.resource (some (insert l.id set)) }
  else { b with locks := locks, byRes := update b.byRes l.resource (some l.id) }

/-- The end of both acquisitions, once nothing stands in the way. -/
def grant (b : MemoryBackend) (c : Call) (resource owner site : Bytes) (ttl : ℤ) (shared : Bool) :
    Answer × MemoryBackend :=
  match c.rand with
  | none => (.generateID, b)
  | some id =>
    let l : MemLock :=
      { id := id, resource := resource, owner := owner, site := site, expiresAt := c.stamp + ttl,
        shared := shared }
    (.acquired id, b.addLock l)

/-- The first shared id a writer meets, if the resource has any. -/
def sharedHolder (b : MemoryBackend) (sharedOrder : List Bytes) (resource : Bytes) :
    Option (Finset Bytes × Bytes) :=
  match b.sharedRes resource with
  | some set => (sharedOrder.find? (· ∈ set)).map fun id => (set, id)
  | none => none

def acquire (b : MemoryBackend) (c : Call) (resource owner site : Bytes) (ttl : ℤ) :
    Answer × MemoryBackend :=
  if resource = [] ∨ owner = [] then (.emptyArgument, b)
  else
    let b := b.expire c.now c.order
    match b.byRes resource with
    | some existing => (b.busyWith existing, b)
    | none =>
      match b.sharedHolder c.sharedOrder resource with
      | some (set, id) => (b.busyShared set id, b)
      | none => b.grant c resource owner site ttl false

def acquireShared (b : MemoryBackend) (c : Call) (resource owner site : Bytes) (ttl : ℤ) :
    Answer × MemoryBackend :=
  if resource = [] ∨ owner = [] then (.emptyArgument, b)
  else
    let b := b.expire c.now c.order
    match b.byRes resource with
    | some existing => (b.busyWith existing, b)
    | none => b.grant c resource owner site ttl true

def release (b : MemoryBackend) (c : Call) (lockID : Bytes) : Answer × MemoryBackend :=
  let b := b.expire c.now c.order
  match b.locks lockID with
  | none => (.notFound, b)
  | some l => (.released, b.dropLock lockID l)

/-- The lock's expiry moved, in place. -/
def restamp (b : MemoryBackend) (id : Bytes) (l : MemLock) (expiresAt : ℤ) : MemoryBackend :=
  { b with locks := update b.locks id (some { l with expiresAt := expiresAt }) }

def renew (b : MemoryBackend) (c : Call) (lockID : Bytes) (ttl : ℤ) : Answer × MemoryBackend :=
  let b := b.expire c.now c.order
  match b.locks lockID with
  | none => (.expired, b)
  | some l => (.renewed, b.restamp lockID l (c.stamp + ttl))

def step (b : MemoryBackend) (c : Call) : Answer × MemoryBackend :=
  match c.op with
  | .acquire resource owner site ttl => b.acquire c resource owner site ttl
  | .acquireShared resource owner site ttl => b.acquireShared c resource owner site ttl
  | .release lockID => b.release c lockID
  | .renew lockID ttl => b.renew c lockID ttl
  | .sweep => (.swept, b.expire c.now c.order)

/-- The state a sequence of calls ends in. -/
def run (b : MemoryBackend) (calls : List Call) : MemoryBackend := calls.foldl (fun b c => (b.step c).2) b

/-! ## The indexes follow the table -/

/-- The two indexes say of the first map what they are for, and a writer is alone. -/
structure Indexed (b : MemoryBackend) : Prop where
  named : ∀ {id l}, b.locks id = some l → l.id = id
  byRes_iff : ∀ r id, b.byRes r = some id ↔ ∃ l, b.locks id = some l ∧ l.resource = r ∧ l.shared = false
  sharedRes_iff : ∀ r id, id ∈ (b.sharedRes r).getD ∅ ↔
    ∃ l, b.locks id = some l ∧ l.resource = r ∧ l.shared = true
  alone : ∀ {id l id' l'}, b.locks id = some l → b.locks id' = some l' →
    l'.resource = l.resource → l.shared = false → id' = id

theorem indexed_newMemoryBackend : newMemoryBackend.Indexed where
  named := by simp [newMemoryBackend]
  byRes_iff := by simp [newMemoryBackend]
  sharedRes_iff := by simp [newMemoryBackend]
  alone := by simp [newMemoryBackend]

section

variable (b : MemoryBackend)

@[simp] theorem releaseFromIndex_locks (l : MemLock) :
    (b.releaseFromIndex l).locks = b.locks := by
  simp only [releaseFromIndex]
  split
  · split <;> rfl
  · rfl

@[simp] theorem dropLock_locks (id : Bytes) (l : MemLock) :
    (b.dropLock id l).locks = update b.locks id none :=
  releaseFromIndex_locks _ _

@[simp] theorem addLock_locks (l : MemLock) :
    (b.addLock l).locks = update b.locks l.id (some l) := by
  unfold addLock
  split <;> rfl

theorem dropLock_byRes (id : Bytes) (l : MemLock) : (b.dropLock id l).byRes =
      if l.shared then b.byRes else update b.byRes l.resource none := by
  unfold dropLock releaseFromIndex
  split
  · split <;> rfl
  · rfl

/-- An emptied set and a missing one are the same to every reader. -/
theorem getD_dropLock_sharedRes (id : Bytes) (l : MemLock) (r : Bytes) :
    ((b.dropLock id l).sharedRes r).getD ∅ =
      if l.shared ∧ r = l.resource then ((b.sharedRes r).getD ∅).erase l.id
      else (b.sharedRes r).getD ∅ := by
  by_cases shared : l.shared = true
  · by_cases here : r = l.resource
    · subst here
      cases found : b.sharedRes l.resource with
      | none => simp [dropLock, releaseFromIndex, shared, found]
      | some set =>
        by_cases emptied : set.erase l.id = ∅
        · simp [dropLock, releaseFromIndex, shared, found, emptied]
        · simp [dropLock, releaseFromIndex, shared, found, emptied]
    · cases found : b.sharedRes l.resource <;>
        simp [dropLock, releaseFromIndex, shared, found, here]
  · simp [dropLock, releaseFromIndex, shared]

theorem getD_addLock_sharedRes (l : MemLock) (r : Bytes) :
    ((b.addLock l).sharedRes r).getD ∅ =
      if l.shared ∧ r = l.resource then insert l.id ((b.sharedRes r).getD ∅)
      else (b.sharedRes r).getD ∅ := by
  by_cases shared : l.shared = true
  · by_cases here : r = l.resource
    · subst here
      simp [addLock, shared]
    · simp [addLock, shared, here]
  · simp [addLock, shared]

end

variable {locks : Bytes → Option MemLock} {id id' : Bytes} {l : MemLock} {b : MemoryBackend}

theorem update_none_eq_some : update locks id none id' = some l ↔ id' ≠ id ∧ locks id' = some l := by
  by_cases here : id' = id
  · simp [here]
  · simp [here]

theorem update_some_eq_some {l' : MemLock} : update locks id (some l) id' = some l' ↔
      id' = id ∧ l = l' ∨ id' ≠ id ∧ locks id' = some l' := by
  by_cases here : id' = id
  · simp [here]
  · simp [here]

/-- What an acquisition checks before it grants: no lock of the resource for a writer, no writer of
the resource for a reader. -/
def Admits (b : MemoryBackend) (l : MemLock) : Prop :=
  ∀ id' l', b.locks id' = some l' → l'.resource = l.resource → l.shared = true ∧ l'.shared = true

theorem kind_of_found (found : b.locks id = some l) :
    ∀ old, b.locks id = some old → old.resource = l.resource ∧ old.shared = l.shared := by
  intro old before
  rw [found, Option.some.injEq] at before
  subst before
  exact ⟨rfl, rfl⟩

/-- Another lock of the resource is shared, and then so is this one. -/
theorem readers_of_indexed (indexed : b.Indexed) (found : b.locks id = some l) :
    ∀ id' l', b.locks id' = some l' → id' ≠ id → l'.resource = l.resource →
      l.shared = true ∧ l'.shared = true := by
  intro id' l' found' other same
  constructor
  · by_contra exclusive
    exact other (indexed.alone found found' same (by simpa using exclusive))
  · by_contra exclusive
    exact other (indexed.alone found' found same.symm (by simpa using exclusive)).symm

section Set

variable {c : MemoryBackend} {entry : Option MemLock} (indexed : b.Indexed)
  (table : c.locks = update b.locks id entry)
  (written : ∀ new, entry = some new → new.id = id ∧ new.resource = l.resource ∧ new.shared = l.shared)
  (same : ∀ old, b.locks id = some old → old.resource = l.resource ∧ old.shared = l.shared)

include table written same

/-- The locks of a resource and a kind once an id's lock is written, restamped or dropped. -/
theorem exists_kind_iff (r id' : Bytes) (shared : Bool) :
    (∃ l', c.locks id' = some l' ∧ l'.resource = r ∧ l'.shared = shared) ↔
      if l.shared = shared ∧ r = l.resource ∧ id' = id then entry.isSome = true
      else ∃ l', b.locks id' = some l' ∧ l'.resource = r ∧ l'.shared = shared := by
  rw [table]
  by_cases own : id' = id
  · subst own
    rw [update_self]
    split
    · rename_i here
      rw [Option.isSome_iff_exists]
      refine exists_congr fun new => ⟨fun found => found.1, fun found => ?_⟩
      obtain ⟨-, resource, kind⟩ := written new found
      exact ⟨found, resource.trans here.2.1.symm, kind.trans here.1⟩
    · rename_i elsewhere
      refine iff_of_false ?_ ?_
      · rintro ⟨new, found, rfl, rfl⟩
        obtain ⟨-, resource, kind⟩ := written new found
        exact elsewhere ⟨kind.symm, resource, rfl⟩
      · rintro ⟨old, found, rfl, rfl⟩
        obtain ⟨resource, kind⟩ := same old found
        exact elsewhere ⟨kind.symm, resource, rfl⟩
  · rw [update_of_ne own, if_neg fun here => own here.2.2]

include indexed

/-- An id's lock is written, restamped or dropped, and both indexes are told. The lock is of the resource
and the kind of the one it replaces. -/
theorem Indexed.set (alone : ∀ id' l', b.locks id' = some l' → id' ≠ id → l'.resource = l.resource →
      l.shared = true ∧ l'.shared = true) (byRes : ∀ r, c.byRes r =
      if l.shared = false ∧ r = l.resource then entry.map fun _ => id else b.byRes r)
    (sharedRes : ∀ r id', id' ∈ (c.sharedRes r).getD ∅ ↔
      if l.shared = true ∧ r = l.resource ∧ id' = id then entry.isSome = true
      else id' ∈ (b.sharedRes r).getD ∅) : c.Indexed := by
  have kinds := exists_kind_iff table written same
  refine ⟨?_, ?_, ?_, ?_⟩
  · intro id' l' found
    rw [table] at found
    by_cases own : id' = id
    · subst own
      rw [update_self] at found
      exact (written l' found).1
    · rw [update_of_ne own] at found
      exact indexed.named found
  · intro r id'
    rw [kinds, byRes]
    by_cases here : l.shared = false ∧ r = l.resource
    · obtain ⟨exclusive, rfl⟩ := here
      by_cases own : id' = id
      · subst own
        cases entry <;> simp [exclusive]
      · -- the resource has no other lock
        have gone : ¬∃ l', b.locks id' = some l' ∧ l'.resource = l.resource ∧ l'.shared = false := by
          rintro ⟨l', found, resource, -⟩
          rw [(alone id' l' found own resource).1] at exclusive
          cases exclusive
        rw [if_pos ⟨exclusive, rfl⟩, if_neg fun both => own both.2.2]
        refine iff_of_false ?_ gone
        cases entry <;> simp [Ne.symm own]
    · rw [if_neg here, if_neg fun both => here ⟨both.1, both.2.1⟩, indexed.byRes_iff]
  · intro r id'
    rw [kinds, sharedRes, indexed.sharedRes_iff]
  · intro id₁ l₁ id₂ l₂ found₁ found₂ resource exclusive
    rw [table] at found₁ found₂
    by_contra other
    by_cases own₁ : id₁ = id
    · subst own₁
      rw [update_self] at found₁
      rw [update_of_ne other] at found₂
      obtain ⟨-, resource₁, kind⟩ := written l₁ found₁
      rw [kind, (alone id₂ l₂ found₂ other (resource.trans resource₁)).1] at exclusive
      cases exclusive
    rw [update_of_ne own₁] at found₁
    by_cases own₂ : id₂ = id
    · subst own₂
      rw [update_self] at found₂
      obtain ⟨-, resource₂, -⟩ := written l₂ found₂
      rw [(alone id₁ l₁ found₁ own₁ (resource.symm.trans resource₂)).2] at exclusive
      cases exclusive
    · rw [update_of_ne own₂] at found₂
      exact other (indexed.alone found₁ found₂ resource exclusive)

end Set

theorem Indexed.dropLock (indexed : b.Indexed) (present : b.locks id = some l) :
    (b.dropLock id l).Indexed := by
  refine indexed.set (dropLock_locks b id l) nofun (kind_of_found present)
    (readers_of_indexed indexed present) (fun r => ?_) fun r id' => ?_
  · rw [dropLock_byRes]
    cases l.shared <;> simp [update_apply]
  · rw [getD_dropLock_sharedRes, indexed.named present]
    by_cases here : l.shared = true ∧ r = l.resource
    · by_cases own : id' = id <;> simp [here, own]
    · rw [if_neg here, if_neg fun both => here ⟨both.1, both.2.1⟩]

theorem Indexed.addLock (indexed : b.Indexed) (fresh : b.locks l.id = none) (admits : b.Admits l) :
    (b.addLock l).Indexed := by
  refine indexed.set (addLock_locks b l) ?_ (by simp [fresh]) (fun id' l' found _ => admits id' l' found)
    (fun r => ?_) fun r id' => ?_
  · rintro _ ⟨⟩
    exact ⟨rfl, rfl, rfl⟩
  · unfold MemoryBackend.addLock
    cases l.shared <;> simp [update_apply]
  · rw [getD_addLock_sharedRes]
    by_cases here : l.shared = true ∧ r = l.resource
    · by_cases own : id' = l.id <;> simp [here, own]
    · rw [if_neg here, if_neg fun both => here ⟨both.1, both.2.1⟩]

theorem Indexed.restamp (indexed : b.Indexed) (present : b.locks id = some l) (expiresAt : ℤ) :
    (b.restamp id l expiresAt).Indexed := by
  have named : l.id = id := indexed.named present
  have table : (b.restamp id l expiresAt).locks =
      update b.locks id (some { l with expiresAt := expiresAt }) := rfl
  refine indexed.set (l := l) table ?_ (kind_of_found present) (readers_of_indexed indexed present)
    (fun r => ?_) fun r id' => ?_
  · rintro _ ⟨⟩
    exact ⟨named, rfl, rfl⟩
  · split
    · rename_i here
      exact (indexed.byRes_iff r id).mpr ⟨l, present, here.2.symm, here.1⟩
    · rfl
  · split
    · rename_i here
      rw [here.2.2]
      exact iff_of_true ((indexed.sharedRes_iff r id).mpr ⟨l, present, here.2.1.symm, here.1⟩) rfl
    · rfl

end MemoryBackend

end Yarilo.Locks

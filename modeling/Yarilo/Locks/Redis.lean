import Yarilo.Library.Keyspace
import Yarilo.Library.Text
import Yarilo.Locks.Client
import Yarilo.Locks.Memory

/-! # The lock backend over Redis

A lock is a value under its id, `resource|owner|kind|site`, which the scripts take apart again. An
exclusive lock is also the value of its resource's key, with a copy of the lock's value beside it,
and a shared one is a member of its resource's set, scored with its expiry. Each script runs at one
moment, in whole milliseconds.
-/

namespace Yarilo.Locks

open Library

abbrev Redis := Keyspace Bytes Bytes

inductive RedisAnswer where
  | answer (a : Answer)
  /-- the script was ended by a command that failed -/
  | scriptError
deriving DecidableEq

/-! ## Values and keys -/

def exclusiveKind : Bytes := [120]

def sharedKind : Bytes := [115]

def lockValue (resource owner kind site : Bytes) : Bytes :=
  resource ++ 124 :: (owner ++ 124 :: (kind ++ 124 :: site))

/-- A value taken apart; older values lack the later parts. -/
structure ParsedValue where
  resource : Bytes
  owner : Bytes
  kind : Bytes
  site : Bytes
deriving DecidableEq

def parseValue (v : Bytes) : Option ParsedValue :=
  match cut [124] v with
  | none => none
  | some (resource, rest) =>
    match cut [124] rest with
    | none => some ⟨resource, rest, exclusiveKind, []⟩
    | some (owner, tail) =>
      match cut [124] tail with
      | none => some ⟨resource, owner, tail, []⟩
      | some (kind, site) => some ⟨resource, owner, kind, site⟩

/-- `res:` -/
def resKey (pre resource : Bytes) : Bytes := pre ++ ([114, 101, 115, 58] ++ resource)

/-- `:val` -/
def valSuffix : Bytes := [58, 118, 97, 108]

/-- The key beside a resource's key. -/
def valKey (pre resource : Bytes) : Bytes := resKey pre resource ++ valSuffix

/-- `shared:` -/
def sharedKey (pre resource : Bytes) : Bytes := pre ++ ([115, 104, 97, 114, 101, 100, 58] ++ resource)

/-- `id:` -/
def lockKey (pre lockID : Bytes) : Bytes := pre ++ ([105, 100, 58] ++ lockID)

/-- The clock in milliseconds. -/
def milliseconds (n : ℤ) : ℤ := n / 1000000

/-- A duration in milliseconds. -/
def ttlMilliseconds (ttl : ℤ) : ℤ := ttl.tdiv 1000000

/-! ## The scripts -/

namespace Redis

/-- Who a value names, if it is there and can be taken apart. -/
def holderOf (v : Option Bytes) : Holder :=
  match v.bind parseValue with
  | none => ⟨[], siteUnknown⟩
  | some p => ⟨p.owner, if p.site = [] then siteUnknown else p.site⟩

variable (ks : Redis)

def acquireScript (pre : Bytes) (now px : ℤ) (resource owner site id : Bytes) :
    RedisAnswer × Redis :=
  match ks.get now (resKey pre resource) with
  | some _ => (.answer (.busy (holderOf (ks.get now (valKey pre resource)))), ks)
  | none =>
    let ks := ks.zremrangebyscore (sharedKey pre resource) now
    let n := ks.zcard (sharedKey pre resource)
    if 0 < n then
      let holder := holderOf ((ks.zfirst (sharedKey pre resource)).bind fun first =>
        ks.get now (lockKey pre first))
      (.answer (.busy { holder with
        owner := if 1 < n then MemoryBackend.others holder.owner (n - 1) else holder.owner }), ks)
    else if px ≤ 0 then (.scriptError, ks)
    else
      let v := lockValue resource owner exclusiveKind site
      (.answer (.acquired id), ((ks.set now (resKey pre resource) id px).set now
        (valKey pre resource) v px).set now (lockKey pre id) v px)

def acquireSharedScript (pre : Bytes) (now px : ℤ) (resource owner site id : Bytes) :
    RedisAnswer × Redis :=
  match ks.get now (resKey pre resource) with
  | some _ => (.answer (.busy (holderOf (ks.get now (valKey pre resource)))), ks)
  | none =>
    let ks := ks.zadd (sharedKey pre resource) (now + px) id
    if px ≤ 0 then (.scriptError, ks)
    else
      (.answer (.acquired id), ks.set now (lockKey pre id) (lockValue resource owner sharedKind site) px)

def releaseScript (pre : Bytes) (now : ℤ) (id : Bytes) : Bool × Redis :=
  match (ks.get now (lockKey pre id)).bind parseValue with
  | none => (false, ks)
  | some p =>
    let ks :=
      if p.kind = sharedKind then ks.zrem (sharedKey pre p.resource) id
      else if ks.get now (resKey pre p.resource) = some id then
        (ks.del (resKey pre p.resource)).del (valKey pre p.resource)
      else ks
    (true, ks.del (lockKey pre id))

def renewScript (pre : Bytes) (now px : ℤ) (id : Bytes) : Bool × Redis :=
  match (ks.get now (lockKey pre id)).bind parseValue with
  | none => (false, ks)
  | some p =>
    if p.kind = sharedKind then
      match ks.zscore (sharedKey pre p.resource) id with
      | none => (false, ks)
      | some _ =>
        (true, (ks.zadd (sharedKey pre p.resource) (now + px) id).pexpire now (lockKey pre id) px)
    else if ks.get now (resKey pre p.resource) = some id then
      (true, ((ks.pexpire now (resKey pre p.resource) px).pexpire now (valKey pre p.resource)
        px).pexpire now (lockKey pre id) px)
    else (false, ks)

/-! ## The backend -/

/-- The beginning of both acquisitions. -/
def acquireWith (c : Call) (resource owner : Bytes) (ks : Redis)
    (script : Bytes → RedisAnswer × Redis) : RedisAnswer × Redis :=
  if resource = [] ∨ owner = [] then (.answer .emptyArgument, ks)
  else
    match c.rand with
    | none => (.answer .generateID, ks)
    | some id => script id

/-- One call. There is nothing to sweep. -/
def step (pre : Bytes) (ks : Redis) (c : Call) : RedisAnswer × Redis :=
  let now := milliseconds c.now
  match c.op with
  | .acquire resource owner site ttl =>
    acquireWith c resource owner ks
      (ks.acquireScript pre now (ttlMilliseconds ttl) resource owner site)
  | .acquireShared resource owner site ttl =>
    acquireWith c resource owner ks
      (ks.acquireSharedScript pre now (ttlMilliseconds ttl) resource owner site)
  | .release lockID =>
    let done := ks.releaseScript pre now lockID
    (.answer (if done.1 then .released else .notFound), done.2)
  | .renew lockID ttl =>
    let done := ks.renewScript pre now (ttlMilliseconds ttl) lockID
    (.answer (if done.1 then .renewed else .expired), done.2)
  | .sweep => (.answer .swept, ks)

def run (pre : Bytes) (ks : Redis) (calls : List Call) : Redis :=
  calls.foldl (fun ks c => (step pre ks c).2) ks

end Redis

/-! ## Values come apart as they were put together, keys of different kinds differ -/

theorem parseValue_lockValue {resource owner kind : Bytes} (plain : 124 ∉ resource)
    (plainOwner : 124 ∉ owner) (plainKind : 124 ∉ kind) (site : Bytes) :
    parseValue (lockValue resource owner kind site) = some ⟨resource, owner, kind, site⟩ := by
  simp [parseValue, lockValue, cut_singleton plain, cut_singleton plainOwner, cut_singleton plainKind]

section Keys

variable {pre r r' id id' : Bytes}

@[simp] theorem resKey_inj : resKey pre r = resKey pre r' ↔ r = r' := by
  simp [resKey]

@[simp] theorem sharedKey_inj : sharedKey pre r = sharedKey pre r' ↔ r = r' := by
  simp [sharedKey]

@[simp] theorem lockKey_inj : lockKey pre id = lockKey pre id' ↔ id = id' := by
  simp [lockKey]

@[simp] theorem resKey_ne_lockKey : resKey pre r ≠ lockKey pre id := by
  simp [resKey, lockKey]

@[simp] theorem lockKey_ne_resKey : lockKey pre id ≠ resKey pre r := resKey_ne_lockKey.symm

/-- The key beside a resource's key is the key of another resource. -/
theorem valKey_eq : valKey pre r = resKey pre (r ++ valSuffix) := by
  simp [valKey, resKey]

@[simp] theorem valKey_ne_lockKey : valKey pre r ≠ lockKey pre id := by
  rw [valKey_eq]
  exact resKey_ne_lockKey

@[simp] theorem lockKey_ne_valKey : lockKey pre id ≠ valKey pre r := valKey_ne_lockKey.symm

@[simp] theorem resKey_ne_valKey : resKey pre r ≠ valKey pre r := by
  rw [valKey_eq, ne_eq, resKey_inj]
  simp [valSuffix]

theorem resKey_eq_valKey : resKey pre r' = valKey pre r ↔ r' = r ++ valSuffix := by
  rw [valKey_eq, resKey_inj]

end Keys

end Yarilo.Locks

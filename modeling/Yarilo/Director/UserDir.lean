import Mathlib.Algebra.Order.Group.Int
import Mathlib.Logic.Function.Basic
import Yarilo.Library.HostPort

/-! # The user directory

Which backend serves a user, by the hash of the user's key, until the entry expires. An entry is
stamped by a Lamport clock (64 bits in the source, unbounded here) and the director that made it; an
entry of another director replaces one with an older stamp.
-/

namespace Yarilo.Director

open Library

structure UserEntry where
  hash : UInt32
  host : Bytes
  weak : Bool
  expiresAt : ℤ
  assignSeq : ℕ
  assignBy : Bytes
deriving DecidableEq

namespace UserEntry

/-- The higher number is newer, and of two equal ones that of the lower director. -/
def newer (e o : UserEntry) : Bool :=
  if e.assignSeq ≠ o.assignSeq then decide (o.assignSeq < e.assignSeq)
  else decide (e.assignBy < o.assignBy)

end UserEntry

structure UserDir where
  byHash : UInt32 → Option UserEntry
  expire : ℤ
  self : Bytes
  clock : ℕ
  lasts : 0 < expire

namespace UserDir

variable (d : UserDir)

def setByHash (now : ℤ) (hash : UInt32) (host : Bytes) (weak : Bool) : UserDir :=
  { d with
    byHash := Function.update d.byHash hash
      (some ⟨hash, host, weak, now + d.expire, d.clock + 1, d.self⟩)
    clock := d.clock + 1 }

/-- The stamp of an entry, for the caller that passes it on. -/
def lastAssign (hash : UInt32) : Option (ℕ × Bytes) :=
  (d.byHash hash).map fun e => (e.assignSeq, e.assignBy)

def observe (seq : ℕ) : UserDir := { d with clock := max d.clock seq }

/-- The entry of another director; the second part is the host the user was moved off, or empty. -/
def mergeByHash (now : ℤ) (hash : UInt32) (host : Bytes) (weak : Bool) (seq : ℕ)
    (by_ : Bytes) : UserDir × Bytes :=
  let seen := d.observe seq
  let incoming : UserEntry := ⟨hash, host, weak, now + d.expire, seq, by_⟩
  match d.byHash hash with
  | none => ({ seen with byHash := Function.update d.byHash hash (some incoming) }, [])
  | some cur =>
    if incoming.newer cur then
      ({ seen with byHash := Function.update d.byHash hash (some incoming) },
        if cur.host ≠ host then cur.host else [])
    else (seen, [])

/-- The entry, unless it has expired. -/
def getByHash (now : ℤ) (hash : UInt32) : Option UserEntry :=
  (d.byHash hash).filter fun e => decide (now ≤ e.expiresAt)

def deleteByHash (hash : UInt32) : UserDir :=
  { d with byHash := Function.update d.byHash hash none }

/-- Drops the entry if it still points at the backend. -/
def deleteIfBackend (hash : UInt32) (backendIP : Bytes) : UserDir :=
  match d.byHash hash with
  | none => d
  | some e => if hostOf e.host = backendIP then d.deleteByHash hash else d

def deleteByBackend (backendIP : Bytes) : UserDir :=
  { d with byHash := fun hash => (d.byHash hash).filter fun e => decide (hostOf e.host ≠ backendIP) }

theorem setByHash_same (now : ℤ) (hash : UInt32) (host : Bytes) (weak : Bool) :
    (d.setByHash now hash host weak).byHash hash =
      some ⟨hash, host, weak, now + d.expire, d.clock + 1, d.self⟩ := by
  simp [setByHash]

end UserDir

end Yarilo.Director

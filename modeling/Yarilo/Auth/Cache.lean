import Mathlib.Data.Int.Order.Basic
import Yarilo.Auth.Chain

/-! # The cache of verified logins

A list of entries, most recently used first, bounded by an estimate of their bytes. An entry answers
for its key while it has not expired and only to the password it was made with, which it knows by a
keyed digest. The digest and the clock are arguments.
-/

namespace Yarilo.Auth

open Library

structure CacheEntry where
  result : Result
  fields : Fields
  pwdMAC : Bytes
  username : Bytes
  expires : ℤ
deriving DecidableEq

structure Cache where
  maxSize : ℤ
  ttl : ℤ
  negTTL : ℤ
  entries : List (Bytes × CacheEntry)
deriving DecidableEq

/-- A cache of no bytes is no cache. -/
def newCache (sizeBytes ttl negTTL : ℤ) : Option Cache :=
  if sizeBytes ≤ 0 then none
  else some { maxSize := sizeBytes, ttl := ttl, negTTL := negTTL, entries := [] }

def estimateEntrySize (key : Bytes) (e : CacheEntry) : ℤ :=
  96 + key.length + e.username.length + e.pwdMAC.length +
    (e.fields.map fun p => (p.1.length + p.2.length + 16 : ℤ)).sum

namespace Cache

variable (c : Cache)

def removeElement (key : Bytes) : Cache :=
  { c with entries := c.entries.filter (·.1 ≠ key) }

/-- The entry that answers, and the cache with that entry in front. -/
def lookup (c : Cache) (mac : Bytes → Bytes) (now : ℤ) (key password : Bytes) :
    Option CacheEntry × Cache :=
  match c.entries.lookup key with
  | none => (none, c)
  | some e =>
    if e.expires < now then (none, c.removeElement key)
    else if e.pwdMAC = [] ∨ e.pwdMAC ≠ mac password then (none, c)
    else (some e, { c with entries := (key, e) :: (c.removeElement key).entries })

def listSize (l : List (Bytes × CacheEntry)) : ℤ := (l.map fun p => estimateEntrySize p.1 p.2).sum

/-- Entries dropped from the back until there is room for `size` more bytes, at most `fuel` times. -/
def evict (maxSize size : ℤ) : (fuel : ℕ) → List (Bytes × CacheEntry) → List (Bytes × CacheEntry)
  | 0, l => l
  | fuel + 1, l =>
    if maxSize < listSize l + size then evict maxSize size fuel l.dropLast else l

/-- Whether an entry of that result may take the place of what the cache has for the key: no result
without a lifetime, and no failure over a success. -/
def accepts (key : Bytes) (result : Result) : Bool :=
  match result with
  | .ok => 0 < c.ttl
  | .fail => 0 < c.negTTL ∧ (c.entries.lookup key).map (·.result) ≠ some .ok
  | .next => true
  | .tempFail => true

def newEntry (mac : Bytes → Bytes) (now : ℤ) (username password : Bytes)
    (result : Result) (fields : Fields) : CacheEntry where
  result := result
  fields := fields
  pwdMAC := mac password
  username := username
  expires := now + if result = .ok then c.ttl else c.negTTL

def insert (mac : Bytes → Bytes) (now : ℤ) (key username password : Bytes)
    (result : Result) (fields : Fields) : Cache :=
  if c.accepts key result then
    let e := c.newEntry mac now username password result fields
    let rest := (c.removeElement key).entries
    let size := estimateEntrySize key e
    let kept := evict c.maxSize size rest.length rest
    { c with entries := if c.maxSize < size then kept else (key, e) :: kept }
  else c

end Cache

/-- The key of a service and a user name. -/
def makeCacheKey (service username : Bytes) : Bytes := service ++ [9] ++ username

end Yarilo.Auth

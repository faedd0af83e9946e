import Mathlib.Algebra.Order.Group.Int
import Mathlib.Data.List.Basic
import Mathlib.Logic.Function.Basic
import Mathlib.Order.Basic

/-! # Keys that expire

A keyspace has keys with a value and the last moment at which it is read, and keys with a set of
members that carry a score. A value set for a while, moved to a later moment or deleted concerns its
own key only, and a set is pruned by score.
-/

namespace Yarilo.Library

open Function

structure Keyspace (Key Value : Type) where
  strings : Key → Option (Value × ℤ)
  sets : Key → List (Value × ℤ)

namespace Keyspace

variable {Key Value : Type}

def empty : Keyspace Key Value := ⟨fun _ => none, fun _ => []⟩

def get (ks : Keyspace Key Value) (now : ℤ) (k : Key) : Option Value :=
  (ks.strings k).bind fun e => if now ≤ e.2 then some e.1 else none

def zcard (ks : Keyspace Key Value) (k : Key) : ℕ := (ks.sets k).length

/-- The member with the least score, and of those the least. -/
def zfirst [LT Value] [DecidableLT Value] (ks : Keyspace Key Value) (k : Key) : Option Value :=
  ((ks.sets k).foldl (fun best m =>
    match best with
    | none => some m
    | some b => if m.2 < b.2 ∨ m.2 = b.2 ∧ m.1 < b.1 then some m else some b) none).map (·.1)

def zscore [DecidableEq Value] (ks : Keyspace Key Value) (k : Key) (m : Value) : Option ℤ :=
  ((ks.sets k).find? (·.1 = m)).map (·.2)

theorem get_eq_some {ks : Keyspace Key Value} {now : ℤ} {k : Key} {v : Value} :
    ks.get now k = some v ↔ ∃ e, ks.strings k = some (v, e) ∧ now ≤ e := by
  unfold get
  rcases ks.strings k with _ | ⟨w, e⟩
  · simp
  · by_cases alive : now ≤ e
    · simp [alive]
    · simp [alive]

/-- What is read depends on the key's own value. -/
theorem get_congr {ks ks' : Keyspace Key Value} {now : ℤ} {k : Key}
    (same : ks'.strings k = ks.strings k) : ks'.get now k = ks.get now k := by
  rw [get, get, same]

theorem zscore_isSome [DecidableEq Value] {ks : Keyspace Key Value} {k : Key} {m : Value} {e : ℤ}
    (member : (m, e) ∈ ks.sets k) : ∃ score, ks.zscore k m = some score := by
  rw [← Option.isSome_iff_exists, zscore, Option.isSome_map, List.find?_isSome]
  exact ⟨(m, e), member, by simp⟩

variable [DecidableEq Key]

def set (ks : Keyspace Key Value) (now : ℤ) (k : Key) (v : Value) (px : ℤ) : Keyspace Key Value :=
  { ks with strings := update ks.strings k (some (v, now + px)) }

def del (ks : Keyspace Key Value) (k : Key) : Keyspace Key Value :=
  { ks with strings := update ks.strings k none }

/-- Moves the last moment of a key that is there; a moment in the past deletes it. -/
def pexpire (ks : Keyspace Key Value) (now : ℤ) (k : Key) (px : ℤ) : Keyspace Key Value :=
  match ks.get now k with
  | none => ks
  | some v => if px ≤ 0 then ks.del k else ks.set now k v px

/-- The set without the members that do not pass. -/
def keep (ks : Keyspace Key Value) (k : Key) (p : Value × ℤ → Bool) : Keyspace Key Value :=
  { ks with sets := update ks.sets k ((ks.sets k).filter p) }

def zremrangebyscore (ks : Keyspace Key Value) (k : Key) (upTo : ℤ) : Keyspace Key Value :=
  ks.keep k (upTo < ·.2)

section Members

variable [DecidableEq Value]

def zrem (ks : Keyspace Key Value) (k : Key) (m : Value) : Keyspace Key Value := ks.keep k (·.1 ≠ m)

def zadd (ks : Keyspace Key Value) (k : Key) (score : ℤ) (m : Value) : Keyspace Key Value :=
  { ks with sets := update ks.sets k ((ks.zrem k m).sets k ++ [(m, score)]) }

end Members

variable {ks : Keyspace Key Value} {now px : ℤ} {k k' : Key} {v : Value}

@[simp] theorem set_strings :
    (ks.set now k v px).strings = update ks.strings k (some (v, now + px)) := rfl

@[simp] theorem set_sets : (ks.set now k v px).sets = ks.sets := rfl

@[simp] theorem del_strings : (ks.del k).strings = update ks.strings k none := rfl

@[simp] theorem del_sets : (ks.del k).sets = ks.sets := rfl

theorem pexpire_strings_self (later : 0 < px) (found : ks.get now k = some v) :
    (ks.pexpire now k px).strings k = some (v, now + px) := by
  simp [pexpire, found, not_le.mpr later]

/-- Whatever it does to its key, it leaves the others. -/
theorem pexpire_strings_of_ne (other : k' ≠ k) : (ks.pexpire now k px).strings k' = ks.strings k' := by
  unfold pexpire
  repeat' split
  all_goals simp [other]

@[simp] theorem pexpire_sets : (ks.pexpire now k px).sets = ks.sets := by
  unfold pexpire
  repeat' split
  all_goals rfl

theorem keep_sets (p : Value × ℤ → Bool) :
    (ks.keep k p).sets k' = if k' = k then (ks.sets k).filter p else ks.sets k' := by
  by_cases same : k' = k
  · subst same
    simp [keep]
  · simp [keep, same]

theorem mem_zremrangebyscore {upTo : ℤ} {m : Value × ℤ} :
    m ∈ (ks.zremrangebyscore k upTo).sets k' ↔ m ∈ ks.sets k' ∧ (k' = k → upTo < m.2) := by
  by_cases same : k' = k
  · subst same
    simp [zremrangebyscore, keep_sets]
  · simp [zremrangebyscore, keep_sets, same]

section Members

variable [DecidableEq Value] {score : ℤ} {m : Value} {n : Value × ℤ}

@[simp] theorem zrem_strings : (ks.zrem k m).strings = ks.strings := rfl

@[simp] theorem zadd_strings : (ks.zadd k score m).strings = ks.strings := rfl

theorem mem_zrem : n ∈ (ks.zrem k m).sets k' ↔ n ∈ ks.sets k' ∧ (k' = k → n.1 ≠ m) := by
  by_cases same : k' = k
  · subst same
    simp [zrem, keep_sets]
  · simp [zrem, keep_sets, same]

theorem mem_zadd :
    n ∈ (ks.zadd k score m).sets k' ↔
      k' = k ∧ n = (m, score) ∨ n ∈ ks.sets k' ∧ (k' = k → n.1 ≠ m) := by
  by_cases same : k' = k
  · subst same
    simp only [zadd, update_self, List.mem_append, List.mem_singleton, mem_zrem, true_and,
      forall_const]
    exact or_comm
  · simp [zadd, same]

end Members

end Keyspace

end Yarilo.Library

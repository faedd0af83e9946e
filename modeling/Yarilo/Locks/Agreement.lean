import Yarilo.Locks.Exclusion
import Yarilo.Locks.Redis

/-! # The two backends agree

Between calls the keys that have not expired are the table of the memory backend: a value for every
lock, the resource's key for an exclusive one, a member of the resource's set for a shared one. Each
call keeps this as long as values come apart as they were put together and no resource's key lies
beside another's.
-/

namespace Yarilo.Locks

open Library MemoryBackend Keyspace

/-! ## Answers by kind -/

inductive Kind where
  | acquired (id : Bytes)
  | busy | emptyArgument | generateID | released | notFound | renewed | expired | swept
  | panicked | scriptError
deriving DecidableEq

def Answer.kind : Answer → Kind
  | .acquired id => .acquired id
  | .busy _ => .busy
  | .emptyArgument => .emptyArgument
  | .generateID => .generateID
  | .released => .released
  | .notFound => .notFound
  | .renewed => .renewed
  | .expired => .expired
  | .swept => .swept
  | .nilLock => .panicked

def RedisAnswer.kind : RedisAnswer → Kind
  | .answer a => a.kind
  | .scriptError => .scriptError

/-! ## Milliseconds -/

def Whole (n : ℤ) : Prop := (1000000 : ℤ) ∣ n

private theorem milliseconds_mono {a b : ℤ} (le : a ≤ b) : milliseconds a ≤ milliseconds b := by
  simp only [milliseconds]
  omega

private theorem lt_of_milliseconds_lt {a b : ℤ} (lt : milliseconds a < milliseconds b) : a < b := by
  simp only [milliseconds] at lt
  omega

private theorem milliseconds_add {ttl : ℤ} (now : ℤ) (whole : Whole ttl) :
    milliseconds (now + ttl) = milliseconds now + ttlMilliseconds ttl := by
  obtain ⟨n, rfl⟩ := whole
  rw [milliseconds, milliseconds, ttlMilliseconds, Int.mul_tdiv_cancel_left _ (by decide)]
  omega

private theorem ttlMilliseconds_pos {ttl : ℤ} (whole : Whole ttl) (positive : 0 < ttl) :
    0 < ttlMilliseconds ttl := by
  obtain ⟨n, rfl⟩ := whole
  rw [ttlMilliseconds, Int.mul_tdiv_cancel_left _ (by decide)]
  omega

/-! ## The keys are the table -/

def MemLock.value (l : MemLock) : Bytes :=
  lockValue l.resource l.owner (if l.shared then sharedKind else exclusiveKind) l.site

/-- A lock of the table with this property expires then. -/
def MemoryBackend.Holds (b : MemoryBackend) (id : Bytes) (p : MemLock → Prop) (e : ℤ) : Prop :=
  ∃ l, b.locks id = some l ∧ p l ∧ e = milliseconds l.expiresAt

/-- A lock that both backends can keep: its value comes apart again, and the key beside an exclusive
one is nobody else's. -/
structure MemLock.Sound (names : Bytes → Prop) (t : ℤ) (l : MemLock) : Prop where
  later : milliseconds t < milliseconds l.expiresAt
  plain : 124 ∉ l.resource
  plainOwner : 124 ∉ l.owner
  named : names l.resource
  apart : l.shared = false → ¬names (l.resource ++ valSuffix)

private theorem MemLock.Sound.written {names : Bytes → Prop} {t : ℤ} {l : MemLock} (sound : l.Sound names t) :
    ∀ new, some l = some new → new = l ∧ l.Sound names t := by
  rintro _ ⟨⟩
  exact ⟨rfl, sound⟩

structure Agrees (pre : Bytes) (names : Bytes → Prop) (t : ℤ) (b : MemoryBackend) (ks : Redis) : Prop where
  sound : ∀ {id l}, b.locks id = some l → l.Sound names t
  ids : ∀ id v e, ks.strings (lockKey pre id) = some (v, e) ∧ milliseconds t ≤ e ↔
    b.Holds id (v = ·.value) e
  res : ∀ r, names r → ∀ id e, ks.strings (resKey pre r) = some (id, e) ∧ milliseconds t ≤ e ↔
    b.Holds id (fun l => l.resource = r ∧ l.shared = false) e
  members : ∀ r id e, (id, e) ∈ ks.sets (sharedKey pre r) ∧ milliseconds t ≤ e ↔
    b.Holds id (fun l => l.resource = r ∧ l.shared = true) e

section Table

variable {b c : MemoryBackend} {id id' : Bytes} {p : MemLock → Prop} {e : ℤ}

private theorem holds_update {entry : Option MemLock} (table : c.locks = Function.update b.locks id entry) :
    c.Holds id' p e ↔ (id' = id ∧ ∃ l, entry = some l ∧ p l ∧ e = milliseconds l.expiresAt) ∨
        id' ≠ id ∧ b.Holds id' p e := by
  simp only [Holds, table]
  by_cases own : id' = id
  · subst own
    simp
  · simp [own]

end Table

namespace Agrees

variable {pre r : Bytes} {names : Bytes → Prop} {t now : ℤ} {b : MemoryBackend} {ks ks' : Redis}

private theorem start : Agrees pre names t newMemoryBackend .empty where
  sound := by simp [newMemoryBackend]
  ids := by simp [newMemoryBackend, Holds, Keyspace.empty]
  res := by simp [newMemoryBackend, Holds, Keyspace.empty]
  members := by simp [newMemoryBackend, Holds, Keyspace.empty]

section

variable (agrees : Agrees pre names t b ks)

include agrees

/-- Both backends have lost the same locks in a millisecond in which none expires. -/
private theorem expire (clock : t ≤ now)
    (off : ∀ id l, b.locks id = some l → milliseconds l.expiresAt ≠ milliseconds now) {order : List Bytes}
    (covers : b.Covers order) : Agrees pre names now (b.expire now order) ks := by
  have narrow : ∀ (key : Prop) (id : Bytes) (p : MemLock → Prop) (e : ℤ),
      (key ∧ milliseconds t ≤ e ↔ b.Holds id p e) →
      (key ∧ milliseconds now ≤ e ↔ (b.expire now order).Holds id p e) := by
    intro key id p e same
    constructor
    · rintro ⟨there, alive⟩
      have before := (milliseconds_mono clock).trans alive
      obtain ⟨l, found, prop, rfl⟩ := same.mp ⟨there, before⟩
      have lt := lt_of_milliseconds_lt (lt_of_le_of_ne alive (off id l found).symm)
      exact ⟨l, (expire_eq_some covers).mpr ⟨found, lt⟩, prop, rfl⟩
    · rintro ⟨l, found, prop, rfl⟩
      have live := (expire_eq_some covers).mp found
      refine ⟨(same.mpr ⟨l, live.1, prop, rfl⟩).1, ?_⟩
      exact milliseconds_mono live.2.le
  refine ⟨?_, ?_, ?_, ?_⟩
  · intro id l found
    have live := (expire_eq_some covers).mp found
    have later := lt_of_le_of_ne (milliseconds_mono live.2.le) (off id l live.1).symm
    exact { agrees.sound live.1 with later := later }
  · exact fun id v e => narrow _ id _ e (agrees.ids id v e)
  · exact fun r named id e => narrow _ id _ e (agrees.res r named id e)
  · exact fun r id e => narrow _ id _ e (agrees.members r id e)

/-! ## What the scripts read -/

omit agrees in
private theorem get_iff_of_holds {key v id : Bytes} {p : MemLock → Prop}
    (same : ∀ e, ks.strings key = some (v, e) ∧ milliseconds t ≤ e ↔ b.Holds id p e) :
    ks.get (milliseconds t) key = some v ↔ ∃ l, b.locks id = some l ∧ p l := by
  simp only [get_eq_some, same]
  constructor
  · rintro ⟨e, l, found, prop, -⟩
    exact ⟨l, found, prop⟩
  · rintro ⟨l, found, prop⟩
    exact ⟨_, l, found, prop, rfl⟩

private theorem get_lockKey {id v : Bytes} :
    ks.get (milliseconds t) (lockKey pre id) = some v ↔ ∃ l, b.locks id = some l ∧ v = l.value :=
  get_iff_of_holds (agrees.ids id v)

private theorem get_resKey (named : names r) {id : Bytes} : ks.get (milliseconds t) (resKey pre r) = some id ↔
      ∃ l, b.locks id = some l ∧ l.resource = r ∧ l.shared = false :=
  get_iff_of_holds (agrees.res r named id)

/-- After the expired members are gone, those left are the readers. -/
private theorem zcard_pos :
    0 < (ks.zremrangebyscore (sharedKey pre r) (milliseconds t)).zcard (sharedKey pre r) ↔
      ∃ id l, b.locks id = some l ∧ l.resource = r ∧ l.shared = true := by
  rw [zcard, List.length_pos_iff_exists_mem]
  simp only [mem_zremrangebyscore, true_implies]
  constructor
  · rintro ⟨⟨id, e⟩, member, alive⟩
    obtain ⟨l, found, same, -⟩ := (agrees.members r id e).mp ⟨member, alive.le⟩
    exact ⟨id, l, found, same⟩
  · rintro ⟨id, l, found, same⟩
    refine ⟨(id, milliseconds l.expiresAt), ?_, (agrees.sound found).later⟩
    exact ((agrees.members r id _).mpr ⟨l, found, same, rfl⟩).1

/-- A lock's value tells its resource and kind. -/
private theorem parse_lockKey {id : Bytes} {l : MemLock} (found : b.locks id = some l) :
    (ks.get (milliseconds t) (lockKey pre id)).bind parseValue =
      some ⟨l.resource, l.owner, if l.shared then sharedKind else exclusiveKind, l.site⟩ := by
  have sound := agrees.sound found
  have kind : 124 ∉ (if l.shared then sharedKind else exclusiveKind) := by
    cases l.shared <;> decide
  rw [agrees.get_lockKey.mpr ⟨l, found, rfl⟩]
  exact parseValue_lockValue sound.plain sound.plainOwner kind l.site

private theorem get_lockKey_eq_none {id : Bytes} (absent : b.locks id = none) :
    ks.get (milliseconds t) (lockKey pre id) = none := by
  rw [Option.eq_none_iff_forall_ne_some]
  intro v alive
  obtain ⟨l, found, -⟩ := agrees.get_lockKey.mp alive
  rw [absent] at found
  cases found

/-! ## What the scripts write -/

private theorem prune (r : Bytes) :
    Agrees pre names t b (ks.zremrangebyscore (sharedKey pre r) (milliseconds t)) where
  sound := agrees.sound
  ids := agrees.ids
  res := agrees.res
  members r' id e := by
    rw [← agrees.members, mem_zremrangebyscore]
    constructor
    · rintro ⟨⟨member, -⟩, alive⟩
      exact ⟨member, alive⟩
    · rintro ⟨member, alive⟩
      obtain ⟨l, found, -, rfl⟩ := (agrees.members r' id e).mp ⟨member, alive⟩
      exact ⟨⟨member, fun _ => (agrees.sound found).later⟩, alive⟩

section Set

variable {c : MemoryBackend} {id : Bytes} {l : MemLock} {entry : Option MemLock}
  (table : c.locks = Function.update b.locks id entry)
  (sound : ∀ new, entry = some new → new = l ∧ l.Sound names t)
  (same : ∀ old, b.locks id = some old → old.resource = l.resource ∧ old.shared = l.shared)
  (others : ∀ key, key ≠ lockKey pre id →
    (l.shared = false → key ≠ resKey pre l.resource ∧ key ≠ valKey pre l.resource) →
    ks'.strings key = ks.strings key)

include sound

omit agrees in
private theorem moment_of_sound : ∀ new, entry = some new → milliseconds t ≤ milliseconds new.expiresAt := by
  intro new written
  obtain ⟨rfl, sound⟩ := sound new written
  exact sound.later.le

include table

private theorem set_sound {id' : Bytes} {l' : MemLock} (found : c.locks id' = some l') :
    l'.Sound names t := by
  rw [table] at found
  by_cases own : id' = id
  · subst own
    rw [Function.update_self] at found
    obtain ⟨rfl, sound⟩ := sound l' found
    exact sound
  · rw [Function.update_of_ne own] at found
    exact agrees.sound found

include others in
private theorem set_ids
    (value : ks'.strings (lockKey pre id) = entry.map fun l => (l.value, milliseconds l.expiresAt))
    (id' v : Bytes) (e : ℤ) : ks'.strings (lockKey pre id') = some (v, e) ∧ milliseconds t ≤ e ↔
      c.Holds id' (v = ·.value) e := by
  rw [holds_update table]
  by_cases own : id' = id
  · subst own
    simp only [value, Option.map_eq_some_iff, ne_eq, not_true_eq_false, false_and, or_false, true_and]
    constructor
    · rintro ⟨⟨new, written, pair⟩, -⟩
      cases pair
      exact ⟨new, written, rfl, rfl⟩
    · rintro ⟨new, written, rfl, rfl⟩
      exact ⟨⟨new, written, rfl⟩, moment_of_sound sound new written⟩
  · rw [others _ (by simpa using own) (by simp), agrees.ids]
    simp [own]

include same others in
private theorem set_res (alone : ∀ id' l', b.locks id' = some l' → id' ≠ id → l'.resource = l.resource →
      l.shared = true ∧ l'.shared = true) (apart : l.shared = false → ¬names (l.resource ++ valSuffix))
    (index : l.shared = false →
      ks'.strings (resKey pre l.resource) = entry.map fun l => (id, milliseconds l.expiresAt))
    (named : names r) (id' : Bytes) (e : ℤ) :
    ks'.strings (resKey pre r) = some (id', e) ∧ milliseconds t ≤ e ↔
      c.Holds id' (fun l => l.resource = r ∧ l.shared = false) e := by
  rw [holds_update table]
  by_cases own : l.shared = false ∧ r = l.resource
  · obtain ⟨exclusive, rfl⟩ := own
    rw [index exclusive, Option.map_eq_some_iff]
    constructor
    · rintro ⟨⟨new, written, pair⟩, -⟩
      cases pair
      obtain ⟨rfl, -⟩ := sound new written
      exact .inl ⟨rfl, new, written, ⟨rfl, exclusive⟩, rfl⟩
    · rintro (⟨rfl, new, written, -, rfl⟩ | ⟨other, l', found, ⟨same', -⟩, -⟩)
      · exact ⟨⟨new, written, rfl⟩, moment_of_sound sound new written⟩
      · rw [(alone id' l' found other same').1] at exclusive
        cases exclusive
  · have other (exclusive : l.shared = false) :
        resKey pre r ≠ resKey pre l.resource ∧ resKey pre r ≠ valKey pre l.resource := by
      have beside : r ≠ l.resource ++ valSuffix := fun same => apart exclusive (same ▸ named)
      simpa [resKey_eq_valKey, beside] using fun here => own ⟨exclusive, here⟩
    rw [others _ (by simp) other, agrees.res r named]
    constructor
    · rintro ⟨l', found, ⟨here, exclusive⟩, rfl⟩
      refine .inr ⟨?_, l', found, ⟨here, exclusive⟩, rfl⟩
      rintro rfl
      obtain ⟨resource, shared⟩ := same l' found
      exact own ⟨shared ▸ exclusive, here ▸ resource⟩
    · rintro (⟨-, new, written, ⟨here, exclusive⟩, -⟩ | ⟨-, holds⟩)
      · obtain ⟨rfl, -⟩ := sound new written
        exact absurd ⟨exclusive, here.symm⟩ own
      · exact holds

variable (members : ∀ r id' e, (id', e) ∈ ks'.sets (sharedKey pre r) ↔
  (l.shared = true ∧ r = l.resource ∧ id' = id ∧ entry = some l ∧ e = milliseconds l.expiresAt) ∨
    (id', e) ∈ ks.sets (sharedKey pre r) ∧ (l.shared = true → r = l.resource → id' ≠ id))

include same members

private theorem set_members (r id' : Bytes) (e : ℤ) :
    (id', e) ∈ ks'.sets (sharedKey pre r) ∧ milliseconds t ≤ e ↔
      c.Holds id' (fun l => l.resource = r ∧ l.shared = true) e := by
  rw [holds_update table, members]
  constructor
  · rintro ⟨⟨shared, rfl, rfl, written, rfl⟩ | ⟨member, apart⟩, alive⟩
    · exact .inl ⟨rfl, l, written, ⟨rfl, shared⟩, rfl⟩
    · obtain ⟨l', found, ⟨here, shared⟩, rfl⟩ := (agrees.members r id' e).mp ⟨member, alive⟩
      refine .inr ⟨?_, l', found, ⟨here, shared⟩, rfl⟩
      rintro rfl
      obtain ⟨resource, kind⟩ := same l' found
      exact apart (kind ▸ shared) (here ▸ resource) rfl
  · rintro (⟨rfl, new, written, ⟨rfl, shared⟩, rfl⟩ | ⟨other, holds⟩)
    · obtain ⟨rfl, -⟩ := sound new written
      exact ⟨.inl ⟨shared, rfl, rfl, written, rfl⟩, moment_of_sound sound new written⟩
    · obtain ⟨member, alive⟩ := (agrees.members r id' e).mpr holds
      exact ⟨.inr ⟨member, fun _ _ => other⟩, alive⟩

include others

/-- An id's lock is written, restamped or dropped, with its keys: `Agrees` for the table it leaves, from
what the keys have become. The lock is of the resource and the kind of the one it replaces. -/
private theorem set (alone : ∀ id' l', b.locks id' = some l' → id' ≠ id → l'.resource = l.resource →
      l.shared = true ∧ l'.shared = true) (apart : l.shared = false → ¬names (l.resource ++ valSuffix))
    (value : ks'.strings (lockKey pre id) = entry.map fun l => (l.value, milliseconds l.expiresAt))
    (index : l.shared = false →
      ks'.strings (resKey pre l.resource) = entry.map fun l => (id, milliseconds l.expiresAt)) :
    Agrees pre names t c ks' where
  sound := agrees.set_sound table sound
  ids := agrees.set_ids table sound others value
  res _ := agrees.set_res table sound same others alone apart index
  members := agrees.set_members table sound same members

end Set

end

/-! ## The scripts -/

section Scripts

variable {resource owner site : Bytes} {ttl px : ℤ} {l : MemLock}

section

variable (agrees : Agrees pre names t b ks)

include agrees

private theorem acquireScript_busy (named : names resource) {id : Bytes} (found : b.locks id = some l)
    (same : l.resource = resource) (px : ℤ) (owner site new : Bytes) :
    ∃ holder ks', ks.acquireScript pre (milliseconds t) px resource owner site new =
      (.answer (.busy holder), ks') ∧ Agrees pre names t b ks' := by
  unfold Redis.acquireScript
  cases reads : ks.get (milliseconds t) (resKey pre resource) with
  | some existing => exact ⟨_, ks, rfl, agrees⟩
  | none =>
    have shared : l.shared = true := by
      by_contra exclusive
      have alive := (agrees.get_resKey named).mpr ⟨l, found, same, by simpa using exclusive⟩
      rw [reads] at alive
      cases alive
    simp only [agrees.zcard_pos.mpr ⟨id, l, found, same, shared⟩, if_true]
    exact ⟨_, _, rfl, agrees.prune resource⟩

private theorem get_resKey_eq_none (named : names resource) (readers : ∀ id l, b.locks id = some l →
    l.resource = resource → l.shared = true) : ks.get (milliseconds t) (resKey pre resource) = none := by
  rw [Option.eq_none_iff_forall_ne_some]
  intro v alive
  obtain ⟨l, found, same, exclusive⟩ := (agrees.get_resKey named).mp alive
  rw [readers v l found same] at exclusive
  cases exclusive

private theorem acquireSharedScript_busy {id : Bytes} (named : names resource) (found : b.locks id = some l)
    (same : l.resource = resource) (exclusive : l.shared = false) (px : ℤ) (owner site new : Bytes) :
    ∃ holder, ks.acquireSharedScript pre (milliseconds t) px resource owner site new =
      (.answer (.busy holder), ks) := by
  have alive := (agrees.get_resKey named).mpr ⟨l, found, same, exclusive⟩
  rw [Redis.acquireSharedScript, alive]
  exact ⟨_, rfl⟩

section

variable (sound : l.Sound names t) (fresh : b.locks l.id = none)
  (idle : ∀ id' l', b.locks id' = some l' → l'.resource = l.resource →
    l.shared = true ∧ l'.shared = true)
  (later : 0 < px) (moment : milliseconds l.expiresAt = milliseconds t + px)

include sound fresh idle later moment

private theorem acquireScript_grant (exclusive : l.shared = false) :
    ∃ ks', ks.acquireScript pre (milliseconds t) px l.resource l.owner l.site l.id =
      (.answer (.acquired l.id), ks') ∧ Agrees pre names t (b.addLock l) ks' := by
  have free := agrees.get_resKey_eq_none sound.named fun id' l' found same => (idle id' l' found same).2
  have unread : ¬0 < (ks.zremrangebyscore (sharedKey pre l.resource) (milliseconds t)).zcard
      (sharedKey pre l.resource) := by
    rw [agrees.zcard_pos]
    rintro ⟨id', l', found, same, -⟩
    simp [idle id' l' found same] at exclusive
  simp only [Redis.acquireScript, free, unread, if_false, not_le.mpr later]
  refine ⟨_, rfl, (agrees.prune l.resource).set (addLock_locks b l) sound.written
    ?_ ?_ ?_ (fun id' l' found _ => idle id' l' found) sound.apart ?_ ?_⟩
  · simp [fresh]
  · intro key own other
    simp [own, other exclusive]
  · simp [exclusive]
  · simp [MemLock.value, exclusive, moment]
  · simp [moment]

private theorem acquireSharedScript_grant (shared : l.shared = true) :
    ∃ ks', ks.acquireSharedScript pre (milliseconds t) px l.resource l.owner l.site l.id =
      (.answer (.acquired l.id), ks') ∧ Agrees pre names t (b.addLock l) ks' := by
  have free := agrees.get_resKey_eq_none sound.named fun id' l' found same => (idle id' l' found same).2
  simp only [Redis.acquireSharedScript, free, not_le.mpr later, if_false]
  refine ⟨_, rfl, agrees.set (addLock_locks b l) sound.written
    ?_ ?_ ?_ (fun id' l' found _ => idle id' l' found) sound.apart ?_ ?_⟩
  · simp [fresh]
  · intro key own _
    simp [own]
  · intro r id' e
    rw [set_sets, mem_zadd]
    simp [shared, moment]
  · simp [MemLock.value, shared, moment]
  · simp [shared]

end

end

variable (agrees : Agrees pre names t b ks)

include agrees

private theorem releaseScript_missing {id : Bytes} (absent : b.locks id = none) :
    ks.releaseScript pre (milliseconds t) id = (false, ks) := by
  rw [Redis.releaseScript, agrees.get_lockKey_eq_none absent]
  rfl

private theorem releaseScript_held (indexed : b.Indexed) {id : Bytes} (found : b.locks id = some l) :
    ∃ ks', ks.releaseScript pre (milliseconds t) id = (true, ks') ∧
      Agrees pre names t (b.dropLock id l) ks' := by
  have sound := agrees.sound found
  rw [Redis.releaseScript, agrees.parse_lockKey found]
  cases kind : l.shared with
  | true =>
    simp only [if_true]
    refine ⟨_, rfl, agrees.set (dropLock_locks b id l) (by simp) (kind_of_found found) ?_ ?_
      (readers_of_indexed indexed found) sound.apart ?_ ?_⟩
    · intro key own _
      simp [own]
    · intro r id' e
      rw [del_sets, mem_zrem]
      simp [kind]
    · simp
    · simp [kind]
  | false =>
    have reads := (agrees.get_resKey sound.named).mpr ⟨l, found, rfl, kind⟩
    have other : exclusiveKind ≠ sharedKind := by decide
    simp only [Bool.false_eq_true, if_false, other, reads, if_true]
    refine ⟨_, rfl, agrees.set (dropLock_locks b id l) (by simp) (kind_of_found found) ?_ ?_
      (readers_of_indexed indexed found) sound.apart ?_ ?_⟩
    · intro key own other
      simp [own, other kind]
    · simp [kind]
    · simp
    · intro _
      simp

private theorem renewScript_missing {id : Bytes} (absent : b.locks id = none) (px : ℤ) :
    ks.renewScript pre (milliseconds t) px id = (false, ks) := by
  rw [Redis.renewScript, agrees.get_lockKey_eq_none absent]
  rfl

private theorem renewScript_held (indexed : b.Indexed) {id : Bytes} (found : b.locks id = some l)
    {expiresAt : ℤ} (later : 0 < px) (moment : milliseconds expiresAt = milliseconds t + px) :
    ∃ ks', ks.renewScript pre (milliseconds t) px id = (true, ks') ∧
      Agrees pre names t (b.restamp id l expiresAt) ks' := by
  have after : milliseconds t < milliseconds expiresAt := by omega
  have sound : MemLock.Sound names t { l with expiresAt := expiresAt } :=
    { agrees.sound found with later := after }
  obtain rfl : l.id = id := indexed.named found
  have table : (b.restamp l.id l expiresAt).locks = Function.update b.locks l.id
      (some { l with expiresAt := expiresAt }) := rfl
  have same := kind_of_found found
  have readers := readers_of_indexed indexed found
  have value := agrees.get_lockKey.mpr ⟨l, found, rfl⟩
  rw [Redis.renewScript, agrees.parse_lockKey found]
  cases kind : l.shared with
  | true =>
    obtain ⟨score, scored⟩ := zscore_isSome
      ((agrees.members l.resource l.id _).mpr ⟨l, found, ⟨rfl, kind⟩, rfl⟩).1
    simp only [if_true, scored]
    refine ⟨_, rfl, agrees.set table sound.written same ?_ ?_ readers sound.apart ?_ ?_⟩
    · intro key own _
      rw [pexpire_strings_of_ne own]
      rfl
    · intro r id' e
      rw [pexpire_sets, mem_zadd]
      simp [kind, moment]
    · rw [Option.map_some, moment]
      exact pexpire_strings_self later value
    · simp [kind]
  | false =>
    have reads := (agrees.get_resKey sound.named).mpr ⟨l, found, rfl, kind⟩
    have other : exclusiveKind ≠ sharedKind := by decide
    simp only [Bool.false_eq_true, if_false, other, reads, if_true]
    refine ⟨_, rfl, agrees.set table sound.written same ?_ ?_ readers sound.apart ?_ ?_⟩
    · intro key own other
      obtain ⟨index, beside⟩ := other kind
      rw [pexpire_strings_of_ne own, pexpire_strings_of_ne beside, pexpire_strings_of_ne index]
    · simp [kind]
    · rw [Option.map_some, moment]
      refine pexpire_strings_self later ((get_congr ?_).trans value)
      rw [pexpire_strings_of_ne (by simp), pexpire_strings_of_ne (by simp)]
    · intro _
      rw [Option.map_some, moment, pexpire_strings_of_ne (by simp),
        pexpire_strings_of_ne (by simp)]
      exact pexpire_strings_self later reads

end Scripts

end Agrees

/-! ## Runs -/

/-- The resource an acquisition names. -/
def Op.acquires : Op → Option Bytes
  | .acquire resource _ _ _ => some resource
  | .acquireShared resource _ _ _ => some resource
  | _ => none

/-- The strings of an acquisition come apart again, its ttl is whole milliseconds, an identifier is
drawn, and the key beside an exclusive lock's is not that of another resource. -/
def Op.Guarded (names : Bytes → Prop) (rand : Option Bytes) : Op → Prop
  | .acquire resource owner _ ttl => (124 ∉ resource ∧ 124 ∉ owner) ∧ (Whole ttl ∧ 0 < ttl) ∧
    rand ≠ none ∧ ¬names (resource ++ valSuffix)
  | .acquireShared resource owner _ ttl => (124 ∉ resource ∧ 124 ∉ owner) ∧ (Whole ttl ∧ 0 < ttl) ∧
    rand ≠ none
  | .renew _ ttl => Whole ttl ∧ 0 < ttl
  | _ => True

/-- A call that reads the clock within one millisecond. -/
structure Call.Guarded (names : Bytes → Prop) (c : Call) : Prop where
  instant : milliseconds c.stamp = milliseconds c.now
  op : c.op.Guarded names c.rand

/-- No call falls into the millisecond in which a lock of the table expires. -/
def MemoryBackend.OffExpiry (b : MemoryBackend) : List Call → Prop
  | [] => True
  | c :: rest => (∀ id l, b.locks id = some l → milliseconds l.expiresAt ≠ milliseconds c.now) ∧
    OffExpiry (b.step c).2 rest

section Steps

variable {pre : Bytes} {names : Bytes → Prop} {t : ℤ} {b : MemoryBackend} {ks : Redis}
  {used : List Bytes} {c : Call}

/-- The new lock of an acquisition. -/
def Call.lock (c : Call) (resource owner site : Bytes) (ttl : ℤ) (shared : Bool) (id : Bytes) :
    MemLock where
  id := id
  resource := resource
  owner := owner
  site := site
  expiresAt := c.stamp + ttl
  shared := shared

private theorem Call.Guarded.moment (guarded : c.Guarded names) {ttl : ℤ} (whole : Whole ttl) :
    milliseconds (c.stamp + ttl) = milliseconds c.now + ttlMilliseconds ttl := by
  rw [milliseconds_add _ whole, guarded.instant]

private theorem Call.Guarded.sound (guarded : c.Guarded names) {resource owner : Bytes} {ttl : ℤ}
    (plain : 124 ∉ resource ∧ 124 ∉ owner) (time : Whole ttl ∧ 0 < ttl) (named : names resource)
    (shared : Bool) (apart : shared = false → ¬names (resource ++ valSuffix)) (site id : Bytes) :
    (c.lock resource owner site ttl shared id).Sound names c.now where
  later := by
    rw [lock, guarded.moment time.1]
    exact lt_add_of_pos_right _ (ttlMilliseconds_pos time.1 time.2)
  plain := plain.1
  plainOwner := plain.2
  named := named
  apart := apart

/-- What the two backends did with a call: they answered alike, and agree at its moment. -/
def Alike (pre : Bytes) (names : Bytes → Prop) (now : ℤ) (mem : Answer × MemoryBackend)
    (redis : RedisAnswer × Redis) : Prop :=
  redis.1.kind = mem.1.kind ∧ Agrees pre names now mem.2 redis.2

/-- The agreement of the swept table, and what else a call can rely on. -/
structure Ready (pre : Bytes) (names : Bytes → Prop) (b : MemoryBackend) (ks : Redis) (c : Call) :
    Prop where
  indexed : b.Indexed
  covers : b.Covers c.order ∧ b.Covers c.sharedOrder
  swept : Agrees pre names c.now (b.expire c.now c.order) ks
  fresh : ∀ id, c.rand = some id → (b.expire c.now c.order).locks id = none
  guarded : c.Guarded names

namespace Ready

variable {resource owner site : Bytes} {ttl : ℤ} {id : Bytes}

variable (ready : Ready pre names b ks c)

include ready

section

variable (plain : 124 ∉ resource ∧ 124 ∉ owner) (time : Whole ttl ∧ 0 < ttl) (named : names resource)
  (given : ¬(resource = [] ∨ owner = [])) (rand : c.rand = some id)

include plain time named given rand

private theorem acquire (apart : ¬names (resource ++ valSuffix)) :
    Alike pre names c.now (b.acquire c resource owner site ttl)
      (ks.acquireScript pre (milliseconds c.now) (ttlMilliseconds ttl) resource owner site id) := by
  rcases ready.indexed.acquire_answers ready.covers.1 ready.covers.2 given site ttl with
    ⟨other, l, holder, live, same, -, busy⟩ | ⟨idle, granted⟩
  · obtain ⟨shown, ks', busy', agrees⟩ := ready.swept.acquireScript_busy named
      ((expire_eq_some ready.covers.1).mpr live) same (ttlMilliseconds ttl) owner site id
    rw [busy, busy']
    exact ⟨rfl, agrees⟩
  · have sound := ready.guarded.sound plain time named false (fun _ => apart) site id
    obtain ⟨ks', granted', agrees⟩ := ready.swept.acquireScript_grant sound (ready.fresh id rand)
      (fun id' l' found => idle id' l' ((expire_eq_some ready.covers.1).mp found))
      (ttlMilliseconds_pos time.1 time.2) (ready.guarded.moment time.1) rfl
    rw [granted, grant, rand]
    simp only [Call.lock] at granted' agrees
    rw [granted']
    exact ⟨rfl, agrees⟩

private theorem acquireShared :
    Alike pre names c.now (b.acquireShared c resource owner site ttl)
      (ks.acquireSharedScript pre (milliseconds c.now) (ttlMilliseconds ttl) resource owner site
        id) := by
  rcases ready.indexed.acquireShared_answers ready.covers.1 given site ttl with
    ⟨other, l, holder, live, same, exclusive, busy⟩ | ⟨readers, granted⟩
  · obtain ⟨shown, busy'⟩ := ready.swept.acquireSharedScript_busy named
      ((expire_eq_some ready.covers.1).mpr live) same (exclusive rfl) (ttlMilliseconds ttl) owner site id
    rw [busy, busy']
    exact ⟨rfl, ready.swept⟩
  · have sound := ready.guarded.sound plain time named true (by simp) site id
    obtain ⟨ks', granted', agrees⟩ := ready.swept.acquireSharedScript_grant sound (ready.fresh id rand)
      (fun id' l' found => readers id' l' ((expire_eq_some ready.covers.1).mp found))
      (ttlMilliseconds_pos time.1 time.2) (ready.guarded.moment time.1) rfl
    rw [granted, grant, rand]
    simp only [Call.lock] at granted' agrees
    rw [granted']
    exact ⟨rfl, agrees⟩

end

private theorem release (op : c.op = .release id) :
    Alike pre names c.now (b.release c id) (Redis.step pre ks c) := by
  simp only [Redis.step, op, MemoryBackend.release]
  cases found : (b.expire c.now c.order).locks id with
  | none =>
    rw [ready.swept.releaseScript_missing found]
    exact ⟨rfl, ready.swept⟩
  | some l =>
    obtain ⟨ks', done, agrees⟩ := ready.swept.releaseScript_held
      (ready.indexed.expire c.now c.order) found
    rw [done]
    exact ⟨rfl, agrees⟩

private theorem renew (op : c.op = .renew id ttl) (time : Whole ttl ∧ 0 < ttl) :
    Alike pre names c.now (b.renew c id ttl) (Redis.step pre ks c) := by
  simp only [Redis.step, op, MemoryBackend.renew]
  cases found : (b.expire c.now c.order).locks id with
  | none =>
    rw [ready.swept.renewScript_missing found]
    exact ⟨rfl, ready.swept⟩
  | some l =>
    obtain ⟨ks', done, agrees⟩ := ready.swept.renewScript_held
      (ready.indexed.expire c.now c.order) found (ttlMilliseconds_pos time.1 time.2)
      (ready.guarded.moment time.1)
    rw [done]
    exact ⟨rfl, agrees⟩

end Ready

/-- One call answers alike and keeps the agreement. -/
private theorem Agrees.step (agrees : Agrees pre names t b ks) (reached : Reached used b)
    (covers : b.Covers c.order ∧ b.Covers c.sharedOrder) (fresh : ∀ id, c.rand = some id → id ∉ used)
    (clock : t ≤ c.now)
    (off : ∀ id l, b.locks id = some l → milliseconds l.expiresAt ≠ milliseconds c.now)
    (guarded : c.Guarded names) (named : ∀ r, c.op.acquires = some r → names r) :
    (Redis.step pre ks c).1.kind = (b.step c).1.kind ∧
      ∃ t' ≤ c.now, Agrees pre names t' (b.step c).2 (Redis.step pre ks c).2 := by
  have ready : Ready pre names b ks c := by
    refine ⟨reached.indexed, covers, agrees.expire clock off covers.1, ?_, guarded⟩
    intro id rand
    by_contra present
    obtain ⟨l, found⟩ := Option.ne_none_iff_exists'.mp present
    exact fresh id rand (reached.ids id (by simp [((expire_eq_some covers.1).mp found).1]))
  have done : ∀ mem redis, Alike pre names c.now mem redis → redis.1.kind = mem.1.kind ∧
      ∃ t' ≤ c.now, Agrees pre names t' mem.2 redis.2 :=
    fun mem redis alike => ⟨alike.1, c.now, le_rfl, alike.2⟩
  have requirement := guarded.op
  cases op : c.op with
  | acquire resource owner site ttl =>
    rw [op] at requirement
    obtain ⟨plain, time, drawn, apart⟩ := requirement
    obtain ⟨id, rand⟩ := Option.ne_none_iff_exists'.mp drawn
    simp only [Redis.step, MemoryBackend.step, op, Redis.acquireWith, rand]
    by_cases empty : resource = [] ∨ owner = []
    · simp only [MemoryBackend.acquire, empty, if_true]
      exact ⟨rfl, t, clock, agrees⟩
    · simp only [empty, if_false]
      exact done _ _ (ready.acquire plain time (named resource (by rw [op]; rfl)) empty rand apart)
  | acquireShared resource owner site ttl =>
    rw [op] at requirement
    obtain ⟨plain, time, drawn⟩ := requirement
    obtain ⟨id, rand⟩ := Option.ne_none_iff_exists'.mp drawn
    simp only [Redis.step, MemoryBackend.step, op, Redis.acquireWith, rand]
    by_cases empty : resource = [] ∨ owner = []
    · simp only [MemoryBackend.acquireShared, empty, if_true]
      exact ⟨rfl, t, clock, agrees⟩
    · simp only [empty, if_false]
      exact done _ _ (ready.acquireShared plain time (named resource (by rw [op]; rfl)) empty rand)
  | release id =>
    have alike := done _ _ (ready.release op)
    simpa only [MemoryBackend.step, op] using alike
  | renew id ttl =>
    rw [op] at requirement
    have alike := done _ _ (ready.renew op requirement)
    simpa only [MemoryBackend.step, op] using alike
  | sweep =>
    have alike : Alike pre names c.now (b.step c) (Redis.step pre ks c) := by
      simp only [Redis.step, MemoryBackend.step, op]
      exact ⟨rfl, ready.swept⟩
    exact done _ _ alike

/-- The states two runs end in agree. -/
private theorem Agrees.run {calls : List Call} (agrees : Agrees pre names t b ks) (reached : Reached used b)
    (orderly : b.Orderly t calls) (fresh : (used ++ drawn calls).Nodup) (off : b.OffExpiry calls)
    (guarded : ∀ c ∈ calls, c.Guarded names) (named : ∀ c ∈ calls, ∀ r, c.op.acquires = some r → names r) :
    ∃ t', Agrees pre names t' (b.run calls) (.run pre ks calls) ∧
      ∀ after, b.Orderly t (calls ++ after) → (b.run calls).Orderly t' after := by
  induction calls generalizing used b ks t with
  | nil => exact ⟨t, agrees, fun after orderly => orderly⟩
  | cons c rest ih =>
    obtain ⟨⟨clock, stamped⟩, covers, tail⟩ := orderly
    rw [append_drawn_cons] at fresh
    obtain ⟨-, t', before, agrees'⟩ := agrees.step reached covers (fun id => rand_notMem fresh) clock
      off.1 (guarded c (by simp)) (named c (by simp))
    have later := before.trans stamped
    obtain ⟨t'', agrees'', follow⟩ := ih agrees' (reached.step covers fun id => rand_notMem fresh)
      (tail.mono later) fresh off.2 (fun c' member => guarded c' (.tail _ member))
      (fun c' member => named c' (.tail _ member))
    exact ⟨t'', agrees'', fun after orderly => follow after (orderly.2.2.mono later)⟩

private theorem OffExpiry.append {before after : List Call} (off : b.OffExpiry (before ++ after)) :
    b.OffExpiry before ∧ (b.run before).OffExpiry after := by
  induction before generalizing b with
  | nil => exact ⟨trivial, off⟩
  | cons c rest ih =>
    obtain ⟨first, last⟩ := ih off.2
    exact ⟨⟨off.1, first⟩, last⟩

end Steps

/-! ## What the memory backend answers -/

private theorem kind_eq_busy {answer : Answer} : answer.kind = .busy ↔ ∃ holder, answer = .busy holder := by
  cases answer <;> simp [Answer.kind]

/-- The call acquires a resource of the run. -/
def Named (calls : List Call) (r : Bytes) : Prop := ∃ c ∈ calls, c.op.acquires = some r

/-- Over every guarded run the two backends answer every call alike. In particular a held lock is
released and renewed by its id, and an acquisition is refused for the sake of a lock of its own
resource only. -/
theorem backends_agree (pre : Bytes) (t : ℤ) (calls : List Call)
    (orderly : newMemoryBackend.Orderly t calls) (fresh : (drawn calls).Nodup)
    (off : newMemoryBackend.OffExpiry calls) (guarded : ∀ c ∈ calls, c.Guarded (Named calls))
    (before : List Call) (c : Call) (after : List Call) (place : calls = before ++ c :: after) :
    let b := newMemoryBackend.run before
    let redis := (Redis.step pre (Redis.run pre Keyspace.empty before) c).1.kind
    redis = (b.step c).1.kind ∧ (∀ id l, b.Live c.now id l → (c.op = .release id → redis = .released) ∧
        ∀ ttl, c.op = .renew id ttl → redis = .renewed) ∧
      (∀ resource owner site ttl, resource ≠ [] → owner ≠ [] → (c.op = .acquire resource owner site ttl →
          (redis = .busy ↔ ∃ id l, b.Live c.now id l ∧ l.resource = resource)) ∧
        (c.op = .acquireShared resource owner site ttl →
          (redis = .busy ↔ ∃ id l, b.Live c.now id l ∧ l.resource = resource ∧ l.shared = false))) := by
  subst place
  have first := orderly.append.1
  have soFar : (drawn before ++ drawn (c :: after)).Nodup := drawn_append before _ ▸ fresh
  have start := (List.nodup_append.mp soFar).1
  have named : ∀ c' ∈ before, ∀ r, c'.op.acquires = some r → Named (before ++ c :: after) r :=
    fun c' member r acquires => ⟨c', List.mem_append_left _ member, acquires⟩
  have origin : Agrees pre (Named (before ++ c :: after)) t newMemoryBackend empty := .start
  obtain ⟨t', agrees, follow⟩ := origin.run reached_newMemoryBackend first (by simpa using start)
    (OffExpiry.append off).1 (fun c' member => guarded c' (List.mem_append_left _ member)) named
  have reached := reached_run first start
  obtain ⟨⟨clock, -⟩, covers, -⟩ := follow _ orderly
  have inside : c ∈ before ++ c :: after := by simp
  have fresh' : ∀ id, c.rand = some id → id ∉ drawn before := by
    rw [append_drawn_cons] at soFar
    exact fun id => rand_notMem soFar
  obtain ⟨same, -⟩ := agrees.step reached covers fresh' clock (OffExpiry.append off).2.1
    (guarded c inside) fun r acquires => ⟨c, inside, acquires⟩
  refine ⟨same, ?_, ?_⟩
  · intro id l live
    have held := (expire_eq_some covers.1).mpr live
    constructor
    · intro op
      exact same.trans (by simp [step, op, release, held, Answer.kind])
    · intro ttl op
      exact same.trans (by simp [step, op, renew, held, Answer.kind])
  · intro resource owner site ttl resourceGiven ownerGiven
    have given : ¬(resource = [] ∨ owner = []) := by simp [resourceGiven, ownerGiven]
    constructor
    · intro op
      rw [same, kind_eq_busy, step, op]
      simpa using (reached.indexed.acquire_answers covers.1 covers.2 given site ttl).busy_iff
    · intro op
      rw [same, kind_eq_busy, step, op]
      simpa using (reached.indexed.acquireShared_answers covers.1 given site ttl).busy_iff

/-! ## Separators in names -/

/-- A call at the given millisecond. -/
def callAt (ms : ℤ) (rand : Option Bytes) (op : Op) : Call where
  op := op
  now := ms * 1000000
  stamp := ms * 1000000
  order := [[1], [2]]
  sharedOrder := [[1], [2]]
  rand := rand

/-- The kinds of the answers of a run. -/
def MemoryBackend.kinds (b : MemoryBackend) : List Call → List Kind
  | [] => []
  | c :: rest => (b.step c).1.kind :: kinds (b.step c).2 rest

def Redis.kinds (pre : Bytes) (ks : Redis) : List Call → List Kind
  | [] => []
  | c :: rest => (Redis.step pre ks c).1.kind :: kinds pre (Redis.step pre ks c).2 rest

/-- A lock of `r`, stamped within the millisecond, and given back. -/
def takeAndGiveBack : List Call :=
  [{ callAt 0 (some [1]) (.acquire [114] [97] [] 10000000) with stamp := 400000 },
    callAt 5 none (.release [1])]

theorem backends_agree_takeAndGiveBack : (Redis.step [] (Redis.run [] Keyspace.empty
      (takeAndGiveBack.take 1)) (callAt 5 none (.release [1]))).1.kind = .released := by
  have fresh : (drawn takeAndGiveBack).Nodup := by decide
  have orderly : newMemoryBackend.Orderly 0 takeAndGiveBack := by
    apply reached_newMemoryBackend.orderly
    · simp [takeAndGiveBack, callAt, Ticks]
    · exact fresh
    · decide
  have off : newMemoryBackend.OffExpiry takeAndGiveBack := by
    refine ⟨fun _ _ held => (by cases held), fun id l found => ?_, trivial⟩
    obtain ⟨-, rfl⟩ | ⟨-, absent⟩ := update_some_eq_some.mp found
    · decide
    · cases absent
  have guarded : ∀ c ∈ takeAndGiveBack, c.Guarded (Named takeAndGiveBack) := by
    intro c member
    simp only [takeAndGiveBack, List.mem_cons, List.not_mem_nil, or_false] at member
    rcases member with rfl | rfl
    · refine ⟨rfl, ⟨by decide, by decide⟩, ⟨⟨10, rfl⟩, by decide⟩, by decide, ?_⟩
      simp [Named, takeAndGiveBack, callAt, Op.acquires, valSuffix]
    · exact ⟨rfl, trivial⟩
  exact (backends_agree [] 0 takeAndGiveBack orderly fresh off guarded (takeAndGiveBack.take 1)
    (callAt 5 none (.release [1])) [] rfl).1

/-- A lock of `r` is in the way of `r:val`, and a lock of `a|b` is still there after it was given
back. -/
theorem separators_tell_backends_apart : newMemoryBackend.kinds
        [callAt 0 (some [1]) (.acquire [114] [97] [] 10000000),
          callAt 1 (some [2]) (.acquire ([114] ++ valSuffix) [97] [] 10000000)] =
      [.acquired [1], .acquired [2]] ∧
    Redis.kinds [] Keyspace.empty
        [callAt 0 (some [1]) (.acquire [114] [97] [] 10000000),
          callAt 1 (some [2]) (.acquire ([114] ++ valSuffix) [97] [] 10000000)] =
      [.acquired [1], .busy] ∧
    newMemoryBackend.kinds
        [callAt 0 (some [1]) (.acquire [97, 124, 98] [97] [] 10000000), callAt 1 none (.release [1]),
          callAt 2 (some [2]) (.acquire [97, 124, 98] [97] [] 10000000)] =
      [.acquired [1], .released, .acquired [2]] ∧
    Redis.kinds [] Keyspace.empty
        [callAt 0 (some [1]) (.acquire [97, 124, 98] [97] [] 10000000), callAt 1 none (.release [1]),
          callAt 2 (some [2]) (.acquire [97, 124, 98] [97] [] 10000000)] =
      [.acquired [1], .released, .busy] := by
  decide

end Yarilo.Locks

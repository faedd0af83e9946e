import Yarilo.Locks.Memory

/-! # Readers and writers exclude each other

A whole sweep leaves the live locks, whatever order it walks them in, so each call acts on the live
table: a writer is granted a resource without live locks, a reader one without a live writer. Over a
run with a clock that never goes back and identifiers that never repeat, an id that was given up
stays dead.
-/

namespace Yarilo.Locks

open Library List Option

namespace MemoryBackend

/-! ## The sweep -/

/-- The call asks for a lock like this, until a time from its stamp on. -/
def Asks (c : Call) (l : MemLock) : Prop := ∃ ttl, l.expiresAt = c.stamp + ttl ∧ c.op =
    if l.shared then .acquireShared l.resource l.owner l.site ttl else .acquire l.resource l.owner l.site ttl

/-- The lock is in the table and its time has not come. -/
def Live (b : MemoryBackend) (t : ℤ) (id : Bytes) (l : MemLock) : Prop :=
  b.locks id = some l ∧ t < l.expiresAt

variable {b : MemoryBackend} {t t' now : ℤ} {id r resource owner : Bytes} {l : MemLock}
  {order sharedOrder used : List Bytes} {c : Call} {calls before after : List Call}

private theorem Live.mono (live : b.Live t' id l) (le : t ≤ t') : b.Live t id l :=
  ⟨live.1, lt_of_le_of_lt le live.2⟩

private theorem expireOne_locks (now : ℤ) (b : MemoryBackend) (id : Bytes) : (b.expireOne now id).locks =
      Function.update b.locks id ((b.locks id).filter fun l => now < l.expiresAt) := by
  unfold expireOne
  split
  · rename_i l found
    split
    · rename_i live
      rw [found, filter_some_pos (by simpa using live), ← found, Function.update_eq_self]
    · rename_i dead
      rw [dropLock_locks, found, filter_some_neg (by simpa using dead)]
  · rename_i missing
    rw [missing, filter_none, ← missing, Function.update_eq_self]

private theorem Indexed.expireOne (indexed : b.Indexed) (now : ℤ) (id : Bytes) :
    (b.expireOne now id).Indexed := by
  unfold MemoryBackend.expireOne
  split
  · rename_i l found
    split
    · exact indexed
    · exact indexed.dropLock found
  · exact indexed

theorem Indexed.expire (indexed : b.Indexed) (now : ℤ) (order : List Bytes) :
    (b.expire now order).Indexed := by
  induction order generalizing b with
  | nil => exact indexed
  | cons id rest ih => exact ih (indexed.expireOne now id)

private theorem expire_locks (b : MemoryBackend) (now : ℤ) (order : List Bytes) (id : Bytes) :
    (b.expire now order).locks id =
      if id ∈ order then (b.locks id).filter fun l => now < l.expiresAt else b.locks id := by
  induction order generalizing b with
  | nil => rfl
  | cons first rest ih =>
    have next : (b.expire now (first :: rest)).locks id =
        ((b.expireOne now first).expire now rest).locks id := rfl
    rw [next, ih, expireOne_locks]
    by_cases here : id = first
    · subst here
      simp [Option.filter_filter]
    · simp [here]

/-- The walk meets every lock there is. -/
def Covers (b : MemoryBackend) (order : List Bytes) : Prop := ∀ id, b.locks id ≠ none → id ∈ order

/-- A whole sweep leaves the live locks, whatever its order. -/
theorem expire_eq_some (covers : b.Covers order) :
    (b.expire now order).locks id = some l ↔ b.Live now id l := by
  rw [expire_locks, Live]
  split
  · rw [filter_eq_some_iff, decide_eq_true_eq]
  rename_i missed
  have absent : b.locks id = none := by
    by_contra present
    exact missed (covers id present)
  simp [absent]

private theorem locks_of_expire (present : (b.expire now order).locks id ≠ none) : b.locks id ≠ none := by
  intro absent
  simp [expire_locks, absent] at present

private theorem Covers.expire (covers : b.Covers sharedOrder) : (b.expire now order).Covers sharedOrder :=
  fun id present => covers id (locks_of_expire present)

/-! ## What a call does -/

section

variable (indexed : b.Indexed)

include indexed

private theorem Indexed.byRes_eq_none (r : Bytes) :
    b.byRes r = none ↔ ∀ id l, b.locks id = some l → l.resource = r → l.shared = true := by
  rw [eq_none_iff_forall_ne_some]
  constructor
  · intro none id l found same
    by_contra exclusive
    exact none id ((indexed.byRes_iff r id).mpr ⟨l, found, same, by simpa using exclusive⟩)
  · intro readers id indexedBy
    obtain ⟨l, found, same, exclusive⟩ := (indexed.byRes_iff r id).mp indexedBy
    rw [readers id l found same] at exclusive
    cases exclusive

/-- The holder a writer meets is a reader of the resource. -/
private theorem Indexed.sharedHolder_some {set : Finset Bytes}
    (met : b.sharedHolder sharedOrder r = some (set, id)) :
    ∃ l, b.locks id = some l ∧ l.resource = r := by
  unfold sharedHolder at met
  split at met
  · rename_i set' entry
    obtain ⟨id', first, pair⟩ := map_eq_some_iff.mp met
    have member : id' ∈ set' := by simpa using find?_some first
    cases pair
    obtain ⟨l, found, same, -⟩ := (indexed.sharedRes_iff r id).mp (by rw [entry]; exact member)
    exact ⟨l, found, same⟩
  · cases met

private theorem Indexed.sharedHolder_none (covers : b.Covers sharedOrder)
    (met : b.sharedHolder sharedOrder r = none) (found : b.locks id = some l) (same : l.resource = r) :
    l.shared = false := by
  by_contra reader
  have member := (indexed.sharedRes_iff r id).mpr ⟨l, found, same, by simpa using reader⟩
  unfold sharedHolder at met
  split at met
  · rename_i set entry
    rw [entry] at member
    have nowhere := find?_eq_none.mp (map_eq_none_iff.mp met) id
      (covers id (by simp [found]))
    exact nowhere (by simpa using member)
  · rename_i entry
    rw [entry] at member
    exact Finset.notMem_empty id member

/-- What an acquisition answers: it is turned away by a live lock, a reader by a writer's, or granted. -/
def Answers (b : MemoryBackend) (c : Call) (resource owner site : Bytes) (ttl : ℤ) (shared : Bool)
    (result : Answer × MemoryBackend) : Prop :=
  (∃ id l holder, b.Live c.now id l ∧ l.resource = resource ∧ (shared = true → l.shared = false) ∧
      result = (.busy holder, b.expire c.now c.order)) ∨
    (∀ id l, b.Live c.now id l → l.resource = resource → shared = true ∧ l.shared = true) ∧
      result = (b.expire c.now c.order).grant c resource owner site ttl shared

theorem Indexed.acquire_answers (covers : b.Covers c.order) (shared : b.Covers c.sharedOrder)
    (named : ¬(resource = [] ∨ owner = [])) (site : Bytes) (ttl : ℤ) :
    b.Answers c resource owner site ttl false (b.acquire c resource owner site ttl) := by
  have swept := indexed.expire c.now c.order
  simp only [acquire, if_neg named]
  cases writer : (b.expire c.now c.order).byRes resource with
  | some existing =>
    obtain ⟨l, found, same, -⟩ := (swept.byRes_iff resource existing).mp writer
    exact .inl ⟨existing, l, { owner := l.owner, site := l.site }, (expire_eq_some covers).mp found,
      same, nofun, by simp [busyWith, found]⟩
  | none =>
    have readers := (swept.byRes_eq_none resource).mp writer
    cases met : (b.expire c.now c.order).sharedHolder c.sharedOrder resource with
    | some pair =>
      obtain ⟨l, found, same⟩ := swept.sharedHolder_some met
      obtain ⟨holder, busy⟩ : ∃ holder, (b.expire c.now c.order).busyShared pair.1 pair.2 =
          .busy holder := by
        simp [busyShared, found]
      exact .inl ⟨pair.2, l, holder, (expire_eq_some covers).mp found, same, nofun, by simp [busy]⟩
    | none =>
      refine .inr ⟨?_, rfl⟩
      intro id l live same
      have found := (expire_eq_some covers).mpr live
      have writer := swept.sharedHolder_none shared.expire met found same
      rw [readers id l found same] at writer
      cases writer

theorem Indexed.acquireShared_answers (covers : b.Covers c.order) (named : ¬(resource = [] ∨ owner = []))
    (site : Bytes) (ttl : ℤ) :
    b.Answers c resource owner site ttl true (b.acquireShared c resource owner site ttl) := by
  have swept := indexed.expire c.now c.order
  simp only [acquireShared, if_neg named]
  cases writer : (b.expire c.now c.order).byRes resource with
  | some existing =>
    obtain ⟨l, found, same, exclusive⟩ := (swept.byRes_iff resource existing).mp writer
    exact .inl ⟨existing, l, { owner := l.owner, site := l.site }, (expire_eq_some covers).mp found,
      same, fun _ => exclusive, by simp [busyWith, found]⟩
  | none =>
    refine .inr ⟨?_, rfl⟩
    intro id l live same
    exact ⟨rfl, (swept.byRes_eq_none resource).mp writer id l ((expire_eq_some covers).mpr live) same⟩

section

variable {site : Bytes} {ttl : ℤ} {shared : Bool} {result : Answer × MemoryBackend}
  (answers : b.Answers c resource owner site ttl shared result)

include answers

omit indexed in
theorem Answers.busy_iff : (∃ holder, result.1 = .busy holder) ↔
      ∃ id l, b.Live c.now id l ∧ l.resource = resource ∧ (shared = true → l.shared = false) := by
  rcases answers with ⟨id, l, holder, live, same, kind, rfl⟩ | ⟨idle, rfl⟩
  · exact iff_of_true ⟨holder, rfl⟩ ⟨id, l, live, same, kind⟩
  refine iff_of_false ?_ ?_
  · rintro ⟨holder, busy⟩
    unfold grant at busy
    split at busy <;> cases busy
  · rintro ⟨id, l, live, same, kind⟩
    obtain ⟨reader, reads⟩ := idle id l live same
    rw [kind reader] at reads
    cases reads

omit indexed in
/-- The sweep alone, or a lock that carries the identifier just drawn. -/
private theorem Answers.cases (covers : b.Covers c.order) :
    (∃ answer, result = (answer, b.expire c.now c.order) ∧ ∀ id, answer ≠ .acquired id) ∨
      ∃ l, c.rand = some l.id ∧ l = ⟨l.id, resource, owner, site, c.stamp + ttl, shared⟩ ∧
        (b.expire c.now c.order).Admits l ∧
        result = (.acquired l.id, (b.expire c.now c.order).addLock l) := by
  rcases answers with ⟨_, _, _, _, _, _, rfl⟩ | ⟨admits, rfl⟩
  · exact .inl ⟨_, rfl, nofun⟩
  unfold grant
  split
  · exact .inl ⟨_, rfl, nofun⟩
  rename_i id drawn
  refine .inr ⟨⟨id, resource, owner, site, c.stamp + ttl, shared⟩, drawn, rfl, ?_, rfl⟩
  intro id' l' found same
  exact admits id' l' ((expire_eq_some covers).mp found) same

end

/-- What a call can do: nothing, the sweep alone, or the sweep and one of three edits. A granted lock
carries the identifier just drawn. -/
theorem Indexed.step_cases (covers : b.Covers c.order) (shared : b.Covers c.sharedOrder) :
    b.step c = (.emptyArgument, b) ∨
      (∃ answer, b.step c = (answer, b.expire c.now c.order) ∧ ∀ id, answer ≠ .acquired id) ∨
      (∃ l, c.rand = some l.id ∧ Asks c l ∧ (b.expire c.now c.order).Admits l ∧
        b.step c = (.acquired l.id, (b.expire c.now c.order).addLock l)) ∨
      (∃ id l, c.op = .release id ∧ b.Live c.now id l ∧
        b.step c = (.released, (b.expire c.now c.order).dropLock id l)) ∨
      ∃ id ttl l, c.op = .renew id ttl ∧ b.Live c.now id l ∧
        b.step c = (.renewed, (b.expire c.now c.order).restamp id l (c.stamp + ttl)) := by
  unfold step
  split
  · rename_i resource owner site ttl call
    by_cases named : resource = [] ∨ owner = []
    · exact .inl (by simp [acquire, if_pos named])
    rcases (indexed.acquire_answers covers shared named site ttl).cases covers with
      swept | ⟨l, rand, asked, added⟩
    · exact .inr (.inl swept)
    · exact .inr (.inr (.inl ⟨l, rand, by rw [asked]; exact ⟨ttl, rfl, call⟩, added⟩))
  · rename_i resource owner site ttl call
    by_cases named : resource = [] ∨ owner = []
    · exact .inl (by simp [acquireShared, if_pos named])
    rcases (indexed.acquireShared_answers covers named site ttl).cases covers with
      swept | ⟨l, rand, asked, added⟩
    · exact .inr (.inl swept)
    · exact .inr (.inr (.inl ⟨l, rand, by rw [asked]; exact ⟨ttl, rfl, call⟩, added⟩))
  · rename_i id call
    right
    cases found : (b.expire c.now c.order).locks id with
    | none => exact .inl ⟨.notFound, by simp [release, found], by simp⟩
    | some l =>
      exact .inr (.inr (.inl ⟨id, l, call, (expire_eq_some covers).mp found,
        by simp [release, found]⟩))
  · rename_i id ttl call
    right
    cases found : (b.expire c.now c.order).locks id with
    | none => exact .inl ⟨.expired, by simp [renew, found], by simp⟩
    | some l =>
      exact .inr (.inr (.inr ⟨id, ttl, l, call, (expire_eq_some covers).mp found,
        by simp [renew, found]⟩))
  · exact .inr (.inl ⟨.swept, rfl, by simp⟩)

/-- An acquisition answers with the identifier it drew, and the lock it asked for is there. -/
private theorem Indexed.step_acquired (covers : b.Covers c.order) (shared : b.Covers c.sharedOrder)
    (granted : (b.step c).1 = .acquired id) :
    c.rand = some id ∧ ∃ l, Asks c l ∧ (b.step c).2.locks id = some l := by
  rcases indexed.step_cases covers shared with
    same | ⟨answer, same, other⟩ | ⟨l, rand, asks, -, added⟩ | ⟨_, _, -, -, same⟩ | ⟨_, _, _, -, -, same⟩
  · simp [same] at granted
  · rw [same] at granted
    exact absurd granted (other id)
  · rw [added] at granted
    cases granted
    exact ⟨rand, l, asks, by simp [added]⟩
  · simp [same] at granted
  · simp [same] at granted

end

/-! ## Runs -/

/-- The clock never goes back, from call to call and within a call, and each walk meets every lock
that is there. -/
def Orderly (t : ℤ) (b : MemoryBackend) : List Call → Prop
  | [] => True
  | c :: rest =>
    (t ≤ c.now ∧ c.now ≤ c.stamp) ∧ (b.Covers c.order ∧ b.Covers c.sharedOrder) ∧
      Orderly c.stamp (b.step c).2 rest

/-- The identifiers drawn by a sequence of calls. -/
def drawn (calls : List Call) : List Bytes := calls.filterMap (·.rand)

theorem drawn_append (before after : List Call) : drawn (before ++ after) = drawn before ++ drawn after :=
  List.filterMap_append

theorem append_drawn_cons (used : List Bytes) (c : Call) (rest : List Call) :
    used ++ drawn (c :: rest) = (used ++ c.rand.toList) ++ drawn rest := by
  cases rand : c.rand <;> simp [drawn, rand]

theorem rand_notMem {rest : List Call} (fresh : (used ++ c.rand.toList ++ drawn rest).Nodup)
    (rand : c.rand = some id) : id ∉ used := by
  intro member
  have apart := (nodup_append.mp (nodup_append.mp fresh).1).2.2
  exact apart id member id (by simp [rand]) rfl

theorem run_append (b : MemoryBackend) (before after : List Call) :
    b.run (before ++ after) = (b.run before).run after :=
  List.foldl_append ..

theorem Orderly.mono (orderly : b.Orderly t' calls) (le : t ≤ t') : b.Orderly t calls := by
  cases calls with
  | nil => trivial
  | cons c rest => exact ⟨⟨le.trans orderly.1.1, orderly.1.2⟩, orderly.2⟩

theorem Orderly.append (orderly : b.Orderly t (before ++ after)) :
    b.Orderly t before ∧ (b.run before).Orderly t after := by
  induction before generalizing t b with
  | nil => exact ⟨trivial, orderly⟩
  | cons c rest ih =>
    obtain ⟨clock, covers, tail⟩ := orderly
    obtain ⟨left, right⟩ := ih tail
    exact ⟨⟨clock, covers, left⟩, right.mono (clock.1.trans clock.2)⟩

/-- The state between two calls: the indexes follow the table, and every id in it was drawn. -/
structure Reached (used : List Bytes) (b : MemoryBackend) : Prop where
  indexed : b.Indexed
  ids : ∀ id, b.locks id ≠ none → id ∈ used

theorem reached_newMemoryBackend : Reached [] newMemoryBackend :=
  ⟨indexed_newMemoryBackend, fun _ present => absurd rfl present⟩

theorem Reached.step (reached : Reached used b) (covers : b.Covers c.order ∧ b.Covers c.sharedOrder)
    (fresh : ∀ id, c.rand = some id → id ∉ used) : Reached (used ++ c.rand.toList) (b.step c).2 := by
  have swept := reached.indexed.expire c.now c.order
  have kept : ∀ id, (b.expire c.now c.order).locks id ≠ none → id ∈ used ++ c.rand.toList :=
    fun id present => mem_append_left _ (reached.ids id (locks_of_expire present))
  rcases reached.indexed.step_cases covers.1 covers.2 with
    same | ⟨_, same, -⟩ | ⟨l, rand, -, admits, added⟩ | ⟨id, l, -, live, dropped⟩ |
    ⟨id, ttl, l, -, live, moved⟩
  · rw [same]
    exact ⟨reached.indexed, fun id present => mem_append_left _ (reached.ids id present)⟩
  · rw [same]
    exact ⟨swept, kept⟩
  · rw [added]
    have absent : (b.expire c.now c.order).locks l.id = none := by
      by_contra present
      exact fresh l.id rand (reached.ids l.id (locks_of_expire present))
    refine ⟨swept.addLock absent admits, ?_⟩
    intro id present
    by_cases here : id = l.id
    · simp [here, rand]
    · exact kept id (by simpa [here] using present)
  · rw [dropped]
    refine ⟨swept.dropLock ((expire_eq_some covers.1).mpr live), ?_⟩
    intro id' present
    by_cases here : id' = id
    · simp [here] at present
    · exact kept id' (by simpa [here] using present)
  · rw [moved]
    have found := (expire_eq_some covers.1).mpr live
    refine ⟨swept.restamp found _, ?_⟩
    intro id' present
    by_cases here : id' = id
    · exact kept id' (by simp [here, found])
    · exact kept id' (by simpa [restamp, here] using present)

private theorem Reached.run (reached : Reached used b) (orderly : b.Orderly t calls)
    (fresh : (used ++ drawn calls).Nodup) : Reached (used ++ drawn calls) (b.run calls) := by
  induction calls generalizing used b t with
  | nil => simpa [drawn, MemoryBackend.run] using reached
  | cons c rest ih =>
    rw [append_drawn_cons] at fresh ⊢
    exact ih (reached.step orderly.2.1 fun id => rand_notMem fresh) orderly.2.2 fresh

theorem reached_run (orderly : newMemoryBackend.Orderly t calls) (fresh : (drawn calls).Nodup) :
    Reached (drawn calls) (newMemoryBackend.run calls) := by
  simpa using reached_newMemoryBackend.run orderly (by simpa using fresh)

/-- The readings of the clock, in the order of the calls. -/
def Ticks (t : ℤ) : List Call → Prop
  | [] => True
  | c :: rest => (t ≤ c.now ∧ c.now ≤ c.stamp) ∧ Ticks c.stamp rest

/-- Walks that list every identifier drawn in the run meet every lock. -/
theorem Reached.orderly (reached : Reached used b) (ticks : Ticks t calls)
    (fresh : (used ++ drawn calls).Nodup)
    (lists : ∀ c ∈ calls, used ++ drawn calls ⊆ c.order ∧ used ++ drawn calls ⊆ c.sharedOrder) :
    b.Orderly t calls := by
  induction calls generalizing used b t with
  | nil => trivial
  | cons c rest ih =>
    have covers : b.Covers c.order ∧ b.Covers c.sharedOrder := by
      obtain ⟨order, sharedOrder⟩ := lists c (by simp)
      constructor
      · exact fun id present => order (mem_append_left _ (reached.ids id present))
      · exact fun id present => sharedOrder (mem_append_left _ (reached.ids id present))
    rw [append_drawn_cons] at fresh lists
    refine ⟨ticks.1, covers, ih (reached.step covers fun id => rand_notMem fresh) ticks.2 fresh ?_⟩
    intro c' member
    exact lists c' (by simp [member])

/-! ## Given up ids -/

/-- The id is not that of a live lock any more: released, or out of its time. -/
def Dead (b : MemoryBackend) (t : ℤ) (id : Bytes) : Prop := ∀ l, ¬b.Live t id l

theorem Dead.expire (dead : b.Dead t id) (le : t ≤ now) (covers : b.Covers order) :
    (b.expire now order).locks id = none := by
  by_contra present
  obtain ⟨l, found⟩ := ne_none_iff_exists'.mp present
  exact dead l (((expire_eq_some covers).mp found).mono le)

private theorem Dead.of_locks_eq_none (absent : b.locks id = none) : b.Dead t id := by
  rintro l ⟨found, -⟩
  rw [absent] at found
  cases found

/-- An id stays dead unless it is drawn again. -/
private theorem Dead.step (indexed : b.Indexed) (dead : b.Dead t id) (clock : t ≤ c.now ∧ c.now ≤ c.stamp)
    (covers : b.Covers c.order ∧ b.Covers c.sharedOrder) (fresh : c.rand ≠ some id) :
    (b.step c).2.Dead c.stamp id := by
  have absent := dead.expire clock.1 covers.1
  rcases indexed.step_cases covers.1 covers.2 with
    same | ⟨_, same, -⟩ | ⟨l, rand, -, -, added⟩ | ⟨id', l, -, -, dropped⟩ |
    ⟨id', ttl, l, -, live, moved⟩
  · rw [same]
    exact fun l live => dead l (live.mono (clock.1.trans clock.2))
  · rw [same]
    exact .of_locks_eq_none absent
  · rw [added]
    have other : id ≠ l.id := fun same => fresh (by rw [rand, same])
    exact .of_locks_eq_none (by simp [other, absent])
  · rw [dropped]
    apply Dead.of_locks_eq_none
    by_cases here : id = id'
    · simp [here]
    · simp [here, absent]
  · rw [moved]
    have other : id ≠ id' := by
      rintro rfl
      exact dead l (live.mono clock.1)
    exact .of_locks_eq_none (by simp [restamp, other, absent])

private theorem Dead.run (reached : Reached used b) (dead : b.Dead t id) (known : id ∈ used)
    (orderly : b.Orderly t calls) (fresh : (used ++ drawn calls).Nodup) :
    ∃ t', t ≤ t' ∧ (b.run calls).Dead t' id ∧
      ∀ after, b.Orderly t (calls ++ after) → (b.run calls).Orderly t' after := by
  induction calls generalizing b used t with
  | nil => exact ⟨t, le_refl t, dead, fun after orderly => orderly⟩
  | cons c rest ih =>
    obtain ⟨clock, covers, tail⟩ := orderly
    rw [append_drawn_cons] at fresh
    have next := ih (reached.step covers fun id => rand_notMem fresh)
      (dead.step reached.indexed clock covers fun rand => rand_notMem fresh rand known)
      (mem_append_left _ known) tail fresh
    obtain ⟨t', le, dead', follow⟩ := next
    exact ⟨t', (clock.1.trans clock.2).trans le, dead', fun after orderly => follow after orderly.2.2⟩

/-- A call that names a dead id answers that it is gone and does no more than the sweep. -/
private theorem Dead.refused (dead : b.Dead t id) (le : t ≤ c.now) (covers : b.Covers c.order) :
    (∀ ttl, c.op = .renew id ttl → b.step c = (.expired, b.expire c.now c.order)) ∧
      (c.op = .release id → b.step c = (.notFound, b.expire c.now c.order)) := by
  have absent := dead.expire le covers
  constructor
  · intro ttl call
    simp [MemoryBackend.step, call, renew, absent]
  · intro call
    simp [MemoryBackend.step, call, release, absent]

/-- The call that released an id, if it was answered so, leaves it dead. -/
private theorem Reached.released (reached : Reached used b) (covers : b.Covers c.order)
    (call : c.op = .release id) (done : (b.step c).1 = .released) :
    id ∈ used ∧ (b.step c).2.locks id = none := by
  simp only [MemoryBackend.step, call, release] at done ⊢
  cases found : (b.expire c.now c.order).locks id with
  | none =>
    simp only [found] at done
    cases done
  | some l =>
    have live := (expire_eq_some covers).mp found
    exact ⟨reached.ids id (by simp [live.1]), by simp⟩

/-- No call releases the id or finds its time come. -/
def Kept (id : Bytes) (b : MemoryBackend) : List Call → Prop
  | [] => True
  | c :: rest =>
    c.op ≠ .release id ∧ (∀ l, b.locks id = some l → c.now < l.expiresAt) ∧ Kept id (b.step c).2 rest

/-- A lock stays, but for its expiry. -/
private theorem Indexed.step_keeps (indexed : b.Indexed) (covers : b.Covers c.order ∧ b.Covers c.sharedOrder)
    (found : b.locks id = some l) (fresh : c.rand ≠ some id) (unreleased : c.op ≠ .release id)
    (lasts : c.now < l.expiresAt) : ∃ e, (b.step c).2.locks id = some { l with expiresAt := e } := by
  have swept : (b.expire c.now c.order).locks id = some l := (expire_eq_some covers.1).mpr ⟨found, lasts⟩
  rcases indexed.step_cases covers.1 covers.2 with
    same | ⟨_, same, -⟩ | ⟨l', rand, -, -, added⟩ | ⟨id', l', call, -, dropped⟩ |
    ⟨id', ttl, l', -, live, moved⟩
  · exact ⟨_, by rw [same]; exact found⟩
  · exact ⟨_, by rw [same]; exact swept⟩
  · have other : id ≠ l'.id := fun same => fresh (by rw [rand, same])
    exact ⟨l.expiresAt, by simp [added, other, swept]⟩
  · have other : id ≠ id' := fun same => unreleased (by rw [call, same])
    exact ⟨l.expiresAt, by simp [dropped, other, swept]⟩
  · by_cases here : id = id'
    · subst here
      cases found.symm.trans live.1
      exact ⟨c.stamp + ttl, by simp [moved, MemoryBackend.restamp]⟩
    · exact ⟨l.expiresAt, by simp [moved, MemoryBackend.restamp, here, swept]⟩

private theorem Reached.run_keeps (reached : Reached used b) (found : b.locks id = some l)
    (orderly : b.Orderly t calls) (fresh : (used ++ drawn calls).Nodup) (kept : b.Kept id calls) :
    ∃ e, (b.run calls).locks id = some { l with expiresAt := e } := by
  induction calls generalizing b used t l with
  | nil => exact ⟨_, found⟩
  | cons c rest ih =>
    obtain ⟨-, covers, tail⟩ := orderly
    obtain ⟨unreleased, lasts, later⟩ := kept
    rw [append_drawn_cons] at fresh
    have known := reached.ids id (by simp [found])
    obtain ⟨e, stays⟩ := reached.indexed.step_keeps covers found
      (fun rand => rand_notMem fresh rand known) unreleased (lasts l found)
    have next := ih (reached.step covers fun id => rand_notMem fresh) stays tail fresh later
    exact next

/-- An id answered as acquired holds the lock asked for until a call releases it or finds its time come. -/
theorem acquired_holds {t₀ : ℤ} (orderly : newMemoryBackend.Orderly t₀ (before ++ c :: after))
    (fresh : (drawn (before ++ c :: after)).Nodup)
    (granted : ((newMemoryBackend.run before).step c).1 = .acquired id)
    (kept : ((newMemoryBackend.run before).step c).2.Kept id after) :
    ∃ l e, Asks c l ∧
      (newMemoryBackend.run (before ++ c :: after)).locks id = some { l with expiresAt := e } := by
  rw [drawn_append, append_drawn_cons] at fresh
  obtain ⟨first, -, covers, tail⟩ := orderly.append
  have reached := reached_run first (nodup_append.mp (nodup_append.mp fresh).1).1
  obtain ⟨-, l, asks, found⟩ := reached.indexed.step_acquired covers.1 covers.2 granted
  obtain ⟨e, stays⟩ := (reached.step covers fun id => rand_notMem fresh).run_keeps found tail fresh kept
  exact ⟨l, e, asks, by rwa [run_append]⟩

/-- One live writer of the resource and no other live lock of it, or live readers only. -/
def Excludes (b : MemoryBackend) (t : ℤ) (r : Bytes) : Prop :=
  (∃ id l, b.Live t id l ∧ l.resource = r ∧ l.shared = false ∧
      ∀ id' l', b.Live t id' l' → l'.resource = r → id' = id) ∨
    ∀ id l, b.Live t id l → l.resource = r → l.shared = true

private theorem Indexed.excludes (indexed : b.Indexed) (t : ℤ) (r : Bytes) : b.Excludes t r := by
  by_cases writer : ∃ id l, b.Live t id l ∧ l.resource = r ∧ l.shared = false
  · obtain ⟨id, l, live, same, exclusive⟩ := writer
    refine .inl ⟨id, l, live, same, exclusive, ?_⟩
    intro id' l' live' same'
    exact indexed.alone live.1 live'.1 (by rw [same', same]) exclusive
  · right
    intro id l live same
    by_contra exclusive
    exact writer ⟨id, l, live, same, by simpa using exclusive⟩

/-- The call at this place of the run and the answer it got. -/
def Answered (calls : List Call) (c : Call) (answer : Answer) : Prop :=
  ∃ before after, calls = before ++ c :: after ∧ ((newMemoryBackend.run before).step c).1 = answer

/-- The id was released in these calls, or it was granted in them and its time has come at `t`. -/
def GivenUp (calls : List Call) (t : ℤ) (id : Bytes) : Prop :=
  (∃ c, Answered calls c .released ∧ c.op = .release id) ∨
    (∃ c, Answered calls c (.acquired id)) ∧ (newMemoryBackend.run calls).Dead t id

/-- A given up id was drawn, and it is dead at a moment no later than the next call. -/
private theorem GivenUp.dead {t₀ : ℤ} (givenUp : GivenUp before t id)
    (orderly : newMemoryBackend.Orderly t₀ (before ++ after))
    (clock : (newMemoryBackend.run before).Orderly t after) (fresh : (drawn before).Nodup) :
    id ∈ drawn before ∧ ∃ t', (newMemoryBackend.run before).Dead t' id ∧
      (newMemoryBackend.run before).Orderly t' after := by
  have reach : ∀ pre c post, before = pre ++ c :: post → Reached (drawn pre) (newMemoryBackend.run pre) ∧
        (newMemoryBackend.run pre).Orderly t₀ (c :: post ++ after) := by
    rintro pre c post rfl
    rw [append_assoc] at orderly
    rw [drawn_append] at fresh
    exact ⟨reached_run orderly.append.1 (nodup_append.mp fresh).1, orderly.append.2⟩
  rcases givenUp with ⟨c, ⟨pre, post, rfl, done⟩, call⟩ | ⟨⟨c, pre, post, rfl, granted⟩, dead⟩
  · obtain ⟨reached, tail⟩ := reach pre c post rfl
    rw [drawn_append] at fresh
    obtain ⟨known, absent⟩ := reached.released tail.2.1.1 call done
    rw [append_drawn_cons] at fresh
    obtain ⟨t', -, dead, follow⟩ := Dead.run (reached.step tail.2.1 fun id => rand_notMem fresh)
      (.of_locks_eq_none absent) (mem_append_left _ known) tail.2.2.append.1 fresh
    refine ⟨by rw [drawn_append]; exact mem_append_left _ known, t', ?_, ?_⟩
    · rw [run_append]
      exact dead
    · rw [run_append]
      exact follow after tail.2.2
  · obtain ⟨reached, tail⟩ := reach pre c post rfl
    have ⟨rand, _⟩ := reached.indexed.step_acquired tail.2.1.1 tail.2.1.2 granted
    refine ⟨?_, t, dead, clock⟩
    rw [drawn_append]
    exact mem_append_right _ (mem_filterMap.mpr ⟨c, by simp, rand⟩)

/-- Readers and writers exclude each other in every run with a clock that never goes back and
identifiers that never repeat. -/
theorem readers_writers_exclude (t₀ : ℤ) (calls : List Call)
    (orderly : newMemoryBackend.Orderly t₀ calls) (fresh : (drawn calls).Nodup) :
    (∀ before after, calls = before ++ after → ∀ t r, (newMemoryBackend.run before).Excludes t r) ∧
      (∀ before c after, calls = before ++ c :: after →
        ∀ resource owner site ttl, c.op = .acquire resource owner site ttl → resource ≠ [] → owner ≠ [] →
          ((∃ holder, ((newMemoryBackend.run before).step c).1 = .busy holder) ↔
            ∃ id l, (newMemoryBackend.run before).Live c.now id l ∧ l.resource = resource)) ∧
      ∀ before middle c after, calls = before ++ (middle ++ c :: after) →
        ∀ t id, (newMemoryBackend.run before).Orderly t (middle ++ c :: after) → GivenUp before t id →
          let b := newMemoryBackend.run (before ++ middle)
          (∀ ttl, c.op = .renew id ttl → b.step c = (.expired, b.expire c.now c.order)) ∧
            (c.op = .release id → b.step c = (.notFound, b.expire c.now c.order)) ∧
            ∀ id' l', (b.expire c.now c.order).locks id' = some l' ↔ b.Live c.now id' l' := by
  refine ⟨?_, ?_, ?_⟩
  · rintro before after rfl t r
    rw [drawn_append] at fresh
    exact (reached_run orderly.append.1 (nodup_append.mp fresh).1).indexed.excludes t r
  · rintro before c after rfl resource owner site ttl call named owned
    rw [drawn_append] at fresh
    have reached := reached_run orderly.append.1 (nodup_append.mp fresh).1
    obtain ⟨-, ⟨covers, shared⟩, -⟩ := orderly.append.2
    have valid : ¬(resource = [] ∨ owner = []) := by simp [named, owned]
    have stepped : (newMemoryBackend.run before).step c =
        (newMemoryBackend.run before).acquire c resource owner site ttl := by
      simp [step, call]
    rw [stepped]
    simpa using (reached.indexed.acquire_answers covers shared valid site ttl).busy_iff
  · rintro before middle c after rfl t id clock givenUp
    rw [drawn_append, drawn_append, ← append_assoc] at fresh
    have soFar := (nodup_append.mp fresh).1
    have start := (nodup_append.mp soFar).1
    have reached := reached_run orderly.append.1 start
    obtain ⟨known, t', dead, clock'⟩ := givenUp.dead orderly clock start
    obtain ⟨t'', -, dead', follow⟩ := dead.run reached known clock'.append.1 soFar
    obtain ⟨⟨le, -⟩, ⟨covers, -⟩, -⟩ := follow _ clock'
    rw [run_append]
    obtain ⟨renewed, released⟩ := dead'.refused le covers
    exact ⟨renewed, released, fun id' l' => expire_eq_some covers⟩

/-- A writer whose time runs out before a second writer comes. -/
def takeover : List Call :=
  let ids : List Bytes := [[1], [2], [3]]
  [{ op := .acquire [114] [97] [] 10, now := 0, stamp := 0, order := ids, sharedOrder := ids,
      rand := some [1] },
    { op := .acquireShared [114] [98] [] 10, now := 5, stamp := 5, order := ids, sharedOrder := ids,
      rand := some [2] },
    { op := .acquire [114] [98] [] 10, now := 12, stamp := 12, order := ids, sharedOrder := ids,
      rand := some [3] },
    { op := .renew [1] 10, now := 13, stamp := 13, order := ids, sharedOrder := ids, rand := none }]

theorem readers_writers_exclude_takeover : newMemoryBackend.Orderly 0 takeover ∧ (drawn takeover).Nodup ∧
      (∀ t r, (newMemoryBackend.run takeover).Excludes t r) ∧
      ∃ l, (newMemoryBackend.run takeover).locks [3] = some l ∧ l.expiresAt = 22 := by
  have fresh : (drawn takeover).Nodup := by decide
  have orderly : newMemoryBackend.Orderly 0 takeover := by
    apply reached_newMemoryBackend.orderly
    · simp [takeover, Ticks]
    · exact fresh
    · decide
  exact ⟨orderly, fresh,
    (readers_writers_exclude 0 takeover orderly fresh).1 takeover [] (by simp), _, rfl, rfl⟩

end MemoryBackend

end Yarilo.Locks

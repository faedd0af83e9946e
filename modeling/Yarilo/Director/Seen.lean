import Yarilo.Library.Bytes
import Yarilo.Library.Runs

/-! # Events a director has seen

Ring delivery is redundant, so a director asks of every event whether it has applied this very event.
It remembers the sequence numbers it applied in two generations: the live one, and the one before,
which is dropped whole when the live one is full. An event a full window behind the highest one of
its origin is taken for seen.

Beside the dedup stands the one it approximates, which forgets nothing.
-/

namespace Yarilo.Director

open Library List

def seenWindow : ℕ := 4096

/-- An event by the member that issued it and that member's number for it. -/
structure EventId where
  origin : Bytes
  seq : UInt64
deriving DecidableEq

structure SeenSeqs where
  high : Bytes → Option UInt64
  cur : List EventId
  prev : List EventId
  n : ℕ

def newSeenSeqs : SeenSeqs := ⟨fun _ => none, [], [], 0⟩

namespace SeenSeqs

/-- The check against the highest sequence number; the sum wraps. -/
def tooOld (s : SeenSeqs) (e : EventId) : Bool :=
  (s.high e.origin).any fun high => decide (e.seq + UInt64.ofNat seenWindow ≤ high)

def raise (s : SeenSeqs) (e : EventId) : Bytes → Option UInt64 :=
  if (s.high e.origin).getD 0 < e.seq then
    fun origin => if origin = e.origin then some e.seq else s.high origin
  else s.high

def record (s : SeenSeqs) (e : EventId) : SeenSeqs :=
  if seenWindow < s.n + 1 then
    -- The generation swap: what was `prev` is forgotten whole.
    { high := s.raise e
      cur := []
      prev := e :: s.cur
      n := 0 }
  else
    { high := s.raise e
      cur := e :: s.cur
      prev := s.prev
      n := s.n + 1 }

def admitEvent (s : SeenSeqs) (e : EventId) : SeenSeqs × Bool :=
  if s.tooOld e then (s, false)
  else if e ∈ s.cur ∨ e ∈ s.prev then (s, false)
  else (s.record e, true)

end SeenSeqs

/-- A director's dedup, and the events it has applied, latest first. -/
structure Inbox where
  seen : SeenSeqs
  applied : List EventId

namespace Inbox

def empty : Inbox := ⟨newSeenSeqs, []⟩

/-- `handleEnvelope` as far as dedup goes: an event that is admitted is applied. -/
def receive (i : Inbox) (e : EventId) : Inbox :=
  match i.seen.admitEvent e with
  | (seen, true) => ⟨seen, e :: i.applied⟩
  | (seen, false) => ⟨seen, i.applied⟩

end Inbox

/-- The inbox after the events that came, in order. -/
def received (events : List EventId) : Inbox := events.foldl Inbox.receive Inbox.empty

/-- Some event of the same origin is a full window ahead. -/
def Behind (past : List EventId) (e : EventId) : Prop :=
  ∃ p ∈ past, p.origin = e.origin ∧ e.seq.toNat + seenWindow ≤ p.seq.toNat

instance (past : List EventId) (e : EventId) : Decidable (Behind past e) :=
  inferInstanceAs (Decidable (∃ p ∈ past, _))

/-- Every event is applied at most once, and one that is not a window behind is applied when it first
comes. -/
structure AppliedOnce (events : List EventId) : Prop where
  once : (received events).applied.Nodup
  first : ∀ before e after, events = before ++ e :: after → e ∉ before →
    ¬Behind (received before).applied e → ((received before).seen.admitEvent e).2 = true

/-! ## The dedup that forgets nothing -/

def note (past : List EventId) (e : EventId) : List EventId :=
  if e ∈ past ∨ Behind past e then past else e :: past

/-- The distinct events that came within the window, latest first. -/
def distinct (events : List EventId) : List EventId := events.foldl note []

/-- How many of the latest distinct events are remembered: the live generation and the one before. -/
def remembered (past : List EventId) : List EventId :=
  past.take (past.length % (seenWindow + 1) + (seenWindow + 1))

/-- Adding the window to the sequence number wraps, and some event of the origin is past the result. -/
def WrapsBelow (past : List EventId) (e : EventId) : Prop := 2 ^ 64 ≤ e.seq.toNat + seenWindow ∧
    ∃ p ∈ past, p.origin = e.origin ∧ 0 < p.seq ∧ e.seq.toNat + seenWindow - 2 ^ 64 ≤ p.seq.toNat

/-- What has to hold of an event that comes: when it is not a window behind, a repetition is one of
the remembered events, or wraps, and a new event does not wrap. -/
def Retained (past : List EventId) (e : EventId) : Prop := ¬Behind past e →
    (e ∈ past → e ∈ remembered past ∨ WrapsBelow past e) ∧ (e ∉ past → ¬WrapsBelow past e)

variable {past events : List EventId} {e : EventId} {m : ℕ}

theorem Behind.mono {later : List EventId} (behind : Behind past e)
    (grown : past ⊆ later) : Behind later e := by
  obtain ⟨p, member, origin, ahead⟩ := behind
  exact ⟨p, grown member, origin, ahead⟩

theorem subset_note (past : List EventId) (e : EventId) : past ⊆ note past e := by
  unfold note
  split
  · exact .refl past
  · exact subset_cons_self e past

theorem note_of_retained (dropped : e ∈ past ∨ Behind past e) :
    note past e = past := if_pos dropped

theorem note_of_new (new : e ∉ past) (near : ¬Behind past e) :
    note past e = e :: past := if_neg (by simp [new, near])

theorem distinct_concat (events : List EventId) (e : EventId) :
    distinct (events ++ [e]) = note (distinct events) e := by
  simp [distinct]

theorem received_concat (events : List EventId) (e : EventId) :
    received (events ++ [e]) = (received events).receive e := by
  simp [received]

theorem nodup_distinct (events : List EventId) : (distinct events).Nodup := by
  induction events using reverseRecOn with
  | nil => exact nodup_nil
  | append_singleton events e ih =>
    rw [distinct_concat]
    unfold note
    split
    · exact ih
    next fresh =>
    push Not at fresh
    exact nodup_cons.mpr ⟨fresh.1, ih⟩

/-- An event that came was noted, unless it was behind, and then it still is. -/
theorem mem_distinct_or_behind (came : e ∈ events) : e ∈ distinct events ∨ Behind (distinct events) e := by
  induction events using reverseRecOn with
  | nil => cases came
  | append_singleton events last ih =>
    rw [distinct_concat]
    have grown := subset_note (distinct events) last
    rcases mem_append.mp came with earlier | now
    · rcases ih earlier with noted | behind
      · exact .inl (grown noted)
      · exact .inr (behind.mono grown)
    obtain rfl := mem_singleton.mp now
    by_cases dropped : e ∈ distinct events ∨ Behind (distinct events) e
    · rw [note_of_retained dropped]
      exact dropped
    push Not at dropped
    rw [note_of_new dropped.1 dropped.2]
    exact .inl (.head _)

theorem mem_of_mem_distinct (noted : e ∈ distinct events) : e ∈ events := by
  induction events using reverseRecOn with
  | nil => cases noted
  | append_singleton events last ih =>
    rw [distinct_concat] at noted
    unfold note at noted
    split at noted
    · exact mem_append_left _ (ih noted)
    rcases mem_cons.mp noted with rfl | earlier
    · exact mem_append_right _ (.head _)
    · exact mem_append_left _ (ih earlier)

/-! ## The generations hold the latest events -/

/-- Some event of the origin is at or past the number. -/
def Reached (past : List EventId) (origin : Bytes) (seq : UInt64) : Prop :=
  ∃ p ∈ past, p.origin = origin ∧ 0 < p.seq ∧ seq ≤ p.seq

/-- The dedup that has admitted the events `past`, latest first. -/
structure Tracks (s : SeenSeqs) (past : List EventId) : Prop where
  count : s.n = past.length % (seenWindow + 1)
  cur : s.cur = past.take s.n
  prev : s.prev = (past.drop s.n).take (seenWindow + 1)
  high : ∀ origin seq, (∃ top, s.high origin = some top ∧ seq ≤ top) ↔ Reached past origin seq

namespace Tracks

variable {s : SeenSeqs}

theorem empty : Tracks newSeenSeqs [] where
  count := rfl
  cur := rfl
  prev := rfl
  high origin seq := by
    constructor
    · rintro ⟨top, known, -⟩
      cases known
    · rintro ⟨p, member, -⟩
      cases member

theorem remembers (t : Tracks s past) : e ∈ s.cur ∨ e ∈ s.prev ↔ e ∈ remembered past := by
  rw [t.cur, t.prev, remembered, ← t.count, ← mem_append, ← take_add]

theorem raise (t : Tracks s past) (origin : Bytes) (seq : UInt64) :
    (∃ top, s.raise e origin = some top ∧ seq ≤ top) ↔ Reached (e :: past) origin seq := by
  have split : Reached (e :: past) origin seq ↔
      (e.origin = origin ∧ 0 < e.seq ∧ seq ≤ e.seq) ∨ Reached past origin seq := by
    simp [Reached]
  rw [split, ← t.high origin seq]
  unfold SeenSeqs.raise
  split
  · next above =>
    by_cases own : origin = e.origin
    · subst own
      simp only [if_true, Option.some.injEq, exists_eq_left', true_and]
      constructor
      · intro below
        exact .inl ⟨UInt64.lt_of_le_of_lt UInt64.zero_le above, below⟩
      · rintro (⟨-, below⟩ | ⟨top, known, below⟩)
        · exact below
        · rw [known] at above
          exact UInt64.le_trans below (UInt64.le_of_lt above)
    · have other : ¬e.origin = origin := fun same => own same.symm
      simp [own, other]
  · next below =>
    constructor
    · exact .inr
    · rintro (⟨rfl, positive, upTo⟩ | known)
      · rcases top : s.high e.origin with _ | high
        · rw [top] at below
          exact absurd positive below
        · rw [top] at below
          exact ⟨high, rfl, UInt64.le_trans upTo (UInt64.not_lt.mp below)⟩
      · exact known

theorem record (t : Tracks s past) : Tracks (s.record e) (e :: past) := by
  have bounded : s.n < seenWindow + 1 := by
    rw [t.count]
    exact Nat.mod_lt _ (by decide)
  unfold SeenSeqs.record
  split
  · next full =>
    -- The live generation is complete, and becomes the one before.
    have last : s.n = seenWindow := by omega
    refine ⟨?_, rfl, ?_, t.raise⟩
    · rw [length_cons, Nat.add_mod, ← t.count, last]
      rfl
    · simp [t.cur, last]
  · next room =>
    refine ⟨?_, ?_, ?_, t.raise⟩
    · rw [length_cons, Nat.add_mod, ← t.count]
      exact (Nat.mod_eq_of_lt (show s.n + 1 < seenWindow + 1 by omega)).symm
    · simp [t.cur]
    · simp [t.prev]

theorem tooOld (t : Tracks s past) :
    s.tooOld e = true ↔ Reached past e.origin (e.seq + .ofNat seenWindow) := by
  rw [← t.high, SeenSeqs.tooOld, Option.any_eq_true]
  simp

end Tracks

/-- The check with its wrapping sum, in two parts. -/
theorem reached_iff :
    Reached past e.origin (e.seq + .ofNat seenWindow) ↔ Behind past e ∨ WrapsBelow past e := by
  have sum : (e.seq + .ofNat seenWindow).toNat = (e.seq.toNat + 4096) % 2 ^ 64 := by
    rw [UInt64.toNat_add]
    rfl
  have zero : (0 : UInt64).toNat = 0 := rfl
  have bound := e.seq.toNat_lt
  simp only [Reached, Behind, WrapsBelow, UInt64.le_iff_toNat_le, UInt64.lt_iff_toNat_lt, sum, zero]
  simp only [seenWindow]
  constructor
  · rintro ⟨p, member, origin, positive, upTo⟩
    by_cases wraps : 2 ^ 64 ≤ e.seq.toNat + 4096
    · exact .inr ⟨wraps, p, member, origin, positive, by omega⟩
    · exact .inl ⟨p, member, origin, by omega⟩
  · rintro (⟨p, member, origin, ahead⟩ | ⟨wraps, p, member, origin, positive, upTo⟩)
    · have top := p.seq.toNat_lt
      exact ⟨p, member, origin, by omega, by omega⟩
    · exact ⟨p, member, origin, positive, by omega⟩

namespace Tracks

variable {s : SeenSeqs}

theorem admit_refused (t : Tracks s past)
    (known : Behind past e ∨ WrapsBelow past e ∨ e ∈ remembered past) : s.admitEvent e = (s, false) := by
  unfold SeenSeqs.admitEvent
  split
  · rfl
  next recent =>
  rw [t.tooOld, reached_iff, not_or] at recent
  rw [if_pos (t.remembers.mpr (known.resolve_left recent.1 |>.resolve_left recent.2))]

theorem admit_taken (t : Tracks s past) (near : ¬Behind past e) (plain : ¬WrapsBelow past e)
    (unknown : e ∉ remembered past) : s.admitEvent e = (s.record e, true) := by
  unfold SeenSeqs.admitEvent
  rw [if_neg, if_neg]
  · rwa [t.remembers]
  · rw [t.tooOld, reached_iff]
    simp [near, plain]

end Tracks

theorem mem_of_mem_remembered (member : e ∈ remembered past) : e ∈ past := List.mem_of_mem_take member

/-- The inbox does what the dedup does that forgets nothing. -/
structure Inbox.Ideal (i : Inbox) (past : List EventId) : Prop where
  tracks : Tracks i.seen past
  applied : i.applied = past

namespace Inbox.Ideal

variable {i : Inbox}

theorem receive (ideal : i.Ideal past) (retained : Retained past e) : (i.receive e).Ideal (note past e) := by
  by_cases near : ¬Behind past e
  · obtain ⟨repeated, new⟩ := retained near
    by_cases known : e ∈ past
    · have refused : i.seen.admitEvent e = (i.seen, false) := by
        apply ideal.tracks.admit_refused
        rcases repeated known with kept | wraps
        · exact .inr (.inr kept)
        · exact .inr (.inl wraps)
      rw [note_of_retained (.inl known)]
      simp only [Inbox.receive, refused]
      exact ideal
    · have taken : i.seen.admitEvent e = (i.seen.record e, true) :=
        ideal.tracks.admit_taken near (new known) fun kept => known (mem_of_mem_remembered kept)
      rw [note_of_new known near]
      simp only [Inbox.receive, taken]
      exact ⟨ideal.tracks.record, by rw [ideal.applied]⟩
  · have behind := not_not.mp near
    have refused : i.seen.admitEvent e = (i.seen, false) := ideal.tracks.admit_refused (.inl behind)
    rw [note_of_retained (.inr behind)]
    simp only [Inbox.receive, refused]
    exact ideal

end Inbox.Ideal

/-- Every event that comes is retained in the events before it. -/
def AllRetained (events : List EventId) : Prop :=
  ∀ before e after, events = before ++ e :: after → Retained (distinct before) e

theorem AllRetained.ideal (all : AllRetained events) : (received events).Ideal (distinct events) := by
  induction events using reverseRecOn with
  | nil => exact ⟨.empty, rfl⟩
  | append_singleton events e ih =>
    obtain ⟨earlier, last⟩ := eachStep_concat.mp all
    rw [received_concat, distinct_concat]
    exact (ih earlier).receive last

theorem AllRetained.before {before after : List EventId} (all : AllRetained events)
    (eq : events = before ++ e :: after) : AllRetained before := by
  subst eq
  exact EachStep.left all

theorem AllRetained.appliedOnce (all : AllRetained events) : AppliedOnce events := by
  constructor
  · rw [all.ideal.applied]
    exact nodup_distinct events
  · intro before e after eq new near
    have ideal := (all.before eq).ideal
    rw [ideal.applied] at near
    have unknown : e ∉ distinct before := fun noted => new (mem_of_mem_distinct noted)
    have retained := (all before e after eq near).2 unknown
    rw [ideal.tracks.admit_taken near retained fun kept => unknown (mem_of_mem_remembered kept)]

theorem AppliedOnce.of_concat (once : AppliedOnce (events ++ [e])) : AppliedOnce events := by
  constructor
  · have nodup := once.once
    rw [received_concat] at nodup
    unfold Inbox.receive at nodup
    split at nodup
    · exact (nodup_cons.mp nodup).2
    · exact nodup
  · exact (eachStep_concat.mp once.first).1

/-- An event that is not retained is applied twice, or not when it first comes. -/
theorem AppliedOnce.retained (once : AppliedOnce (events ++ [e]))
    (ideal : (received events).Ideal (distinct events)) : Retained (distinct events) e := by
  intro near
  constructor
  · intro known
    by_contra lost
    push Not at lost
    have taken := ideal.tracks.admit_taken near lost.2 lost.1
    have nodup := once.once
    simp only [received_concat, Inbox.receive, taken, ideal.applied] at nodup
    exact (nodup_cons.mp nodup).1 known
  · intro unknown wraps
    have new : e ∉ events := fun came => (mem_distinct_or_behind came).elim unknown near
    have first := (eachStep_concat.mp once.first).2 new (by rwa [ideal.applied])
    rw [ideal.tracks.admit_refused (.inr (.inl wraps))] at first
    cases first

theorem AppliedOnce.allRetained (once : AppliedOnce events) : AllRetained events := by
  induction events using reverseRecOn with
  | nil => exact eachStep_nil
  | append_singleton events e ih =>
    have earlier := ih once.of_concat
    exact eachStep_concat.mpr ⟨earlier, once.retained earlier.ideal⟩

/-- Every event is applied at most once and, within the window, when it first comes, exactly when
every event that comes is retained. -/
theorem appliedOnce_iff (events : List EventId) : AppliedOnce events ↔ AllRetained events :=
  ⟨AppliedOnce.allRetained, AllRetained.appliedOnce⟩

theorem tracks_received (events : List EventId) : Tracks (received events).seen (received events).applied ∧
    ∀ k, (((received events).applied.drop k).take (seenWindow + 2)).Nodup := by
  induction events using reverseRecOn with
  | nil => exact ⟨.empty, fun k => by simp [received, Inbox.empty]⟩
  | append_singleton events e ih =>
    rw [received_concat]
    unfold Inbox.receive SeenSeqs.admitEvent
    split_ifs with old known
    · exact ih
    · exact ih
    obtain ⟨tracks, apart⟩ := ih
    refine ⟨tracks.record, fun k => ?_⟩
    cases k with
    | succ k => exact apart k
    | zero =>
      rw [drop_zero, show seenWindow + 2 = seenWindow + 1 + 1 from rfl, take_succ_cons]
      rw [tracks.remembers, remembered] at known
      refine nodup_cons.mpr ⟨fun again => known ?_, ?_⟩
      · exact take_subset_take_left _ (by omega) again
      · exact (take_sublist_take_left (by omega)).nodup (apart 0)

/-- The dedup holds two generations at most, and what it applies again came behind more than a window
of others. -/
theorem reapplied_behind_window (events : List EventId) :
    (received events).seen.cur.length + (received events).seen.prev.length ≤ 2 * seenWindow + 1 ∧
      ∀ k, (((received events).applied.drop k).take (seenWindow + 2)).Nodup := by
  obtain ⟨tracks, apart⟩ := tracks_received events
  refine ⟨?_, apart⟩
  have full : (received events).seen.n < seenWindow + 1 := tracks.count ▸ Nat.mod_lt _ (by decide)
  rw [tracks.prev, tracks.cur]
  simp only [length_take]
  omega

/-- An event of one member, and then the first `m` events of another. -/
def crowded (m : ℕ) : List EventId := ⟨[65], 1⟩ :: (List.range m).map fun k => ⟨[66], UInt64.ofNat (k + 1)⟩

theorem mem_crowded (member : e ∈ crowded m) : e = ⟨[65], 1⟩ ∨ ∃ k < m, e = ⟨[66], .ofNat (k + 1)⟩ := by
  rcases mem_cons.mp member with rfl | later
  · exact .inl rfl
  · obtain ⟨k, below, rfl⟩ := mem_map.mp later
    exact .inr ⟨k, mem_range.mp below, rfl⟩

theorem distinct_crowded (small : m < 2 ^ 64 - 1) : distinct (crowded m) = (crowded m).reverse := by
  induction m with
  | zero => decide
  | succ m ih =>
    have value {k : ℕ} (below : k ≤ m) : (UInt64.ofNat (k + 1)).toNat = k + 1 :=
      UInt64.toNat_ofNat_of_lt' (by simp [UInt64.size]; omega)
    have grown : crowded (m + 1) = crowded m ++ [⟨[66], .ofNat (m + 1)⟩] := by
      simp [crowded, range_succ]
    rw [grown, distinct_concat, ih (by omega), note_of_new, reverse_append]
    · rfl
    · intro known
      rcases mem_crowded (mem_reverse.mp known) with same | ⟨k, below, same⟩
      · cases same
      have equal := congrArg (fun e : EventId => e.seq.toNat) same
      simp only [value (le_refl m), value (le_of_lt below)] at equal
      omega
    · rintro ⟨p, known, origin, ahead⟩
      rcases mem_crowded (mem_reverse.mp known) with rfl | ⟨k, below, rfl⟩
      · cases origin
      · simp only [value (le_refl m), value (le_of_lt below)] at ahead
        omega

/-- A member that issues many events makes the director forget the only event of another, and apply
it again. Close to the largest number the window wraps, and a new event is refused. -/
theorem busy_member_repeats_event : ¬AppliedOnce (crowded 8194 ++ [⟨[65], 1⟩]) ∧
      ¬AppliedOnce [⟨[65], 18446744073709551615⟩, ⟨[65], 18446744073709551614⟩] := by
  constructor
  · intro once
    obtain ⟨-, retained⟩ := eachStep_concat.mp once.allRetained
    rw [distinct_crowded (by decide)] at retained
    have near : ¬Behind (crowded 8194).reverse ⟨[65], 1⟩ := by
      rintro ⟨p, known, origin, ahead⟩
      rcases mem_crowded (mem_reverse.mp known) with rfl | ⟨k, below, rfl⟩
      · exact absurd ahead (by decide)
      · cases origin
    have known : (⟨[65], 1⟩ : EventId) ∈ (crowded 8194).reverse := mem_reverse.mpr (.head _)
    have length : (crowded 8194).reverse.length = 8195 := by simp [crowded]
    rcases (retained near).1 known with kept | ⟨wraps, -⟩
    · have latest : remembered (crowded 8194).reverse =
          ((range 8194).map fun k => (⟨[66], .ofNat (k + 1)⟩ : EventId)).reverse.take 4098 := by
        rw [remembered, length, crowded, reverse_cons]
        exact take_append_of_le_length (by simp [seenWindow])
      rw [latest] at kept
      obtain ⟨k, -, same⟩ := mem_map.mp (mem_reverse.mp (mem_of_mem_take kept))
      cases same
    · exact absurd wraps (by decide)
  · intro once
    have first := once.first [⟨[65], 18446744073709551615⟩] ⟨[65], 18446744073709551614⟩ [] rfl
      (by decide) (by decide)
    exact absurd first (by decide)

end Yarilo.Director

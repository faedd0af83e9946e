import Yarilo.Director.Seen

/-! # Events in order

The dedup lets events of one member come in any order, so an event about an object is refused if a
later one of the same member has been applied. What was applied last is kept for each object in two
generations, and the older one is dropped whole once the live one has too many keys: an old event
about an object that both have lost is applied.
-/

namespace Yarilo.Director

open Library List Option

/-- Two maps from keys to sequence numbers, and how many keys the live one has. -/
structure OrderGuard where
  last : Bytes → Option UInt64
  size : ℕ
  prev : Bytes → Option UInt64

namespace OrderGuard

def admits (g : OrderGuard) (key : Bytes) (seq : UInt64) : OrderGuard × Bool :=
  if (g.last key).any (seq ≤ ·) then (g, false)
  else if (g.prev key).any (seq ≤ ·) then (g, false)
  else
    let last := Function.update g.last key (some seq)
    let size := if (g.last key).isSome then g.size else g.size + 1
    (if seenWindow < size then ⟨fun _ => none, 0, last⟩ else ⟨last, size, g.prev⟩, true)

/-- What the guard knows of a key. -/
def get (g : OrderGuard) (key : Bytes) : Option UInt64 := (g.last key).or (g.prev key)

/-- A key that is refused is known; one that is admitted was behind, and no other key is learnt. -/
private theorem admits_cases (g : OrderGuard) (key : Bytes) (seq : UInt64) :
    (g.get key ≠ none ∧ g.admits key seq = (g, false)) ∨
      ∃ g', g.admits key seq = (g', true) ∧ (∀ v, g.get key = some v → v < seq) ∧
        g'.get key = some seq ∧ ∀ other ≠ key, ∀ v, g'.get other = some v → g.get other = some v := by
  unfold admits get
  split
  · next old =>
    refine .inl ⟨fun unknown => ?_, rfl⟩
    simp [(or_eq_none_iff.mp unknown).1] at old
  next recent =>
  split
  · next old =>
    refine .inl ⟨fun unknown => ?_, rfl⟩
    simp [(or_eq_none_iff.mp unknown).2] at old
  next newer =>
  generalize (if (g.last key).isSome then g.size else g.size + 1) = size
  refine .inr ⟨_, rfl, fun v known => ?_, ?_, fun other apart v => ?_⟩
  · rcases or_eq_some_iff.mp known with live | ⟨-, before⟩
    · simpa [live] using recent
    · simpa [before] using newer
  · split <;> simp
  · split <;> simp +contextual [apart]

/-- Keys cut into stretches, latest first: those since the last one ended and those of the last one. A
stretch ends once more than a window of different keys has come. -/
def stretches : List Bytes → List Bytes × List Bytes
  | [] => ([], [])
  | key :: earlier =>
    let (live, before) := stretches earlier
    if seenWindow < (key :: live).dedup.length then ([], key :: live) else (key :: live, before)

/-- The guard has the keys of the last two stretches. -/
structure Tracks (g : OrderGuard) (keys : List Bytes) : Prop where
  last : ∀ key, g.last key ≠ none ↔ key ∈ (stretches keys).1
  prev : ∀ key, g.prev key ≠ none ↔ key ∈ (stretches keys).2
  size : g.size = (stretches keys).1.dedup.length

private theorem Tracks.admits {g g' : OrderGuard} {keys : List Bytes} {key : Bytes} {seq : UInt64}
    (tracks : g.Tracks keys) (taken : g.admits key seq = (g', true)) : g'.Tracks (key :: keys) := by
  have grown (other : Bytes) : Function.update g.last key (some seq) other ≠ none ↔
      other ∈ key :: (stretches keys).1 := by
    by_cases own : other = key <;> simp [own, ← tracks.last]
  have size : (if (g.last key).isSome then g.size else g.size + 1) =
      (key :: (stretches keys).1).dedup.length := by
    by_cases known : g.last key = none
    · rw [dedup_cons_of_notMem (by simp [← tracks.last, known])]
      simp [known, tracks.size]
    · rw [dedup_cons_of_mem ((tracks.last key).mp known), if_pos (isSome_iff_ne_none.mpr known), tracks.size]
  unfold OrderGuard.admits at taken
  split at taken
  · cases taken
  split at taken
  · cases taken
  simp only [Prod.mk.injEq, and_true] at taken
  rw [← taken, size]
  have cut : stretches (key :: keys) = if seenWindow < (key :: (stretches keys).1).dedup.length then
      ([], key :: (stretches keys).1) else (key :: (stretches keys).1, (stretches keys).2) := rfl
  split
  · next full =>
    rw [if_pos full] at cut
    exact ⟨by simp [cut], by simpa [cut] using grown, by simp [cut]⟩
  · next room =>
    rw [if_neg room] at cut
    exact ⟨by simpa [cut] using grown, by simpa [cut] using tracks.prev, by simp [cut]⟩

end OrderGuard

/-- The guard, and the events that were applied, latest first. -/
structure Ordered (α : Type*) where
  guard : OrderGuard
  past : List α

section Runs

variable {α : Type*} (key : α → Option Bytes) (seq : α → UInt64)

/-- An event without a key is applied as it comes. -/
def Ordered.receive (s : Ordered α) (e : α) : Ordered α :=
  match key e with
  | none => { s with past := e :: s.past }
  | some k =>
    match s.guard.admits k (seq e) with
    | (guard, true) => ⟨guard, e :: s.past⟩
    | (_, false) => s

variable (events : List α)

def Ordered.run : Ordered α :=
  events.foldl (receive key seq) ⟨⟨fun _ => none, 0, fun _ => none⟩, []⟩

/-- The numbers of the applied events of each key increase. -/
def Forward (past : List α) : Prop :=
  past.Pairwise fun later earlier => key later ≠ none → key later = key earlier → seq earlier < seq later

/-- When an event comes after a later one of its key was applied, the key was applied in one of the last two
stretches. -/
def Recent (past : List α) (e : α) : Prop :=
  ∀ k, key e = some k → (∃ p ∈ past, key p = some k ∧ seq e ≤ seq p) →
    k ∈ (OrderGuard.stretches (past.filterMap key)).1 ∨ k ∈ (OrderGuard.stretches (past.filterMap key)).2

/-- So the guard knows the key. -/
def Ordered.Knows (s : Ordered α) (e : α) : Prop :=
  ∀ k, key e = some k → (∃ p ∈ s.past, key p = some k ∧ seq e ≤ seq p) → s.guard.get k ≠ none

/-- What the guard knows of a key is the highest number applied. -/
structure Ordered.Sound (s : Ordered α) : Prop where
  forward : Forward key seq s.past
  tops : ∀ k v, s.guard.get k = some v → ∀ p ∈ s.past, key p = some k → seq p ≤ v

variable {key seq} {s : Ordered α} {e : α}

private theorem Ordered.Sound.receive (sound : s.Sound key seq) (knows : s.Knows key seq e) :
    (s.receive key seq e).Sound key seq := by
  unfold Ordered.receive
  split
  · next free =>
    refine ⟨pairwise_cons.mpr ⟨fun _ _ named => absurd free named, sound.forward⟩, ?_⟩
    intro k v known p member named
    rcases mem_cons.mp member with rfl | earlier
    · cases free.symm.trans named
    · exact sound.tops k v known p earlier named
  next k named =>
  rcases s.guard.admits_cases k (seq e) with ⟨-, refused⟩ | ⟨g, taken, behind, top, others⟩
  · rw [refused]
    exact sound
  rw [taken]
  have above {p : α} (member : p ∈ s.past) (same : key p = some k) : seq p < seq e := by
    by_contra late
    have late := UInt64.not_lt.mp late
    obtain ⟨v, known⟩ := ne_none_iff_exists'.mp (knows k named ⟨p, member, same, late⟩)
    exact UInt64.not_lt.mpr (UInt64.le_trans late (sound.tops k v known p member same)) (behind v known)
  refine ⟨pairwise_cons.mpr ⟨fun p member _ same => ?_, sound.forward⟩, ?_⟩
  · exact above member (same.symm.trans named)
  intro k' v known p member same
  by_cases own : k' = k
  · subst own
    cases top.symm.trans known
    rcases mem_cons.mp member with rfl | earlier
    · exact UInt64.le_refl _
    · exact UInt64.le_of_lt (above earlier same)
  · rcases mem_cons.mp member with rfl | earlier
    · cases own (some.inj (same.symm.trans named))
    · exact sound.tops k' v (others k' own v known) p earlier same

private theorem Ordered.suffix_receive (s : Ordered α) (e : α) : s.past <:+ (s.receive key seq e).past := by
  unfold receive
  split
  · exact suffix_cons ..
  · split
    · exact suffix_cons ..
    · exact suffix_refl _

private theorem knows_of_forward (forward : Forward key seq (s.receive key seq e).past) :
    s.Knows key seq e := by
  rintro k named ⟨p, member, same, late⟩ unknown
  rcases s.guard.admits_cases k (seq e) with ⟨known, -⟩ | ⟨g, taken, -⟩
  · exact known unknown
  · simp only [Ordered.receive, named, taken] at forward
    have ahead := (pairwise_cons.mp forward).1 p member (by simp [named]) (named.trans same.symm)
    exact UInt64.not_lt.mpr late ahead

private theorem Ordered.run_concat (before : List α) (e : α) :
    run key seq (before ++ [e]) = (run key seq before).receive key seq e := by
  simp [run]

private theorem tracks_run :
    (Ordered.run key seq events).guard.Tracks ((Ordered.run key seq events).past.filterMap key) := by
  induction events using reverseRecOn with
  | nil => exact ⟨fun _ => by simp [Ordered.run, OrderGuard.stretches],
      fun _ => by simp [Ordered.run, OrderGuard.stretches], rfl⟩
  | append_singleton before e ih =>
    rw [Ordered.run_concat]
    unfold Ordered.receive
    split
    · next free => simpa [free] using ih
    next k named =>
    split
    · next taken => simpa [named] using ih.admits taken
    · exact ih

private theorem knows_run_iff (e : α) : (Ordered.run key seq events).Knows key seq e ↔
    Recent key seq (Ordered.run key seq events).past e := by
  have tracks : (Ordered.run key seq events).guard.Tracks _ := tracks_run events
  refine forall_congr' fun k => imp_congr_right fun _ => imp_congr_right fun _ => ?_
  rw [← tracks.last, ← tracks.prev, OrderGuard.get, ne_eq, or_eq_none_iff, not_and_or]

private theorem forward_run_iff : Forward key seq (Ordered.run key seq events).past ↔
      EachStep (fun before e => Recent key seq (Ordered.run key seq before).past e) events := by
  simp only [← knows_run_iff]
  constructor
  · intro forward
    induction events using reverseRecOn with
    | nil => exact eachStep_nil
    | append_singleton before e ih =>
      rw [Ordered.run_concat] at forward
      exact eachStep_concat.mpr
        ⟨ih (forward.sublist (Ordered.suffix_receive ..).sublist), knows_of_forward forward⟩
  · intro each
    have sound : (Ordered.run key seq events).Sound key seq :=
      EachStep.induction (I := fun before => (Ordered.run key seq before).Sound key seq) each ⟨.nil, nofun⟩
        fun before e sound knows => Ordered.run_concat before e ▸ sound.receive knows
    exact sound.forward

end Runs

/-! ## Envelopes -/

inductive EnvelopeKind where
  | sessionOpen
  | sessionClose
  | userKilling
  | userKillDone
  | userKicked
  | directorAdd
  | directorRemove
  | other

/-- An envelope as it comes off the ring. -/
structure WireEnvelope where
  kind : EnvelopeKind
  payload : List Bytes
  origin : Bytes
  seq : UInt64

/-- The object an envelope is about, with the words `sess:`, `kill:`, `kick:` and `member:`. -/
def envelopeObject : EnvelopeKind → List Bytes → Bytes
  | .sessionOpen, id :: _ => [115, 101, 115, 115, 58] ++ id
  | .sessionClose, id :: _ => [115, 101, 115, 115, 58] ++ id
  | .userKilling, hash :: _ => [107, 105, 108, 108, 58] ++ hash
  | .userKillDone, hash :: _ => [107, 105, 108, 108, 58] ++ hash
  | .userKicked, user :: _ => [107, 105, 99, 107, 58] ++ user
  | .directorAdd, ip :: port :: _ => [109, 101, 109, 98, 101, 114, 58] ++ ip ++ 58 :: port
  | .directorRemove, ip :: port :: _ => [109, 101, 109, 98, 101, 114, 58] ++ ip ++ 58 :: port
  | _, _ => []

/-- The key of the guard, with the origin behind an at sign; an envelope about nothing has none. -/
def WireEnvelope.key (w : WireEnvelope) : Option Bytes :=
  match envelopeObject w.kind w.payload with
  | [] => none
  | object => some (object ++ 64 :: w.origin)

/-- The numbers admitted for a key increase, and so do those of the envelopes applied of an origin
about an object, exactly if the key of everything that comes late was applied in the last two stretches. -/
theorem objects_go_forward_iff (events : List (Bytes × UInt64)) (wires : List WireEnvelope) :
    ((Ordered.run (some ·.1) (·.2) events).past.Pairwise (fun later earlier =>
          later.1 = earlier.1 → earlier.2 < later.2) ↔
        EachStep (fun before e => Recent (some ·.1) (·.2) (Ordered.run (some ·.1) (·.2) before).past e) events) ∧
      ((Ordered.run WireEnvelope.key (·.seq) wires).past.Pairwise (fun later earlier =>
          later.key ≠ none → later.key = earlier.key → earlier.seq < later.seq) ↔
        EachStep (fun before e =>
          Recent WireEnvelope.key (·.seq) (Ordered.run WireEnvelope.key (·.seq) before).past e) wires) := by
  refine ⟨?_, forward_run_iff wires⟩
  rw [← forward_run_iff]
  simp [Forward]

/-- A number of one key, and then of `m` other keys. -/
def crowdedKeys (m : ℕ) : List (Bytes × UInt64) :=
  ([], 2) :: (List.range m).map fun k => (List.replicate (k + 1) 65, 1)

private theorem run_crowdedKeys (m : ℕ) :
    let s := Ordered.run (some ·.1) (·.2) (crowdedKeys m)
    s.guard.size = (m + 1) % (seenWindow + 1) ∧ ([], 2) ∈ s.past ∧
      (∀ k ≥ m, s.guard.get (List.replicate (k + 1) 65) = none) ∧
      (4096 ≤ m → s.guard.last [] = none) ∧ (8193 ≤ m → s.guard.prev [] = none) := by
  induction m with
  | zero => exact ⟨rfl, .head _, fun _ _ => rfl, nofun, nofun⟩
  | succ m ih =>
    obtain ⟨size, first, fresh, live, before⟩ := ih
    have grown : crowdedKeys (m + 1) = crowdedKeys m ++ [(replicate (m + 1) 65, 1)] := by
      simp [crowdedKeys, range_succ]
    obtain ⟨unknown, gone⟩ := or_eq_none_iff.mp (fresh m le_rfl)
    have apart {k : ℕ} (later : m + 1 ≤ k) : replicate (k + 1) 65 ≠ replicate (m + 1) (65 : UInt8) :=
      fun same => absurd (congrArg length same) (by simp; omega)
    rw [grown, Ordered.run_concat]
    simp only [Ordered.receive, OrderGuard.admits, unknown, gone, size, any_none, isSome_none,
      Bool.false_eq_true, if_false, seenWindow]
    split
    · next full =>
      refine ⟨by dsimp only; omega, .tail _ first, fun k later => ?_, fun _ => rfl, fun many => ?_⟩
      · have none := fresh k (by omega)
        simp_all [OrderGuard.get, apart later]
      · simpa using live (by omega)
    · next room =>
      refine ⟨by dsimp only; omega, .tail _ first, fun k later => ?_,
        fun many => ?_, fun many => before (by omega)⟩
      · have none := fresh k (by omega)
        simp_all [OrderGuard.get, apart later]
      · simpa using live (by omega)

/-- Events about other objects make the guard forget a key, and an old event is admitted again. -/
theorem crowded_key_goes_back :
    ¬(Ordered.run (some ·.1) (·.2) (crowdedKeys 8193 ++ [([], 1)])).past.Pairwise fun later earlier =>
      later.1 = earlier.1 → earlier.2 < later.2 := by
  have forgotten (m : ℕ) (many : 8193 ≤ m) :
      ¬Forward (some ·.1) (·.2) (Ordered.run (some ·.1) (·.2) (crowdedKeys m ++ [([], 1)])).past := by
    rw [Ordered.run_concat]
    intro forward
    obtain ⟨-, first, -, live, before⟩ := run_crowdedKeys m
    refine knows_of_forward forward [] rfl ⟨([], 2), first, rfl, by decide⟩ ?_
    rw [OrderGuard.get, live (by omega), before many]
    rfl
  intro increasing
  exact forgotten 8193 le_rfl (increasing.imp fun ahead _ same => ahead (some.inj same))

end Yarilo.Director

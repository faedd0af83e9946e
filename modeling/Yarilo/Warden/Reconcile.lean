import Mathlib.Data.List.Nodup
import Yarilo.Library.Runs
import Yarilo.Warden.Counters

/-! # Counters that are not too low

A pass takes off a counter what it has more than the tally. The counter stays at or above the sessions
it counts where the tally is at least the sessions at the moment the counter is read, and where nothing
but sessions that come and go moves the counter from then on.
-/

namespace Yarilo.Warden

open Library Store Function
open List hiding count

/-! ## What the commands do to sessions and counters -/

namespace Store

variable {st : Store} {s t : Session} {id key : Bytes} {limit n : ℤ}

/-- The sessions of a user and address that a pass has met. -/
def liveAmong (st : Store) (met : List Bytes) (key : Bytes) : ℕ :=
  st.sess.countP fun s => decide (s.owner = key ∧ s.id ∈ met)

theorem count_decrBy (k : Bytes) :
    (st.decrBy key n).count k = if k = key then max 0 (st.count key - n) else st.count k := by
  unfold count decrBy
  by_cases same : k = key
  · subst same
    simp only [update_self, if_true]
    split
    · next low =>
      rw [count] at low
      simp only [Option.getD_none]
      omega
    · next high =>
      rw [count] at high ⊢
      simp only [Option.getD_some]
      omega
  · simp [same]

/-- A session that is met is at most one more. -/
theorem liveAmong_cons (owned : st.ownerOf id = some key) (met : List Bytes) (k : Bytes) :
    st.liveAmong (id :: met) k ≤ st.liveAmong met k + if k = key then 1 else 0 := by
  obtain ⟨t, found, rfl⟩ := Option.map_eq_some_iff.mp owned
  obtain ⟨before, after, split⟩ := append_of_mem (mem_of_find?_eq_some found)
  have same : t.id = id := by simpa using find?_some found
  have keyed := st.keyed
  rw [split, map_append, map_cons, nodup_middle, nodup_cons, same] at keyed
  -- No other session has the id, so the others are met as before.
  have others {l : List Session} (among : ∀ s ∈ l, s.id ∈ before.map (·.id) ++ after.map (·.id)) :
      l.countP (fun s => decide (s.owner = k ∧ s.id ∈ id :: met)) =
        l.countP fun s => decide (s.owner = k ∧ s.id ∈ met) := by
    refine countP_congr fun s member => ?_
    have apart : s.id ≠ id := fun equal => keyed.1 (equal ▸ among s member)
    simp [apart]
  simp only [liveAmong, split, countP_append, countP_cons]
  rw [others fun s member => mem_append_left _ (mem_map_of_mem member),
    others fun s member => mem_append_right _ (mem_map_of_mem member)]
  by_cases mine : t.owner = k
  · simp only [mine, if_true]
    split <;> omega
  · simp [mine]

theorem live_drop_le : (st.drop id).live key ≤ st.live key := List.filter_sublist.countP_le

theorem liveAmong_drop_le (met : List Bytes) : (st.drop id).liveAmong met key ≤ st.liveAmong met key :=
  List.filter_sublist.countP_le

/-- A session that goes is one less. -/
theorem live_drop_lt (member : t ∈ st.sess) (same : t.id = id) (owned : t.owner = key) :
    (st.drop id).live key < st.live key := by
  obtain ⟨before, after, split⟩ := append_of_mem member
  have early : (before.filter (·.id ≠ id)).countP (·.owner = key) ≤ before.countP (·.owner = key) :=
    filter_sublist.countP_le
  have late : (after.filter (·.id ≠ id)).countP (·.owner = key) ≤ after.countP (·.owner = key) :=
    filter_sublist.countP_le
  simp only [live, drop, split, filter_append, filter_cons, same, owned, countP_append,
    countP_cons, ne_eq, not_true_eq_false, decide_false, decide_true, if_false, if_true,
    Bool.false_eq_true] at early late ⊢
  omega

/-- A session that is refreshed stays the one it was, as far as it is counted. -/
theorem pairs_refresh (own : ∀ t ∈ st.sess, t.id = s.id → t.owner = s.owner) :
    (st.sess.map fun t => if t.id = s.id then s else t).map (fun t => (t.id, t.owner)) =
      st.sess.map fun t => (t.id, t.owner) := by
  rw [map_map]
  refine map_congr_left fun t member => ?_
  simp only [comp_apply]
  split
  · next same => rw [own t member same, same]
  · rfl

def pairs (st : Store) : List (Bytes × Bytes) := st.sess.map fun t => (t.id, t.owner)

theorem live_eq_pairs : st.live key = st.pairs.countP (·.2 = key) := by
  rw [pairs, countP_map]
  rfl

theorem liveAmong_eq_pairs (met : List Bytes) :
    st.liveAmong met key = st.pairs.countP fun e => decide (e.2 = key ∧ e.1 ∈ met) := by
  rw [pairs, countP_map]
  rfl

theorem connect_new (new : st.has s.id = false) (admitted : (st.connect limit s).2 = true) :
    (st.connect limit s).1.pairs = (s.id, s.owner) :: st.pairs ∧ (st.connect limit s).1.cnt =
      Function.update st.cnt s.owner (some (st.count s.owner + 1)) := by
  unfold connect at admitted ⊢
  rw [dif_pos new] at admitted ⊢
  split
  · next full =>
    rw [if_pos full] at admitted
    cases admitted
  · exact ⟨rfl, rfl⟩

theorem live_connect_new (new : st.has s.id = false) (admitted : (st.connect limit s).2 = true) (k : Bytes) :
    (st.connect limit s).1.live k = st.live k + (if s.owner = k then 1 else 0) ∧
      (st.connect limit s).1.count k = st.count k + (if s.owner = k then 1 else 0) := by
  obtain ⟨pairs, cnt⟩ := connect_new new admitted
  refine ⟨?_, ?_⟩
  · rw [live_eq_pairs, pairs, countP_cons, live_eq_pairs]
    simp
  · rw [count, cnt, count]
    by_cases same : s.owner = k
    · simp [count, same]
    · simp [count, same, Ne.symm same]

theorem pairs_connect_known (known : st.has s.id = true)
    (own : ∀ t ∈ st.sess, t.id = s.id → t.owner = s.owner) :
    (st.connect limit s).1.pairs = st.pairs ∧ (st.connect limit s).1.cnt = st.cnt := by
  unfold connect
  rw [dif_neg (by simp [known])]
  exact ⟨pairs_refresh own, rfl⟩

theorem connect_refused (new : st.has s.id = false) (refused : (st.connect limit s).2 = false) :
    (st.connect limit s).1 = st := by
  unfold connect at refused ⊢
  rw [dif_pos new] at refused ⊢
  split
  · rfl
  next free =>
  rw [if_neg free] at refused
  cases refused

/-- A session that is admitted finds its counter below the limit. -/
theorem count_lt_of_admitted (positive : 0 < limit) (new : st.has s.id = false)
    (admitted : (st.connect limit s).2 = true) : st.count s.owner < limit := by
  unfold connect at admitted
  rw [dif_pos new] at admitted
  split at admitted
  · cases admitted
  · next free => exact lt_of_not_ge fun full => free ⟨positive, full⟩

end Store

/-! ## Passes that are faithful to the store -/

/-- What a pass has tallied, and is about to take off, goes with the sessions there are. -/
structure Pass.Faithful (st : Store) (p : Pass) : Prop where
  since : ∀ e ∈ st.pairs, e.2 ∉ p.joined → e.1 ∈ p.since
  met : ∀ key ∉ p.joined, st.liveAmong p.met key ≤ p.tally key
  tallied : p.phase ≠ .tallying → ∀ key ∉ p.joined, st.live key ≤ p.tally key
  leak : p.spoiled = false → ∀ key leak, p.phase = .correcting key leak →
    (st.live key : ℤ) ≤ st.count key - leak

namespace Pass.Faithful

variable {st st' : Store} {p : Pass}

section

variable (faithful : p.Faithful st)

include faithful

/-- The store as far as sessions are counted. -/
theorem congr (pairs : st'.pairs = st.pairs) (cnt : st'.cnt = st.cnt) : p.Faithful st' where
  since := by rw [pairs]; exact faithful.since
  met key out := by
    rw [liveAmong_eq_pairs, pairs, ← liveAmong_eq_pairs]
    exact faithful.met key out
  tallied later key out := by
    rw [live_eq_pairs, pairs, ← live_eq_pairs]
    exact faithful.tallied later key out
  leak clean key leak phase := by
    rw [live_eq_pairs, pairs, ← live_eq_pairs, count, cnt]
    exact faithful.leak clean key leak phase

/-- A session that goes leaves a pass faithful, if the counters keep up with it. -/
theorem leaving (id : Bytes) {cnt : Bytes → Option ℤ}
    (keeps : ∀ key, ((st.drop id).live key : ℤ) - (cnt key).getD 0 ≤ st.live key - st.count key) :
    (p.leaving id).Faithful { st.drop id with cnt := cnt } where
  since e member out := by
    obtain ⟨t, kept, rfl⟩ := mem_map.mp member
    obtain ⟨among, apart⟩ := mem_filter.mp kept
    exact mem_filter.mpr ⟨faithful.since _ (mem_map_of_mem among) out, apart⟩
  met key out := (liveAmong_drop_le p.met).trans (faithful.met key out)
  tallied later key out := live_drop_le.trans (faithful.tallied later key out)
  leak clean key leak phase := by
    have before := faithful.leak clean key leak phase
    have now := keeps key
    change ((st.drop id).live key : ℤ) ≤ (cnt key).getD 0 - leak
    omega

/-- A session that is admitted is told to every pass. -/
theorem connect {limit : ℤ} {s : Session} (new : st.has s.id = false)
    (admitted : (st.connect limit s).2 = true) :
    (p.joining s.owner).Faithful (st.connect limit s).1 where
  since e member out := by
    rw [joining, mem_cons, not_or] at out
    rw [(connect_new new admitted).1] at member
    rcases mem_cons.mp member with rfl | before
    · exact absurd rfl out.1
    · exact faithful.since e before out.2
  met key out := by
    rw [joining, mem_cons, not_or] at out
    have unmoved : (st.connect limit s).1.liveAmong p.met key = st.liveAmong p.met key := by
      rw [liveAmong_eq_pairs, (connect_new new admitted).1, countP_cons,
        liveAmong_eq_pairs]
      simp [Ne.symm out.1]
    exact unmoved.le.trans (faithful.met key out.2)
  tallied later key out := by
    rw [joining, mem_cons, not_or] at out
    rw [(live_connect_new new admitted key).1, if_neg (Ne.symm out.1)]
    exact faithful.tallied later key out.2
  leak clean key leak phase := by
    have before := faithful.leak clean key leak phase
    obtain ⟨live, count⟩ := live_connect_new new admitted key
    rw [live, count]
    split <;> omega

/-- A session that the tally meets. -/
theorem meet (id : Bytes) (tallying : p.phase = .tallying) : (p.meet st id).Faithful st := by
  unfold Pass.meet
  split
  · exact faithful
  next key owned =>
  refine ⟨faithful.since, ?_, fun later => absurd tallying later, ?_⟩
  · intro k out
    refine (liveAmong_cons owned p.met k).trans ?_
    have before := faithful.met k out
    by_cases same : k = key
    · subst same
      simp only [update_self, if_true]
      omega
    · simpa [same] using before
  · intro clean k leak phase
    cases tallying.symm.trans phase

/-- A tally that met every session there was all the time is at least the sessions there are. -/
theorem scanned (whole : p.since ⊆ p.met) : Faithful st { p with phase := .reading } where
  since := faithful.since
  met := faithful.met
  tallied _ key out := by
    have all : st.live key = st.liveAmong p.met key := by
      rw [live_eq_pairs, liveAmong_eq_pairs]
      refine countP_congr fun e member => ?_
      simp only [decide_eq_true_eq]
      refine ⟨fun owned => ⟨owned, whole (faithful.since e member ?_)⟩, And.left⟩
      rwa [owned]
    rw [all]
    exact faithful.met key out
  leak _ _ _ phase := nomatch phase

/-- What is read of a counter is taken off as far as it is too much. -/
theorem get {key : Bytes} (reading : p.phase = .reading) (out : key ∉ p.joined) :
    (p.get st key).Faithful st := by
  unfold Pass.get
  split
  · exact faithful
  next cur held =>
  split
  · refine ⟨faithful.since, faithful.met, fun _ => faithful.tallied (by simp [reading]), ?_⟩
    intro _ key' leak phase
    cases phase
    have tally := faithful.tallied (by simp [reading]) key out
    have read : st.count key = cur := by rw [count, held, Option.getD_some]
    omega
  · exact faithful

/-- A pass that is through with a counter. -/
theorem read (later : p.phase ≠ .tallying) : Faithful st { p with phase := .reading } where
  since := faithful.since
  met := faithful.met
  tallied _ := faithful.tallied later
  leak _ _ _ phase := nomatch phase

/-- A counter that another pass corrects. -/
theorem corrected (key : Bytes) (n : ℤ) : (p.corrected key).Faithful (st.decrBy key n) := by
  -- The sessions are the same; the counter is another only where the pass is spoiled.
  have fair {q : Pass} (same : q.joined = p.joined ∧ q.since = p.since ∧ q.met = p.met ∧ q.tally = p.tally ∧
      q.phase = p.phase) (leak : q.spoiled = false → ∀ key' leak, q.phase = .correcting key' leak →
      p.spoiled = false ∧ key' ≠ key) : q.Faithful (st.decrBy key n) := by
    obtain ⟨joined, since, met, tally, phase⟩ := same
    refine ⟨?_, ?_, ?_, fun clean key' m correcting => ?_⟩
    · rw [joined, since]
      exact faithful.since
    · rw [joined, met, tally]
      exact faithful.met
    · rw [joined, tally, phase]
      exact faithful.tallied
    · obtain ⟨clean', apart⟩ := leak clean key' m correcting
      rw [count_decrBy, if_neg apart]
      exact faithful.leak clean' key' m (phase ▸ correcting)
  unfold Pass.corrected
  split
  · next key' m phase =>
    split
    · exact fair ⟨rfl, rfl, rfl, rfl, rfl⟩ nofun
    next apart =>
    refine fair ⟨rfl, rfl, rfl, rfl, rfl⟩ fun clean key'' m' phase' => ⟨clean, ?_⟩
    rw [← (Phase.correcting.inj (phase.symm.trans phase')).1]
    exact apart
  · next other =>
    exact fair ⟨rfl, rfl, rfl, rfl, rfl⟩ fun _ key' m phase => absurd phase (other key' m)

end

theorem start (st : Store) : (Pass.start st).Faithful st where
  since e member _ := by
    obtain ⟨t, among, rfl⟩ := mem_map.mp member
    exact mem_map_of_mem among
  met key _ := by
    simp [Pass.start, liveAmong]
  tallied later := absurd rfl later
  leak _ _ _ phase := nomatch phase

end Pass.Faithful

/-! ## Runs -/

namespace World

variable {ρ : Type} [DecidableEq ρ] {limit : ℤ} {w : World ρ} {r : ρ} {a : Action ρ}

/-- The counters are not too low, and every pass is faithful. -/
structure Sound (w : World ρ) : Prop where
  counted : w.Counted
  faithful : ∀ r p, w.pass r = some p → p.Faithful w.store

section

variable (sound : w.Sound)

include sound

theorem Sound.set {p : Pass} (faithful : p.Faithful w.store) :
    Sound { w with pass := update w.pass r (some p) } := by
  refine ⟨sound.counted, fun r' q under => ?_⟩
  by_cases same : r' = r
  · subst same
    simp only [update_self, Option.some.injEq] at under
    exact under ▸ faithful
  · simp only [update_of_ne same] at under
    exact sound.faithful r' q under

theorem Sound.advance {inPhase : Phase → Bool} {f : Pass → Pass}
    (keeps : ∀ p, w.pass r = some p → inPhase p.phase → (f p).Faithful w.store) :
    (w.advance r inPhase f).Sound := by
  unfold World.advance
  split
  · exact sound
  next p under =>
  split
  · next phase => exact sound.set (keeps p under phase)
  · exact sound

theorem Sound.connect (s : Session) (undisturbed : w.Undisturbed (.connect s)) :
    (w.step limit (.connect s)).Sound := by
  simp only [step]
  rcases known : w.store.has s.id with _ | _
  · rcases admitted : (w.store.connect limit s).2 with _ | _
    · simp only [Bool.false_eq_true, and_false, if_false, connect_refused known admitted]
      exact sound
    simp only [and_self, if_true]
    refine ⟨fun key => ?_, fun r q under => ?_⟩
    · obtain ⟨live, count⟩ := live_connect_new known admitted key
      have before := sound.counted key
      rw [live, count]
      split <;> omega
    · obtain ⟨p, held, rfl⟩ := Option.map_eq_some_iff.mp under
      exact (sound.faithful r p held).connect known admitted
  · obtain ⟨pairs, cnt⟩ := @pairs_connect_known w.store s limit known undisturbed
    simp only [Bool.true_eq_false, false_and, if_false]
    refine ⟨fun key => ?_, fun r p under => (sound.faithful r p under).congr pairs cnt⟩
    rw [live_eq_pairs, pairs, ← live_eq_pairs, count, cnt]
    exact sound.counted key

omit [DecidableEq ρ] in
/-- A session that goes, with counters that keep up with it. -/
theorem Sound.leave (id : Bytes) {cnt : Bytes → Option ℤ} (keeps : ∀ key,
      ((w.store.drop id).live key : ℤ) - (cnt key).getD 0 ≤ w.store.live key - w.store.count key) :
    Sound ⟨{ w.store.drop id with cnt := cnt }, w.each (.leaving id)⟩ where
  counted key := by
    have before := sound.counted key
    have now := keeps key
    change ((w.store.drop id).live key : ℤ) ≤ (cnt key).getD 0
    omega
  faithful r q under := by
    obtain ⟨p, held, rfl⟩ := Option.map_eq_some_iff.mp under
    exact (sound.faithful r p held).leaving id keeps

theorem Sound.expire (id : Bytes) : (w.step limit (.expire id)).Sound := by
  refine sound.leave id fun key => ?_
  have fewer := @live_drop_le w.store id key
  change _ - w.store.count key ≤ _
  omega

theorem Sound.disconnect (id user ip : Bytes) (undisturbed : w.Undisturbed (.disconnect id user ip)) :
    (w.step limit (.disconnect id user ip)).Sound := by
  simp only [step, Store.disconnect]
  split
  · next known =>
    obtain ⟨t, member, same⟩ := any_eq_true.mp known
    have same := of_decide_eq_true same
    have owned := undisturbed t member same
    refine sound.leave id fun key => ?_
    change _ - ((w.store.drop id).decrBy (owner user ip) 1).count key ≤ _
    rw [count_decrBy]
    have drop : (w.store.drop id).count = w.store.count := rfl
    rw [drop]
    split
    · next mine =>
      subst mine
      have fewer := live_drop_lt member same owned
      omega
    · have fewer := @live_drop_le w.store id key
      omega
  · next unknown =>
    have gone : w.store.drop id = w.store := by
      unfold Store.drop
      congr
      exact filter_eq_self.mpr fun t among => decide_eq_true fun same =>
        unknown (any_eq_true.mpr ⟨t, among, decide_eq_true same⟩)
    have left : (w.step limit (.expire id)).Sound := sound.expire id
    rwa [step, gone] at left

theorem Sound.correct (undisturbed : w.Undisturbed (.correct r)) : (w.step limit (.correct r)).Sound := by
  simp only [step]
  split
  · next p under =>
    split
    · next key leak phase =>
      have faithful := sound.faithful r p under
      have enough := faithful.leak (undisturbed p under) key leak phase
      have others : Sound ⟨w.store.decrBy key leak, w.each (.corrected key)⟩ := by
        refine ⟨fun k => ?_, fun r' q under' => ?_⟩
        · change (w.store.live k : ℤ) ≤ (w.store.decrBy key leak).count k
          rw [count_decrBy]
          split
          · next same =>
            subst same
            omega
          · exact sound.counted k
        · obtain ⟨other, held, rfl⟩ := Option.map_eq_some_iff.mp under'
          exact (sound.faithful r' other held).corrected key leak
      exact others.set ⟨faithful.since, faithful.met, fun _ => faithful.tallied (by simp [phase]), nofun⟩
    · exact sound
  · exact sound

theorem Sound.step (undisturbed : w.Undisturbed a) : (w.step limit a).Sound := by
  cases a with
  | connect s => exact sound.connect s undisturbed
  | disconnect id user ip => exact sound.disconnect id user ip undisturbed
  | expire id => exact sound.expire id
  | start r => exact sound.set (.start w.store)
  | meet r id =>
    rw [step]
    refine sound.advance ?_
    intro p under phase
    exact (sound.faithful r p under).meet id (of_decide_eq_true phase)
  | scanned r =>
    rw [step]
    refine sound.advance ?_
    intro p under phase
    exact (sound.faithful r p under).scanned (undisturbed p under (of_decide_eq_true phase))
  | get r key =>
    rw [step]
    refine sound.advance ?_
    intro p under phase
    have reading := of_decide_eq_true phase
    exact (sound.faithful r p under).get reading (undisturbed p under reading)
  | correct r => exact sound.correct undisturbed
  | skip r =>
    simp only [step]
    split
    · next p under =>
      split
      · next key leak phase => exact sound.set ((sound.faithful r p under).read (by simp [phase]))
      · exact sound
    · exact sound

theorem Sound.within (a : Action ρ) : w.Within limit a := by
  cases a with
  | connect s =>
    intro positive new admitted
    have low := count_lt_of_admitted positive new admitted
    have counted := sound.counted s.owner
    have after : (w.step limit (.connect s)).store.live s.owner = w.store.live s.owner + 1 := by
      simpa [World.step] using (live_connect_new new admitted s.owner).1
    rw [after]
    omega
  | _ => trivial

end

/-- Every action of a run is undisturbed. -/
def UndisturbedRun (limit : ℤ) (w : World ρ) (actions : List (Action ρ)) : Prop :=
  ∀ before a rest, actions = before ++ a :: rest → (w.after limit before).Undisturbed a

theorem after_concat (actions : List (Action ρ)) (a : Action ρ) :
    w.after limit (actions ++ [a]) = (w.after limit actions).step limit a := by
  simp [after]

theorem Sound.run (sound : w.Sound) {actions : List (Action ρ)} (undisturbed : UndisturbedRun limit w actions) :
    (w.after limit actions).Sound := by
  refine EachStep.induction (I := fun actions => (w.after limit actions).Sound) undisturbed sound
    fun before a sound undisturbed => ?_
  rw [after_concat]
  exact sound.step undisturbed

theorem undisturbedRun_cons {rest : List (Action ρ)} :
    UndisturbedRun limit w (a :: rest) ↔ w.Undisturbed a ∧ UndisturbedRun limit (w.step limit a) rest :=
  eachStep_cons

end World

open World

/-- In every undisturbed run of sessions and passes, from counters that are not too low, no counter is
ever too low, and a session that is admitted leaves its user and address within the limit. -/
theorem counters_never_low {ρ : Type} [DecidableEq ρ] (limit : ℤ) (st : Store)
    (start : ∀ key, (st.live key : ℤ) ≤ st.count key) (actions : List (Action ρ))
    (undisturbed : UndisturbedRun limit ⟨st, fun _ => none⟩ actions) (before rest : List (Action ρ))
    (split : actions = before ++ rest) :
    (World.after limit ⟨st, fun _ => none⟩ before).Counted ∧
      ∀ a rest', rest = a :: rest' → (World.after limit ⟨st, fun _ => none⟩ before).Within limit a := by
  have idle : Sound (⟨st, fun _ => none⟩ : World ρ) := ⟨start, nofun⟩
  subst split
  have sound := idle.run (EachStep.left undisturbed)
  exact ⟨sound.counted, fun a _ _ => sound.within a⟩

def Store.empty : Store := ⟨[], fun _ => none, List.nodup_nil⟩

/-- A session of user `u` at address `i`. -/
def sessionOf (id : UInt8) : Session := ⟨[id], [117], [105], [], []⟩

/-- A session that expires leaves its counter one too high, and a pass takes that off. -/
theorem counters_never_low_leak : (World.after 1 (⟨.empty, fun _ => none⟩ : World Unit)
        [.connect (sessionOf 97), .expire [97], .start (), .scanned (), .get () [117, 64, 105],
          .correct ()]).store.count [117, 64, 105] = 0 ∧
      (World.after 1 (⟨.empty, fun _ => none⟩ : World Unit)
        [.connect (sessionOf 97), .expire [97], .start (), .scanned (), .get () [117, 64, 105],
          .correct ()]).Counted := by
  refine ⟨by decide, (counters_never_low 1 .empty (fun key => le_refl _) _ ?_ _ [] (append_nil _).symm).1⟩
  refine undisturbedRun_cons.mpr ⟨nofun, undisturbedRun_cons.mpr ⟨trivial,
    undisturbedRun_cons.mpr ⟨trivial, undisturbedRun_cons.mpr ⟨?_, undisturbedRun_cons.mpr ⟨?_,
    undisturbedRun_cons.mpr ⟨?_, ?_⟩⟩⟩⟩⟩⟩
  · intro p under _
    cases under
    exact nil_subset _
  · intro p under _
    cases under
    exact not_mem_nil
  · intro p under
    cases under
    rfl
  · intro before a rest split
    cases before <;> cases split

/-- A session is admitted between the tally and the read of its counter. -/
def admittedBetween : List (Action Bool) :=
  [.start false, .scanned false, .connect (sessionOf 97), .get false [117, 64, 105], .correct false]

/-- Two replicas read one leak and both take it off. -/
def leakTakenTwice : List (Action Bool) := [.connect (sessionOf 97), .connect (sessionOf 98), .expire [98],
    .start false, .meet false [97], .scanned false, .start true, .meet true [97], .scanned true,
    .get false [117, 64, 105], .get true [117, 64, 105], .correct false, .correct true]

theorem counter_below_live_session :
    ((World.after 2 ⟨.empty, fun _ => none⟩ admittedBetween).store.count [117, 64, 105] = 0 ∧
        (World.after 2 ⟨.empty, fun _ => none⟩ admittedBetween).store.live [117, 64, 105] = 1) ∧
      (World.after 2 ⟨.empty, fun _ => none⟩ leakTakenTwice).store.count [117, 64, 105] = 0 ∧
        (World.after 2 ⟨.empty, fun _ => none⟩ leakTakenTwice).store.live [117, 64, 105] = 1 := by
  decide

end Yarilo.Warden

import Yarilo.Director.Kills
import Yarilo.Director.Routing
import Yarilo.Library.Runs

/-! # Confirmed kills

A kill is to be confirmed only over a zero that has stood for the grace. That holds in every run in
which a zero is set only while it stands, and in which the sweep does not run between the section that
registers a session and the one that notes it.
-/

namespace Yarilo.Director

open Library Server List

/-! ## Orderly runs -/

/-- The section sets the time of a zero of the user. -/
def Todo.arms (o : Options) (hash : UInt32) : Todo → Bool
  | .arm user _ => o.userHash user = hash
  | .setKilling hash' quiesced => quiesced && hash' = hash
  | _ => false

def Todo.isSweep : Todo → Bool
  | .sweep _ => true
  | _ => false

namespace Node

variable {o : Options} {d : Node} {hash other : UInt32} {s : Server} {clock : ℤ} {a : Action}

/-- A session of the user is registered and not yet noted. -/
def Unnoted (o : Options) (d : Node) (hash : UInt32) : Prop :=
  ∃ user, .noteOpened user ∈ d.todo ∧ o.userHash user = hash

/-- Since when the registry is taken to be without a session of the user. -/
def zeroOf (s : Server) (hash : UInt32) : Option ℤ := (s.killing hash).bind (·.zeroSince)

/-- Where a zero is set the registry has no session of the user, or one that is still to be noted; and
a sweep takes its section when no session of a user with a zero is still to be noted. -/
def Orderly (o : Options) (d : Node) : Action → Prop
  | .resume i => ∀ next, d.todo[i]? = some next →
    (∀ hash, next.arms o hash → d.server.userSessionCount o hash = 0 ∨ Unnoted o d hash) ∧
      (next.isSweep → ∀ hash, (zeroOf d.server hash).isSome → ¬Unnoted o d hash)
  | _ => True

/-- Every action of a run is orderly. -/
def OrderlyRun (o : Options) (d : Node) (actions : List Action) : Prop :=
  ∀ before a rest, actions = before ++ a :: rest → (d.after o before).Orderly o a

/-- From a moment at least a grace ago the registry has been without a session of the user. -/
def StableZero (o : Options) (d : Node) (actions : List Action) (hash : UInt32) : Prop :=
  ∃ quiet tail, actions = quiet ++ tail ∧
    (d.after o quiet).clock + o.userKillConfirmGrace ≤ (d.after o actions).clock ∧
    ∀ mid rest, tail = mid ++ rest → (d.after o (quiet ++ mid)).server.userSessionCount o hash = 0

/-! ## What a step leaves of a zero -/

theorem zeroOf_update_self {st : KillState} :
    zeroOf { s with killing := Function.update s.killing hash (some st) } hash = st.zeroSince := by
  simp [zeroOf]

theorem zeroOf_update_other {k : Option KillState} (apart : hash ≠ other) :
    zeroOf { s with killing := Function.update s.killing other k } hash = zeroOf s hash := by
  simp [zeroOf, apart]

theorem zeroOf_noteSessionOpened (user : Bytes) :
    zeroOf (s.noteSessionOpened o user) hash = if o.userHash user = hash then none else zeroOf s hash := by
  unfold noteSessionOpened
  split
  · next absent =>
    split
    · next same => simp [zeroOf, ← same, absent]
    · rfl
  · next st present =>
    split
    · next same =>
      subst same
      exact zeroOf_update_self
    · next apart => exact zeroOf_update_other (.symm apart)

theorem zeroOf_arm {now z : ℤ} (zero : zeroOf (s.arm now other) hash = some z) :
    zeroOf s hash = some z ∨ z = now ∧ other = hash := by
  unfold arm at zero
  split at zero
  · exact .inl zero
  next st present =>
  split at zero
  · exact .inl zero
  by_cases same : hash = other
  · subst same
    rw [zeroOf_update_self] at zero
    exact .inr ⟨(Option.some.inj zero).symm, rfl⟩
  · exact .inl (zeroOf_update_other same ▸ zero)

theorem zeroOf_setKilling {now z : ℤ} {quiesced : Bool}
    (zero : zeroOf (s.setKilling o now other quiesced) hash = some z) :
    zeroOf s hash = some z ∨ z = now ∧ quiesced = true ∧ other = hash := by
  unfold setKilling at zero
  by_cases same : hash = other
  · subst same
    rw [zeroOf_update_self] at zero
    cases quiesced with
    | false => cases zero
    | true => exact .inr ⟨(Option.some.inj zero).symm, rfl, rfl⟩
  · exact .inl (zeroOf_update_other same ▸ zero)

theorem zeroOf_sweepKills {now z : ℤ} (zero : zeroOf (s.sweepKills o now) hash = some z) :
    zeroOf s hash = some z := by
  obtain ⟨st, kept, zero⟩ := Option.bind_eq_some_iff.mp zero
  rw [zeroOf, (Option.filter_eq_some_iff.mp kept).1]
  exact zero

theorem zeroOf_attachFlush (other : UInt32) (ctx : FlushCtx) :
    zeroOf (s.attachFlush o other ctx) hash = zeroOf s hash := by
  unfold attachFlush
  split
  · split
    · rfl
    next st present =>
    by_cases same : hash = other
    · subst same
      rw [zeroOf_update_self, zeroOf, present]
      rfl
    · exact zeroOf_update_other same
  · rfl

theorem zeroOf_applyKilling {now ttl z : ℤ} (zero : zeroOf (s.applyKilling now other ttl) hash = some z) :
    zeroOf s hash = some z := by
  unfold applyKilling at zero
  by_cases same : hash = other
  · subst same
    rw [zeroOf_update_self] at zero
    rcases present : s.killing hash with _ | st
    · rw [present] at zero
      cases zero
    rw [present] at zero
    rw [zeroOf, present]
    exact zero
  · exact zeroOf_update_other same ▸ zero

theorem zeroOf_applyKillDone {z : ℤ} (zero : zeroOf (s.applyKillDone other).1 hash = some z) :
    zeroOf s hash = some z := by
  by_cases same : hash = other
  · subst same
    simp [zeroOf, applyKillDone] at zero
  · exact zeroOf_update_other same ▸ zero

/-- A section keeps a zero that stands, or sets one now. -/
theorem zeroOf_section {z : ℤ} {next : Todo} (zero : zeroOf (section_ o s clock next).1 hash = some z) :
    zeroOf s hash = some z ∨ z = clock ∧ next.arms o hash := by
  cases next with
  | noteOpened user =>
    rw [section_, zeroOf_noteSessionOpened] at zero
    split at zero
    · cases zero
    · exact .inl zero
  | noteClosed users =>
    left
    cases users with
    | nil => exact zero
    | cons user rest =>
      simp only [section_] at zero
      split at zero <;> exact zero
  | count user rest =>
    left
    simp only [section_] at zero
    split at zero <;> exact zero
  | arm user rest =>
    rcases zeroOf_arm zero with old | ⟨now, same⟩
    · exact .inl old
    · exact .inr ⟨now, by simpa [Todo.arms] using same⟩
  | setKilling other quiesced =>
    rcases zeroOf_setKilling zero with old | ⟨now, zero, same⟩
    · exact .inl old
    · exact .inr ⟨now, by simp [Todo.arms, zero, same]⟩
  | sweep now => exact .inl (zeroOf_sweepKills zero)

theorem zeroOf_begin {c : Call} {z : ℤ} (zero : zeroOf (d.begin_ o c).server hash = some z) :
    zeroOf d.server hash = some z := by
  cases c with
  | open_ session => exact zero
  | remove removal => exact zero
  | startKilling other => exact zero
  | attachFlush other ctx => exact zeroOf_attachFlush other ctx ▸ zero
  | applyKilling other ttl => exact zeroOf_applyKilling zero
  | applyKillDone other => exact zeroOf_applyKillDone zero
  | sweep => exact zero

theorem step_zero {z : ℤ} (orderly : d.Orderly o a) (zero : zeroOf (d.step o a).server hash = some z) :
    zeroOf d.server hash = some z ∨
      z = d.clock ∧ (d.server.userSessionCount o hash = 0 ∨ Unnoted o d hash) := by
  cases a with
  | tick t => exact .inl zero
  | call c => exact .inl (zeroOf_begin zero)
  | resume i =>
    simp only [step] at zero
    split at zero
    · exact .inl zero
    · next next found =>
      rcases zeroOf_section zero with old | ⟨now, arms⟩
      · exact .inl old
      · exact .inr ⟨now, (orderly next found).1 hash arms⟩

/-! ## What a step leaves of the registry -/

theorem count_eq_zero : s.userSessionCount o hash = 0 ↔ ∀ r ∈ s.sessions.byId, o.userHash r.user ≠ hash := by
  simp [userSessionCount, countP_eq_zero]

theorem erase_subset (ss : Sessions) (id backend : Bytes) : (ss.erase id backend).byId ⊆ ss.byId :=
  List.filter_subset_self _

theorem remove_subset (ss : Sessions) (r : Removal) : (ss.remove o r).1.byId ⊆ ss.byId := by
  cases r with
  | close id =>
    simp only [Sessions.remove]
    split
    · exact .refl _
    · exact erase_subset ss _ _
  | remoteClose id =>
    simp only [Sessions.remove]
    split
    · exact erase_subset ss _ _
    · exact .refl _
  | reconcile c live => exact filter_subset_self _
  | disconnect c => exact filter_subset_self _
  | purgeReplicas origin =>
    simp only [Sessions.remove]
    split
    · exact .refl _
    · exact filter_subset_self _
  | backendDown ip => exact filter_subset_self _
  | stale other oldHost =>
    simp only [Sessions.remove]
    generalize victims o ss other (hostOf oldHost) = victims
    induction victims generalizing ss with
    | nil => exact .refl _
    | cons r rest ih => exact List.Subset.trans (ih (ss.erase r.id (hostOf oldHost))) (erase_subset ss _ _)

/-- A session that is registered is the one to be noted, or was there before. -/
theorem register_mem {ss : Sessions} {session : SessionOpen} {r : SessionRec}
    (member : r ∈ (ss.register session).1.byId) : r ∈ ss.byId ∨ (ss.register session).2 = some r.user := by
  have inserted (new : SessionRec) (member : r ∈ (ss.insert new).byId) : r ∈ ss.byId ∨
      some new.user = some r.user := by
    rcases mem_cons.mp member with rfl | kept
    · exact .inr rfl
    · exact .inl (mem_of_mem_filter kept)
  cases session with
  | ofLogin c id user backend proto => exact inserted _ member
  | ofPeer origin id user backend proto =>
    simp only [Sessions.register] at member ⊢
    split at member
    · exact .inl member
    · exact inserted _ member

theorem sessions_section (s : Server) (clock : ℤ) (next : Todo) :
    (section_ o s clock next).1.sessions = s.sessions := by
  cases next with
  | noteOpened user =>
    simp only [section_, noteSessionOpened]
    split <;> rfl
  | noteClosed users =>
    cases users with
    | nil => rfl
    | cons user rest =>
      simp only [section_]
      split <;> rfl
  | count user rest =>
    simp only [section_]
    split <;> rfl
  | arm user rest =>
    simp only [section_, arm]
    split
    · rfl
    · split <;> rfl
  | setKilling other quiesced => rfl
  | sweep now => rfl

/-- A registry without a session of the user stays so, unless one is registered that is to be noted. -/
theorem step_count (a : Action) (zero : d.server.userSessionCount o hash = 0) :
    (d.step o a).server.userSessionCount o hash = 0 ∨ Unnoted o (d.step o a) hash := by
  have same {s : Server} (unchanged : s.sessions = d.server.sessions) : s.userSessionCount o hash = 0 := by
    rw [userSessionCount, unchanged]
    exact zero
  cases a with
  | tick t => exact .inl zero
  | call c =>
    cases c with
    | open_ session =>
      by_cases noted : ∃ user, (d.server.sessions.register session).2 = some user ∧ o.userHash user = hash
      · obtain ⟨user, noted, hashed⟩ := noted
        right
        refine ⟨user, ?_, hashed⟩
        simp [step, begin_, noted]
      · left
        rw [count_eq_zero] at zero ⊢
        intro r member hashed
        rcases register_mem member with before | new
        · exact zero r before hashed
        · exact noted ⟨r.user, new, hashed⟩
    | remove removal =>
      left
      rw [count_eq_zero] at zero ⊢
      intro r member
      exact zero r (remove_subset _ removal member)
    | attachFlush other ctx =>
      refine .inl (same ?_)
      simp only [step, begin_, attachFlush]
      split
      · split <;> rfl
      · rfl
    | startKilling other => exact .inl zero
    | applyKilling other ttl => exact .inl zero
    | applyKillDone other => exact .inl zero
    | sweep => exact .inl zero
  | resume i =>
    left
    simp only [step]
    split
    · exact zero
    · exact same (sessions_section _ _ _)

/-- A session to be noted stays so, unless it is noted, which voids a zero. -/
theorem step_unnoted (a : Action) (unnoted : Unnoted o d hash) :
    Unnoted o (d.step o a) hash ∨ zeroOf (d.step o a).server hash = none := by
  obtain ⟨user, member, hashed⟩ := unnoted
  cases a with
  | tick t => exact .inl ⟨user, member, hashed⟩
  | call c =>
    left
    refine ⟨user, ?_, hashed⟩
    cases c with
    | open_ session => exact mem_append_right _ member
    | remove removal => exact .tail _ member
    | startKilling other => exact .tail _ member
    | sweep => exact .tail _ member
    | attachFlush other ctx => exact member
    | applyKilling other ttl => exact member
    | applyKillDone other => exact member
  | resume i =>
    by_cases here : d.todo[i]? = some (.noteOpened user)
    · right
      simp only [step, here, section_]
      rw [zeroOf_noteSessionOpened, if_pos hashed]
    left
    simp only [step]
    split
    · exact ⟨user, member, hashed⟩
    refine ⟨user, mem_append_right _ ?_, hashed⟩
    obtain ⟨j, found⟩ := mem_iff_getElem?.mp member
    refine mem_eraseIdx_iff_getElem?.mpr ⟨j, ?_, found⟩
    rintro rfl
    exact here found

/-! ## Runs -/

theorem after_concat (actions : List Action) (a : Action) :
    d.after o (actions ++ [a]) = (d.after o actions).step o a := by
  simp [after]

/-- At the end of a first part of the run the clock stood at a time, and since then the registry has
been without a session of the user. -/
def QuietSince (o : Options) (d : Node) (actions : List Action) (hash : UInt32) (z : ℤ) : Prop :=
  ∃ quiet tail, actions = quiet ++ tail ∧ (d.after o quiet).clock = z ∧
    ∀ mid rest, tail = mid ++ rest → (d.after o (quiet ++ mid)).server.userSessionCount o hash = 0

namespace QuietSince

variable {actions : List Action} {z : ℤ}

theorem now (quiet : QuietSince o d actions hash z) :
    (d.after o actions).server.userSessionCount o hash = 0 := by
  obtain ⟨quiet, tail, rfl, -, silent⟩ := quiet
  exact silent tail [] (append_nil tail).symm

theorem here (zero : (d.after o actions).server.userSessionCount o hash = 0) :
    QuietSince o d actions hash (d.after o actions).clock := by
  refine ⟨actions, [], (append_nil actions).symm, rfl, ?_⟩
  intro mid rest split
  rw [(append_eq_nil_iff.mp split.symm).1, append_nil]
  exact zero

theorem concat (quiet : QuietSince o d actions hash z)
    (zero : (d.after o (actions ++ [a])).server.userSessionCount o hash = 0) :
    QuietSince o d (actions ++ [a]) hash z := by
  obtain ⟨quiet, tail, rfl, clock, silent⟩ := quiet
  refine ⟨quiet, tail ++ [a], append_assoc _ _ _, clock, ?_⟩
  intro mid rest split
  rcases eq_nil_or_concat rest with rfl | ⟨init, last, rfl⟩
  · rw [append_nil] at split
    rw [← split, ← append_assoc]
    exact zero
  · rw [concat_eq_append, ← append_assoc] at split
    exact silent mid init (append_inj' split rfl).1

end QuietSince

/-- A zero stands since its time, or a session is still to be noted; a sweep reads its time before its
section. -/
structure Sound (o : Options) (d : Node) (actions : List Action) : Prop where
  zero : ∀ hash z, zeroOf (d.after o actions).server hash = some z →
    Unnoted o (d.after o actions) hash ∨ QuietSince o d actions hash z
  past : ∀ now, .sweep now ∈ (d.after o actions).todo → now ≤ (d.after o actions).clock

theorem sweep_notMem_section (s : Server) (clock now : ℤ) (next : Todo) :
    .sweep now ∉ (section_ o s clock next).2 := by
  cases next with
  | noteClosed users =>
    cases users with
    | nil => simp [section_]
    | cons user rest =>
      simp only [section_]
      split <;> simp
  | count user rest =>
    simp only [section_]
    split <;> simp
  | noteOpened | arm | setKilling | sweep => simp [section_]

theorem step_past (past : ∀ now, .sweep now ∈ d.todo → now ≤ d.clock) :
    ∀ now, .sweep now ∈ (d.step o a).todo → now ≤ (d.step o a).clock := by
  intro now member
  cases a with
  | tick t =>
    have early := past now member
    simp only [step]
    omega
  | call c =>
    cases c with
    | open_ session =>
      rcases mem_append.mp member with noted | before
      · simp at noted
      · exact past now before
    | remove removal => exact past now (mem_of_ne_of_mem (by simp) member)
    | startKilling other => exact past now (mem_of_ne_of_mem (by simp) member)
    | attachFlush other ctx => exact past now member
    | applyKilling other ttl => exact past now member
    | applyKillDone other => exact past now member
    | sweep =>
      rcases mem_cons.mp member with new | before
      · cases new
        exact le_refl _
      · exact past now before
  | resume i =>
    simp only [step] at member ⊢
    split at member
    · exact past now member
    next next found =>
    rcases mem_append.mp member with more | before
    · exact absurd more (sweep_notMem_section _ _ _ _)
    · exact past now (mem_of_mem_eraseIdx before)

theorem Sound.concat {actions : List Action} (sound : Sound o d actions)
    (orderly : (d.after o actions).Orderly o a) : Sound o d (actions ++ [a]) where
  zero := by
    intro hash z zero
    rw [after_concat] at zero ⊢
    -- What was to be noted before the step still is, as the zero stands after it.
    have pending (unnoted : Unnoted o (d.after o actions) hash) :
        Unnoted o ((d.after o actions).step o a) hash := by
      refine (step_unnoted a unnoted).resolve_right fun void => ?_
      rw [zero] at void
      cases void
    have extend (quiet : QuietSince o d actions hash z) :
        Unnoted o ((d.after o actions).step o a) hash ∨ QuietSince o d (actions ++ [a]) hash z := by
      rcases step_count a quiet.now with zero | unnoted
      · refine .inr (quiet.concat ?_)
        rwa [after_concat]
      · exact .inl unnoted
    rcases step_zero orderly zero with before | ⟨rfl, empty | unnoted⟩
    · exact (sound.zero hash z before).elim (.inl ∘ pending) extend
    · exact extend (.here empty)
    · exact .inl (pending unnoted)
  past := by
    rw [after_concat]
    exact step_past sound.past

/-- A director without kills and calls in progress. -/
def idle (s : Server) (clock : ℤ) : Node where
  server := { s with killing := fun _ => none }
  clock := clock
  todo := []

theorem sound_of_orderlyRun {actions : List Action} (orderly : OrderlyRun o (idle s clock) actions) :
    Sound o (idle s clock) actions := by
  refine EachStep.induction orderly ⟨fun hash z zero => ?_, fun now member => ?_⟩ fun before a => Sound.concat
  · cases zero
  · cases member

theorem Sound.stableZero {actions : List Action} (sound : Sound o d actions)
    (orderly : (d.after o actions).Orderly o a) (done : (d.after o actions).confirms o a hash) :
    StableZero o d actions hash := by
  unfold confirms at done
  split at done
  · next i =>
    split at done
    · next now found =>
      obtain ⟨st, present, confirmed⟩ := Option.any_eq_true _ _ |>.mp done
      simp only [KillState.confirmed, Bool.and_eq_true] at confirmed
      obtain ⟨z, armed, grace⟩ := Option.any_eq_true _ _ |>.mp confirmed.2
      have zero : zeroOf (d.after o actions).server hash = some z := by
        rw [zeroOf, present]
        exact armed
      have noted := (orderly _ found).2 rfl hash (by rw [zero]; rfl)
      obtain ⟨quiet, tail, split, clock, silent⟩ := (sound.zero hash z zero).resolve_left noted
      have read := sound.past now (mem_of_getElem? found)
      rw [decide_eq_true_eq] at grace
      exact ⟨quiet, tail, split, by omega, silent⟩
    · cases done
  · cases done

theorem orderlyRun_cons {rest : List Action} :
    OrderlyRun o d (a :: rest) ↔ d.Orderly o a ∧ OrderlyRun o (d.step o a) rest :=
  eachStep_cons

end Node

open Node

/-- In every orderly run a kill is confirmed only when, for at least the grace, the registry has held
no session of the user. -/
theorem confirmed_over_stable_zero (o : Options) (s : Server) (clock : ℤ) (actions : List Action)
    (orderly : OrderlyRun o (idle s clock) actions) (before : List Action) (a : Action)
    (rest : List Action) (split : actions = before ++ a :: rest) (hash : UInt32)
    (confirms : ((idle s clock).after o before).confirms o a hash) :
    StableZero o (idle s clock) before hash := by
  have last := orderly before a rest split
  subst split
  exact (sound_of_orderlyRun (EachStep.left orderly)).stableZero last confirms

/-- A grace of five. -/
def shortGrace : Options := ⟨flatHashing, false, .hash, 30, 5, true⟩

def sessionOf (id : UInt8) : SessionOpen := .ofLogin 1 [id] [117] [49] []

/-- A session opens, is killed and closes; the grace passes. -/
def closedInTime : List Action :=
  [.call (.open_ (sessionOf 97)), .resume 0, .call (.startKilling 0), .resume 0,
    .call (.remove (.close [97])), .resume 0, .resume 0, .resume 0, .tick 5, .call .sweep]

theorem confirmed_over_stable_zero_closed :
    ((idle (.fresh .empty) 0).after shortGrace closedInTime).confirms shortGrace (.resume 0) 0 ∧
      StableZero shortGrace (idle (.fresh .empty) 0) closedInTime 0 := by
  have plain {d : Node} {next : Todo} (found : d.todo[0]? = some next)
      (arms : ∀ hash, next.arms shortGrace hash = false) (waits : next.isSweep = false) :
      d.Orderly shortGrace (.resume 0) := by
    intro _ same
    cases found.symm.trans same
    simp [arms, waits]
  have orderly : OrderlyRun shortGrace (idle (.fresh .empty) 0) (closedInTime ++ [.resume 0]) := by
    simp only [closedInTime, List.cons_append, List.nil_append, orderlyRun_cons]
    refine ⟨trivial, plain rfl (fun _ => rfl) rfl, trivial, plain rfl (fun _ => rfl) rfl, trivial,
      plain rfl (fun _ => rfl) rfl, plain rfl (fun _ => rfl) rfl, ?_, trivial, trivial, ?_, eachStep_nil⟩
    · intro next found
      cases found
      exact ⟨fun hash _ => .inl rfl, nofun⟩
    · intro next found
      cases found
      refine ⟨nofun, ?_⟩
      rintro - hash - ⟨user, member, -⟩
      have waiting : .noteOpened user ∈ [Todo.sweep 5, .noteClosed []] := member
      simp at waiting
  have confirms : ((idle (.fresh .empty) 0).after shortGrace closedInTime).confirms shortGrace (.resume 0) 0 := by
    decide
  exact ⟨confirms, confirmed_over_stable_zero shortGrace (.fresh .empty) 0 _ orderly _ _ [] rfl 0 confirms⟩

/-- A session is killed and closes; between the count of its close and the arming another opens. -/
def openedBetween : List Action :=
  [.call (.open_ (sessionOf 97)), .resume 0, .call (.startKilling 0), .resume 0,
    .call (.remove (.close [97])), .resume 0, .resume 0,
    .call (.open_ (sessionOf 98)), .resume 0, .resume 0, .tick 5, .call .sweep]

/-- A session is registered after the sweep has read its time, and noted after its section. -/
def openedUnnoted : List Action :=
  [.call (.startKilling 0), .resume 0, .tick 5, .call .sweep, .call (.open_ (sessionOf 97))]

theorem kill_confirmed_over_live_session :
    (((idle (.fresh .empty) 0).after shortGrace openedBetween).confirms shortGrace (.resume 0) 0 ∧
        ¬StableZero shortGrace (idle (.fresh .empty) 0) openedBetween 0) ∧
      ((idle (.fresh .empty) 0).after shortGrace openedUnnoted).confirms shortGrace (.resume 1) 0 ∧
        ¬StableZero shortGrace (idle (.fresh .empty) 0) openedUnnoted 0 := by
  have live {actions : List Action} (one : ((idle (.fresh .empty) 0).after shortGrace
      actions).server.userSessionCount shortGrace 0 = 1) :
      ¬StableZero shortGrace (idle (.fresh .empty) 0) actions 0 := by
    rintro ⟨quiet, tail, rfl, -, silent⟩
    rw [silent tail [] (append_nil tail).symm] at one
    cases one
  exact ⟨⟨by decide, live (by decide)⟩, by decide, live (by decide)⟩

end Yarilo.Director

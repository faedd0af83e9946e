import Mathlib.Data.List.Basic
import Mathlib.Tactic.Ring

/-! # Snapshots paired with an append log

A value lives in a snapshot (the base) and in a log of entries written after it. Every rewrite of
the base mints a new lineage and records which log it absorbed and how far. The log carries the
lineage of the base it was started under. Several handles keep a copy of the value in memory with
the base they read and the log offset they have applied.

`Theory` says what a copy has to agree with: a truth that every entry advances, a relation between
copies and truths, the entries a writer may append, and a condition under which replaying a whole
log over a copy that already contains it is harmless. `Inv` is the pairing invariant of base, log
and handles. One lemma per transition keeps it, so that a component proves facts about its own
entries only.
-/

namespace Yarilo.Library.Journal

variable {α ε γ : Type} {done rest pre tail entries : List ε} {pos : ℕ} {g : γ} {a b : α} {e : ε}

/-- A snapshot with the pairing its writer recorded. -/
structure Base (α : Type) where
  ident : ℕ
  val : α
  lineage : ℕ
  folded : ℕ
  foldedOffset : ℕ

/-- A log with the lineage it was started under. -/
structure Log (ε : Type) where
  seq : ℕ
  entries : List ε

/-- A copy in memory: the base it was read from and the log offset it has applied. -/
structure Handle (α : Type) where
  val : α
  ident : ℕ
  lineage : ℕ
  pos : ℕ

/-- Byte sizes of the log header and of each entry. -/
structure Format (ε : Type) where
  header : ℕ
  width : ε → ℕ
  header_pos : 0 < header
  width_pos : ∀ e, 0 < width e

/-- The size of a log file with these entries. -/
def Format.extent (F : Format ε) (es : List ε) : ℕ := F.header + (es.map F.width).sum

theorem Format.extent_append (F : Format ε) (es more : List ε) :
    F.extent (es ++ more) = F.extent es + (more.map F.width).sum := by
  simp [Format.extent, Nat.add_assoc]

theorem Format.extent_nil (F : Format ε) : F.extent [] = F.header := by simp [Format.extent]

theorem Format.extent_le (F : Format ε) (es more : List ε) : F.extent es ≤ F.extent (es ++ more) := by
  rw [F.extent_append]; omega

theorem Format.header_le (F : Format ε) (es : List ε) : F.header ≤ F.extent es := by
  unfold Format.extent; omega

theorem Format.eq_nil_of_sum (F : Format ε) (es : List ε) (zero : (es.map F.width).sum = 0) : es = [] := by
  cases es with
  | nil => rfl
  | cons e es =>
    have := F.width_pos e
    simp only [List.map_cons, List.sum_cons] at zero
    omega

/-- Two cuts of one log at the same offset are the same cut. -/
theorem Format.cut_unique {F : Format ε} {done' rest' : List ε} (same : done ++ rest = done' ++ rest')
    (offset : F.extent done = F.extent done') : done = done' ∧ rest = rest' := by
  rcases List.append_eq_append_iff.mp same with ⟨gap, rfl, rfl⟩ | ⟨gap, rfl, rfl⟩
  all_goals
    rw [F.extent_append] at offset
    obtain rfl := F.eq_nil_of_sum gap (by omega)
    simp

/-- `pos` is the offset behind the entries `done`; a handle that reset its offset stands at zero. -/
def Format.At (F : Format ε) (pos : ℕ) (done : List ε) : Prop := pos = F.extent done ∨ done = [] ∧ pos = 0

theorem Format.At.le {F : Format ε} (at_ : F.At pos done) : pos ≤ F.extent done := by
  rcases at_ with rfl | ⟨_, rfl⟩ <;> omega

/-- What copies of the value have to agree with. -/
structure Theory (α ε γ : Type) where
  /-- Applies log entries to a copy; `none` when it refuses one. -/
  replay : α → List ε → Option α
  /-- What one entry does to the truth. -/
  advance : γ → ε → γ
  /-- The copy is good for the truth. -/
  Rel : α → γ → Prop
  /-- The part of `Rel` a copy keeps when it only takes over a new base's headers. -/
  Core : α → γ → Prop
  /-- A writer may append the entry to the log. -/
  Ok : γ → List ε → ε → Prop
  /-- The log may be replayed over a copy that already contains it. -/
  Settled : γ → List ε → Prop

/-- The entries `more` may be appended one after another. -/
def Theory.Run (T : Theory α ε γ) : γ → List ε → List ε → Prop
  | _, _, [] => True
  | g, es, e :: more => T.Ok g es e ∧ T.Run (T.advance g e) (es ++ [e]) more

/-- The truth behind further entries. -/
def Theory.after (T : Theory α ε γ) (g : γ) (more : List ε) : γ := more.foldl T.advance g

/-- The laws a component proves about its entries. -/
structure Theory.Lawful (T : Theory α ε γ) : Prop where
  caughtUp : ∀ {a g}, (∀ b, T.replay a [] = some b → T.Rel b g) → T.Rel a g
  core : ∀ {a g}, T.Rel a g → T.Core a g
  follow : ∀ {a b g es more}, T.Rel a g → T.Run g es more → T.replay a more = some b →
    T.Rel b (T.after g more)
  absorb : ∀ {a b g es more}, T.Settled g es → T.Rel a g → T.Run g es more →
    T.replay a (es ++ more) = some b → T.Rel b (T.after g more)
  settle : ∀ {g es e}, T.Settled g es → T.Ok g es e → T.Settled (T.advance g e) (es ++ [e])

section Run

variable {T : Theory α ε γ} {es more : List ε}

theorem Theory.after_append (g : γ) (es more : List ε) :
    T.after g (es ++ more) = T.after (T.after g es) more := by
  simp [Theory.after]

theorem Theory.run_append {extra : List ε} : T.Run g es (more ++ extra) ↔
      T.Run g es more ∧ T.Run (T.after g more) (es ++ more) extra := by
  induction more generalizing g es with
  | nil => simp [Theory.Run, Theory.after]
  | cons e more ih => simp [Theory.Run, Theory.after, ih, and_assoc]

theorem Theory.Lawful.settle_run (lawful : T.Lawful) (settled : T.Settled g es) (run : T.Run g es more) :
    T.Settled (T.after g more) (es ++ more) := by
  induction more generalizing g es with
  | nil => simpa [Theory.after] using settled
  | cons e more ih =>
    have rest := ih (lawful.settle settled run.1) run.2
    simpa [Theory.after] using rest

end Run

/-- The entries before the point where a reader of `base` starts to replay. -/
def Start (F : Format ε) (base : Base α) (log : Log ε) (pre : List ε) : Prop :=
  log.seq = base.lineage ∧ pre = [] ∨ log.seq = base.folded ∧ log.seq < base.lineage ∧
      F.extent pre = max base.foldedOffset F.header

/-- Replaying `rest`, and whatever is appended meanwhile, makes the copy good if it succeeds. -/
def Recovers (T : Theory α ε γ) (cur : γ) (entries : List ε) (a : α) (rest : List ε) : Prop :=
  ∀ more b, T.Run cur entries more → T.replay a (rest ++ more) = some b → T.Rel b (T.after cur more)

/-- A handle on the present base. -/
structure Current (T : Theory α ε γ) (F : Format ε) (base : Base α) (log : Log ε) (cur : γ)
    (h : Handle α) : Prop where
  ident : h.ident = base.ident
  lineage : h.lineage = base.lineage
  recovers : ∃ done rest, log.entries = done ++ rest ∧ F.At h.pos done ∧
    Recovers T cur log.entries h.val rest

/-- A handle on an earlier base. When its log was folded no further than it had read, it still
holds what the new base holds. -/
structure Stale (T : Theory α ε γ) (base : Base α) (log : Log ε) (g₀ : γ) (h : Handle α) : Prop where
  ident : h.ident < base.ident
  lineage : h.lineage < base.lineage
  pos : h.lineage = log.seq → h.pos ≤ base.foldedOffset
  core : h.lineage = base.folded → base.foldedOffset ≤ h.pos → T.Core h.val g₀

/-- The files: the base is good for `g₀`, the entries behind its start lead from there to `cur`. -/
structure Paired (T : Theory α ε γ) (F : Format ε) (base : Base α) (log : Log ε) (cur g₀ : γ)
    (pre tail : List ε) : Prop where
  entries : log.entries = pre ++ tail
  cur : cur = T.after g₀ tail
  start : Start F base log pre
  rel : T.Rel base.val g₀
  settled : T.Settled g₀ pre
  run : T.Run g₀ pre tail
  folded : base.folded < base.lineage

/-- The pairing invariant of the files and every handle. -/
def Inv (T : Theory α ε γ) (F : Format ε) (base : Base α) (log : Log ε)
    (handles : List (Handle α)) (cur : γ) : Prop :=
  ∃ g₀ pre tail, Paired T F base log cur g₀ pre tail ∧
    ∀ h ∈ handles, Current T F base log cur h ∨ Stale T base log g₀ h

/-- A handle that has applied the whole log. -/
structure Fresh (T : Theory α ε γ) (F : Format ε) (base : Base α) (log : Log ε) (cur : γ)
    (me : Handle α) : Prop where
  ident : me.ident = base.ident
  lineage : me.lineage = base.lineage
  pos : F.At me.pos log.entries
  rel : T.Rel me.val cur

variable {T : Theory α ε γ} {F : Format ε} {base : Base α} {log : Log ε}
  {handles : List (Handle α)} {cur : γ} {h me : Handle α}

theorem Start.unique {pre' tail' : List ε} (start : Start F base log pre)
    (start' : Start F base log pre') (same : pre ++ tail = pre' ++ tail') : pre = pre' ∧ tail = tail' := by
  apply F.cut_unique same
  rcases start with ⟨seq, rfl⟩ | ⟨_, below, offset⟩ <;>
    rcases start' with ⟨seq', rfl⟩ | ⟨_, below', offset'⟩
  · rfl
  · omega
  · omega
  · rw [offset, offset']

theorem Start.foldedOffset_le (start : Start F base log pre) (below : log.seq < base.lineage) :
    base.foldedOffset ≤ F.extent pre := by
  rcases start with ⟨seq, _⟩ | ⟨_, _, offset⟩
  · omega
  · rw [offset]; exact Nat.le_max_left _ _

theorem Recovers.of_rel (lawful : T.Lawful) (rel : T.Rel a cur) (entries : List ε) :
    Recovers T cur entries a [] :=
  fun _ _ run replayed => lawful.follow rel run replayed

theorem Recovers.rel (recovers : Recovers T cur entries a rest) (replayed : T.replay a rest = some b) :
    T.Rel b cur :=
  recovers [] b trivial (by simpa using replayed)

/-- A copy whose replay is refused whatever is appended recovers vacuously. -/
theorem Recovers.of_refused (refused : ∀ more, T.replay a (rest ++ more) = none) :
    Recovers T cur entries a rest := by
  intro more b _ replayed
  rw [refused more] at replayed
  cases replayed

theorem Recovers.commit (recovers : Recovers T cur entries a rest) (ok : T.Ok cur entries e) :
    Recovers T (T.advance cur e) (entries ++ [e]) a (rest ++ [e]) := by
  intro more b run replayed
  exact recovers (e :: more) b ⟨ok, run⟩ (by simpa using replayed)

theorem Fresh.current (lawful : T.Lawful) (fresh : Fresh T F base log cur me) :
    Current T F base log cur me where
  ident := fresh.ident
  lineage := fresh.lineage
  recovers := ⟨log.entries, [], by simp, fresh.pos, Recovers.of_rel lawful fresh.rel _⟩

/-- Handles are added and changed one at a time. -/
theorem Inv.of_mem {handles' : List (Handle α)} (inv : Inv T F base log handles cur)
    (members : ∀ h ∈ handles', h ∈ handles ∨ Current T F base log cur h) : Inv T F base log handles' cur := by
  obtain ⟨g₀, pre, tail, paired, good⟩ := inv
  exact ⟨g₀, pre, tail, paired, fun h member => (members h member).elim (good h) .inl⟩

/-- The whole log may be replayed over a copy that contains it. -/
theorem Inv.settled (lawful : T.Lawful) (inv : Inv T F base log handles cur) : T.Settled cur log.entries := by
  obtain ⟨g₀, pre, tail, paired, _⟩ := inv
  rw [paired.entries, paired.cur]
  exact lawful.settle_run paired.settled paired.run

section Read

section

variable (inv : Inv T F base log handles cur)

include inv

/-- A handle on the present base catches up by replaying what lies behind its offset. -/
theorem Inv.rel_tail (member : h ∈ handles)
    (ident : h.ident = base.ident) (cut : log.entries = done ++ rest) (pos : F.At h.pos done)
    (replayed : T.replay h.val rest = some b) : T.Rel b cur := by
  obtain ⟨g₀, pre, tail, paired, good⟩ := inv
  rcases good h member with current | stale
  · obtain ⟨done', rest', cut', pos', recovers⟩ := current.recovers
    have offset : F.extent done = F.extent done' := by
      have := F.header_pos
      have := F.header_le done
      have := F.header_le done'
      rcases pos with pos | ⟨rfl, pos⟩ <;> rcases pos' with pos' | ⟨rfl, pos'⟩ <;> omega
    obtain ⟨rfl, rfl⟩ := F.cut_unique (cut.symm.trans cut') offset
    exact recovers.rel replayed
  · exact absurd ident (Nat.ne_of_lt stale.ident)

/-- A reader of the base replays from the start its pairing gives. -/
theorem Inv.rel_reread (lawful : T.Lawful) (cut : log.entries = pre ++ tail) (start : Start F base log pre)
    (replayed : T.replay base.val tail = some b) : T.Rel b cur := by
  obtain ⟨g₀, pre', tail', paired, _⟩ := inv
  obtain ⟨rfl, rfl⟩ := start.unique paired.start (cut.symm.trans paired.entries)
  rw [paired.cur]
  exact lawful.follow paired.rel paired.run replayed

/-- A reader of the base may also replay the whole log over what it took from the base. -/
theorem Inv.rel_whole (lawful : T.Lawful)
    (read : ∀ g, T.Rel base.val g → T.Rel a g) (replayed : T.replay a log.entries = some b) :
    T.Rel b cur := by
  obtain ⟨g₀, pre, tail, paired, _⟩ := inv
  rw [paired.entries] at replayed
  rw [paired.cur]
  exact lawful.absorb paired.settled (read g₀ paired.rel) paired.run replayed

/-- A handle whose log the base folded no further than it had read keeps its own copy, takes over
the base's headers and replays the whole log. -/
theorem Inv.rel_adopt (lawful : T.Lawful) (member : h ∈ handles)
    (ident : h.ident ≠ base.ident) (lineage : h.lineage = base.folded) (pos : base.foldedOffset ≤ h.pos)
    (adopted : ∀ g, T.Core h.val g → T.Rel base.val g → T.Rel a g)
    (replayed : T.replay a log.entries = some b) : T.Rel b cur := by
  obtain ⟨g₀, pre, tail, paired, good⟩ := inv
  rcases good h member with current | stale
  · exact absurd current.ident ident
  · rw [paired.entries] at replayed
    rw [paired.cur]
    exact lawful.absorb paired.settled (adopted g₀ (stale.core lineage pos) paired.rel) paired.run
      replayed

/-- A handle of the log's own lineage that has read all of it still agrees with the truth. -/
theorem Inv.core_of_caughtUp (lawful : T.Lawful) (member : h ∈ handles) (lineage : h.lineage = log.seq)
    (pos : F.extent log.entries ≤ h.pos) : T.Core h.val cur := by
  obtain ⟨g₀, pre, tail, paired, good⟩ := inv
  rcases good h member with current | stale
  · obtain ⟨done, rest, cut, place, recovers⟩ := current.recovers
    have bound := place.le
    rw [cut, F.extent_append] at pos
    obtain rfl := F.eq_nil_of_sum rest (by omega)
    exact lawful.core (lawful.caughtUp fun b replayed => recovers.rel replayed)
  · have below : log.seq < base.lineage := lineage ▸ stale.lineage
    have folded : log.seq = base.folded := by
      rcases paired.start with ⟨seq, _⟩ | ⟨seq, _⟩
      · omega
      · exact seq
    have read := stale.pos lineage
    have offset := paired.start.foldedOffset_le below
    rw [paired.entries, F.extent_append] at pos
    obtain rfl := F.eq_nil_of_sum tail (by omega)
    rw [paired.cur]
    exact stale.core (lineage.trans folded) (by omega)

end

end Read

section Write

/-- Appending an entry advances the truth for everyone; the writer has applied it already. -/
theorem Inv.commit (inv : Inv T F base log handles cur) (fresh : Fresh T F base log cur me)
    (ok : T.Ok cur log.entries e) (rel : T.Rel a (T.advance cur e))
    (place : pos = F.extent (log.entries ++ [e])) :
    Inv T F base ⟨log.seq, log.entries ++ [e]⟩ handles (T.advance cur e) ∧
      Fresh T F base ⟨log.seq, log.entries ++ [e]⟩ (T.advance cur e)
        ⟨a, me.ident, me.lineage, pos⟩ := by
  obtain ⟨g₀, pre, tail, paired, good⟩ := inv
  refine ⟨⟨g₀, pre, tail ++ [e], ?_, ?_⟩, ?_⟩
  · exact {
      entries := by simp [paired.entries]
      cur := by rw [paired.cur, Theory.after_append]; rfl
      start := paired.start
      rel := paired.rel
      settled := paired.settled
      run := Theory.run_append.mpr
        ⟨paired.run, by rw [← paired.cur, ← paired.entries]; exact ⟨ok, trivial⟩⟩
      folded := paired.folded }
  · intro h member
    rcases good h member with current | stale
    · obtain ⟨done, rest, cut, place, recovers⟩ := current.recovers
      exact .inl ⟨current.ident, current.lineage, done, rest ++ [e], by simp [cut], place,
        recovers.commit ok⟩
    · exact .inr ⟨stale.ident, stale.lineage, stale.pos, stale.core⟩
  · exact ⟨fresh.ident, fresh.lineage, .inl place, rel⟩

variable {base' : Base α}

section

variable (inv : Inv T F base log handles cur) (ident : base.ident < base'.ident)
  (lineage : base.lineage < base'.lineage) (rel : T.Rel base'.val g)

include inv ident lineage rel

/-- A rewritten base that keeps the log records that it absorbed all of it. -/
theorem Inv.rebase (folded : base'.folded = log.seq) (offset : base'.foldedOffset = F.extent log.entries)
    (settled : T.Settled g log.entries)
    (caughtUp : ∀ h ∈ handles, h.lineage = log.seq → F.extent log.entries ≤ h.pos → T.Core h.val g) :
    Inv T F base' log handles g := by
  obtain ⟨g₀, pre, tail, paired, good⟩ := inv
  have seq : log.seq ≤ base.lineage := by
    rcases paired.start with ⟨seq, _⟩ | ⟨_, below, _⟩ <;> omega
  refine ⟨g, log.entries, [], ?_, ?_⟩
  · exact {
      entries := by simp
      cur := rfl
      start := .inr ⟨folded.symm, by omega, by rw [offset, max_eq_left (F.header_le _)]⟩
      rel := rel
      settled := settled
      run := trivial
      folded := by omega }
  · intro h member
    have core : h.lineage = base'.folded → base'.foldedOffset ≤ h.pos → T.Core h.val g := by
      rw [folded, offset]
      exact caughtUp h member
    rcases good h member with current | stale
    · obtain ⟨done, rest, cut, place, _⟩ := current.recovers
      have bound := place.le
      have extent := F.extent_le done rest
      refine .inr ⟨current.ident ▸ ident, current.lineage ▸ lineage, fun _ => ?_, core⟩
      rw [offset, cut]
      omega
    · refine .inr ⟨by have := stale.ident; omega, by have := stale.lineage; omega, ?_, core⟩
      intro same
      have below : log.seq < base.lineage := same ▸ stale.lineage
      have read := stale.pos same
      have start := paired.start.foldedOffset_le below
      have extent := F.extent_le pre tail
      rw [offset, paired.entries]
      omega

/-- A rewritten base that starts a new log under its own lineage. -/
theorem Inv.fold (folded : base'.folded < base'.lineage) (settled : T.Settled g [])
    (caughtUp : ∀ h ∈ handles, h.lineage = base'.folded → base'.foldedOffset ≤ h.pos → T.Core h.val g) :
    Inv T F base' ⟨base'.lineage, []⟩ handles g := by
  obtain ⟨g₀, pre, tail, paired, good⟩ := inv
  refine ⟨g, [], [], ?_, ?_⟩
  · exact {
      entries := rfl
      cur := rfl
      start := .inl ⟨rfl, rfl⟩
      rel := rel
      settled := settled
      run := trivial
      folded := folded }
  · intro h member
    have stale : h.ident < base'.ident ∧ h.lineage < base'.lineage := by
      rcases good h member with current | stale
      · exact ⟨current.ident ▸ ident, current.lineage ▸ lineage⟩
      · exact ⟨stale.ident.trans ident, stale.lineage.trans lineage⟩
    refine .inr ⟨stale.1, stale.2, fun same => ?_, caughtUp h member⟩
    exact absurd same (Nat.ne_of_lt stale.2)

end

end Write

section Counter

/-- The theory of one number inside the value that copies may not lose: the truth is a lower bound,
and an entry may be appended when it does not lower it. -/
def counter (replay : α → List ε → Option α) (value : α → ℕ) (step : ℕ → ε → ℕ) : Theory α ε ℕ where
  replay := replay
  advance := step
  Rel a g := g ≤ value a
  Core a g := g ≤ value a
  Ok g _ e := g ≤ step g e
  Settled g es := g ≤ es.foldl step g

variable {step : ℕ → ε → ℕ}

theorem foldl_mono (mono : ∀ e, Monotone (step · e)) (es : List ε) : Monotone (es.foldl step) := by
  induction es with
  | nil => exact fun _ _ le => le
  | cons e es ih => exact fun _ _ le => ih (mono e le)

theorem counter_lawful {replay : α → List ε → Option α} {value : α → ℕ}
    (mono : ∀ e, Monotone (step · e)) (total : ∀ a, ∃ b, replay a [] = some b)
    (follows : ∀ {a b es}, replay a es = some b → value b = es.foldl step (value a)) :
    (counter replay value step).Lawful where
  caughtUp := by
    intro a g rel
    obtain ⟨b, replayed⟩ := total a
    have bound : g ≤ value b := rel b replayed
    rw [follows replayed] at bound
    exact bound
  core rel := rel
  follow := by
    intro a b g es more rel _ replayed
    show more.foldl step g ≤ value b
    rw [follows replayed]
    exact foldl_mono mono more rel
  absorb := by
    intro a b g es more settled rel _ replayed
    show more.foldl step g ≤ value b
    rw [follows replayed, List.foldl_append]
    exact foldl_mono mono more (settled.trans (foldl_mono mono es rel))
  settle := by
    intro g es e settled ok
    show step g e ≤ (es ++ [e]).foldl step (step g e)
    rw [List.foldl_append]
    exact mono e (settled.trans (foldl_mono mono es ok))

end Counter

end Yarilo.Library.Journal

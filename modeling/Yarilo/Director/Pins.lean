import Mathlib.Logic.Function.Basic
import Mathlib.Order.Basic
import Yarilo.Library.HostPort

/-! # The pin of one user

What any number of directors hold of one user, and the notes about the user that are still to reach
them. An assignment is told with its stamp and taken where it is newer; a move is told without one and
taken anywhere, under a stamp of the director that takes it; a pin that is followed is stamped anew and
nobody is told. The pins come to agree where these three do not meet.
-/

namespace Yarilo.Director

open Library Function Option

/-- The Lamport stamp of an assignment. -/
structure Stamp where
  seq : ℕ
  by_ : Bytes
deriving DecidableEq

namespace Stamp

variable {a b c : Stamp}

def Newer (a b : Stamp) : Prop := b.seq < a.seq ∨ a.seq = b.seq ∧ a.by_ < b.by_

instance (a b : Stamp) : Decidable (a.Newer b) := inferInstanceAs (Decidable (_ ∨ _))

theorem Newer.trans (first : a.Newer b) (second : b.Newer c) : a.Newer c := by
  rcases first with above | ⟨level, first⟩
  · rcases second with above' | ⟨level', -⟩
    · exact .inl (above'.trans above)
    · exact .inl (level' ▸ above)
  rcases second with above' | ⟨level', second⟩
  · exact .inl (level ▸ above')
  · exact .inr ⟨level.trans level', List.lt_trans first second⟩

theorem not_newer_self (a : Stamp) : ¬a.Newer a := by
  rintro (above | ⟨-, before⟩)
  · exact lt_irrefl _ above
  · exact List.lt_irrefl _ before

theorem newer_trichotomy (a b : Stamp) : a.Newer b ∨ a = b ∨ b.Newer a := by
  rcases lt_trichotomy a.seq b.seq with below | level | above
  · exact .inr (.inr (.inl below))
  · rcases Std.lt_trichotomy a.by_ b.by_ with before | same | after
    · exact .inl (.inr ⟨level, before⟩)
    · exact .inr (.inl (by cases a; cases b; simp_all))
    · exact .inr (.inr (.inr ⟨level.symm, after⟩))
  · exact .inl (.inl above)

end Stamp

abbrev Pin : Type := Bytes × Stamp

/-- What a director is still to learn of the user. -/
inductive Note where
  | assign (host : Bytes) (stamp : Stamp)
  | move (host : Bytes)
  | kick (ip : Bytes)
deriving DecidableEq

/-- The pin of a user and the clock at every director, and the notes that are under way to it. -/
structure Desk (ι : Type) where
  entry : ι → Option Pin
  clock : ι → ℕ
  mail : ι → Note → Prop

/-- The newer of a pin that is held and one that comes. -/
def mergePin (cur : Option Pin) (incoming : Pin) : Option Pin :=
  match cur with
  | none => some incoming
  | some held => if incoming.2.Newer held.2 then some incoming else some held

/-- The pin after a kick off a backend. -/
def kickPin (cur : Option Pin) (ip : Bytes) : Option Pin :=
  if ip = [] then none else cur.filter fun e => decide (hostOf e.1 ≠ ip)

namespace Desk

variable {ι : Type} [DecidableEq ι] {j : ι} {ip : Bytes} {e top : Pin}

def host (d : Desk ι) (i : ι) : Option Bytes := (d.entry i).map (·.1)

/-- The stamp of what a director writes next. -/
def next (d : Desk ι) (name : ι → Bytes) (i : ι) : Stamp := ⟨d.clock i + 1, name i⟩

/-- No assignment is under way. -/
def NoAssign (d : Desk ι) : Prop := ∀ j x σ, ¬d.mail j (.assign x σ)

/-- Neither a move nor a kick is under way. -/
def NoMove (d : Desk ι) : Prop := ∀ j x, ¬d.mail j (.move x) ∧ ¬d.mail j (.kick x)

def NoMail (d : Desk ι) : Prop := ∀ j n, ¬d.mail j n

/-- A director may place the user: no move is under way, and either another placement is, or the clock
of the director is not behind a stamp that is held. -/
def Fresh (d : Desk ι) (i : ι) : Prop :=
  d.NoMove ∧ ((∃ j x σ, d.mail j (.assign x σ)) ∨ ∀ j e, d.entry j = some e → e.2.seq ≤ d.clock i)

/-- The second desk is the first with a pin written at a director, the mail apart. -/
structure Wrote (name : ι → Bytes) (d d' : Desk ι) (i : ι) (x : Bytes) : Prop where
  entry : d'.entry = update d.entry i (some (x, d.next name i))
  clock : d'.clock = update d.clock i (d.clock i + 1)

/-- The second desk has the mail of the first but a note that a director takes. -/
structure Took (d d' : Desk ι) (i : ι) (n : Note) : Prop where
  came : d.mail i n
  rest : ∀ j m, d'.mail j m → d.mail j m
  kept : ∀ j m, d.mail j m → d'.mail j m ∨ j = i ∧ m = n

/-- What can happen to the pin of a user. -/
inductive Turn (name : ι → Bytes) (d d' : Desk ι) : Prop where
  /-- nothing, but that clocks go on -/
  | rest (entry : d'.entry = d.entry) (mail : d'.mail = d.mail) (clock : ∀ i, d.clock i ≤ d'.clock i)
  /-- a pin is followed -/
  | refresh (i : ι) (x : Bytes) (old : Stamp) (quiet : d.NoAssign) (held : d.entry i = some (x, old))
      (wrote : d.Wrote name d' i x) (mail : d'.mail = d.mail)
  /-- the user is placed -/
  | assign (i : ι) (x : Bytes) (fresh : d.Fresh i) (wrote : d.Wrote name d' i x)
      (mail : ∀ j n, d'.mail j n ↔ d.mail j n ∨ j ≠ i ∧ n = .assign x (d.next name i))
  /-- the user is moved -/
  | move (i : ι) (x : Bytes) (clear : d.NoMail) (wrote : d.Wrote name d' i x)
      (sent : ∀ j, j ≠ i → d'.mail j (.move x))
      (only : ∀ j n, d'.mail j n → n = .move x ∨ ∃ ip, n = .kick ip ∧ ip ≠ [] ∧ ip ≠ hostOf x)
  | takeAssign (i : ι) (x : Bytes) (σ : Stamp) (took : d.Took d' i (.assign x σ))
      (entry : d'.entry = update d.entry i (mergePin (d.entry i) (x, σ)))
      (clock : d'.clock = update d.clock i (max (d.clock i) σ.seq))
  | takeMove (i : ι) (x : Bytes) (took : d.Took d' i (.move x)) (wrote : d.Wrote name d' i x)
  | takeKick (i : ι) (ip : Bytes) (took : d.Took d' i (.kick ip))
      (entry : d'.entry = update d.entry i (kickPin (d.entry i) ip)) (clock : d'.clock = d.clock)
  /-- a kick that comes after a later one of its director -/
  | dropKick (i : ι) (ip : Bytes) (took : d.Took d' i (.kick ip)) (entry : d'.entry = d.entry)
      (clock : d'.clock = d.clock)

/-! ## Clocks -/

/-- No clock is behind a pin its director holds, or a stamp of its own. -/
structure Clocked (name : ι → Bytes) (d : Desk ι) : Prop where
  held : ∀ i e, d.entry i = some e → e.2.seq ≤ d.clock i
  ownHeld : ∀ i j e, d.entry i = some e → e.2.by_ = name j → e.2.seq ≤ d.clock j
  ownSent : ∀ i j x σ, d.mail i (.assign x σ) → σ.by_ = name j → σ.seq ≤ d.clock j

/-! ## Phases -/

/-- Nothing is under way and the pins agree. -/
structure Agreed (d : Desk ι) : Prop where
  clear : d.NoMail
  same : ∀ i j, d.host i = d.host j

/-- A move is under way to the directors that do not hold its host. -/
structure Moving (d : Desk ι) (x : Bytes) : Prop where
  only : ∀ j n, d.mail j n → n = .move x ∨ ∃ ip, n = .kick ip ∧ ip ≠ [] ∧ ip ≠ hostOf x
  reach : ∀ i, d.host i = some x ∨ d.mail i (.move x)

/-- The pin is the one with the newest stamp, or older than it. -/
def UpTo (top e : Pin) : Prop := top.2.Newer e.2 ∨ e = top

/-- The newest assignment is under way to the directors that do not hold it. -/
structure Assigning (d : Desk ι) (top : Pin) : Prop where
  only : ∀ j n, d.mail j n → ∃ x σ, n = .assign x σ ∧ UpTo top (x, σ)
  below : ∀ i e, d.entry i = some e → UpTo top e
  reach : ∀ i, d.entry i = some top ∨ d.mail i (.assign top.1 top.2)

/-- Every desk that turns lead to is in one of these phases. -/
def Sound (d : Desk ι) : Prop := d.Agreed ∨ (∃ x, d.Moving x) ∨ ∃ top, d.Assigning top

variable {name : ι → Bytes} {d d' : Desk ι} {i : ι} {x : Bytes}

/-! ## What is written -/

section

variable (wrote : d.Wrote name d' i x)

include wrote

theorem Wrote.entry_self : d'.entry i = some (x, d.next name i) := by
  rw [wrote.entry, update_self]

theorem Wrote.entry_other (apart : j ≠ i) : d'.entry j = d.entry j := by
  rw [wrote.entry, update_of_ne apart]

theorem Wrote.clock_le (j : ι) : d.clock j ≤ d'.clock j := by
  rw [wrote.clock]
  by_cases same : j = i
  · subst same
    rw [update_self]
    exact Nat.le_succ _
  · rw [update_of_ne same]

theorem Wrote.clock_self : d'.clock i = d.clock i + 1 := by
  rw [wrote.clock, update_self]

end

theorem mergePin_cases (cur : Option Pin) (e : Pin) : mergePin cur e = some e ∨ mergePin cur e = cur := by
  unfold mergePin
  split
  · exact .inl rfl
  split
  · exact .inl rfl
  · exact .inr rfl

theorem kickPin_eq_some {cur : Option Pin} (kept : kickPin cur ip = some e) : cur = some e := by
  unfold kickPin at kept
  split at kept
  · cases kept
  · exact (filter_eq_some_iff.mp kept).1

/-! ## Clocks keep up -/

namespace Clocked

omit [DecidableEq ι] in
/-- Clocks that go on, and pins and notes that were there before or are stamped by a clock. -/
theorem of_origin (clocked : d.Clocked name) (injective : Function.Injective name)
    (clock : ∀ i, d.clock i ≤ d'.clock i)
    (entry : ∀ i e, d'.entry i = some e → d.entry i = some e ∨ e.2.seq ≤ d'.clock i ∧
      ((∃ x σ, d.mail i (.assign x σ) ∧ e = (x, σ)) ∨ e.2.by_ = name i))
    (mail : ∀ i x σ, d'.mail i (.assign x σ) → d.mail i (.assign x σ) ∨
      ∃ j, σ.by_ = name j ∧ σ.seq ≤ d'.clock j) : d'.Clocked name where
  held i e held := by
    rcases entry i e held with before | ⟨bound, -⟩
    · exact (clocked.held i e before).trans (clock i)
    · exact bound
  ownHeld i j e held own := by
    rcases entry i e held with before | ⟨bound, ⟨x, σ, sent, rfl⟩ | mine⟩
    · exact (clocked.ownHeld i j e before own).trans (clock j)
    · exact (clocked.ownSent i j x σ sent own).trans (clock j)
    · rw [← injective (mine.symm.trans own)]
      exact bound
  ownSent i j x σ sent own := by
    rcases mail i x σ sent with before | ⟨k, mine, bound⟩
    · exact (clocked.ownSent i j x σ before own).trans (clock j)
    · rw [← injective (mine.symm.trans own)]
      exact bound

theorem wrote_entry (wrote : d.Wrote name d' i x) (j : ι) (e : Pin) (held : d'.entry j = some e) :
    d.entry j = some e ∨ e.2.seq ≤ d'.clock j ∧
      ((∃ x σ, d.mail j (.assign x σ) ∧ e = (x, σ)) ∨ e.2.by_ = name j) := by
  by_cases same : j = i
  · subst same
    rw [wrote.entry_self] at held
    cases held
    right
    rw [wrote.clock_self]
    exact ⟨le_refl _, .inr rfl⟩
  · exact .inl (wrote.entry_other same ▸ held)

theorem turn (clocked : d.Clocked name) (injective : Function.Injective name) (turn : Turn name d d') :
    d'.Clocked name := by
  cases turn with
  | rest entry mail clock =>
    refine clocked.of_origin injective clock (fun i e held => .inl ?_) (fun i x σ sent => .inl ?_)
    · rwa [← entry]
    · rwa [← mail]
  | refresh i x old quiet held wrote mail =>
    refine clocked.of_origin injective wrote.clock_le (wrote_entry wrote) (fun i x σ sent => .inl ?_)
    rwa [← mail]
  | assign i x fresh wrote mail =>
    refine clocked.of_origin injective wrote.clock_le (wrote_entry wrote) (fun j y σ sent => ?_)
    rcases (mail j _).mp sent with before | ⟨-, new⟩
    · exact .inl before
    · cases new
      exact .inr ⟨i, rfl, by rw [wrote.clock_self]; exact le_refl _⟩
  | move i x clear wrote sent only =>
    refine clocked.of_origin injective wrote.clock_le (wrote_entry wrote) (fun j y σ came => ?_)
    rcases only j _ came with move | ⟨ip, kick, -⟩
    · cases move
    · cases kick
  | takeAssign i x σ took entry clock =>
    have goes (j : ι) : d.clock j ≤ d'.clock j := by
      rw [clock]
      by_cases same : j = i
      · subst same
        rw [update_self]
        exact le_max_left _ _
      · rw [update_of_ne same]
    refine clocked.of_origin injective goes (fun j e held => ?_) (fun j y τ sent => .inl (took.rest j _ sent))
    by_cases same : j = i
    · subst same
      rw [entry, update_self] at held
      rcases mergePin_cases (d.entry j) (x, σ) with new | old
      · cases new.symm.trans held
        right
        rw [clock, update_self]
        exact ⟨le_max_right _ _, .inl ⟨x, σ, took.came, rfl⟩⟩
      · exact .inl (old ▸ held)
    · rw [entry, update_of_ne same] at held
      exact .inl held
  | takeMove i x took wrote =>
    exact clocked.of_origin injective wrote.clock_le (wrote_entry wrote)
      (fun j y τ sent => .inl (took.rest j _ sent))
  | takeKick i ip took entry clock =>
    refine clocked.of_origin injective (fun j => le_of_eq (by rw [clock])) (fun j e held => .inl ?_)
      (fun j y τ sent => .inl (took.rest j _ sent))
    rw [entry] at held
    by_cases same : j = i
    · subst same
      rw [update_self] at held
      exact kickPin_eq_some held
    · rwa [update_of_ne same] at held
  | dropKick i ip took entry clock =>
    exact clocked.of_origin injective (fun j => le_of_eq (by rw [clock])) (fun j e held => .inl (entry ▸ held))
      (fun j y τ sent => .inl (took.rest j _ sent))

end Clocked

/-! ## Pins come to agree -/

omit [DecidableEq ι] in
theorem Assigning.agreed (assigning : d.Assigning top) (clear : d.NoMail) : d.Agreed where
  clear := clear
  same i j := by
    have held (k : ι) : d.host k = some top.1 := by
      rw [host, (assigning.reach k).resolve_right (clear k _), map_some]
    rw [held i, held j]

omit [DecidableEq ι] in
theorem Moving.agreed (moving : d.Moving x) (clear : d.NoMail) : d.Agreed where
  clear := clear
  same i j := by
    rw [(moving.reach i).resolve_right (clear i _), (moving.reach j).resolve_right (clear j _)]

omit [DecidableEq ι] in
/-- Where nothing is under way the pins agree. -/
theorem Sound.agreed (sound : d.Sound) (clear : d.NoMail) : d.Agreed := by
  rcases sound with agreed | ⟨x, moving⟩ | ⟨top, assigning⟩
  · exact agreed
  · exact moving.agreed clear
  · exact assigning.agreed clear

section

variable (wrote : d.Wrote name d' i x)

include wrote

theorem Wrote.host_self : d'.host i = some x := by
  rw [host, wrote.entry_self, map_some]

theorem Wrote.host_other (apart : j ≠ i) : d'.host j = d.host j := by
  rw [host, wrote.entry_other apart, host]

/-- A pin that is stamped anew points where it did. -/
theorem Wrote.host_same {old : Stamp} (held : d.entry i = some (x, old)) (j : ι) : d'.host j = d.host j := by
  by_cases same : j = i
  · subst same
    rw [wrote.host_self, host, held, map_some]
  · exact wrote.host_other same

theorem moving_of_move (sent : ∀ j, j ≠ i → d'.mail j (.move x))
    (only : ∀ j n, d'.mail j n → n = .move x ∨ ∃ ip, n = .kick ip ∧ ip ≠ [] ∧ ip ≠ hostOf x) :
    d'.Moving x where
  only := only
  reach j := by
    by_cases same : j = i
    · subst same
      exact .inl wrote.host_self
    · exact .inr (sent j same)

end

theorem UpTo.self (top : Pin) : UpTo top top := .inr rfl

theorem UpTo.of_newer {above : Pin} (newer : above.2.Newer top.2) (upTo : UpTo top e) : UpTo above e := by
  rcases upTo with older | rfl
  · exact .inl (newer.trans older)
  · exact .inl newer

section

variable (wrote : d.Wrote name d' i x)
  (mail : ∀ j n, d'.mail j n ↔ d.mail j n ∨ j ≠ i ∧ n = .assign x (d.next name i))

include wrote mail

/-- A placement whose stamp is newer than all that is held or under way. -/
theorem assigning_of_newest
    (sent : ∀ j n, d.mail j n → ∃ y σ, n = .assign y σ ∧ UpTo (x, d.next name i) (y, σ))
    (below : ∀ j e, d.entry j = some e → UpTo (x, d.next name i) e) : d'.Assigning (x, d.next name i) where
  only j n came := by
    rcases (mail j n).mp came with before | ⟨-, rfl⟩
    · exact sent j n before
    · exact ⟨x, _, rfl, .self _⟩
  below j e held := by
    by_cases same : j = i
    · subst same
      rw [wrote.entry_self] at held
      exact .inr (some.inj held).symm
    · exact below j e (wrote.entry_other same ▸ held)
  reach j := by
    by_cases same : j = i
    · subst same
      exact .inl wrote.entry_self
    · exact .inr ((mail j _).mpr (.inr ⟨same, rfl⟩))

/-- Another placement while one is under way: the newer of the two is the newest. -/
theorem Assigning.again (assigning : d.Assigning top) (clocked : d.Clocked name) :
    ∃ top', d'.Assigning top' := by
  rcases Stamp.newer_trichotomy (d.next name i) top.2 with newer | equal | older
  · refine ⟨_, assigning_of_newest wrote mail (fun j n before => ?_) fun j e held =>
      (assigning.below j e held).of_newer newer⟩
    obtain ⟨y, σ, rfl, upTo⟩ := assigning.only j n before
    exact ⟨y, σ, rfl, upTo.of_newer newer⟩
  · -- The stamp is new: a clock is not behind a stamp of its own.
    have own : top.2.by_ = name i := by rw [← equal]; rfl
    have bound : top.2.seq ≤ d.clock i := by
      rcases assigning.reach i with held | sent
      · exact clocked.ownHeld i i top held own
      · exact clocked.ownSent i i _ _ sent own
    have number : top.2.seq = d.clock i + 1 := by rw [← equal]; rfl
    omega
  · have sent : d.mail i (.assign top.1 top.2) := by
      refine (assigning.reach i).resolve_left fun held => ?_
      have bound : top.2.seq ≤ d.clock i := clocked.held i top held
      rcases older with above | ⟨level, -⟩
      · exact absurd above (Nat.not_lt.mpr (Nat.le_succ_of_le bound))
      · exact absurd bound (by rw [level]; exact Nat.not_succ_le_self _)
    refine ⟨top, ?_, ?_, ?_⟩
    · intro j n came
      rcases (mail j n).mp came with before | ⟨-, rfl⟩
      · exact assigning.only j n before
      · exact ⟨x, _, rfl, .inl older⟩
    · intro j e held
      by_cases same : j = i
      · subst same
        rw [wrote.entry_self] at held
        rw [← some.inj held]
        exact .inl older
      · rw [wrote.entry_other same] at held
        exact assigning.below j e held
    · intro j
      by_cases same : j = i
      · subst same
        exact .inr ((mail j _).mpr (.inl sent))
      · rw [wrote.entry_other same]
        exact (assigning.reach j).imp_right fun under => (mail j _).mpr (.inl under)

end

/-- A note of the newest assignment, or an older one, is taken where it is newer. -/
theorem Assigning.take (assigning : d.Assigning top) {σ : Stamp} (took : d.Took d' i (.assign x σ))
    (entry : d'.entry = update d.entry i (mergePin (d.entry i) (x, σ))) : d'.Assigning top := by
  have upTo : UpTo top (x, σ) := by
    obtain ⟨y, τ, same, upTo⟩ := assigning.only i _ took.came
    cases same
    exact upTo
  have other {j : ι} (apart : j ≠ i) : d'.entry j = d.entry j := by
    rw [entry, update_of_ne apart]
  have here : d'.entry i = mergePin (d.entry i) (x, σ) := by
    rw [entry, update_self]
  refine ⟨fun j n came => assigning.only j n (took.rest j n came), ?_, ?_⟩
  · intro j e held
    by_cases same : j = i
    · subst same
      rw [here] at held
      rcases mergePin_cases (d.entry j) (x, σ) with new | old
      · rw [← some.inj (new.symm.trans held)]
        exact upTo
      · exact assigning.below j e (old ▸ held)
    · exact assigning.below j e (other same ▸ held)
  · intro j
    by_cases same : j = i
    · subst same
      rw [here]
      rcases assigning.reach j with held | sent
      · -- What comes is not newer than the newest.
        have stays : ¬σ.Newer top.2 := by
          rcases upTo with older | equal
          · exact fun newer => Stamp.not_newer_self _ (newer.trans older)
          · rw [← equal]
            exact Stamp.not_newer_self _
        left
        rw [held, mergePin, if_neg stays]
      · rcases took.kept j _ sent with still | ⟨-, this⟩
        · exact .inr still
        cases this
        left
        rcases held : d.entry j with _ | e
        · rfl
        rcases assigning.below j e held with older | rfl
        · rw [mergePin, if_pos older]
        · rw [mergePin, if_neg (Stamp.not_newer_self _)]
    · rw [other same]
      refine (assigning.reach j).imp_right fun sent => ?_
      exact (took.kept j _ sent).resolve_right fun this => same this.1

theorem Moving.take (moving : d.Moving x) (took : d.Took d' i (.move x)) (wrote : d.Wrote name d' i x) :
    d'.Moving x where
  only j n came := moving.only j n (took.rest j n came)
  reach j := by
    by_cases same : j = i
    · subst same
      exact .inl wrote.host_self
    rw [wrote.host_other same]
    refine (moving.reach j).imp_right fun sent => ?_
    exact (took.kept j _ sent).resolve_right fun this => same this.1

omit [DecidableEq ι] in
/-- A kick that leaves the pin of the move where it is held. -/
theorem Moving.kick (moving : d.Moving x) (took : d.Took d' i (.kick ip))
    (kept : ∀ j, d.host j = some x → d'.host j = some x) : d'.Moving x where
  only j n came := moving.only j n (took.rest j n came)
  reach j := by
    refine (moving.reach j).imp (kept j) fun sent => (took.kept j _ sent).resolve_right ?_
    rintro ⟨-, this⟩
    cases this

/-- A kick off the backend the user was moved off does not touch the pin of the move. -/
theorem Moving.kickPin (moving : d.Moving x) (came : d.mail i (.kick ip))
    (entry : d'.entry = update d.entry i (kickPin (d.entry i) ip)) (j : ι) (held : d.host j = some x) :
    d'.host j = some x := by
  by_cases same : j = i
  · subst same
    obtain ⟨ip', equal, given, elsewhere⟩ := (moving.only j _ came).resolve_left (by simp)
    cases equal
    obtain ⟨e, entry', pinned⟩ := map_eq_some_iff.mp held
    have kept : hostOf e.1 ≠ ip := by
      rw [pinned]
      exact elsewhere.symm
    rw [host, entry, update_self, Director.kickPin, if_neg given, entry', filter_some,
      if_pos (decide_eq_true kept), map_some, pinned]
  · rwa [host, entry, update_of_ne same]

omit [DecidableEq ι] in
/-- A move or a kick comes only while a move is under way. -/
theorem Sound.moving (sound : d.Sound) {n : Note} (came : d.mail i n) (other : ∀ y σ, n ≠ .assign y σ) :
    ∃ y, d.Moving y := by
  rcases sound with agreed | moving | ⟨top, assigning⟩
  · exact absurd came (agreed.clear i _)
  · exact moving
  · obtain ⟨y, σ, this, -⟩ := assigning.only i _ came
    exact absurd this (other y σ)

/-- A turn leads from phase to phase. -/
theorem Sound.turn (sound : d.Sound) (clocked : d.Clocked name) (turn : Turn name d d') : d'.Sound := by
  cases turn with
  | rest entry mail clock =>
    have hosts : d'.host = d.host := by
      funext i
      rw [host, entry, host]
    rcases sound with ⟨clear, same⟩ | ⟨x, only, reach⟩ | ⟨top, only, below, reach⟩
    · exact .inl ⟨by rwa [NoMail, mail], by rwa [hosts]⟩
    · exact .inr (.inl ⟨x, by rwa [mail], by rwa [hosts, mail]⟩)
    · exact .inr (.inr ⟨top, by rwa [mail], by rwa [entry], by rwa [entry, mail]⟩)
  | refresh i x old quiet held wrote mail =>
    have hosts := wrote.host_same held
    have settled (agreed : d.Agreed) : d'.Sound :=
      .inl ⟨by rw [NoMail, mail]; exact agreed.clear, fun j k => by rw [hosts, hosts, agreed.same j k]⟩
    rcases sound with agreed | ⟨y, moving⟩ | ⟨top, assigning⟩
    · exact settled agreed
    · refine .inr (.inl ⟨y, by rw [mail]; exact moving.only, fun j => ?_⟩)
      rw [hosts, mail]
      exact moving.reach j
    -- Without an assignment under way the newest is held everywhere.
    refine settled (assigning.agreed fun j n came => ?_)
    obtain ⟨y, σ, rfl, -⟩ := assigning.only j n came
    exact quiet j y σ came
  | assign i x fresh wrote mail =>
    obtain ⟨noMove, under⟩ := fresh
    by_cases clear : d.NoMail
    · have ahead := under.resolve_left fun ⟨j, y, σ, came⟩ => clear j _ came
      exact .inr (.inr ⟨_, assigning_of_newest wrote mail (fun j n came => absurd came (clear j n))
        fun j e held => .inl (.inl (Nat.lt_succ_of_le (ahead j e held)))⟩)
    rcases sound with agreed | ⟨y, moving⟩ | ⟨top, assigning⟩
    · exact absurd agreed.clear clear
    · refine absurd (fun j n came => ?_) clear
      rcases moving.only j n came with rfl | ⟨ip, rfl, -⟩
      · exact (noMove j _).1 came
      · exact (noMove j _).2 came
    · exact .inr (.inr (assigning.again wrote mail clocked))
  | move i x clear wrote sent only => exact .inr (.inl ⟨x, moving_of_move wrote sent only⟩)
  | takeAssign i x σ took entry clock =>
    rcases sound with agreed | ⟨y, moving⟩ | ⟨top, assigning⟩
    · exact absurd took.came (agreed.clear i _)
    · rcases moving.only i _ took.came with this | ⟨ip, this, -⟩ <;> cases this
    · exact .inr (.inr ⟨top, assigning.take took entry⟩)
  | takeMove i x took wrote =>
    obtain ⟨y, moving⟩ := sound.moving took.came nofun
    rcases moving.only i _ took.came with this | ⟨ip, this, -⟩
    · cases this
      exact .inr (.inl ⟨x, moving.take took wrote⟩)
    · cases this
  | takeKick i ip took entry clock =>
    obtain ⟨y, moving⟩ := sound.moving took.came nofun
    exact .inr (.inl ⟨y, moving.kick took (moving.kickPin took.came entry)⟩)
  | dropKick i ip took entry clock =>
    obtain ⟨y, moving⟩ := sound.moving took.came nofun
    exact .inr (.inl ⟨y, moving.kick took fun j held => by rwa [host, entry]⟩)

end Desk

end Yarilo.Director

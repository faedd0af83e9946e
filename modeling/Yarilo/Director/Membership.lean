import Mathlib.Data.List.Permutation
import Mathlib.Data.List.Sort
import Yarilo.Library.Bytes
import Yarilo.Library.Runs

/-! # The members of the ring

A director keeps the members it knows, and dials its right neighbour among them. A merge copies the
list in one locked section and replaces it in another, so a member that is admitted in between is
lost; and it looks only at the number of members to decide whether to dial anew, so a merge that
drops as many as it adds leaves the old dial standing.
-/

namespace Yarilo.Director

open Library List

structure Member where
  ip : Bytes
  port : ℤ
deriving DecidableEq

/-- The zero value, which stands for no dial target. -/
def Member.zero : Member := ⟨[], 0⟩

/-- How the list is kept sorted, and how long tombstones stand; results hold for any rearrangement. -/
structure Keeping where
  sort : List Member → List Member
  perm : ∀ l, (sort l).Perm l
  tombstoneTTL : ℤ

structure Membership where
  self : Member
  members : List Member
  /-- tombstones, with the time they were set -/
  removed : Member → Option ℤ
  rightTarget : Member
  /-- the context of the dials stands -/
  running : Bool

/-- Members under host names, with the default lifetime. -/
def Keeping.byName : Keeping :=
  ⟨insertionSort fun a b => a.ip < b.ip ∨ a.ip = b.ip ∧ a.port ≤ b.port, perm_insertionSort _, 0⟩

namespace Membership

/-- A director that starts. -/
def fresh (self : Member) : Membership := ⟨self, [self], fun _ => none, .zero, true⟩

variable (k : Keeping) (now : ℤ) (m : Membership)

/-- Ten minutes where the setting is zero; a negative setting never lapses. -/
def lapsed (stamp : ℤ) : Bool :=
  let ttl := if k.tombstoneTTL = 0 then 600000000000 else k.tombstoneTTL
  0 < ttl && ttl < now - stamp

def tombstoned (mem : Member) : Bool := (m.removed mem).any (!lapsed k now ·)

/-- The loop of `setMembers`: what is new and not to be dropped is added to the end. -/
def unique (drop : Member → Bool) (uniq : List Member) : List Member → List Member
  | [] => uniq
  | mem :: rest => unique drop (if mem ∈ uniq then uniq else if drop mem then uniq else uniq ++ [mem]) rest

def drops (mem : Member) : Bool := m.tombstoned k now mem && mem ≠ m.self

/-- A tombstone that has lapsed is deleted when it is met. -/
def setMembers (members : List Member) : Membership where
  self := m.self
  members := k.sort (unique (m.drops k now) [] members)
  removed mem := if mem ∈ members then (m.removed mem).filter (!lapsed k now ·) else m.removed mem
  rightTarget := m.rightTarget
  running := m.running

/-- The first section of a merge: a tombstone that is known keeps its time. -/
def noteRemoved (incoming : List Member) : Membership :=
  { m with
    removed := fun mem =>
      if mem ∈ incoming ∧ mem ≠ m.self then (m.removed mem).or (some now) else m.removed mem }

def addMember (mem : Member) : Membership :=
  { m with
    members := if mem ∈ m.members then m.members else k.sort (m.members ++ [mem])
    removed := Function.update m.removed mem none }

def removeMember (mem : Member) : Membership :=
  { m with
    members := m.members.erase mem
    removed := if mem = m.self then m.removed else Function.update m.removed mem (some now) }

/-- None alone; of two the lower dials; of more each dials the next, round the list. -/
def rightNeighbor : Option Member :=
  match m.members with
  | [] | [_] => none
  | [a, b] => if m.self = a then some b else none
  | members => (members.idxOf? m.self).bind fun i => members[(i + 1) % members.length]?

def reconcile : Membership :=
  match m.rightNeighbor with
  | none => { m with rightTarget := .zero }
  | some target =>
    if m.rightTarget = target then m
    else { m with rightTarget := if m.running then target else .zero }

/-- A merge that is not interrupted; it reconciles if the number of members has changed. -/
def mergeMembers (incoming incomingRemoved : List Member) : Membership :=
  let merged := (m.noteRemoved now incomingRemoved).setMembers k now (m.members ++ incoming ++ [m.self])
  if merged.members.length ≠ m.members.length then merged.reconcile else merged

variable {k now m} {drop : Member → Bool} {uniq members : List Member} {mem : Member}

theorem mem_unique : mem ∈ unique drop uniq members ↔ mem ∈ uniq ∨ mem ∈ members ∧ drop mem = false := by
  induction members generalizing uniq with
  | nil => simp [unique]
  | cons first rest ih =>
    rw [unique, ih, mem_cons]
    split
    · grind
    · split <;> grind

theorem nodup_unique (nodup : uniq.Nodup) : (unique drop uniq members).Nodup := by
  induction members generalizing uniq with
  | nil => exact nodup
  | cons first rest ih =>
    apply ih
    split
    · exact nodup
    · split
      · exact nodup
      · next new _ => exact nodup_append.mpr ⟨nodup, nodup_singleton _, by grind⟩

theorem mem_setMembers : mem ∈ (m.setMembers k now members).members ↔
    mem ∈ members ∧ m.drops k now mem = false := by
  rw [setMembers, (k.perm _).mem_iff, mem_unique]
  simp

theorem nodup_setMembers (members : List Member) : (m.setMembers k now members).members.Nodup :=
  (k.perm _).nodup_iff.mpr (nodup_unique .nil)

theorem mem_addMember {other : Member} :
    other ∈ (m.addMember k mem).members ↔ other ∈ m.members ∨ other = mem := by
  unfold addMember
  split
  · grind
  · rw [(k.perm _).mem_iff, mem_append, mem_singleton]

theorem nodup_addMember (nodup : m.members.Nodup) : (m.addMember k mem).members.Nodup := by
  unfold addMember
  split
  · exact nodup
  · next new =>
    exact (k.perm _).nodup_iff.mpr (nodup_append.mpr ⟨nodup, nodup_singleton _, by grind⟩)

end Membership

/-! ## Merges that are interrupted -/

/-- A merge between its two sections: the list it copied, and the members it brings. -/
structure PendingMerge where
  copied : List Member
  incoming : List Member

structure Merging where
  ring : Membership
  pending : List PendingMerge

inductive RingAction where
  | add (mem : Member)
  | begin_ (now : ℤ) (incoming incomingRemoved : List Member)
  | finish (now : ℤ) (i : ℕ)

namespace Merging

variable {k : Keeping} {m : Membership} {actions before : List RingAction}

def step (k : Keeping) (d : Merging) : RingAction → Merging
  | .add mem => { d with ring := d.ring.addMember k mem }
  | .begin_ now incoming incomingRemoved =>
    ⟨d.ring.noteRemoved now incomingRemoved, ⟨d.ring.members, incoming⟩ :: d.pending⟩
  | .finish now i =>
    match d.pending[i]? with
    | none => d
    | some p => ⟨d.ring.setMembers k now (p.copied ++ p.incoming ++ [d.ring.self]), d.pending.eraseIdx i⟩

def after (k : Keeping) (m : Membership) (actions : List RingAction) : Merging :=
  actions.foldl (step k) ⟨m, []⟩

/-- Between the sections of a merge no member is admitted but one that the merge brings, or one that was
listed when it began. -/
def Timely (k : Keeping) (m : Membership) (before : List RingAction) : RingAction → Prop
  | .add mem => ∀ p ∈ (after k m before).pending, mem ∈ p.incoming ∨ mem ∈ p.copied
  | _ => True

/-- No tombstone names a member that is admitted. -/
def Untouched (m : Membership) (actions : List RingAction) : Prop :=
  ∀ mem, .add mem ∈ actions → m.removed mem = none ∧
    ∀ now incoming incomingRemoved, .begin_ now incoming incomingRemoved ∈ actions → mem ∉ incomingRemoved

/-- What a run keeps; `actions` is the whole of it. -/
structure Holds (d : Merging) (m : Membership) (actions before : List RingAction) : Prop where
  self : d.ring.self = m.self
  inside : m.self ∈ d.ring.members
  nodup : d.ring.members.Nodup
  pending : ∀ p ∈ d.pending, ∀ mem, .add mem ∈ before → mem ∈ p.incoming ∨ mem ∈ p.copied
  free : ∀ mem, .add mem ∈ actions → d.ring.removed mem = none
  admitted : ∀ mem, .add mem ∈ before → mem ∈ d.ring.members

theorem Holds.step {a : RingAction} (holds : (after k m before).Holds m actions before)
    (untouched : Untouched m actions) (mine : before ++ [a] ⊆ actions) (timely : Timely k m before a) :
    ((after k m before).step k a).Holds m actions (before ++ [a]) := by
  obtain ⟨self, inside, nodup, pending, free, admitted⟩ := holds
  cases a with
  | add mem =>
    have split (other : Member) (added : .add other ∈ before ++ [.add mem]) :
        .add other ∈ before ∨ other = mem := by
      simpa using added
    refine ⟨self, Membership.mem_addMember.mpr (.inl inside), Membership.nodup_addMember nodup,
      fun p waits other added => ?_, fun other added => ?_, fun other added => ?_⟩
    · rcases split other added with earlier | rfl
      · exact pending p waits other earlier
      · exact timely p waits
    · by_cases own : other = mem
      · exact own ▸ Function.update_self ..
      · exact (Function.update_of_ne own ..).trans (free other added)
    · exact Membership.mem_addMember.mpr ((split other added).imp_left (admitted other))
  | begin_ now incoming incomingRemoved =>
    have listed (mem : Member) (added : .add mem ∈ before ++ [.begin_ now incoming incomingRemoved]) :
        .add mem ∈ before := by
      simpa using added
    refine ⟨self, inside, nodup, ?_, fun mem added => ?_, fun mem added => admitted mem (listed mem added)⟩
    · -- What was admitted before is in the copy.
      rintro p (_ | ⟨_, earlier⟩) mem added
      · exact .inr (admitted mem (listed mem added))
      · exact pending p earlier mem (listed mem added)
    · have unnamed := (untouched mem added).2 now incoming incomingRemoved (mine (by simp))
      simp [Merging.step, Membership.noteRemoved, unnamed, free mem added]
  | finish now i =>
    have listed (mem : Member) (added : .add mem ∈ before ++ [.finish now i]) : .add mem ∈ before := by
      simpa using added
    simp only [Merging.step]
    split
    · exact ⟨self, inside, nodup, fun p waits mem added => pending p waits mem (listed mem added), free,
        fun mem added => admitted mem (listed mem added)⟩
    next p found =>
    have kept (mem : Member) (unmarked : (after k m before).ring.removed mem = none ∨ mem = m.self) :
        (after k m before).ring.drops k now mem = false := by
      rcases unmarked with none | rfl
      · simp [Membership.drops, Membership.tombstoned, none]
      · simp [Membership.drops, self]
    refine ⟨self, Membership.mem_setMembers.mpr ⟨by simp [self], kept _ (.inr rfl)⟩,
      Membership.nodup_setMembers _,
      fun p waits mem added => pending p (mem_of_mem_eraseIdx waits) mem (listed mem added),
      fun mem added => by simp [Membership.setMembers, free mem added], fun mem added => ?_⟩
    have covered := pending p (mem_of_getElem? found) mem (listed mem added)
    exact Membership.mem_setMembers.mpr ⟨by grind, kept mem (.inl (free mem (mine added)))⟩

/-- Once all calls have returned every admitted member is in the list, which has no duplicates and
has the director itself, where no merge is overtaken by an admission it does not know of. -/
theorem admitted_members_kept (k : Keeping) (m : Membership) (actions : List RingAction)
    (nodup : m.members.Nodup) (inside : m.self ∈ m.members) (untouched : Untouched m actions)
    (timely : EachStep (Timely k m) actions) :
    let d := after k m actions
    (∀ mem, .add mem ∈ actions → mem ∈ d.ring.members) ∧ d.ring.members.Nodup ∧
      d.ring.self ∈ d.ring.members := by
  have mine : EachStep (fun before a => Timely k m before a ∧ before ++ [a] ⊆ actions) actions := by
    rintro before a rest rfl
    exact ⟨timely before a rest rfl, by simp⟩
  have holds : (after k m actions).Holds m actions actions := by
    refine EachStep.induction (I := fun before => (after k m before).Holds m actions before) mine
      ⟨rfl, inside, nodup, nofun, fun mem added => (untouched mem added).1, nofun⟩ ?_
    rintro before a holds ⟨timely, mine⟩
    rw [after, foldl_append]
    exact holds.step untouched mine timely
  exact ⟨holds.admitted, holds.nodup, holds.self ▸ holds.inside⟩

/-- One member is admitted before a merge and once more during it, another that the merge brings. -/
theorem admitted_members_kept_after_merge :
    let actions : List RingAction := [.add ⟨[98], 1⟩, .begin_ 0 [⟨[99], 1⟩] [], .add ⟨[98], 1⟩,
      .add ⟨[99], 1⟩, .finish 0 0]
    let d := after .byName (.fresh ⟨[97], 1⟩) actions
    (∀ mem, .add mem ∈ actions → mem ∈ d.ring.members) ∧ d.ring.members.Nodup ∧
      d.ring.self ∈ d.ring.members :=
  admitted_members_kept .byName (.fresh ⟨[97], 1⟩) _ (by decide) (by decide)
    (by simp +contextual [Untouched, Membership.fresh])
    (by simp [eachStep_cons, eachStep_nil, Timely, after, step, Membership.fresh, Membership.noteRemoved,
      Membership.mem_addMember])

/-- A member that is admitted between the two sections of a merge is lost. -/
theorem raced_member_forgotten :
    let d := after .byName (.fresh ⟨[97], 1⟩) [.begin_ 0 [] [], .add ⟨[98], 1⟩, .finish 0 0]
    d.pending = [] ∧ ⟨[98], 1⟩ ∉ d.ring.members := by
  decide

end Merging

/-! ## The right-hand dial -/

inductive RingOp where
  | add (mem : Member)
  | remove (now : ℤ) (mem : Member)
  | merge (now : ℤ) (incoming incomingRemoved : List Member)

namespace Membership

/-- A call with the reconcile that its caller makes. -/
def apply (k : Keeping) (m : Membership) : RingOp → Membership
  | .add mem => (m.addMember k mem).reconcile
  | .remove now mem => (m.removeMember now mem).reconcile
  | .merge now incoming incomingRemoved => m.mergeMembers k now incoming incomingRemoved

def afterOps (k : Keeping) (m : Membership) (ops : List RingOp) : Membership := ops.foldl (apply k) m

/-- The dial target is the right neighbour, and empty exactly when there is none. -/
structure Follows (m : Membership) : Prop where
  target : m.rightTarget = m.rightNeighbor.getD .zero
  empty : m.rightTarget = .zero ↔ m.rightNeighbor = none

/-- No member with the zero address comes, and a merge changes the number of members, or nothing. -/
def Retargets (k : Keeping) (m : Membership) : RingOp → Prop
  | .add mem => mem ≠ .zero
  | .remove _ _ => True
  | .merge now incoming incomingRemoved =>
    let drops := (m.noteRemoved now incomingRemoved).drops k now
    let dropped := m.members.filter drops
    let added := ((incoming ++ [m.self]).filter fun mem => !drops mem && mem ∉ m.members).dedup
    .zero ∉ incoming ∧
      (dropped.length ≠ added.length ∨
        dropped = [] ∧ added = [] ∧ ∀ l, l.Perm m.members → k.sort l = m.members)

structure Dials (m : Membership) : Prop where
  follows : m.Follows
  nodup : m.members.Nodup
  zero : Member.zero ∉ m.members
  self : m.self ≠ .zero
  running : m.running = true

variable {k : Keeping} {m : Membership} {mem : Member}

theorem mem_of_rightNeighbor (found : m.rightNeighbor = some mem) : mem ∈ m.members := by
  unfold rightNeighbor at found
  split at found
  · cases found
  · cases found
  · next a b two =>
    rw [two]
    simp_all
  · obtain ⟨i, -, there⟩ := Option.bind_eq_some_iff.mp found
    exact mem_of_getElem? there

theorem reconcile_eq (running : m.running = true) :
    m.reconcile = { m with rightTarget := m.rightNeighbor.getD .zero } := by
  unfold reconcile
  split
  · next alone => rw [alone, Option.getD_none]
  · next target found =>
    rw [found, Option.getD_some]
    split
    · next same => rw [← same]
    · rfl

theorem dials_reconcile (nodup : m.members.Nodup) (zero : .zero ∉ m.members) (self : m.self ≠ .zero)
    (running : m.running = true) : m.reconcile.Dials := by
  rw [reconcile_eq running]
  refine ⟨⟨rfl, ?_⟩, nodup, zero, self, running⟩
  change m.rightNeighbor.getD .zero = .zero ↔ m.rightNeighbor = none
  rcases found : m.rightNeighbor with _ | target
  · simp
  · exact iff_of_false (fun none => zero (none ▸ mem_of_rightNeighbor found)) nofun

/-- The list a merge sets: what it keeps of the members, and what it adds. -/
theorem perm_unique (drop : Member → Bool) {members : List Member} (nodup : members.Nodup)
    (incoming : List Member) : (unique drop [] (members ++ incoming)).Perm
      (members.filter (!drop ·) ++ (incoming.filter fun mem => !drop mem && mem ∉ members).dedup) := by
  refine (perm_ext_iff_of_nodup (nodup_unique .nil) ?_).mpr fun mem => ?_
  · refine nodup_append.mpr ⟨nodup.filter _, nodup_dedup _, ?_⟩
    rintro mem kept _ added rfl
    simp_all
  · rw [mem_unique]
    simp
    grind

theorem Dials.apply {op : RingOp} (dials : m.Dials) (retargets : m.Retargets k op) :
    (m.apply k op).Dials := by
  obtain ⟨follows, nodup, zero, self, running⟩ := dials
  cases op with
  | add mem =>
    refine dials_reconcile (nodup_addMember nodup) (fun known => ?_) self running
    rcases mem_addMember.mp known with earlier | rfl
    · exact zero earlier
    · exact retargets rfl
  | remove now mem => exact dials_reconcile (nodup.erase mem) (zero ∘ mem_of_mem_erase) self running
  | merge now incoming incomingRemoved =>
    obtain ⟨plain, changed⟩ := retargets
    have placed := perm_unique ((m.noteRemoved now incomingRemoved).drops k now) nodup
      (incoming ++ [m.self])
    rw [← append_assoc] at placed
    have absent : .zero ∉ ((m.noteRemoved now incomingRemoved).setMembers k now
        (m.members ++ incoming ++ [m.self])).members := by
      rw [mem_setMembers]
      simp [zero, plain, self.symm]
    simp only [Membership.apply, mergeMembers]
    split
    · exact dials_reconcile (nodup_setMembers _) absent self running
    next level =>
    rcases changed with count | ⟨none, noMore, sorted⟩
    · -- The number has changed after all.
      have length := ((k.perm _).trans placed).length_eq
      have parts := m.members.length_eq_length_filter_add ((m.noteRemoved now incomingRemoved).drops k now)
      rw [length_append] at length
      simp only [setMembers] at level
      omega
    · rw [noMore, append_nil, filter_eq_self.mpr (by simpa using filter_eq_nil_iff.mp none)] at placed
      have neighbor : ((m.noteRemoved now incomingRemoved).setMembers k now
          (m.members ++ incoming ++ [m.self])).rightNeighbor = m.rightNeighbor := by
        simp only [rightNeighbor, setMembers, sorted _ placed]
        rfl
      refine ⟨⟨?_, ?_⟩, nodup_setMembers _, absent, self, running⟩
      · exact neighbor ▸ follows.target
      · exact neighbor ▸ follows.empty

/-- The dial follows the view in every run in which every merge changes the number of members, or
nothing. -/
theorem dial_follows_view (k : Keeping) (self : Member) (ops : List RingOp) (address : self ≠ .zero)
    (retargets : EachStep (fun before op => (afterOps k (fresh self) before).Retargets k op) ops) :
    (afterOps k (fresh self) ops).Follows := by
  have start : (fresh self).Dials :=
    ⟨⟨rfl, iff_of_true rfl rfl⟩, nodup_singleton _, by simpa [fresh] using address.symm, address, rfl⟩
  have dials : (afterOps k (fresh self) ops).Dials := by
    refine EachStep.induction (I := fun before => (afterOps k _ before).Dials) retargets start ?_
    intro before op dials retargets
    rw [afterOps, foldl_append]
    exact dials.apply retargets
  exact dials.follows

/-- A merge brings a member, and another one nothing. -/
theorem dial_follows_view_two :
    (afterOps .byName (fresh ⟨[97], 1⟩) [.merge 0 [⟨[98], 1⟩] [], .merge 0 [⟨[97], 1⟩] []]).Follows := by
  refine dial_follows_view _ _ _ (by decide) (eachStep_cons.mpr ⟨⟨by decide, .inl (by decide)⟩,
    eachStep_cons.mpr ⟨⟨by decide, .inr ⟨by decide, by decide, fun l perm => ?_⟩⟩, eachStep_nil⟩⟩)
  revert l
  simp only [← mem_permutations']
  decide

/-- A merge drops the neighbour and adds another: the node goes on dialling the one that is gone. -/
theorem balanced_merge_keeps_dial :
    let m := afterOps .byName (fresh ⟨[97], 1⟩) [.add ⟨[98], 1⟩, .merge 0 [⟨[99], 1⟩] [⟨[98], 1⟩]]
    m.rightTarget = ⟨[98], 1⟩ ∧ m.rightNeighbor = some ⟨[99], 1⟩ := by
  decide

end Membership

end Yarilo.Director

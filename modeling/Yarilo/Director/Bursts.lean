import Mathlib.Data.List.Pairwise
import Mathlib.Order.Interval.Finset.Nat
import Yarilo.Director.Gossip
import Yarilo.Director.Routing
import Yarilo.Director.Seen

/-! # Bursts of gossip

Ring delivery is redundant and keeps no order, and of the events about backends each is applied when
it first comes. What a peer then holds of the backend depends on the order, unless no two of the
changes contradict each other.
-/

namespace Yarilo.Director

open Library List RingChange

/-! ## Changes in any order -/

namespace RingChange

def backendAfter (changes : List RingChange) (known : Option (Bool × ℤ)) : Option (Bool × ℤ) :=
  changes.foldl (fun b c => c.onBackend b) known

def marksAfter (changes : List RingChange) (m : Marks) : Marks :=
  changes.foldl (fun m c => c.onMarks m) m

/-- A backend told to be up is not told to be down or flushed, and unless it is told to be down all
changes that carry a weight carry one weight. -/
structure Harmonious (changes : List RingChange) : Prop where
  steady : (∃ c ∈ changes, c.isUp) → ∀ c ∈ changes, c.isDown = false ∧ c.isFlush = false
  oneWeight : (∃ c ∈ changes, c.isDown) ∨
    ∀ c ∈ changes, ∀ d ∈ changes, c.weight.isSome → d.weight.isSome → c.weight = d.weight

/-- Two leases in either order leave the higher one. -/
theorem onMarks_up_up (tag tag' : Bytes) (seq seq' : UInt64) (port port' weight weight' : Int64) (m : Marks) :
    (up tag' seq' port' weight').onMarks ((up tag seq port weight).onMarks m) =
      (up tag seq port weight).onMarks ((up tag' seq' port' weight').onMarks m) := by
  rcases m with ⟨_ | l, tomb⟩
  all_goals
    simp only [onMarks, Option.any_none, Option.any_some, decide_eq_true_eq, Marks.mk.injEq]
    split_ifs <;> simp_all <;> omega

variable {c d : RingChange}

theorem onMarks_comm (upDown : c.isUp → d.isDown = false) (downUp : c.isDown → d.isUp = false)
    (m : Marks) : d.onMarks (c.onMarks m) = c.onMarks (d.onMarks m) := by
  cases c with
  | up tag seq port weight =>
    cases d with
    | up => apply onMarks_up_up
    | down => cases upDown rfl
    | vhosts | flush => rfl
  | down tag =>
    cases d with
    | up => cases downUp rfl
    | vhosts | flush | down => rfl
  | vhosts | flush => rfl

theorem onBackend_comm (upDown : c.isUp → d.isDown = false ∧ d.isFlush = false)
    (downUp : d.isUp → c.isDown = false ∧ c.isFlush = false)
    (weights : c.weight.isSome → d.weight.isSome → c.weight = d.weight) (b : Option (Bool × ℤ)) :
    d.onBackend (c.onBackend b) = c.onBackend (d.onBackend b) := by
  cases c <;> cases d <;> simp_all [isUp, isDown, isFlush, weight, onBackend, Function.comp_def]

/-- Where nothing is told to be up, a backend told to be down is gone. -/
theorem backendAfter_none {changes : List RingChange} {b : Option (Bool × ℤ)}
    (noUp : ∀ c ∈ changes, c.isUp = false) (gone : b = none ∨ ∃ c ∈ changes, c.isDown) :
    backendAfter changes b = none := by
  induction changes generalizing b with
  | nil =>
    rcases gone with rfl | ⟨c, none, -⟩
    · rfl
    · cases none
  | cons c rest ih =>
    apply ih fun d member => noUp d (mem_cons_of_mem c member)
    rcases gone with rfl | ⟨d, member, down⟩
    · left
      cases c with
      | up => cases noUp _ (.head _)
      | vhosts | down | flush => rfl
    · rcases mem_cons.mp member with rfl | later
      · left
        cases d with
        | down => rfl
        | up | vhosts | flush => cases down
      · exact .inr ⟨d, later, down⟩

namespace Harmonious

variable {changes other : List RingChange}

theorem downUp (h : Harmonious changes) (first : c ∈ changes) (second : d ∈ changes) (down : c.isDown) :
    d.isUp = false := by
  rcases up : d.isUp with _ | _
  · rfl
  · rw [(h.steady ⟨d, second, up⟩ c first).1] at down
    cases down

theorem marksAfter_perm (h : Harmonious changes) (perm : changes.Perm other) (m : Marks) :
    marksAfter changes m = marksAfter other m := by
  apply perm.foldl_eq'
  intro c first d second m
  exact onMarks_comm (fun up => (h.steady ⟨c, first, up⟩ d second).1) (h.downUp first second) m

theorem backendAfter_perm (h : Harmonious changes) (perm : changes.Perm other) (b : Option (Bool × ℤ)) :
    backendAfter changes b = backendAfter other b := by
  rcases h.oneWeight with ⟨c, member, down⟩ | weights
  · have noUp : ∀ d ∈ changes, d.isUp = false := fun d second => h.downUp member second down
    rw [backendAfter_none noUp (.inr ⟨c, member, down⟩),
      backendAfter_none (fun d second => noUp d (perm.mem_iff.mpr second))
        (.inr ⟨c, perm.mem_iff.mp member, down⟩)]
  · apply perm.foldl_eq'
    intro c first d second b
    exact onBackend_comm (fun up => h.steady ⟨c, first, up⟩ d second)
      (fun up => h.steady ⟨d, second, up⟩ c first) (weights c first d second) b

end Harmonious

/-! ### One change last -/

/-- Without a change to down, a backend that is present stays so. -/
theorem backendAfter_isSome {changes : List RingChange} {b : Option (Bool × ℤ)} (present : b.isSome)
    (noDown : ∀ c ∈ changes, c.isDown = false) : (backendAfter changes b).isSome := by
  induction changes generalizing b with
  | nil => exact present
  | cons c rest ih =>
    refine ih ?_ fun d member => noDown d (mem_cons_of_mem c member)
    cases c with
    | down => cases noDown _ (.head _)
    | up => rfl
    | vhosts | flush => simpa [onBackend] using present

theorem backendAfter_concat (changes : List RingChange) (c : RingChange) (b : Option (Bool × ℤ)) :
    backendAfter (changes ++ [c]) b = c.onBackend (backendAfter changes b) := by
  simp [backendAfter]

theorem onBackend_isUp (up : c.isUp) (b : Option (Bool × ℤ)) : (c.onBackend b).any (·.1) = true := by
  cases c with
  | up => rfl
  | vhosts | down | flush => cases up

theorem onBackend_lowers (lowers : c.isDown ∨ c.isFlush) (b : Option (Bool × ℤ)) :
    (c.onBackend b).any (·.1) = false := by
  cases c with
  | up | vhosts => simp [isDown, isFlush] at lowers
  | down => rfl
  | flush => simp [onBackend, Option.any_map]

theorem onBackend_weight (carries : c.weight.isSome) {b : Option (Bool × ℤ)} (present : b.isSome) :
    (c.onBackend b).map (·.2) = c.weight := by
  obtain ⟨b, rfl⟩ := Option.isSome_iff_exists.mp present
  cases c with
  | up | vhosts => rfl
  | down | flush => cases carries

/-- If it does not matter which change comes last, the changes are harmonious. -/
theorem harmonious_of_last {changes : List RingChange} {b final : Option (Bool × ℤ)} (present : b.isSome)
    (last : ∀ c ∈ changes, ∃ before ⊆ changes, backendAfter (before ++ [c]) b = final) :
    Harmonious changes where
  steady := by
    rintro ⟨c, first, up⟩ d second
    obtain ⟨before, -, rfl⟩ := last c first
    obtain ⟨before', -, equal⟩ := last d second
    rw [backendAfter_concat, backendAfter_concat] at equal
    by_contra lowers
    rw [not_and_or, Bool.not_eq_false, Bool.not_eq_false] at lowers
    have lowered := onBackend_lowers lowers (backendAfter before' b)
    rw [equal, onBackend_isUp up] at lowered
    cases lowered
  oneWeight := by
    by_cases down : ∃ c ∈ changes, c.isDown
    · exact .inl down
    right
    have noDown : ∀ c ∈ changes, c.isDown = false := by
      intro c member
      rw [← Bool.not_eq_true]
      exact fun isDown => down ⟨c, member, isDown⟩
    have weighs (c : RingChange) (member : c ∈ changes) (carries : c.weight.isSome) :
        final.map (·.2) = c.weight := by
      obtain ⟨before, among, rfl⟩ := last c member
      have stays := backendAfter_isSome present fun d early => noDown d (among early)
      rw [backendAfter_concat, onBackend_weight carries stays]
    intro c first d second carries carries'
    rw [← weighs c first carries, weighs d second carries']

end RingChange

/-! ## A burst of changes -/

/-- An envelope of a burst: its number and the change. -/
abbrev Numbered : Type := UInt64 × RingChange

/-- Changes of one backend that one director issues, in the order of their numbers, within the window
of the dedup. -/
structure Burst where
  origin : Bytes
  ip : Bytes
  events : List Numbered
  ascending : events.Pairwise (·.1 < ·.1)
  near : ∀ e ∈ events, ∀ f ∈ events, f.1.toNat < e.1.toNat + seenWindow
  room : ∀ e ∈ events, e.1.toNat + seenWindow < 2 ^ 64

namespace Burst

def eventId (b : Burst) (e : Numbered) : EventId := ⟨b.origin, e.1⟩

def changes (b : Burst) : List RingChange := b.events.map (·.2)

end Burst

/-- An envelope and the moment it comes. -/
structure Arrival where
  moment : Moment
  event : Numbered

/-- A peer of the issuing director. -/
structure Peer where
  seen : SeenSeqs
  server : Server

namespace Peer

/-- `handleEnvelope`: an event the dedup admits is applied. -/
def hear (H : Hashing) (b : Burst) (p : Peer) (a : Arrival) : Peer :=
  match p.seen.admitEvent (b.eventId a.event) with
  | (seen, true) => ⟨seen, p.server.applyRingChangeFields H a.moment (a.event.2.payload b.ip)⟩
  | (seen, false) => ⟨seen, p.server⟩

def hears (H : Hashing) (b : Burst) (p : Peer) (arrivals : List Arrival) : Peer :=
  arrivals.foldl (hear H b) p

/-- Presence, state and weight of the backend, and its protection by a tombstone. -/
def view (p : Peer) (ip : Bytes) : Option (Bool × ℤ) × Option ℕ := (p.server.known ip, (p.server.marks ip).tomb)

/-- The burst is new to the peer, and the window has not passed it. -/
def Open (p : Peer) (b : Burst) : Prop :=
  ∃ past, Tracks p.seen past ∧ ∀ e ∈ b.events, b.eventId e ∉ past ∧ ¬Behind past (b.eventId e)

end Peer

/-- Each event of the burst comes at least once, and nothing else. -/
def Burst.Covered (b : Burst) (arrivals : List Arrival) : Prop :=
  (∀ a ∈ arrivals, a.event ∈ b.events) ∧ ∀ e ∈ b.events, ∃ a ∈ arrivals, a.event = e

/-- In whatever order the burst comes to a peer, and however often, the peer ends as one to which it
comes as it was issued. -/
def Burst.Insensitive (H : Hashing) (b : Burst) : Prop :=
  ∀ p : Peer, p.Open b → ∀ arrivals issued : List Arrival, b.Covered arrivals →
    issued.map (·.event) = b.events → (p.hears H b arrivals).view b.ip = (p.hears H b issued).view b.ip

/-! ## What the dedup lets through -/

variable {e : Numbered} {ip : Bytes}

namespace Burst

variable {b : Burst}

theorem nodup_numbers (b : Burst) : (b.events.map (·.1)).Nodup :=
  List.pairwise_map.mpr (b.ascending.imp UInt64.ne_of_lt)

/-- A burst fits in one generation of the dedup. -/
theorem length_le (b : Burst) : b.events.length ≤ seenWindow := by
  rcases shape : b.events with _ | ⟨e, rest⟩
  · exact Nat.zero_le _
  have ascending := b.ascending
  rw [shape, pairwise_cons] at ascending
  have numbers : ((e :: rest).map (·.1.toNat)).Nodup := by
    rw [← shape, List.Nodup, pairwise_map]
    exact b.ascending.imp fun less => Nat.ne_of_lt (UInt64.lt_iff_toNat_lt.mp less)
  have inside : ((e :: rest).map (·.1.toNat)).toFinset ⊆ Finset.Ico e.1.toNat (e.1.toNat + seenWindow) := by
    intro n member
    obtain ⟨f, among, rfl⟩ := mem_map.mp (mem_toFinset.mp member)
    have below := b.near e (shape ▸ (.head _)) f (shape ▸ among)
    rw [Finset.mem_Ico]
    rcases mem_cons.mp among with rfl | later
    · exact ⟨le_rfl, below⟩
    · exact ⟨Nat.le_of_lt (UInt64.lt_iff_toNat_lt.mp (ascending.1 f later)), below⟩
  have bound := Finset.card_le_card inside
  rwa [toFinset_card_of_nodup numbers, Nat.card_Ico, Nat.add_sub_cancel_left, length_map] at bound

/-- The events of arrivals as the dedup knows them, latest first. -/
def ids (b : Burst) (arrivals : List Arrival) : List EventId :=
  (arrivals.map fun a => b.eventId a.event).reverse

theorem mem_ids {arrivals : List Arrival} {i : EventId} :
    i ∈ b.ids arrivals ↔ ∃ e ∈ arrivals.map (·.event), b.eventId e = i := by
  simp [ids]

end Burst

/-- What a peer has taken of the arrivals: each event once, in the order of its first arrival. -/
structure Peer.Took (H : Hashing) (b : Burst) (p : Peer) (past : List EventId) (arrivals : List Arrival)
    (taken : List Arrival) : Prop where
  tracks : Tracks (p.hears H b arrivals).seen (b.ids taken ++ past)
  server : (p.hears H b arrivals).server =
    taken.foldl (fun s a => s.applyRingChangeFields H a.moment (a.event.2.payload b.ip)) p.server
  order : taken.Sublist arrivals
  once : (taken.map (·.event)).Nodup
  members : ∀ e, e ∈ taken.map (·.event) ↔ e ∈ arrivals.map (·.event)

namespace Peer

variable {H : Hashing} {b : Burst} {p : Peer} {past : List EventId} {arrivals taken : List Arrival}
  {a : Arrival}

theorem hears_concat : p.hears H b (arrivals ++ [a]) = (p.hears H b arrivals).hear H b a := by
  simp [hears]

namespace Took

variable (took : p.Took H b past arrivals taken)

include took

section

variable (only : ∀ c ∈ arrivals, c.event ∈ b.events)

include only

theorem inside (member : e ∈ taken.map (·.event)) : e ∈ b.events := by
  obtain ⟨c, among, rfl⟩ := mem_map.mp ((took.members e).mp member)
  exact only c among

theorem repeated (known : a.event ∈ taken.map (·.event)) : p.Took H b past (arrivals ++ [a]) taken := by
  have short : (b.ids taken).length ≤ seenWindow := by
    have fits := (subperm_of_subset took.once fun e => took.inside only).length_le
    rw [length_map] at fits
    simpa [Burst.ids] using fits.trans b.length_le
  have kept : b.eventId a.event ∈ remembered (b.ids taken ++ past) := by
    rw [remembered, take_append, take_of_length_le (by omega)]
    exact mem_append_left _ (Burst.mem_ids.mpr ⟨a.event, known, rfl⟩)
  have same : p.hears H b (arrivals ++ [a]) = p.hears H b arrivals := by
    rw [hears_concat, hear, took.tracks.admit_refused (.inr (.inr kept))]
  refine ⟨?_, ?_, took.order.trans (sublist_append_left _ _), took.once, ?_⟩
  · rw [same]
    exact took.tracks
  · rw [same]
    exact took.server
  · intro e
    rw [took.members, map_append, mem_append, map_singleton, mem_singleton]
    constructor
    · exact .inl
    · rintro (early | rfl)
      · exact early
      · exact (took.members _).mp known

theorem first (last : a.event ∈ b.events)
    (new : b.eventId a.event ∉ past) (near : ¬Behind past (b.eventId a.event))
    (unknown : a.event ∉ taken.map (·.event)) : p.Took H b past (arrivals ++ [a]) (taken ++ [a]) := by
  have fresh : b.eventId a.event ∉ b.ids taken ++ past := by
    rw [mem_append, Burst.mem_ids]
    rintro (⟨e, member, same⟩ | early)
    · rw [List.inj_on_of_nodup_map b.nodup_numbers (took.inside only member) last
        (congrArg EventId.seq same)] at member
      exact unknown member
    · exact new early
  have clear : ¬Behind (b.ids taken ++ past) (b.eventId a.event) := by
    rintro ⟨i, member, origin, ahead⟩
    rcases mem_append.mp member with late | early
    · obtain ⟨e, among, rfl⟩ := Burst.mem_ids.mp late
      have below := b.near a.event last e (took.inside only among)
      exact absurd ahead (Nat.not_le.mpr below)
    · exact near ⟨i, early, origin, ahead⟩
  have plain : ¬WrapsBelow (b.ids taken ++ past) (b.eventId a.event) := by
    rintro ⟨wraps, -⟩
    exact absurd wraps (Nat.not_le.mpr (b.room _ last))
  have admitted := took.tracks.admit_taken clear plain fun kept => fresh (mem_of_mem_remembered kept)
  have next : p.hears H b (arrivals ++ [a]) =
      ⟨(p.hears H b arrivals).seen.record (b.eventId a.event),
        (p.hears H b arrivals).server.applyRingChangeFields H a.moment (a.event.2.payload b.ip)⟩ := by
    rw [hears_concat, hear, admitted]
  refine ⟨?_, ?_, took.order.append (.refl _), ?_, ?_⟩
  · rw [next]
    simpa [Burst.ids] using took.tracks.record
  · rw [next, took.server, foldl_append]
    rfl
  · rw [map_append]
    exact nodup_concat took.once unknown
  · intro e
    simp [took.members e]

end

/-- Where nothing is repeated, all arrivals are taken. -/
theorem eq_of_nodup (single : (arrivals.map (·.event)).Nodup) : taken = arrivals := by
  apply took.order.eq_of_length
  have perm := (perm_ext_iff_of_nodup took.once single).mpr took.members
  simpa using perm.length_eq

end Took

/-- A peer the burst is new to takes each event once. -/
theorem took_of_open (tracks : Tracks p.seen past)
    (new : ∀ e ∈ b.events, b.eventId e ∉ past ∧ ¬Behind past (b.eventId e))
    (only : ∀ c ∈ arrivals, c.event ∈ b.events) : ∃ taken, p.Took H b past arrivals taken := by
  induction arrivals using reverseRecOn with
  | nil => exact ⟨[], tracks, rfl, .refl _, nodup_nil, fun _ => .rfl⟩
  | append_singleton arrivals a ih =>
    have only' : ∀ c ∈ arrivals, c.event ∈ b.events := fun c member => only c (mem_append_left _ member)
    have last : a.event ∈ b.events := only a (mem_append_right _ (.head _))
    obtain ⟨taken, took⟩ := ih only'
    by_cases known : a.event ∈ taken.map (·.event)
    · exact ⟨taken, took.repeated only' known⟩
    · exact ⟨taken ++ [a], took.first only' last (new _ last).1 (new _ last).2 known⟩

end Peer

/-- What a director holds of a backend after changes of it. -/
theorem Server.known_foldl {H : Hashing} (s : Server) (arrivals : List Arrival) :
    (arrivals.foldl (fun s a => s.applyRingChangeFields H a.moment (a.event.2.payload ip)) s).known ip =
      backendAfter (arrivals.map (·.event.2)) (s.known ip) := by
  rw [backendAfter, foldl_map]
  exact (foldl_hom (known · ip) fun s a => (known_applyRingChangeFields ..).symm).symm

theorem Server.marks_foldl {H : Hashing} (s : Server) (arrivals : List Arrival) :
    (arrivals.foldl (fun s a => s.applyRingChangeFields H a.moment (a.event.2.payload ip)) s).marks ip =
      marksAfter (arrivals.map (·.event.2)) (s.marks ip) := by
  rw [marksAfter, foldl_map]
  exact (foldl_hom (marks · ip) fun s a => (marks_applyRingChangeFields ..).symm).symm

namespace Peer

variable {H : Hashing} {b : Burst} {p : Peer} {arrivals : List Arrival}

/-- A peer ends as the changes leave it in the order in which they first come. -/
theorem view_hears (isOpen : p.Open b) (covered : b.Covered arrivals) :
    ∃ order : List Arrival, (order.map (·.event)).Perm b.events ∧
      ((arrivals.map (·.event)).Nodup → order = arrivals) ∧ (p.hears H b arrivals).view b.ip =
        (backendAfter (order.map (·.event.2)) (p.server.known b.ip),
          (marksAfter (order.map (·.event.2)) (p.server.marks b.ip)).tomb) := by
  obtain ⟨past, tracks, new⟩ := isOpen
  obtain ⟨taken, took⟩ := took_of_open (H := H) tracks new covered.1
  refine ⟨taken, ?_, took.eq_of_nodup, ?_⟩
  · rw [perm_ext_iff_of_nodup took.once (List.Nodup.of_map _ b.nodup_numbers)]
    intro e
    rw [took.members, mem_map]
    constructor
    · rintro ⟨a, among, rfl⟩
      exact covered.1 a among
    · exact covered.2 e
  · rw [view, took.server, Server.known_foldl, Server.marks_foldl]

theorem covered_of_perm {arrivals : List Arrival} (perm : (arrivals.map (·.event)).Perm b.events) :
    b.Covered arrivals :=
  ⟨fun _ member => perm.mem_iff.mp (List.mem_map_of_mem member),
    fun _ member => List.mem_map.mp (perm.mem_iff.mpr member)⟩

/-- Changes that come once each are taken as they come. -/
theorem view_hears_perm (isOpen : p.Open b) (perm : (arrivals.map (·.event)).Perm b.events) :
    (p.hears H b arrivals).view b.ip =
      (backendAfter (arrivals.map (·.event.2)) (p.server.known b.ip),
        (marksAfter (arrivals.map (·.event.2)) (p.server.marks b.ip)).tomb) := by
  obtain ⟨order, -, plain, view⟩ := view_hears (H := H) isOpen (covered_of_perm perm)
  rwa [plain (perm.nodup_iff.mpr (List.Nodup.of_map _ b.nodup_numbers))] at view

end Peer

/-! ## Insensitive bursts -/

theorem Burst.insensitive_of_harmonious {H : Hashing} {b : Burst} (h : RingChange.Harmonious b.changes) :
    b.Insensitive H := by
  intro p isOpen arrivals issued covered inOrder
  obtain ⟨order, perm, -, view⟩ := Peer.view_hears (H := H) isOpen covered
  have issuedPerm : (issued.map (·.event)).Perm b.events := by rw [inOrder]
  have asIssued : issued.map (·.event.2) = b.changes := by
    rw [Burst.changes, ← inOrder, map_map]
    rfl
  have reordered : b.changes.Perm (order.map (·.event.2)) := by
    have changes := perm.symm.map (·.2)
    rwa [map_map] at changes
  rw [view, Peer.view_hears_perm isOpen issuedPerm, asIssued, h.backendAfter_perm reordered,
    h.marksAfter_perm reordered]

/-- A director that knows a backend, and has seen nothing of the ring. -/
def Peer.knowing (H : Hashing) (ip : Bytes) : Peer where
  seen := newSeenSeqs
  server := .fresh (Ring.empty.addBackend H (Ring.walkFirst []) ⟨ip, 0, [], true, 0, 0, 0, []⟩)

theorem Peer.open_knowing (H : Hashing) (b : Burst) : (knowing H b.ip).Open b := by
  refine ⟨[], .empty, fun e _ => ⟨not_mem_nil, ?_⟩⟩
  rintro ⟨i, none, -⟩
  cases none

theorem Peer.known_knowing (H : Hashing) (ip : Bytes) : (knowing H ip).server.known ip = some (true, 0) := by
  rw [knowing, Server.known, Server.fresh, Ring.getBackend_addBackend rfl, Option.map_some, Ring.merge_state]

/-- Events that come one after the other, at once. -/
def arriving (events : List Numbered) : List Arrival := events.map (Arrival.mk .start)

theorem map_event_arriving (events : List Numbered) : (arriving events).map (·.event) = events := by
  simp [arriving, Function.comp_def]

theorem map_change_arriving (events : List Numbered) :
    (arriving events).map (·.event.2) = events.map (·.2) := by
  simp [arriving, Function.comp_def]

theorem Burst.Insensitive.harmonious {H : Hashing} {b : Burst} (insensitive : b.Insensitive H) :
    RingChange.Harmonious b.changes := by
  have isOpen := Peer.open_knowing H b
  have present : ((Peer.knowing H b.ip).server.known b.ip).isSome := by
    rw [Peer.known_knowing]
    rfl
  apply @harmonious_of_last _ _
    (((Peer.knowing H b.ip).hears H b (arriving b.events)).view b.ip).1 present
  intro c member
  obtain ⟨e, among, rfl⟩ := mem_map.mp member
  -- The event that carries the change comes last.
  have perm : ((arriving (b.events.erase e ++ [e])).map (·.event)).Perm b.events := by
    rw [map_event_arriving]
    exact perm_append_comm.trans (perm_cons_erase among).symm
  have same := insensitive _ isOpen _ (arriving b.events) (Peer.covered_of_perm perm)
    (map_event_arriving _)
  refine ⟨(b.events.erase e).map (·.2), map_subset _ erase_subset, ?_⟩
  rw [← same, Peer.view_hears_perm isOpen perm, map_change_arriving, map_append]
  rfl

/-- A burst leaves every peer the same in whatever order it comes, just if no two of its changes
contradict each other. -/
theorem insensitive_iff_harmonious (H : Hashing) (b : Burst) :
    b.Insensitive H ↔ RingChange.Harmonious b.changes :=
  ⟨fun insensitive => insensitive.harmonious, Burst.insensitive_of_harmonious⟩

/-- A heartbeat, and the removal of the backend after it. -/
def heartbeatThenRemoval : Burst where
  origin := []
  ip := [49]
  events := [(1, .up [] 7 143 1), (2, .down [])]
  ascending := by decide
  near := by decide
  room := by decide

/-- The removal wins where it comes last; where it overtakes the heartbeat the backend is back, without
a tombstone. -/
theorem late_heartbeat_revives_backend :
    ((Peer.knowing flatHashing [49]).hears flatHashing heartbeatThenRemoval
        (arriving [(1, .up [] 7 143 1), (2, .down [])])).view [49] = (none, some 7) ∧
      ((Peer.knowing flatHashing [49]).hears flatHashing heartbeatThenRemoval
        (arriving [(2, .down []), (1, .up [] 7 143 1)])).view [49] = (some (true, 1), none) := by
  have isOpen := Peer.open_knowing flatHashing heartbeatThenRemoval
  constructor
  · refine (Peer.view_hears_perm isOpen ?_).trans ?_
    · rw [map_event_arriving]
      exact .refl _
    · rw [map_change_arriving]
      rfl
  · refine (Peer.view_hears_perm isOpen ?_).trans ?_
    · rw [map_event_arriving]
      exact .swap _ _ _
    · rw [map_change_arriving]
      rfl

end Yarilo.Director

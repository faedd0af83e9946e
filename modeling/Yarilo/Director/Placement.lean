import Yarilo.Director.Routing
import Yarilo.Director.Server

/-! # One backend for a user

A user without a pin comes in by logins and by deliveries, while anything else may happen that leaves
the backends and this user's pin alone. A login looks among the backends of its tag, a delivery among
all of them, or among the untagged ones where load decides. The theorem says for which backends all
of them are sent to one.
-/

namespace Yarilo.Director

open Library Server List Option Vhost

/-- A set of backends: one for each address, and addresses are free of brackets. -/
structure Fleet where
  backends : List Backend
  keyed : (backends.map (·.ip)).Nodup
  bare : ∀ b ∈ backends, 91 ∉ b.ip ∧ 93 ∉ b.ip

/-- What may happen between two calls for a user: no backend changes, nor the user's pin. -/
structure Interlude (hash : UInt32) where
  change : Server → Server
  ring : ∀ s, (change s).ring = s.ring
  pin : ∀ s, (change s).userDir.byHash hash = s.userDir.byHash hash

inductive EntryPoint where
  | login (reqProto : Bytes)
  | delivery

structure Visit (hash : UInt32) where
  before : Interlude hash
  moment : Moment
  entry : EntryPoint

section

variable (o : Options) (username tag : Bytes)

/-- The hash a user name that comes in is known by. -/
abbrev Options.hashOf : UInt32 := o.userHash (o.normalizeUser username)

namespace Server

/-- The address a visit is sent to, or none where there is no backend; a login that is held gets no
answer. -/
def visit (s : Server) (v : Visit (o.hashOf username)) : Server × Option (Option Bytes) :=
  match v.entry with
  | .login reqProto =>
    match (v.before.change s).handleLookup o v.moment username tag reqProto with
    | (s, .host ip _ _, _) => (s, some (some ip))
    | (s, .noBackends, _) => (s, some none)
    | (s, .killing, _) => (s, none)
  | .delivery =>
    match (v.before.change s).routeUser o v.moment username with
    | (s, ip, _) => (s, some ip)

/-- The answers that visits get. -/
def visits (s : Server) : List (Visit (o.hashOf username)) → List (Option Bytes)
  | [] => []
  | v :: rest => (s.visit o username tag v).2.toList ++ visits (s.visit o username tag v).1 rest

/-- Calls in the order of their times, with no pin of the user expiring between two of them. -/
def Timely (s : Server) (last : ℤ) : List (Visit (o.hashOf username)) → Prop
  | [] => True
  | v :: rest =>
    last ≤ v.moment.now ∧ (o.policy = .leastSessions → ∀ e, s.userDir.byHash (o.hashOf username) = some e →
        v.moment.now ≤ e.expiresAt ∨ e.expiresAt < last) ∧
      Timely (s.visit o username tag v).1 v.moment.now rest

/-- The user has no pin that lives. -/
def Unpinned (s : Server) (now : ℤ) : Prop :=
  ∀ e, s.userDir.byHash (o.hashOf username) = some e → e.expiresAt < now

end Server

/-- All entry points send the user to one backend: with the nodes as any rebuild leaves them, from any
state in which the user has no pin, all answers are the same. -/
def OneBackend (f : Fleet) : Prop :=
  ∀ (c : Rebuild) (s : Server) (start : ℤ) (visits : List (Visit (o.hashOf username))),
    s.ring = Ring.rebuild o.hashing c f.backends f.keyed → s.Unpinned o username start →
    s.Timely o username tag start visits →
    ∀ a ∈ s.visits o username tag visits, ∀ b ∈ s.visits o username tag visits, a = b

end

/-! ## The two lookups of the ring -/

theorem collect_all (H : Hashing) (bs : List Backend) :
    collect H (bs.filter Pool.all.admits) = collect H bs := by
  have whole : bs.filter Pool.all.admits = bs := filter_eq_self.mpr fun _ _ => rfl
  rw [whole]

theorem collect_filter_subset (H : Hashing) (bs : List Backend) (p : Backend → Bool) :
    collect H (bs.filter p) ⊆ collect H bs := by
  intro v member
  obtain ⟨b, selected, up, node⟩ := mem_collect.mp member
  exact mem_collect.mpr ⟨b, (mem_filter.mp selected).1, up, node⟩

namespace Fleet

variable {H : Hashing} (f : Fleet) {v : Vhost}

def ring (H : Hashing) (c : Rebuild) : Ring := Ring.rebuild H c f.backends f.keyed

theorem rebuilt (H : Hashing) (c : Rebuild) : (f.ring H c).Rebuilt H := ⟨c, rfl⟩

/-- The backends of an address come last when the map is walked, and ties of a tag are read backwards. -/
def walkLast (ip : Bytes) : Rebuild where
  order l := l.filter (·.ip ≠ ip) ++ l.filter (·.ip = ip)
  walks l := by
    have split := List.filter_append_perm (fun b : Backend => decide (b.ip = ip)) l
    exact List.perm_append_comm.trans (by simpa only [decide_not] using split)
  full := .insertion
  tagged _ := .reversed

theorem collect_walkLast (ip : Bytes) (p : Pool) :
    collect H (((walkLast ip).order f.backends).filter p.admits) =
      collect H ((f.backends.filter (·.ip ≠ ip)).filter p.admits) ++
        collect H ((f.backends.filter (·.ip = ip)).filter p.admits) := by
  simp [walkLast, collect]

theorem mem_walkLast (ip : Bytes) (p : Pool) (v : Vhost) :
    v ∈ collect H ((f.backends.filter (·.ip ≠ ip)).filter p.admits) ++
        collect H ((f.backends.filter (·.ip = ip)).filter p.admits) ↔
      v ∈ collect H (f.backends.filter p.admits) := by
  rw [← f.collect_walkLast]
  exact ((((walkLast ip).walks f.backends).filter _).flatMap_right _).mem_iff

/-- The whole ring and the tag's pool find one backend, however the nodes were sorted. -/
def LookupsAgree (H : Hashing) (user tag : Bytes) : Prop :=
  ∀ c, ((f.ring H c).lookupBackend H user).map (·.ip) =
    ((f.ring H c).lookupBackendByTag H user tag).map (·.ip)

/-- The nearest nodes belong to one backend, and it has the tag. -/
def OwnedIn (H : Hashing) (user tag : Bytes) : Prop :=
  ∀ v w, Circle.Nearest pos (collect H f.backends) (H.userHash user).toNat v →
    Circle.Nearest pos (collect H f.backends) (H.userHash user).toNat w →
    v.ip = w.ip ∧ v ∈ collect H (f.backends.filter (·.tag = tag))

variable {f} {user tag : Bytes}

theorem OwnedIn.lookupsAgree (owned : f.OwnedIn H user tag) : f.LookupsAgree H user tag := by
  intro c
  change ((f.ring H c).lookupIn H user .all).map (·.ip) =
    ((f.ring H c).lookupIn H user (.tag tag)).map (·.ip)
  rcases (f.rebuilt H c).lookupIn user .all with ⟨bare, answer⟩ | ⟨v, b, found⟩
  · rcases (f.rebuilt H c).lookupIn user (.tag tag) with ⟨-, other⟩ | ⟨w, _, found⟩
    · rw [answer, other]
    have node := collect_filter_subset H f.backends _ found.near.1
    rw [← collect_all] at node
    exact absurd node (bare w)
  · have nearest : Circle.Nearest pos (collect H f.backends) (H.userHash user).toNat v := by
      rw [← collect_all]
      exact found.near
    obtain ⟨-, tagged⟩ := owned v v nearest nearest
    obtain ⟨w, b', found'⟩ := (f.rebuilt H c).finds (p := .tag tag) user tagged
    -- The node found in the tag's pool has the place of the one found in the whole ring.
    have place := found'.near.pos_eq (nearest.subset (collect_filter_subset H f.backends _) tagged)
    have member := collect_filter_subset H f.backends _ found'.near.1
    have same := (owned v w nearest (nearest.of_pos_eq member place)).1
    rw [found.answer, ← found.known, found'.answer, ← found'.known, same]

theorem LookupsAgree.mem_tag (agree : f.LookupsAgree H user tag)
    (nearest : Circle.Nearest pos (collect H f.backends) (H.userHash user).toNat v) :
    v ∈ collect H (f.backends.filter (·.tag = tag)) := by
  have same : ((f.ring H (Ring.walkFirst v.ip)).lookupIn H user .all).map (·.ip) =
    ((f.ring H (Ring.walkFirst v.ip)).lookupIn H user (.tag tag)).map (·.ip) := agree (Ring.walkFirst v.ip)
  have near := nearest
  rw [← collect_all] at near
  have lead : (f.ring H (Ring.walkFirst v.ip)).LeadBy H v.ip := rfl
  obtain ⟨a, b, found⟩ := (f.rebuilt H (Ring.walkFirst v.ip)).finds user near.1
  have address := (Ring.getBackend_ip found.known).trans (lead.locate near found.node)
  rw [found.answer, map_some, address] at same
  rcases (f.rebuilt H (Ring.walkFirst v.ip)).lookupIn user (.tag tag) with ⟨-, other⟩ | ⟨w, b', found'⟩
  · rw [other] at same
    cases same
  rw [found'.answer, map_some, some.injEq, Ring.getBackend_ip found'.known] at same
  obtain ⟨owner, selected, up, own⟩ := mem_collect.mp nearest.1
  obtain ⟨b, member, tagged, -, node⟩ := mem_pool.mp found'.near.1
  obtain rfl : owner = b := inj_on_of_nodup_map f.keyed selected member
    (by rw [← Backend.ip_of_mem_nodes own, ← Backend.ip_of_mem_nodes node, same])
  exact (mem_pool (p := .tag tag)).mpr ⟨owner, member, tagged, up, own⟩

theorem LookupsAgree.ownedIn (agree : f.LookupsAgree H user tag) : f.OwnedIn H user tag := by
  intro v w nearV nearW
  refine ⟨?_, agree.mem_tag nearV⟩
  by_contra apart
  have taggedW := agree.mem_tag nearW
  have same : ((f.ring H (walkLast w.ip)).lookupIn H user .all).map (·.ip) =
    ((f.ring H (walkLast w.ip)).lookupIn H user (.tag tag)).map (·.ip) := agree (walkLast w.ip)
  -- In the whole ring a backend other than the last is found, in the tag's pool the last.
  have whole : ∀ a, Circle.locate pos (Pool.all.nodes (f.ring H (walkLast w.ip)))
      (H.userHash user).toNat = some a → a.ip ≠ w.ip := by
    intro a found
    rw [ring, Pool.nodes_rebuild, collect_walkLast] at found
    have own : v ∈ collect H ((f.backends.filter (·.ip ≠ w.ip)).filter Pool.all.admits) :=
      (mem_collect_address (q := fun ip => decide (ip ≠ w.ip))).mpr
        ⟨by rw [collect_all]; exact nearV.1, decide_eq_true apart⟩
    have near := (Circle.Nearest.congr (f.mem_walkLast w.ip .all)).mpr (by rw [collect_all]; exact nearV)
    have among := Ring.mem_of_locate_insertion own near found
    exact of_decide_eq_true ((mem_collect_address (q := fun ip => decide (ip ≠ w.ip))).mp among).2
  have last : ∀ a, Circle.locate pos ((Pool.tag tag).nodes (f.ring H (walkLast w.ip)))
      (H.userHash user).toNat = some a → a.ip = w.ip := by
    intro a found
    have reversed : (Pool.tag tag).nodes (f.ring H (walkLast w.ip)) = Sorter.insertion.sort less
          ((collect H ((f.backends.filter (·.ip = w.ip)).filter (Pool.tag tag).admits)).reverse ++
            (collect H ((f.backends.filter (·.ip ≠ w.ip)).filter (Pool.tag tag).admits)).reverse) := by
      rw [← reverse_append, ← collect_walkLast, ring, Pool.nodes_rebuild]
      rfl
    rw [reversed] at found
    have own : w ∈ (collect H ((f.backends.filter (·.ip = w.ip)).filter (Pool.tag tag).admits)).reverse :=
      mem_reverse.mpr ((mem_collect_address (q := fun ip => decide (ip = w.ip))).mpr
        ⟨taggedW, decide_eq_true rfl⟩)
    have near : Circle.Nearest pos
        ((collect H ((f.backends.filter (·.ip = w.ip)).filter (Pool.tag tag).admits)).reverse ++
          (collect H ((f.backends.filter (·.ip ≠ w.ip)).filter (Pool.tag tag).admits)).reverse)
        (H.userHash user).toNat w := by
      refine (Circle.Nearest.congr fun x => ?_).mpr
        (nearW.subset (collect_filter_subset H f.backends _) taggedW)
      rw [← reverse_append, mem_reverse]
      exact f.mem_walkLast w.ip (.tag tag) x
    have among := mem_reverse.mp (Ring.mem_of_locate_insertion own near found)
    exact of_decide_eq_true ((mem_collect_address (q := fun ip => decide (ip = w.ip))).mp among).2
  obtain ⟨a, b, found⟩ := (f.rebuilt H (walkLast w.ip)).finds (p := .all) user
    (by rw [← collect_all] at nearV; exact nearV.1)
  obtain ⟨a', b', found'⟩ := (f.rebuilt H (walkLast w.ip)).finds (p := .tag tag) user taggedW
  rw [found.answer, found'.answer, map_some, map_some, some.injEq, Ring.getBackend_ip found.known,
    Ring.getBackend_ip found'.known] at same
  exact whole a found.node (same.trans (last a' found'.node))

end Fleet

/-! ## Pins -/

/-- The address a backend is pinned by. -/
def Backend.addr (b : Backend) : Bytes := joinHostPort b.ip (intText b.port)

theorem Fleet.splitHostPort_addr {f : Fleet} {b : Backend} (member : b ∈ f.backends) :
    splitHostPort b.addr = some (b.ip, intText b.port) := by
  have plain {c : UInt8} (other : c ≠ 45 ∧ ¬(48 ≤ c.toNat ∧ c.toNat ≤ 57)) : c ∉ intText b.port :=
    fun digit => (digit_of_mem_intText digit).elim other.1 other.2
  exact splitHostPort_joinHostPort (f.bare b member)
    ⟨plain (by decide), plain (by decide), plain (by decide)⟩

/-- An entry that pins a user to a backend. -/
def UserEntry.Pins (e : UserEntry) (b : Backend) : Prop := e.weak = false ∧ e.host = b.addr

namespace Server

variable {o : Options} {s : Server} {f : Fleet} {b : Backend} {now : ℤ} {user tag host : Bytes}
  {e : UserEntry} {d : UserDir} {hash : UInt32}

theorem getByHash_of_live (entry : d.byHash hash = some e) (live : now ≤ e.expiresAt) :
    d.getByHash now hash = some e := by
  rw [UserDir.getByHash, entry, filter_some, if_pos (decide_eq_true live)]

theorem getByHash_cases (found : d.getByHash now hash = some e) :
    d.byHash hash = some e ∧ now ≤ e.expiresAt := by
  obtain ⟨entry, live⟩ := filter_eq_some_iff.mp found
  exact ⟨entry, of_decide_eq_true live⟩

/-- What a lookup that follows a pin has read. -/
theorem stickyPin_cases {addr port : Bytes} (sticky : s.stickyPin o now user tag = some (addr, host, port)) :
    ∃ e b, s.userDir.byHash (o.userHash user) = some e ∧ now ≤ e.expiresAt ∧ e.host = addr ∧
      splitHostPort e.host = some (host, port) ∧ s.ring.getBackend host = some b ∧ b.tag = tag := by
  unfold stickyPin at sticky
  split at sticky
  · cases sticky
  next e found =>
  split at sticky
  · cases sticky
  split at sticky
  · cases sticky
  next host' port' split_ =>
  split at sticky
  · cases sticky
  next b known =>
  split at sticky
  · next serves =>
    obtain ⟨rfl, rfl, rfl⟩ := sticky
    obtain ⟨entry, live⟩ := getByHash_cases found
    exact ⟨e, b, entry, live, rfl, split_, known, serves.2⟩
  · cases sticky

/-- What a delivery that follows a pin has read. -/
theorem pinnedHost_cases (pinned : s.pinnedHost o now user = some host) :
    ∃ e port, s.userDir.byHash (o.userHash user) = some e ∧ now ≤ e.expiresAt ∧
      splitHostPort e.host = some (host, port) := by
  unfold pinnedHost at pinned
  split at pinned
  · cases pinned
  next e found =>
  split at pinned
  · cases pinned
  split at pinned
  · cases pinned
  next host' port' split_ =>
  split at pinned
  · cases pinned
  split at pinned
  · cases pinned
    obtain ⟨entry, live⟩ := getByHash_cases found
    exact ⟨e, port', entry, live, split_⟩
  · cases pinned

section

variable (backends : s.ring.backends = f.backends) (member : b ∈ f.backends)
  (up : b.up = true) (entry : s.userDir.byHash (o.userHash user) = some e)
  (live : now ≤ e.expiresAt) (pins : e.Pins b)

include backends member up entry live pins

theorem stickyPin_of_pins : s.stickyPin o now user b.tag = some (b.addr, b.ip, intText b.port) := by
  have known : s.ring.getBackend b.ip = some b := Ring.getBackend_eq_some.mpr ⟨by rwa [backends], rfl⟩
  simp [stickyPin, getByHash_of_live entry live, pins.1, pins.2, Fleet.splitHostPort_addr member, known, up]

theorem pinnedHost_of_pins : s.pinnedHost o now user = some b.ip := by
  have known : s.ring.getBackend b.ip = some b := Ring.getBackend_eq_some.mpr ⟨by rwa [backends], rfl⟩
  simp [pinnedHost, getByHash_of_live entry live, pins.1, pins.2, Fleet.splitHostPort_addr member, known, up]

end

/-- A placed user is pinned. -/
theorem assignAndPin_cases (o : Options) (s : Server) (m : Moment) (user tag reqProto : Bytes) :
    (s.pickBackend o m user tag reqProto = none ∧ s.assignAndPin o m user tag reqProto = (s, none, [])) ∨
      ∃ b sent, s.pickBackend o m user tag reqProto = some b ∧
        s.assignAndPin o m user tag reqProto = (s.setUser o m.now user b.addr false, some b, sent) := by
  unfold assignAndPin
  rcases s.pickBackend o m user tag reqProto with _ | b
  · exact .inl ⟨rfl, rfl⟩
  · exact .inr ⟨b, _, rfl, rfl⟩

theorem setUser_entry (addr : Bytes) (weak : Bool) :
    (s.setUser o now user addr weak).userDir.byHash (o.userHash user) =
      some ⟨o.userHash user, addr, weak, now + s.userDir.expire, s.userDir.clock + 1, s.userDir.self⟩ :=
  UserDir.setByHash_same ..

end Server

/-! ## One visit -/

namespace EntryPoint

/-- The tag a user that is placed is placed in. -/
def tag (requested : Bytes) : EntryPoint → Bytes
  | login _ => requested
  | delivery => []

def reqProto : EntryPoint → Bytes
  | login p => p
  | delivery => lmtp

/-- The host of the pin that is followed. -/
def follows (o : Options) (s : Server) (now : ℤ) (user requested : Bytes) : EntryPoint → Option Bytes
  | login _ => (s.stickyPin o now user requested).map (·.2.1)
  | delivery => s.pinnedHost o now user

end EntryPoint

section

variable {o : Options} {username tag : Bytes} {last : ℤ} {pinned : UserEntry → Prop} {m : Moment}
  {t : Server}

/-- What a visit can come to, in the state it meets. -/
inductive Visited (o : Options) (user tag : Bytes) (s : Server) (m : Moment) :
    EntryPoint → Server × Option (Option Bytes) → Prop where
  | held {p : Bytes} : Visited o user tag s m (.login p) (s, none)
  | refreshed {p addr host port : Bytes} (pin : s.stickyPin o m.now user tag = some (addr, host, port)) :
      Visited o user tag s m (.login p) (s.setUser o m.now user addr false, some (some host))
  | pinned {host : Bytes} (pin : s.pinnedHost o m.now user = some host) :
      Visited o user tag s m .delivery (s, some (some host))
  | hashed (free : s.pinnedHost o m.now user = none) (policy : o.policy = .hash) :
      Visited o user tag s m .delivery (s, some ((s.ring.lookupBackend o.hashing user).map (·.ip)))
  | unplaced {entry : EntryPoint} (free : entry.follows o s m.now user tag = none)
      (policy : entry = .delivery → o.policy = .leastSessions)
      (pick : s.pickBackend o m user (entry.tag tag) entry.reqProto = none) :
      Visited o user tag s m entry (s, some none)
  | placed {entry : EntryPoint} {b : Backend} (free : entry.follows o s m.now user tag = none)
      (policy : entry = .delivery → o.policy = .leastSessions)
      (pick : s.pickBackend o m user (entry.tag tag) entry.reqProto = some b) :
      Visited o user tag s m entry (s.setUser o m.now user b.addr false, some (some b.ip))

theorem Server.visited (s : Server) (tag : Bytes) (v : Visit (o.hashOf username)) :
    Visited o (o.normalizeUser username) tag (v.before.change s) v.moment v.entry
      (s.visit o username tag v) := by
  obtain ⟨before, m, entry⟩ := v
  cases entry with
  | login p =>
    simp only [visit, handleLookup]
    by_cases killing : (before.change s).isKilling m.now (o.userHash (o.normalizeUser username)) = true
    · rw [if_pos killing]
      exact .held
    rw [if_neg killing]
    rcases sticky : (before.change s).stickyPin o m.now (o.normalizeUser username) tag with
      _ | ⟨addr, host, port⟩
    · have free : (EntryPoint.login p).follows o (before.change s) m.now (o.normalizeUser username) tag =
          none := by
        simp [EntryPoint.follows, sticky]
      rcases assignAndPin_cases o (before.change s) m (o.normalizeUser username) tag p with
        ⟨pick, assigned⟩ | ⟨b, sent, pick, assigned⟩
      · rw [assigned]
        exact .unplaced free nofun pick
      · rw [assigned]
        exact .placed free nofun pick
    · exact .refreshed sticky
  | delivery =>
    simp only [visit, routeUser]
    rcases pinned : (before.change s).pinnedHost o m.now (o.normalizeUser username) with _ | host
    · rcases policy : o.policy with _ | _
      · exact .hashed pinned policy
      rcases assignAndPin_cases o (before.change s) m (o.normalizeUser username) [] lmtp with
        ⟨pick, assigned⟩ | ⟨b, sent, pick, assigned⟩
      · rw [assigned]
        exact .unplaced pinned (fun _ => policy) pick
      · rw [assigned]
        exact .placed pinned (fun _ => policy) pick
    · exact .pinned pinned

/-! ## Runs of visits -/

/-- What the interludes and a visit keep, and what it answers, holds of all visits. -/
theorem Server.visits_eq {target : Option Bytes} {Holds : Server → ℤ → Prop}
    (keep : ∀ (i : Interlude (o.hashOf username)) (s : Server) (last now : ℤ), Holds s last → last ≤ now →
      (o.policy = .leastSessions → ∀ e, s.userDir.byHash (o.hashOf username) = some e →
        now ≤ e.expiresAt ∨ e.expiresAt < last) → Holds (i.change s) now)
    (step : ∀ t m entry result, Holds t m.now → Visited o (o.normalizeUser username) tag t m entry result →
      (∀ a, result.2 = some a → a = target) ∧ Holds result.1 m.now)
    {s : Server} {visits : List (Visit (o.hashOf username))} (holds : Holds s last)
    (timely : s.Timely o username tag last visits) : ∀ a ∈ s.visits o username tag visits, a = target := by
  induction visits generalizing s last with
  | nil =>
    intro a member
    cases member
  | cons v rest ih =>
    obtain ⟨order, fresh, later⟩ := timely
    obtain ⟨answer, next⟩ := step _ _ _ _ (keep v.before s last _ holds order fresh) (s.visited tag v)
    intro a member
    rcases mem_append.mp member with here | there
    · exact answer a (mem_toList.mp here)
    · exact ih next later a there

/-- The entry of the user is dead, or pins the user to a backend. -/
def Server.DeadOr (o : Options) (username : Bytes) (s : Server) (last : ℤ) (pinned : UserEntry → Prop) : Prop :=
  ∀ e, s.userDir.byHash (o.hashOf username) = some e → e.expiresAt < last ∨ pinned e

/-- The calls find the ring and the user's entry as they were left. -/
theorem Interlude.deadOr {s : Server} {now : ℤ} (i : Interlude (o.hashOf username))
    (held : s.DeadOr o username last pinned) (order : last ≤ now) :
    (i.change s).DeadOr o username now pinned := by
  intro e entry
  rw [i.pin] at entry
  exact (held e entry).imp_left fun dead => lt_of_lt_of_le dead order

theorem Server.setUser_deadOr {s : Server} {now : ℤ} {b : Backend}
    (pins : ∀ e : UserEntry, e.Pins b → pinned e) :
    (s.setUser o now (o.normalizeUser username) b.addr false).DeadOr o username now pinned := by
  intro e entry
  rw [setUser_entry, some.injEq] at entry
  subst entry
  exact .inr (pins _ ⟨rfl, rfl⟩)

variable {f : Fleet} {c : Rebuild} {entry : EntryPoint} {result : Server × Option (Option Bytes)}

theorem Interlude.backends {s : Server} (i : Interlude (o.hashOf username))
    (backends : s.ring.backends = f.backends) : (i.change s).ring.backends = f.backends :=
  (congrArg Ring.backends (i.ring s)).trans backends

theorem Server.pickBackend_hash {s : Server} {user reqProto : Bytes} (policy : o.policy = .hash) :
    s.pickBackend o m user tag reqProto = s.ring.lookupBackendByTag o.hashing user tag := by
  rw [pickBackend, policy]

/-- By hash: what is answered is what the two lookups find. -/
theorem Visited.hash_eq {target : Option Bytes} (policy : o.policy = .hash)
    (whole : ((f.ring o.hashing c).lookupBackend o.hashing (o.normalizeUser username)).map (·.ip) = target)
    (tagged : ((f.ring o.hashing c).lookupBackendByTag o.hashing (o.normalizeUser username)
      tag).map (·.ip) = target) (ring : t.ring = f.ring o.hashing c)
    (kept : t.DeadOr o username m.now fun e => ∃ b ∈ f.backends, target = some b.ip ∧ e.Pins b)
    (visited : Visited o (o.normalizeUser username) tag t m entry result) :
    (∀ a, result.2 = some a → a = target) ∧ result.1.ring = f.ring o.hashing c ∧
      result.1.DeadOr o username m.now fun e => ∃ b ∈ f.backends, target = some b.ip ∧ e.Pins b := by
  -- A pin that is followed is one that holds.
  have followed {e : UserEntry} {host port : Bytes} (found : t.userDir.byHash (o.hashOf username) = some e)
      (live : m.now ≤ e.expiresAt) (split : splitHostPort e.host = some (host, port)) :
      ∃ b ∈ f.backends, target = some b.ip ∧ e.Pins b ∧ host = b.ip := by
    obtain ⟨b, member, equal, pins⟩ := (kept e found).resolve_left (not_lt.mpr live)
    rw [pins.2, Fleet.splitHostPort_addr member] at split
    cases split
    exact ⟨b, member, equal, pins, rfl⟩
  cases visited with
  | held => exact ⟨nofun, ring, kept⟩
  | @refreshed p addr host port pin =>
    obtain ⟨e, -, found, live, rfl, split, -⟩ := stickyPin_cases pin
    obtain ⟨b, member, equal, pins, rfl⟩ := followed found live split
    refine ⟨by simp [equal], ring, ?_⟩
    rw [pins.2]
    exact setUser_deadOr fun e pins => ⟨b, member, equal, pins⟩
  | pinned pin =>
    obtain ⟨e, port, found, live, split⟩ := pinnedHost_cases pin
    obtain ⟨b, member, equal, pins, rfl⟩ := followed found live split
    exact ⟨by simp [equal], ring, kept⟩
  | hashed free _ => exact ⟨by simp [← whole, ring], ring, kept⟩
  | unplaced free least pick =>
    cases entry with
    | delivery => exact absurd (least rfl) (by rw [policy]; decide)
    | login p =>
      rw [EntryPoint.tag, pickBackend_hash policy, ring] at pick
      exact ⟨by simp [← tagged, pick], ring, kept⟩
  | @placed _ b free least pick =>
    cases entry with
    | delivery => exact absurd (least rfl) (by rw [policy]; decide)
    | login p =>
      rw [EntryPoint.tag, pickBackend_hash policy, ring] at pick
      have equal : target = some b.ip := by
        rw [← tagged, pick, map_some]
      obtain ⟨v, -, known⟩ := bind_eq_some_iff.mp pick
      have member : b ∈ f.backends := (Ring.getBackend_eq_some.mp known).1
      exact ⟨by simp [equal], ring, setUser_deadOr fun e pins => ⟨b, member, equal, pins⟩⟩

/-! ## By load -/

/-- A backend takes the users of a tag. -/
def Backend.Takes (b : Backend) (tag : Bytes) : Prop := b.up = true ∧ b.tag = tag ∧ 0 < b.vhosts

theorem Server.mem_candidates {s : Server} {reqProto : Bytes} {cand : Cand}
    (member : cand ∈ s.candidates tag reqProto) : cand.b ∈ s.ring.backends ∧ cand.b.Takes tag := by
  obtain ⟨b, selected, rfl⟩ := mem_map.mp member
  obtain ⟨there, takes⟩ := mem_filter.mp selected
  exact ⟨there, by simpa [Backend.Takes] using takes⟩

theorem Server.pickBackend_some {s : Server} {user reqProto : Bytes} {b : Backend}
    (policy : o.policy = .leastSessions) (pick : s.pickBackend o m user tag reqProto = some b) :
    b ∈ s.ring.backends ∧ b.Takes tag := by
  simp only [pickBackend, policy, map_eq_some_iff] at pick
  obtain ⟨cand, first, rfl⟩ := pick
  exact mem_candidates ((m.sorter.perm _ _).subset (mem_of_mem_head? first))

theorem Server.pickBackend_none {s : Server} {user reqProto : Bytes} {b : Backend}
    (policy : o.policy = .leastSessions) (pick : s.pickBackend o m user tag reqProto = none)
    (member : b ∈ s.ring.backends) : ¬b.Takes tag := by
  intro takes
  simp only [pickBackend, policy, map_eq_none_iff, head?_eq_none_iff] at pick
  have perm := m.sorter.perm (Cand.less reqProto) (s.candidates tag reqProto)
  rw [pick] at perm
  have none_ := nil_perm.mp perm
  rw [candidates, map_eq_nil_iff, filter_eq_nil_iff] at none_
  exact none_ b member (decide_eq_true takes)

/-- By load, without a pin that lives: the visit is held or the user placed. -/
theorem Visited.least (policy : o.policy = .leastSessions) (dead : t.DeadOr o username m.now fun _ => False)
    (visited : Visited o (o.normalizeUser username) tag t m entry result) :
    result = (t, none) ∨
      (t.pickBackend o m (o.normalizeUser username) (entry.tag tag) entry.reqProto = none ∧
        result = (t, some none)) ∨
      ∃ b, t.pickBackend o m (o.normalizeUser username) (entry.tag tag) entry.reqProto = some b ∧
        result = (t.setUser o m.now (o.normalizeUser username) b.addr false, some (some b.ip)) := by
  have expired {e : UserEntry} (found : t.userDir.byHash (o.hashOf username) = some e)
      (live : m.now ≤ e.expiresAt) : False := (dead e found).elim (not_lt.mpr live) id
  cases visited with
  | held => exact .inl rfl
  | refreshed pin =>
    obtain ⟨e, -, found, live, -⟩ := stickyPin_cases pin
    exact (expired found live).elim
  | pinned pin =>
    obtain ⟨e, port, found, live, -⟩ := pinnedHost_cases pin
    exact (expired found live).elim
  | hashed free hash => exact absurd (hash.symm.trans policy) (by decide)
  | unplaced free least pick => exact .inr (.inl ⟨pick, rfl⟩)
  | placed free least pick => exact .inr (.inr ⟨_, pick, rfl⟩)

/-- The user is pinned to a backend, and the pin lives. -/
def Server.LivePin (o : Options) (username : Bytes) (s : Server) (now : ℤ) (b : Backend) : Prop :=
  ∃ e, s.userDir.byHash (o.hashOf username) = some e ∧ e.Pins b ∧ now ≤ e.expiresAt

theorem Server.setUser_livePin {s : Server} {now : ℤ} {b : Backend} :
    (s.setUser o now (o.normalizeUser username) b.addr false).LivePin o username now b := by
  have lasts := s.userDir.lasts
  exact ⟨_, setUser_entry _ _, ⟨rfl, rfl⟩, by dsimp only; omega⟩

/-- By load, with a pin that lives: every answer is its backend. -/
theorem Visited.livePin {b : Backend} (policy : o.policy = .leastSessions) (member : b ∈ f.backends)
    (up : b.up = true) (backends : t.ring.backends = f.backends) (pin : t.LivePin o username m.now b)
    (visited : Visited o (o.normalizeUser username) b.tag t m entry result) :
    (∀ a, result.2 = some a → a = some b.ip) ∧ result.1.ring.backends = f.backends ∧
      result.1.LivePin o username m.now b := by
  obtain ⟨e, found, pins, live⟩ := pin
  have sticky := stickyPin_of_pins backends member up found live pins
  have pinned := pinnedHost_of_pins backends member up found live pins
  have follows : entry.follows o t m.now (o.normalizeUser username) b.tag = some b.ip := by
    cases entry with
    | login p => rw [EntryPoint.follows, sticky, map_some]
    | delivery => exact pinned
  cases visited with
  | held => exact ⟨nofun, backends, e, found, pins, live⟩
  | refreshed pin =>
    rw [sticky] at pin
    cases pin
    exact ⟨fun a answer => by cases answer; rfl, backends, setUser_livePin⟩
  | pinned pin =>
    rw [pinned] at pin
    cases pin
    exact ⟨fun a answer => by cases answer; rfl, backends, e, found, pins, live⟩
  | hashed free hash => exact absurd (hash.symm.trans policy) (by decide)
  | unplaced free => exact absurd (follows.symm.trans free) (by simp)
  | placed free => exact absurd (follows.symm.trans free) (by simp)

namespace Server

variable {s : Server} {visits : List (Visit (o.hashOf username))} (policy : o.policy = .leastSessions)
  (backends : s.ring.backends = f.backends)

include policy backends

/-- With nobody to take the user no answer names a backend. -/
theorem visits_none (nobody : ∀ b ∈ f.backends, ¬b.Takes [] ∧ ¬b.Takes tag)
    (dead : s.DeadOr o username last fun _ => False) (timely : s.Timely o username tag last visits) :
    ∀ a ∈ s.visits o username tag visits, a = none := by
  refine @visits_eq o username tag last none
    (fun s last => s.ring.backends = f.backends ∧ s.DeadOr o username last fun _ => False)
    (fun i _ _ _ holds order _ => ⟨i.backends holds.1, i.deadOr holds.2 order⟩) ?_ s visits
    ⟨backends, dead⟩ timely
  rintro t m entry result ⟨backends, dead⟩ visited
  rcases visited.least policy dead with rfl | ⟨-, rfl⟩ | ⟨b, pick, rfl⟩
  · exact ⟨nofun, backends, dead⟩
  · exact ⟨fun a answer => by cases answer; rfl, backends, dead⟩
  · obtain ⟨member, takes⟩ := pickBackend_some policy pick
    rw [backends] at member
    cases entry with
    | login p => exact absurd takes (nobody _ member).2
    | delivery => exact absurd takes (nobody _ member).1

theorem visits_pinned {b : Backend} (member : b ∈ f.backends) (up : b.up = true)
    (pin : s.LivePin o username last b) (timely : s.Timely o username b.tag last visits) :
    ∀ a ∈ s.visits o username b.tag visits, a = some b.ip := by
  refine @visits_eq o username b.tag last (some b.ip)
    (fun s last => s.ring.backends = f.backends ∧ s.LivePin o username last b) ?_
    (fun _ _ _ _ holds visited => visited.livePin policy member up holds.1 holds.2) s visits
    ⟨backends, pin⟩ timely
  rintro i s last now ⟨backends, e, found, pins, alive⟩ order fresh
  have live := (fresh policy e found).resolve_right (not_lt.mpr alive)
  exact ⟨i.backends backends, e, (i.pin s).trans found, pins, live⟩

/-- An untagged user: the first visit that is placed decides for all. -/
theorem visits_untagged (dead : s.DeadOr o username last fun _ => False)
    (timely : s.Timely o username [] last visits) :
    ∃ target, ∀ a ∈ s.visits o username [] visits, a = target := by
  by_cases nobody : ∀ b ∈ f.backends, ¬b.Takes []
  · exact ⟨none, visits_none policy backends (fun b member => ⟨nobody b member, nobody b member⟩) dead timely⟩
  induction visits generalizing s last with
  | nil => exact ⟨none, nofun⟩
  | cons v rest ih =>
    obtain ⟨order, -, later⟩ := timely
    have dead := v.before.deadOr dead order
    have backends := v.before.backends backends
    have untagged : v.entry.tag [] = [] := by cases v.entry <;> rfl
    have visited := (s.visited [] v).least policy dead
    rw [untagged] at visited
    rw [visits]
    rcases visited with same | ⟨pick, -⟩ | ⟨b, pick, placed⟩
    · rw [same] at later ⊢
      exact ih backends dead later
    · exact absurd (fun b member => pickBackend_none policy pick (by rwa [backends])) nobody
    · obtain ⟨member, up, tag, -⟩ := pickBackend_some policy pick
      rw [backends] at member
      rw [placed] at later ⊢
      refine ⟨some b.ip, fun a answer => ?_⟩
      rcases mem_append.mp answer with here | there
      · exact mem_singleton.mp here
      rw [← tag] at later there
      exact visits_pinned (s := (v.before.change s).setUser o v.moment.now (o.normalizeUser username) b.addr
        false) policy backends member up setUser_livePin later a there

end Server

/-! ## A delivery and a login -/

def Interlude.idle (hash : UInt32) : Interlude hash := ⟨id, fun _ => rfl, fun _ => rfl⟩

/-- A delivery, and a login at once. -/
def deliveryThenLogin (hash : UInt32) : List (Visit hash) :=
  [⟨.idle hash, .start, .delivery⟩, ⟨.idle hash, .start, .login []⟩]

/-- What the delivery of a fresh director comes to: by hash what the whole ring finds, by load an
untagged backend, to which the user is pinned. -/
theorem Server.visit_fresh (o : Options) (username tag : Bytes) (r : Ring) :
    Visited o (o.normalizeUser username) tag (fresh r) .start .delivery
      ((fresh r).visit o username tag ⟨.idle (o.hashOf username), .start, .delivery⟩) :=
  (fresh r).visited tag ⟨.idle (o.hashOf username), .start, .delivery⟩

theorem Server.fresh_timely (r : Ring) :
    (fresh r).Timely o username tag 0 (deliveryThenLogin (o.hashOf username)) := by
  refine ⟨le_rfl, nofun, le_rfl, fun policy e entry => .inl ?_, trivial⟩
  have visited := visit_fresh o username tag r
  revert visited entry
  generalize (fresh r).visit o username tag ⟨.idle (o.hashOf username), .start, .delivery⟩ = result
  intro entry visited
  cases visited with
  | pinned => cases entry
  | hashed => cases entry
  | unplaced => cases entry
  | placed =>
    rw [setUser_entry, some.injEq] at entry
    subst entry
    exact (by decide : (0 : ℤ) ≤ 0 + 1)

/-- A login that is not held and has no pin to follow is placed. -/
theorem Server.visit_login_free (calm : t.isKilling 0 (o.userHash (o.normalizeUser username)) = false)
    (free : t.stickyPin o 0 (o.normalizeUser username) tag = none) :
    (t.visit o username tag ⟨.idle (o.hashOf username), .start, .login []⟩).2 =
      some ((t.pickBackend o .start (o.normalizeUser username) tag []).map (·.ip)) := by
  have calm' : ((Interlude.idle (o.hashOf username)).change t).isKilling Moment.start.now
      (o.userHash (o.normalizeUser username)) = false := calm
  have free' : ((Interlude.idle (o.hashOf username)).change t).stickyPin o Moment.start.now
      (o.normalizeUser username) tag = none := free
  simp only [visit, handleLookup, calm', free', Bool.false_eq_true, if_false]
  rcases assignAndPin_cases o t .start (o.normalizeUser username) tag [] with
    ⟨pick, assigned⟩ | ⟨b, sent, pick, assigned⟩
  · rw [show (Interlude.idle (o.hashOf username)).change t = t from rfl, assigned, pick]
    rfl
  · rw [show (Interlude.idle (o.hashOf username)).change t = t from rfl, assigned, pick]
    rfl

/-- The delivery's answer and the login's, where the login meets the state the delivery left. -/
theorem OneBackend.pair (one : OneBackend o username tag f) (c : Rebuild) {a b : Option Bytes}
    (first : (Server.fresh (f.ring o.hashing c)).visit o username tag ⟨.idle (o.hashOf username),
      .start, .delivery⟩ = (t, some a))
    (second : (t.visit o username tag ⟨.idle (o.hashOf username), .start, .login []⟩).2 = some b) :
    a = b := by
  refine one c (.fresh (f.ring o.hashing c)) 0 (deliveryThenLogin _) rfl (fun e entry => nomatch entry)
    (fresh_timely _) a ?_ b ?_
  · simp [deliveryThenLogin, visits, first]
  · simp [deliveryThenLogin, visits, first, second]

theorem OneBackend.lookupsAgree (one : OneBackend o username tag f) (policy : o.policy = .hash) :
    f.LookupsAgree o.hashing (o.normalizeUser username) tag := by
  intro c
  have visited := visit_fresh o username tag (f.ring o.hashing c)
  rcases first : (Server.fresh (f.ring o.hashing c)).visit o username tag
    ⟨.idle (o.hashOf username), .start, .delivery⟩ with ⟨t, answer⟩
  rw [first] at visited
  cases visited with
  | pinned pin => cases pin
  | unplaced free least => exact absurd (least rfl) (by rw [policy]; decide)
  | placed free least => exact absurd (least rfl) (by rw [policy]; decide)
  | hashed free =>
    have same := one.pair c first (visit_login_free rfl rfl)
    rwa [pickBackend_hash policy] at same

theorem OneBackend.takers (one : OneBackend o username tag f) (policy : o.policy = .leastSessions)
    (tagged : tag ≠ []) : ∀ b ∈ f.backends, ¬b.Takes [] ∧ ¬b.Takes tag := by
  have visited := visit_fresh o username tag (f.ring o.hashing (Ring.walkFirst []))
  rcases first : (Server.fresh (f.ring o.hashing (Ring.walkFirst []))).visit o username tag
    ⟨.idle (o.hashOf username), .start, .delivery⟩ with ⟨t, answer⟩
  rw [first] at visited
  cases visited with
  | pinned pin => cases pin
  | hashed free hash => exact absurd (hash.symm.trans policy) (by decide)
  | unplaced free least pick =>
    have none_ := one.pair _ first (visit_login_free rfl rfl)
    rw [eq_comm, map_eq_none_iff] at none_
    intro b member
    exact ⟨pickBackend_none policy pick member, pickBackend_none policy none_ member⟩
  | @placed _ b free least pick =>
    -- The pin is untagged, so the login does not follow it and is placed in its own tag.
    obtain ⟨member, up, untagged, -⟩ := pickBackend_some policy pick
    have other : ((Server.fresh (f.ring o.hashing (Ring.walkFirst []))).setUser o Moment.start.now
        (o.normalizeUser username) b.addr false).stickyPin o 0 (o.normalizeUser username) tag = none := by
      rw [eq_none_iff_forall_ne_some]
      rintro ⟨addr, host, port⟩ sticky
      obtain ⟨e, x, entry, -, -, split, known, tagged'⟩ := stickyPin_cases sticky
      rw [setUser_entry, some.injEq] at entry
      subst entry
      rw [show splitHostPort b.addr = _ from Fleet.splitHostPort_addr member] at split
      cases split
      obtain ⟨there, address⟩ := Ring.getBackend_eq_some.mp known
      obtain rfl : x = b := inj_on_of_nodup_map f.keyed there member address
      exact tagged (tagged'.symm.trans untagged)
    have same := one.pair _ first (visit_login_free rfl other)
    rw [eq_comm, map_eq_some_iff] at same
    obtain ⟨b', pick', address⟩ := same
    obtain ⟨member', -, tagged', -⟩ := pickBackend_some policy pick'
    obtain rfl : b' = b := inj_on_of_nodup_map f.keyed member' member address
    exact absurd (tagged'.symm.trans untagged) tagged

end

/-- By hash: the nodes nearest to the user, over all tags, belong to one backend, and it has the
user's tag. By load: the user is untagged, or no backend takes untagged users or those of the tag. -/
def Settled (o : Options) (username tag : Bytes) (f : Fleet) : Prop :=
  match o.policy with
  | .hash => f.OwnedIn o.hashing (o.normalizeUser username) tag
  | .leastSessions => tag = [] ∨ ∀ b ∈ f.backends, ¬b.Takes [] ∧ ¬b.Takes tag

/-- All entry points send a user without a pin to one backend exactly where the user is settled. -/
theorem oneBackend_iff_settled (o : Options) (username tag : Bytes) (f : Fleet) :
    OneBackend o username tag f ↔ Settled o username tag f := by
  rcases policy : o.policy with _ | _
  · simp only [Settled, policy]
    constructor
    · intro one
      exact (one.lookupsAgree policy).ownedIn
    · intro owned c s start visits ring unpinned timely
      have agree := owned.lookupsAgree c
      have all := @visits_eq o username tag start _
        (fun s last => s.ring = f.ring o.hashing c ∧ s.DeadOr o username last fun e =>
          ∃ b ∈ f.backends, _ = some b.ip ∧ e.Pins b)
        (fun i s _ _ holds order _ => ⟨(i.ring s).trans holds.1, i.deadOr holds.2 order⟩)
        (fun _ _ _ _ holds visited => visited.hash_eq policy agree rfl holds.1 holds.2)
        s visits ⟨ring, fun e entry => .inl (unpinned e entry)⟩ timely
      intro a left b right
      rw [all a left, all b right]
  · simp only [Settled, policy]
    constructor
    · intro one
      by_cases untagged : tag = []
      · exact .inl untagged
      · exact .inr (one.takers policy untagged)
    · intro settled c s start visits ring unpinned timely
      have backends : s.ring.backends = f.backends := congrArg Ring.backends ring
      have dead : s.DeadOr o username start fun _ => False := fun e entry => .inl (unpinned e entry)
      rcases settled with rfl | nobody
      · obtain ⟨target, all⟩ := visits_untagged policy backends dead timely
        intro a left b right
        rw [all a left, all b right]
      have all := visits_none policy backends nobody dead timely
      intro a left b right
      rw [all a left, all b right]

/-- Keys are placed by their first byte. -/
def firstByteHashing : Hashing := ⟨fun key => ((key.head?.getD 0).toUInt32), id, [⟨.user, [], false⟩]⟩

/-- An untagged backend and one with the tag `t`. -/
def mixedFleet : Fleet where
  backends := [singleNode 65, { singleNode 66 with tag := [116] }]
  keyed := by decide
  bare := by decide

def hashOptions : Options := ⟨firstByteHashing, false, .hash, 0, 0, false⟩

/-- A delivery is sent to the untagged backend, a login of the tag to the other, and that with either
policy. -/
theorem delivery_and_login_apart :
    (Server.fresh (mixedFleet.ring firstByteHashing (Ring.walkFirst []))).visits hashOptions [65] [116]
        (deliveryThenLogin (hashOptions.hashOf [65])) = [some [65], some [66]] ∧
      (Server.fresh (mixedFleet.ring firstByteHashing (Ring.walkFirst []))).visits
        { hashOptions with policy := .leastSessions } [65] [116]
        (deliveryThenLogin (hashOptions.hashOf [65])) = [some [65], some [66]] := by
  constructor <;> decide +kernel

end Yarilo.Director

import Yarilo.Director.Ring

/-! # Where the ring sends a user

Rings are reached by calls, each with the choices of its rebuild. The node that serves a user is one
of the nearest to the user's hash among the nodes of the backends that are up. Where nodes of several
backends share that place, the choices decide between them.
-/

namespace Yarilo.Director

open Library List Vhost Circle

inductive RingCall where
  | add (b : Backend)
  | remove (ip : Bytes)
  | setUp (ip : Bytes) (up : Bool) (ts : ℤ)

/-- What routing reads of a backend. -/
structure Setting where
  ip : Bytes
  port : ℤ
  tag : Bytes
  vhosts : ℤ
  up : Bool
deriving DecidableEq

def Backend.setting (b : Backend) : Setting := ⟨b.ip, b.port, b.tag, b.vhosts, b.up⟩

namespace Ring

def apply (H : Hashing) (r : Ring) (call : RingCall × Rebuild) : Ring :=
  match call.1 with
  | .add b => r.addBackend H call.2 b
  | .remove ip => r.removeBackend H call.2 ip
  | .setUp ip up ts => (r.setUp H call.2 ip up ts).1

/-- The ring after a history of calls. -/
def after (H : Hashing) (calls : List (RingCall × Rebuild)) : Ring := calls.foldl (apply H) empty

/-- Two rings have the same backends, by address, port, tag, weight and state. -/
def Same (r s : Ring) : Prop := ∀ x, x ∈ r.backends.map Backend.setting ↔ x ∈ s.backends.map Backend.setting

end Ring

/-! ## The two pools a user is looked up in -/

inductive Pool where
  | all
  | tag (t : Bytes)

variable {b c : Backend} {H : Hashing} {v : Vhost} {bs : List Backend}

namespace Pool

def admits : Pool → Backend → Bool
  | all, _ => true
  | tag t, b => decide (b.tag = t)

def nodes : Pool → Ring → List Vhost
  | all, r => r.vhosts
  | tag t, r => r.tagVhosts t

def sorter : Pool → Rebuild → Sorter
  | all, c => c.full
  | tag t, c => c.tagged t

theorem admits_congr (p : Pool) (same : b.setting = c.setting) : p.admits b = p.admits c := by
  have tag : b.tag = c.tag := congrArg Setting.tag same
  cases p with
  | all => rfl
  | tag t => simp [admits, tag]

theorem nodes_rebuild (p : Pool) (H : Hashing) (c : Rebuild) (bs : List Backend)
    (keyed : (bs.map (·.ip)).Nodup) :
    p.nodes (.rebuild H c bs keyed) =
      (p.sorter c).sort less (collect H ((c.order bs).filter p.admits)) := by
  cases p with
  | all =>
    have whole : (c.order bs).filter all.admits = c.order bs := filter_eq_self.mpr fun _ _ => rfl
    rw [whole]
    rfl
  | tag t => rfl

end Pool

namespace Ring

/-- A user looked up in a pool. -/
def lookupIn (H : Hashing) (r : Ring) (username : Bytes) (p : Pool) : Option Backend :=
  r.lookupLocked H username (p.nodes r)

/-- The nodes of the pool that are nearest to the user all belong to one backend. -/
def Alone (H : Hashing) (r : Ring) (username : Bytes) (p : Pool) : Prop :=
  ∀ v w, Circle.Nearest pos (collect H (r.backends.filter p.admits)) (H.userHash username).toNat v →
    Circle.Nearest pos (collect H (r.backends.filter p.admits)) (H.userHash username).toNat w →
    v.ip = w.ip

/-- The user finds the backend by a nearest node of the pool. -/
structure Finds (H : Hashing) (r : Ring) (username : Bytes) (p : Pool) (v : Vhost) (b : Backend) : Prop where
  near : Circle.Nearest pos (collect H (r.backends.filter p.admits)) (H.userHash username).toNat v
  node : locate pos (p.nodes r) (H.userHash username).toNat = some v
  known : r.getBackend v.ip = some b
  answer : r.lookupIn H username p = some b

end Ring

/-! ## Backends by address -/

theorem Backend.nodes_congr (same : b.setting = c.setting) : b.nodes H = c.nodes H := by
  have ip : b.ip = c.ip := congrArg Setting.ip same
  have vhosts : b.vhosts = c.vhosts := congrArg Setting.vhosts same
  simp [nodes, ip, vhosts]

theorem Backend.ip_of_mem_nodes (member : v ∈ b.nodes H) : v.ip = b.ip := by
  obtain ⟨i, -, rfl⟩ := mem_map.mp member
  rfl

theorem mem_collect : v ∈ collect H bs ↔ ∃ b ∈ bs, b.up = true ∧ v ∈ b.nodes H := by
  simp only [collect, mem_flatMap]
  constructor
  · rintro ⟨b, member, node⟩
    split at node
    · next up => exact ⟨b, member, up, node⟩
    · cases node
  · rintro ⟨b, member, up, node⟩
    exact ⟨b, member, by rwa [if_pos up]⟩

theorem mem_pool {p : Pool} : v ∈ collect H (bs.filter p.admits) ↔
    ∃ b ∈ bs, p.admits b = true ∧ b.up = true ∧ v ∈ b.nodes H := by
  simp [mem_collect, and_assoc]

theorem mem_collect_address {p : Pool} {q : Bytes → Bool} :
    v ∈ collect H ((bs.filter fun b => q b.ip).filter p.admits) ↔
      v ∈ collect H (bs.filter p.admits) ∧ q v.ip = true := by
  simp only [mem_pool, mem_filter]
  constructor
  · rintro ⟨b, ⟨member, address⟩, admitted, up, node⟩
    exact ⟨⟨b, member, admitted, up, node⟩, Backend.ip_of_mem_nodes node ▸ address⟩
  · rintro ⟨⟨b, member, admitted, up, node⟩, address⟩
    exact ⟨b, ⟨member, Backend.ip_of_mem_nodes node ▸ address⟩, admitted, up, node⟩

namespace Ring

variable {r s : Ring} {ip username : Bytes} {p : Pool} {a : Vhost}

theorem getBackend_eq_some : r.getBackend ip = some b ↔ b ∈ r.backends ∧ b.ip = ip := by
  constructor
  · intro known
    exact ⟨mem_of_find?_eq_some known, getBackend_ip known⟩
  · rintro ⟨member, rfl⟩
    rcases known : r.getBackend b.ip with _ | c
    · have unlike := find?_eq_none.mp known b member
      simp at unlike
    · have other := mem_of_find?_eq_some known
      rw [inj_on_of_nodup_map r.keyed other member (getBackend_ip known)]

theorem Same.setting (same : r.Same s) (ip : Bytes) :
    (r.getBackend ip).map Backend.setting = (s.getBackend ip).map Backend.setting := by
  have through {r s : Ring} (same : r.Same s) {b : Backend} (known : r.getBackend ip = some b) :
      ∃ c, s.getBackend ip = some c ∧ c.setting = b.setting := by
    obtain ⟨member, address⟩ := getBackend_eq_some.mp known
    obtain ⟨c, there, equal⟩ := mem_map.mp ((same b.setting).mp (mem_map_of_mem member))
    have ip : c.ip = b.ip := congrArg Setting.ip equal
    exact ⟨c, getBackend_eq_some.mpr ⟨there, ip.trans address⟩, equal⟩
  rcases here : r.getBackend ip with _ | b
  · rcases there : s.getBackend ip with _ | c
    · rfl
    obtain ⟨b, known, -⟩ := through (fun x => (same x).symm) there
    rw [here] at known
    cases known
  · obtain ⟨c, known, equal⟩ := through same here
    rw [known, Option.map_some, Option.map_some, equal]

/-- Rings with the same backends have the same nodes. -/
theorem Same.mem_collect (same : r.Same s) (H : Hashing) (p : Pool) (v : Vhost) :
    v ∈ collect H (r.backends.filter p.admits) ↔ v ∈ collect H (s.backends.filter p.admits) := by
  have through {r s : Ring} (same : r.Same s) (node : v ∈ collect H (r.backends.filter p.admits)) :
      v ∈ collect H (s.backends.filter p.admits) := by
    obtain ⟨b, member, admitted, up, node⟩ := mem_pool.mp node
    obtain ⟨c, there, equal⟩ := mem_map.mp ((same b.setting).mp (mem_map_of_mem member))
    refine mem_pool.mpr ⟨c, there, ?_, ?_, ?_⟩
    · rwa [p.admits_congr equal]
    · exact (congrArg Setting.up equal).trans up
    · rwa [Backend.nodes_congr equal]
  exact ⟨through same, through fun x => (same x).symm⟩

/-! ## Rings that histories reach -/

/-- The nodes are those of the backends, in an order some rebuild gives. -/
def Rebuilt (H : Hashing) (r : Ring) : Prop := ∃ c, r = rebuild H c r.backends r.keyed

theorem rebuilt_empty (H : Hashing) : Rebuilt H empty := by
  refine ⟨walkFirst [], ?_⟩
  rfl

theorem Rebuilt.apply (rebuilt : r.Rebuilt H) (call : RingCall × Rebuild) : (r.apply H call).Rebuilt H := by
  obtain ⟨what, c⟩ := call
  cases what with
  | add b => exact ⟨c, rfl⟩
  | remove ip => exact ⟨c, rfl⟩
  | setUp ip up ts =>
    simp only [Ring.apply, setUp]
    split
    · exact rebuilt
    · exact ⟨c, rfl⟩

theorem rebuilt_after (H : Hashing) (calls : List (RingCall × Rebuild)) : (after H calls).Rebuilt H := by
  have whole {r : Ring} (rebuilt : r.Rebuilt H) (calls : List (RingCall × Rebuild)) :
      (calls.foldl (.apply H) r).Rebuilt H := by
    induction calls generalizing r with
    | nil => exact rebuilt
    | cons call calls ih => exact ih (rebuilt.apply call)
  exact whole (rebuilt_empty H) calls

theorem Rebuilt.nodes (rebuilt : r.Rebuilt H) (p : Pool) :
    (p.nodes r).Perm (collect H (r.backends.filter p.admits)) ∧
      (p.nodes r).Pairwise fun a b => a.pos ≤ b.pos := by
  obtain ⟨c, eq⟩ := rebuilt
  have nodes := p.nodes_rebuild H c r.backends r.keyed
  rw [← eq] at nodes
  rw [nodes]
  constructor
  · refine ((p.sorter c).perm _ _).trans ?_
    exact ((c.walks r.backends).filter _).flatMap_right _
  · refine ((p.sorter c).ordered comparison _).imp fun ordered => ?_
    simpa [less] using ordered

/-- A user is served by the backend of a nearest node, and by none where there is no node. -/
theorem Rebuilt.lookupIn (rebuilt : r.Rebuilt H) (username : Bytes) (p : Pool) :
    ((∀ v, v ∉ collect H (r.backends.filter p.admits)) ∧ r.lookupIn H username p = none) ∨
      ∃ v b, r.Finds H username p v b := by
  obtain ⟨perm, ordered⟩ := rebuilt.nodes p
  rcases found : locate pos (p.nodes r) (H.userHash username).toNat with _ | v
  · rw [locate_eq_none ordered] at found
    left
    constructor
    · rw [found] at perm
      rw [nil_perm.mp perm]
      simp
    · rw [Ring.lookupIn, lookupLocked, found]
      rfl
  · right
    obtain ⟨nearest, -⟩ := locate_eq_some ordered found
    have near := (Circle.Nearest.congr fun b => perm.mem_iff).mp nearest
    obtain ⟨b, member, -, -, node⟩ := mem_pool.mp near.1
    have known := getBackend_eq_some.mpr ⟨member, (Backend.ip_of_mem_nodes node).symm⟩
    refine ⟨v, b, near, found, known, ?_⟩
    rw [Ring.lookupIn, lookupLocked, found, Option.bind_some, known]

theorem Rebuilt.finds (rebuilt : r.Rebuilt H) (username : Bytes)
    (node : v ∈ collect H (r.backends.filter p.admits)) : ∃ w b, r.Finds H username p w b :=
  (rebuilt.lookupIn username p).resolve_left fun bare => bare.1 v node

/-- Where the nearest nodes belong to one backend, every ring with these backends finds it. -/
theorem Alone.lookupIn (alone : r.Alone H username p) (rebuilt : r.Rebuilt H) (other : s.Rebuilt H)
    (same : s.Same r) :
    (s.lookupIn H username p).map Backend.setting = (r.lookupIn H username p).map Backend.setting := by
  have members := same.mem_collect H p
  rcases rebuilt.lookupIn username p with ⟨bare, here⟩ | ⟨v, b, found⟩
  · rcases other.lookupIn username p with ⟨-, there⟩ | ⟨w, c, found⟩
    · rw [here, there]
    exact absurd ((members w).mp found.near.1) (bare w)
  · obtain ⟨w, c, found'⟩ := other.finds username ((members v).mpr found.near.1)
    have one := alone v w found.near ((Circle.Nearest.congr members).mp found'.near)
    rw [found.answer, ← found.known, found'.answer, ← found'.known, one, same.setting]

/-! ## A history for each of the nearest backends -/

/-- Of nodes sorted by insertion, those that come first in the list are found where one is nearest. -/
theorem mem_of_locate_insertion {first rest : List Vhost} {h : ℕ} (member : v ∈ first)
    (nearest : Circle.Nearest pos (first ++ rest) h v)
    (found : locate pos (Sorter.insertion.sort less (first ++ rest)) h = some a) : a ∈ first := by
  have perm := Sorter.insertion.perm less (first ++ rest)
  have ordered : (Sorter.insertion.sort less (first ++ rest)).Pairwise fun a b => a.pos ≤ b.pos := by
    refine (Sorter.insertion.ordered comparison _).imp fun ordered => ?_
    simpa [less] using ordered
  obtain ⟨near, -⟩ := locate_eq_some ordered found
  have place : v.pos = a.pos := by
    exact nearest.pos_eq ((Circle.Nearest.congr fun b => perm.mem_iff).mp near)
  have alike : ∀ b c : Vhost, decide (b.pos = a.pos) = true → decide (c.pos = a.pos) = true →
      less b c = false := by
    intro b c left right
    rw [decide_eq_true_eq] at left right
    simp [less, left, right]
  have head := locate_head ordered found
  have some_first : first.filter (fun b => decide (b.pos = a.pos)) ≠ [] :=
    ne_nil_of_mem (mem_filter.mpr ⟨member, decide_eq_true place⟩)
  rw [Sorter.insertion_filter alike, filter_append, head?_append_of_ne_nil _ some_first] at head
  exact (mem_filter.mp (mem_of_mem_head? head)).1

/-- The backends added one by one, those of one address walked first. -/
def seating (ip : Bytes) (bs : List Backend) : List (RingCall × Rebuild) :=
  bs.map fun b => (.add b, walkFirst ip)

/-- The last rebuild walked the backends of the address first. -/
def LeadBy (H : Hashing) (ip : Bytes) (r : Ring) : Prop := r = rebuild H (walkFirst ip) r.backends r.keyed

theorem addBackend_new {c : Rebuild} (new : b.ip ∉ r.backends.map (·.ip)) :
    (r.addBackend H c b).backends = b :: r.backends := by
  have unknown : r.getBackend b.ip = none := by
    rw [getBackend, find?_eq_none]
    intro other member same
    exact new (mem_map.mpr ⟨other, member, of_decide_eq_true same⟩)
  have kept : r.backends.filter (·.ip ≠ b.ip) = r.backends := by
    rw [filter_eq_self]
    intro other member
    exact decide_eq_true fun same => new (mem_map.mpr ⟨other, member, same⟩)
  simp only [addBackend, rebuild, unknown, merge, kept]

theorem foldl_seating (lead : r.LeadBy H ip) (keyed : ((bs.reverse ++ r.backends).map (·.ip)).Nodup) :
    ((seating ip bs).foldl (apply H) r).LeadBy H ip ∧
      ((seating ip bs).foldl (apply H) r).backends = bs.reverse ++ r.backends := by
  induction bs generalizing r with
  | nil => exact ⟨lead, rfl⟩
  | cons b bs ih =>
    rw [reverse_cons, append_assoc, singleton_append] at keyed ⊢
    have new : b.ip ∉ r.backends.map (·.ip) := by
      rw [map_append, map_cons] at keyed
      exact (nodup_cons.mp (nodup_append.mp keyed).2.1).1
    have next := addBackend_new (H := H) (c := walkFirst ip) new
    rw [← next] at keyed ⊢
    exact ih rfl keyed

theorem after_seating (H : Hashing) (ip : Bytes) (r : Ring) :
    (after H (seating ip r.backends)).LeadBy H ip ∧ (after H (seating ip r.backends)).Same r := by
  have keyed : ((r.backends.reverse ++ empty.backends).map (·.ip)).Nodup := by
    rw [empty, append_nil, map_reverse, nodup_reverse]
    exact r.keyed
  have start : empty.LeadBy H ip := rfl
  obtain ⟨lead, backends⟩ := foldl_seating start keyed
  refine ⟨lead, fun x => ?_⟩
  rw [after, backends]
  simp [empty]

section

variable (nearest : Circle.Nearest pos (collect H (r.backends.filter p.admits)) (H.userHash username).toNat v)

include nearest

/-- With the backends of an address walked first, a nearest node of that address is the one found. -/
theorem LeadBy.locate (lead : r.LeadBy H v.ip)
    (found : locate pos (p.nodes r) (H.userHash username).toNat = some a) : a.ip = v.ip := by
  have insertion : p.sorter (walkFirst v.ip) = .insertion := by cases p <;> rfl
  have split : collect H (((walkFirst v.ip).order r.backends).filter p.admits) =
      collect H ((r.backends.filter (·.ip = v.ip)).filter p.admits) ++
        collect H ((r.backends.filter (·.ip ≠ v.ip)).filter p.admits) := by
    simp [walkFirst, collect]
  rw [show r = rebuild H (walkFirst v.ip) r.backends r.keyed from lead, p.nodes_rebuild, insertion,
    split] at found
  have own : v ∈ collect H ((r.backends.filter (·.ip = v.ip)).filter p.admits) :=
    (mem_collect_address (q := (· = v.ip))).mpr ⟨nearest.1, decide_eq_true rfl⟩
  have among := mem_of_locate_insertion own ((Circle.Nearest.congr fun x => ?_).mpr nearest) found
  · exact of_decide_eq_true ((mem_collect_address (q := (· = v.ip))).mp among).2
  · rw [← split]
    exact ((((walkFirst v.ip).walks r.backends).filter _).flatMap_right _).mem_iff

/-- For each of the nearest nodes there is a history after which its backend is found. -/
theorem lookupIn_seating :
    ∃ x : Setting, ((after H (seating v.ip r.backends)).lookupIn H username p).map Backend.setting = some x ∧
      x.ip = v.ip := by
  obtain ⟨lead, same⟩ := after_seating H v.ip r
  have there := (Circle.Nearest.congr (same.mem_collect H p)).mpr nearest
  obtain ⟨a, b, found⟩ := Rebuilt.finds ⟨_, lead⟩ username there.1
  rw [found.answer]
  exact ⟨b.setting, rfl, (getBackend_ip found.known).trans (lead.locate there found.node)⟩

end

/-- A pool's answer depends on the backends alone exactly where the nearest nodes belong to one of
them. -/
theorem lookupIn_determined_iff (rebuilt : r.Rebuilt H) (username : Bytes) (p : Pool) :
    (∀ calls, (after H calls).Same r → ((after H calls).lookupIn H username p).map Backend.setting =
        (r.lookupIn H username p).map Backend.setting) ↔ r.Alone H username p := by
  constructor
  · intro determined v w nearV nearW
    obtain ⟨x, answerV, addressV⟩ := lookupIn_seating nearV
    obtain ⟨y, answerW, addressW⟩ := lookupIn_seating nearW
    have first := determined _ (after_seating H v.ip r).2
    have second := determined _ (after_seating H w.ip r).2
    rw [answerV] at first
    rw [answerW, ← first, Option.some.injEq] at second
    rw [← addressV, ← addressW, second]
  · intro alone calls same
    exact alone.lookupIn rebuilt (rebuilt_after H calls) same

/-- After any history a user is sent to a known backend of the pool that is up, and to none only if
there is none. -/
theorem lookups_find_live (H : Hashing) (username : Bytes) (p : Pool) (calls : List (RingCall × Rebuild)) :
    match (after H calls).lookupIn H username p with
    | some b => b ∈ (after H calls).backends ∧ p.admits b = true ∧ b.up = true
    | none => ∀ b ∈ (after H calls).backends, p.admits b = true → b.up = false := by
  rcases (rebuilt_after H calls).lookupIn username p with ⟨bare, nothing⟩ | ⟨v, b, found⟩
  · rw [nothing]
    intro b member admitted
    have some : b.nodes H ≠ [] := by
      unfold Backend.nodes
      split <;> simp [defaultVhosts]
      omega
    obtain ⟨v, node⟩ := exists_mem_of_ne_nil _ some
    by_contra up
    exact bare v (mem_pool.mpr ⟨b, member, admitted, by simpa using up, node⟩)
  · rw [found.answer]
    obtain ⟨c, member, admitted, up, node⟩ := mem_pool.mp found.near.1
    have known := getBackend_eq_some.mpr ⟨member, (Backend.ip_of_mem_nodes node).symm⟩
    cases found.known.symm.trans known
    exact ⟨member, admitted, up⟩

end Ring

/-- Whatever the hash, two histories that end with the same backends route a user alike, in the whole
ring and in a tag, exactly where the nearest nodes belong to one backend. -/
theorem routing_determined_iff (H : Hashing) (username tag : Bytes) (calls : List (RingCall × Rebuild)) :
    (∀ other, (Ring.after H other).Same (Ring.after H calls) →
      ((Ring.after H other).lookupBackend H username).map Backend.setting =
          ((Ring.after H calls).lookupBackend H username).map Backend.setting ∧
        ((Ring.after H other).lookupBackendByTag H username tag).map Backend.setting =
          ((Ring.after H calls).lookupBackendByTag H username tag).map Backend.setting) ↔
      (Ring.after H calls).Alone H username .all ∧ (Ring.after H calls).Alone H username (.tag tag) := by
  have rebuilt := Ring.rebuilt_after H calls
  rw [← Ring.lookupIn_determined_iff rebuilt, ← Ring.lookupIn_determined_iff rebuilt]
  constructor
  · intro both
    exact ⟨fun other same => (both other same).1, fun other same => (both other same).2⟩
  · rintro ⟨whole, tagged⟩ other same
    exact ⟨whole other same, tagged other same⟩

/-- Every key has one hash. -/
def flatHashing : Hashing := ⟨fun _ => 0, id, [⟨.user, [], false⟩]⟩

/-- An untagged backend with one node. -/
def singleNode (ip : UInt8) : Backend := ⟨[ip], 143, [], true, 1, 0, 0, []⟩

/-- Two backends on one hash: the same additions, walked in two orders, route a user to either. -/
theorem equal_hashes_route_apart :
    (Ring.after flatHashing (Ring.seating [66] [singleNode 65, singleNode 66])).Same
        (Ring.after flatHashing (Ring.seating [65] [singleNode 65, singleNode 66])) ∧
      ((Ring.after flatHashing (Ring.seating [65] [singleNode 65, singleNode 66])).lookupBackend
          flatHashing [117]).map Backend.setting = some (singleNode 65).setting ∧
      ((Ring.after flatHashing (Ring.seating [66] [singleNode 65, singleNode 66])).lookupBackend
          flatHashing [117]).map Backend.setting = some (singleNode 66).setting := by
  refine ⟨fun x => .rfl, ?_, ?_⟩
  · decide
  · decide

end Yarilo.Director

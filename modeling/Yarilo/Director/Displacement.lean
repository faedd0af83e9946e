import Yarilo.Director.Gossip
import Yarilo.Director.Placement

/-! # What a change of the ring moves

Where no two backends share a place on the circle, a backend that goes moves only the users it had, and
one that comes takes users only for itself. A rebuild cuts the slices of nodes to no length and fills
them again, over the cells of the ring before.
-/

namespace Yarilo.Director

open Library List Vhost

/-- The cells of an array that are in use, and those behind them. -/
structure Slice where
  used : List Vhost
  spare : List Vhost

namespace Slice

/-- `s[:0]` -/
def truncate (s : Slice) : Slice := ⟨[], s.used ++ s.spare⟩

/-- `append`: into the next cell, or into a longer array. -/
def push (s : Slice) (v : Vhost) : Slice := ⟨s.used ++ [v], s.spare.tail⟩

/-- `sort.Slice` -/
def sorted (sorter : Sorter) (s : Slice) : Slice := ⟨sorter.sort less s.used, s.spare⟩

/-- A node goes to the slices of all nodes and of its backend's tag. -/
def place (b : Backend) (s : Pool → Slice) (v : Vhost) (p : Pool) : Slice :=
  if p.admits b then (s p).push v else s p

/-- The loops over the backends and their nodes. -/
def fill (H : Hashing) (s : Pool → Slice) (bs : List Backend) : Pool → Slice :=
  bs.foldl (fun s b => if b.up then (b.nodes H).foldl (place b) s else s) s

/-- `rebuild`, over the slices it finds. -/
def rebuild (H : Hashing) (c : Rebuild) (bs : List Backend) (s : Pool → Slice) (p : Pool) : Slice :=
  (fill H (fun p => (s p).truncate) (c.order bs) p).sorted (p.sorter c)

variable {H : Hashing} {p : Pool}

theorem used_place (b : Backend) (vs : List Vhost) (s : Pool → Slice) :
    (vs.foldl (place b) s p).used = (s p).used ++ if p.admits b then vs else [] := by
  induction vs generalizing s with
  | nil => simp
  | cons v vs ih =>
    rw [foldl_cons, ih, place]
    split <;> simp [push]

theorem used_fill (bs : List Backend) (s : Pool → Slice) :
    (fill H s bs p).used = (s p).used ++ collect H (bs.filter p.admits) := by
  induction bs generalizing s with
  | nil => simp [fill, collect]
  | cons b bs ih =>
    rw [fill, foldl_cons, ← fill, ih]
    cases up : b.up <;> cases admitted : p.admits b <;> simp [collect, up, admitted, used_place]

end Slice

namespace Ring

variable {H : Hashing} {r s : Ring} {a ip username : Bytes} {p : Pool} {v : Vhost} {c : Rebuild}
  {up : Bool} {ts : ℤ}

/-- No two backends have a node with one hash, as where distinct keys have distinct hashes. -/
def Apart (H : Hashing) (r : Ring) : Prop :=
  ∀ b ∈ r.backends, ∀ b' ∈ r.backends, ∀ v ∈ b.nodes H, ∀ w ∈ b'.nodes H, v.hash = w.hash → b.ip = b'.ip

/-- A node of a pool, by the backend at its address. -/
theorem mem_pool_known : v ∈ collect H (r.backends.filter p.admits) ↔
    ∃ b, r.getBackend v.ip = some b ∧ p.admits b = true ∧ b.up = true ∧ v ∈ b.nodes H := by
  rw [mem_pool]
  constructor
  · rintro ⟨b, member, rest⟩
    exact ⟨b, getBackend_eq_some.mpr ⟨member, (Backend.ip_of_mem_nodes rest.2.2).symm⟩, rest⟩
  · rintro ⟨b, known, rest⟩
    exact ⟨b, (getBackend_eq_some.mp known).1, rest⟩

/-- Rings that differ at one address, where the second has what is up at it in the first: they answer
alike, or the second by that address. -/
theorem lookupIn_beside (small : s.Rebuilt H) (large : r.Rebuilt H) (apart : r.Apart H)
    (beside : ∀ a, a ≠ ip → s.getBackend a = r.getBackend a)
    (fewer : ∀ b, s.getBackend ip = some b → b.up = true →
      ∃ b', r.getBackend ip = some b' ∧ b'.setting = b.setting) :
    s.lookupIn H username p = r.lookupIn H username p ∨ (r.lookupIn H username p).map (·.ip) = some ip := by
  have subset : collect H (s.backends.filter p.admits) ⊆ collect H (r.backends.filter p.admits) := by
    intro v node
    obtain ⟨b, known, admitted, up, node⟩ := mem_pool_known.mp node
    refine mem_pool_known.mpr ?_
    by_cases own : v.ip = ip
    · rw [own] at known ⊢
      obtain ⟨b', known', same⟩ := fewer b known up
      exact ⟨b', known', p.admits_congr same ▸ admitted, (congrArg Setting.up same).trans up,
        Backend.nodes_congr same ▸ node⟩
    · exact ⟨b, beside _ own ▸ known, admitted, up, node⟩
  rcases large.lookupIn username p with ⟨bare, here⟩ | ⟨v, b, found⟩
  · rcases small.lookupIn username p with ⟨-, there⟩ | ⟨w, _, found⟩
    · exact .inl (there.trans here.symm)
    · exact absurd (subset found.near.1) (bare w)
  by_cases own : v.ip = ip
  · right
    rw [found.answer, Option.map_some, getBackend_ip found.known, own]
  left
  obtain ⟨a, known, rest⟩ := mem_pool_known.mp found.near.1
  have kept := mem_pool_known.mpr ⟨a, (beside _ own).trans known, rest⟩
  obtain ⟨w, b', found'⟩ := small.finds username kept
  have place := found'.near.pos_eq (found.near.subset subset kept)
  obtain ⟨a', known', -, -, node'⟩ := mem_pool_known.mp (subset found'.near.1)
  obtain ⟨member, address⟩ := getBackend_eq_some.mp known
  obtain ⟨member', address'⟩ := getBackend_eq_some.mp known'
  have same := apart a' member' a member w node' v rest.2.2 (UInt32.toNat_inj.mp place)
  rw [address, address'] at same
  rw [found'.answer, found.answer, ← found'.known, ← found.known, same, beside _ own]

theorem find?_others (other : a ≠ ip) :
    (r.backends.filter (·.ip ≠ ip)).find? (·.ip = a) = r.getBackend a := by
  rw [find?_filter, getBackend]
  congr
  grind

theorem removeBackend_beside (a : Bytes) (other : a ≠ ip) :
    (r.removeBackend H c ip).getBackend a = r.getBackend a := find?_others other

theorem setUp_beside (a : Bytes) (other : a ≠ ip) :
    (r.setUp H c ip up ts).1.getBackend a = r.getBackend a := by
  unfold setUp
  split
  · rfl
  next b known =>
  have address : (marked b up ts).ip = ip := getBackend_ip (b := b) known
  have unlike : (marked b up ts).ip ≠ a := fun same => other (same.symm.trans address)
  exact (find?_cons_of_neg (by simpa using unlike)).trans (find?_others other)

theorem Apart.setUp (apart : r.Apart H) : (r.setUp H c ip up ts).1.Apart H := by
  have old {b : Backend} (member : b ∈ (r.setUp H c ip up ts).1.backends) :
      ∃ a ∈ r.backends, a.ip = b.ip ∧ a.nodes H = b.nodes H := by
    have known := getBackend_eq_some.mpr ⟨member, rfl⟩
    by_cases own : b.ip = ip
    · rw [own, getBackend_setUp, Option.map_eq_some_iff] at known
      obtain ⟨a, known, rfl⟩ := known
      exact ⟨a, (getBackend_eq_some.mp known).1, rfl, rfl⟩
    · rw [setUp_beside _ own] at known
      exact ⟨b, (getBackend_eq_some.mp known).1, rfl, rfl⟩
  intro b member b' member'
  obtain ⟨a, there, same, nodes⟩ := old member
  obtain ⟨a', there', same', nodes'⟩ := old member'
  rw [← same, ← same', ← nodes, ← nodes']
  exact apart a there a' there'

end Ring

open Director.Ring

/-- Where no two backends share a place, a backend that is removed or goes down moves no user of
another, one that comes up moves users only to itself, and a rebuild leaves in the slices, whatever they
held, the nodes of its backends. -/
theorem ring_change_moves_few (H : Hashing) (calls : List (RingCall × Rebuild)) (c : Rebuild)
    (ip username tag : Bytes) (ts : ℤ) (apart : (after H calls).Apart H) :
    let r := after H calls
    let answer (s : Ring) := s.lookupBackendByTag H username tag
    ((answer r).map (·.ip) ≠ some ip →
        answer (r.removeBackend H c ip) = answer r ∧ answer (r.setUp H c ip false ts).1 = answer r) ∧
      (answer (r.setUp H c ip true ts).1 = answer r ∨
        (answer (r.setUp H c ip true ts).1).map (·.ip) = some ip) ∧
      ∀ (slices : Pool → Slice) bs keyed p,
        (Slice.rebuild H c bs slices p).used = p.nodes (rebuild H c bs keyed) ∧
          (Slice.rebuild H c bs slices p).used.Perm (collect H (bs.filter p.admits)) := by
  have rebuilt := rebuilt_after H calls
  refine ⟨fun elsewhere => ⟨?_, ?_⟩, ?_, fun slices bs keyed p => ?_⟩
  · refine (lookupIn_beside (p := .tag tag) (rebuilt.apply (.remove ip, c)) rebuilt apart
      removeBackend_beside fun b known => ?_).resolve_right elsewhere
    cases getBackend_removeBackend.symm.trans known
  · refine (lookupIn_beside (p := .tag tag) (rebuilt.apply (.setUp ip false ts, c)) rebuilt apart
      setUp_beside fun b known up => ?_).resolve_right elsewhere
    obtain ⟨old, -, rfl⟩ := Option.map_eq_some_iff.mp ((getBackend_setUp false ts).symm.trans known)
    cases up
  · refine (lookupIn_beside (p := .tag tag) rebuilt (rebuilt.apply (.setUp ip true ts, c)) apart.setUp
      (fun a other => (setUp_beside a other).symm) fun b known up => ?_).imp_left Eq.symm
    refine ⟨marked b true ts, (getBackend_setUp true ts).trans (by rw [known, Option.map_some]), ?_⟩
    rw [Backend.setting, Backend.setting, up]
    rfl
  · have same : (Slice.rebuild H c bs slices p).used = p.nodes (rebuild H c bs keyed) := by
      rw [p.nodes_rebuild]
      exact congrArg ((p.sorter c).sort less) (Slice.used_fill (c.order bs) _)
    exact ⟨same, same ▸ (Rebuilt.nodes ⟨c, rfl⟩ p).1⟩

/-- Two backends; the user of one is not moved when the other goes. -/
theorem ring_change_moves_few_two :
    let r := after firstByteHashing (seating [] [singleNode 65, singleNode 66])
    r.Apart firstByteHashing ∧
      (r.removeBackend firstByteHashing (walkFirst []) [65]).lookupBackendByTag firstByteHashing [66] [] =
        r.lookupBackendByTag firstByteHashing [66] [] := by
  have apart : (after firstByteHashing (seating [] [singleNode 65, singleNode 66])).Apart
      firstByteHashing := by
    unfold Apart
    decide
  exact ⟨apart, ((ring_change_moves_few firstByteHashing _ (walkFirst []) [65] [66] [] 0 apart).1
    (by decide)).1⟩

end Yarilo.Director

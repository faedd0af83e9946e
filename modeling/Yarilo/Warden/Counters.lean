import Mathlib.Algebra.Order.Group.Int
import Mathlib.Logic.Function.Basic
import Yarilo.Library.Bytes

/-! # Connection counters

The warden keeps the sessions of all login pods and counts them for each user and address. A session
that expires is not counted off, so every replica now and then tallies the sessions, reads the
counters, and takes off what a counter has too much. Sessions come and go between the commands of such
a pass, and the passes of several replicas overlap.
-/

namespace Yarilo.Warden

open Library Function

structure Session where
  id : Bytes
  user : Bytes
  ip : Bytes
  service : Bytes
  connectedAt : Bytes
deriving DecidableEq

/-- The user and address a session is counted for: `user@ip`. -/
def owner (user ip : Bytes) : Bytes := user ++ 64 :: ip

def Session.owner (s : Session) : Bytes := Warden.owner s.user s.ip

structure Store where
  sess : List Session
  cnt : Bytes → Option ℤ
  keyed : (sess.map (·.id)).Nodup

namespace Store

variable (st : Store)

def has (id : Bytes) : Bool := st.sess.any (·.id = id)

def live (key : Bytes) : ℕ := st.sess.countP (·.owner = key)

def count (key : Bytes) : ℤ := (st.cnt key).getD 0

theorem keyed_filter (p : Session → Bool) : ((st.sess.filter p).map (·.id)).Nodup :=
  (List.filter_sublist.map _).nodup st.keyed

theorem keyed_refresh (s : Session) :
    ((st.sess.map fun t => if t.id = s.id then s else t).map (·.id)).Nodup := by
  have same : (st.sess.map fun t => if t.id = s.id then s else t).map (·.id) = st.sess.map (·.id) := by
    rw [List.map_map]
    refine List.map_congr_left fun t _ => ?_
    simp only [comp_apply]
    split
    · next equal => exact equal.symm
    · rfl
  rw [same]
  exact st.keyed

theorem keyed_cons {st : Store} {s : Session} (new : st.has s.id = false) :
    ((s :: st.sess).map (·.id)).Nodup := by
  rw [List.map_cons, List.nodup_cons]
  refine ⟨fun member => ?_, st.keyed⟩
  obtain ⟨t, among, same⟩ := List.mem_map.mp member
  have known : st.has s.id = true := List.any_eq_true.mpr ⟨t, among, decide_eq_true same⟩
  rw [new] at known
  cases known

/-- `connectScript`: a session that is known is refreshed, and a new one is admitted below the limit. -/
def connect (limit : ℤ) (st : Store) (s : Session) : Store × Bool :=
  if new : st.has s.id = false then
    if 0 < limit ∧ limit ≤ st.count s.owner then (st, false)
    else
      ({ sess := s :: st.sess
         cnt := update st.cnt s.owner (some (st.count s.owner + 1))
         keyed := keyed_cons new }, true)
  else
    ({ st with
       sess := st.sess.map fun t => if t.id = s.id then s else t
       keyed := st.keyed_refresh s }, true)

/-- `DECRBY`, and `DEL` of a counter that comes to zero. -/
def decrBy (key : Bytes) (n : ℤ) : Store :=
  { st with
    cnt := update st.cnt key (if st.count key - n ≤ 0 then none else some (st.count key - n)) }

/-- A session that is deleted, or expires. -/
def drop (id : Bytes) : Store :=
  { st with
    sess := st.sess.filter (·.id ≠ id)
    keyed := st.keyed_filter _ }

/-- `disconnectScript` -/
def disconnect (id user ip : Bytes) : Store :=
  if st.has id then (st.drop id).decrBy (owner user ip) 1 else st

/-- `reconcileScript` -/
def reconcile (key : Bytes) (leak : ℤ) : Store := st.decrBy key leak

/-- `HMGET user ip` of a session key. -/
def ownerOf (id : Bytes) : Option Bytes := (st.sess.find? (·.id = id)).map (·.owner)

end Store

/-! ## Passes -/

inductive Phase where
  | tallying
  | reading
  | correcting (key : Bytes) (leak : ℤ)
deriving DecidableEq

/-- A pass of `Maintain`: what it has tallied and where it is. Beside that stands what went on since it
began: the sessions it met, those that were there all the time, the users and addresses for which one
was admitted, and whether the counter it is about to correct has been corrected since it was read. -/
structure Pass where
  tally : Bytes → ℕ
  phase : Phase
  met : List Bytes
  since : List Bytes
  joined : List Bytes
  spoiled : Bool

/-- The store, and the passes of any number of replicas. -/
structure World (ρ : Type) where
  store : Store
  pass : ρ → Option Pass

/-- A command or script of the store. -/
inductive Action (ρ : Type) where
  | connect (s : Session)
  | disconnect (id user ip : Bytes)
  | expire (id : Bytes)
  | start (r : ρ)
  /-- `HMGET` of a key that the scan returned -/
  | meet (r : ρ) (id : Bytes)
  /-- the scan of the sessions ends, at its end or with an error -/
  | scanned (r : ρ)
  /-- `GET` of a counter that the scan returned -/
  | get (r : ρ) (key : Bytes)
  | correct (r : ρ)
  /-- the script that corrects a counter did not run -/
  | skip (r : ρ)

namespace Pass

def start (st : Store) : Pass := ⟨fun _ => 0, .tallying, [], st.sess.map (·.id), [], false⟩

def meet (st : Store) (id : Bytes) (p : Pass) : Pass :=
  match st.ownerOf id with
  | none => p
  | some key =>
    { p with
      tally := update p.tally key (p.tally key + 1)
      met := id :: p.met }

/-- What is read of a counter, and whether it has too much. -/
def get (st : Store) (key : Bytes) (p : Pass) : Pass :=
  match st.cnt key with
  | none => p
  | some cur =>
    if 0 < cur - p.tally key then
      { p with
        phase := .correcting key (cur - p.tally key)
        spoiled := false }
    else p

/-- A session was admitted. -/
def joining (key : Bytes) (p : Pass) : Pass := { p with joined := key :: p.joined }

/-- A session went. -/
def leaving (id : Bytes) (p : Pass) : Pass := { p with since := p.since.filter (· ≠ id) }

/-- A counter was corrected. -/
def corrected (key : Bytes) (p : Pass) : Pass :=
  match p.phase with
  | .correcting key' _ => if key' = key then { p with spoiled := true } else p
  | _ => p

end Pass

namespace World

variable {ρ : Type} [DecidableEq ρ]

variable (w : World ρ)

def each (f : Pass → Pass) : ρ → Option Pass := fun r => (w.pass r).map f

/-- A replica whose pass is in one phase goes on. -/
def advance (r : ρ) (inPhase : Phase → Bool) (f : Pass → Pass) : World ρ :=
  match w.pass r with
  | none => w
  | some p => if inPhase p.phase then { w with pass := update w.pass r (some (f p)) } else w

def step (limit : ℤ) (w : World ρ) : Action ρ → World ρ
  | .connect s =>
    match w.store.connect limit s with
    | (store, admitted) =>
      { store := store
        pass := if w.store.has s.id = false ∧ admitted then w.each (.joining s.owner) else w.pass }
  | .disconnect id user ip =>
    { store := w.store.disconnect id user ip
      pass := w.each (.leaving id) }
  | .expire id =>
    { store := w.store.drop id
      pass := w.each (.leaving id) }
  | .start r => { w with pass := update w.pass r (some (.start w.store)) }
  | .meet r id => w.advance r (· = .tallying) (.meet w.store id)
  | .scanned r => w.advance r (· = .tallying) fun p => { p with phase := .reading }
  | .get r key => w.advance r (· = .reading) (.get w.store key)
  | .correct r =>
    match w.pass r with
    | some p =>
      match p.phase with
      | .correcting key leak =>
        { store := w.store.reconcile key leak
          pass := update (w.each (.corrected key)) r (some { p with phase := .reading }) }
      | _ => w
    | none => w
  | .skip r =>
    match w.pass r with
    | some p =>
      match p.phase with
      | .correcting _ _ => { w with pass := update w.pass r (some { p with phase := .reading }) }
      | _ => w
    | none => w

def after (limit : ℤ) (w : World ρ) (actions : List (Action ρ)) : World ρ := actions.foldl (step limit) w

/-- No counter is below the sessions it counts. -/
def Counted : Prop := ∀ key, (w.store.live key : ℤ) ≤ w.store.count key

/-- A session that is admitted leaves its user and address within the limit. -/
def Within (limit : ℤ) (w : World ρ) : Action ρ → Prop
  | .connect s => 0 < limit → w.store.has s.id = false → (w.store.connect limit s).2 = true →
    ((w.step limit (.connect s)).store.live s.owner : ℤ) ≤ limit
  | _ => True

/-- A session is named with the user and address it has; a tally has met every session that was there
all the time; a counter is read when no session it counts has been admitted since the pass began, and
corrected when no other pass has corrected it since it was read. -/
def Undisturbed : Action ρ → Prop
  | .connect s => ∀ t ∈ w.store.sess, t.id = s.id → t.owner = s.owner
  | .disconnect id user ip => ∀ t ∈ w.store.sess, t.id = id → t.owner = owner user ip
  | .scanned r => ∀ p, w.pass r = some p → p.phase = .tallying → p.since ⊆ p.met
  | .get r key => ∀ p, w.pass r = some p → p.phase = .reading → key ∉ p.joined
  | .correct r => ∀ p, w.pass r = some p → p.spoiled = false
  | _ => True

end World

end Yarilo.Warden

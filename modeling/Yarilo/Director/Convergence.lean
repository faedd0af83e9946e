import Yarilo.Director.Moves
import Yarilo.Director.Pins
import Yarilo.Director.Placement
import Yarilo.Library.Runs

/-! # Pins converge

What any directors hold of a user, and the events about the user under way between them, turn as the
desk of one user does, at every step of a run in which moves, placements and pins that are followed do
not meet. So when every event about the user has been delivered all directors hold the same backend.
-/

namespace Yarilo.Director

open Library Server UserDir List Function Option

/-! ## One user in a cluster -/

def UserEntry.pin (e : UserEntry) : Pin := (e.host, ⟨e.assignSeq, e.assignBy⟩)

/-- The pin of a user at a director. -/
def Server.pin (s : Server) (hash : UInt32) : Option Pin := (s.userDir.byHash hash).map UserEntry.pin

/-- What an event says of a user. -/
def Envelope.note (o : Options) (hash : UInt32) : Envelope → Option Note
  | .userAssign h addr seq by_ => if h = hash then some (.assign addr ⟨seq, by_⟩) else none
  | .userMoved user ip port => if o.userHash user = hash then some (.move (joinHostPort ip port)) else none
  | .userKicked user oldBackend => if o.userHash user = hash then some (.kick oldBackend) else none
  | _ => none

/-- The events that lookups, placements and moves send. -/
def Envelope.ofUser : Envelope → Bool
  | .userAssign .. => true
  | .userMoved .. => true
  | .userKicked .. => true
  | .userKilling .. => true
  | _ => false

namespace Cluster

variable {ι : Type} [DecidableEq ι]

def desk (o : Options) (c : Cluster ι) (hash : UInt32) : Desk ι where
  entry i := (c.server i).pin hash
  clock i := (c.server i).userDir.clock
  mail i n := ∃ e ∈ c.inbox i, e.note o hash = some n

/-- A pin is followed while no assignment of the user is under way; the user is placed while no move or
kick is, by a director whose clock is not behind unless another placement is under way; and the user is
moved, to an address that reads back, while nothing about the user is under way. -/
def Calm (o : Options) (c : Cluster ι) : Deed ι → Prop
  | .lookup i m username tag reqProto =>
    (c.server i).isKilling m.now (o.hashOf username) = false →
      if ((c.server i).stickyPin o m.now (o.normalizeUser username) tag).isSome then
        (c.desk o (o.hashOf username)).NoAssign
      else
        ((c.server i).pickBackend o m (o.normalizeUser username) tag reqProto).isSome →
          (c.desk o (o.hashOf username)).Fresh i
  | .assign i m user tag reqProto =>
    ((c.server i).pickBackend o m user tag reqProto).isSome → (c.desk o (o.userHash user)).Fresh i
  | .move _ _ username ip port =>
    (c.desk o (o.hashOf username)).NoMail ∧ splitHostPort (joinHostPort ip port) = some (ip, port)
  | _ => True

end Cluster

/-! ## What the calls do to a pin -/

theorem UserEntry.newer_iff (e f : UserEntry) : e.newer f = true ↔ e.pin.2.Newer f.pin.2 := by
  unfold newer Stamp.Newer pin
  split
  · next apart =>
    simp only [decide_eq_true_eq]
    exact ⟨.inl, fun newer => newer.resolve_right fun level => apart level.1⟩
  next level =>
  rw [ne_eq, not_not] at level
  simp only [decide_eq_true_eq]
  refine ⟨fun before => .inr ⟨level, before⟩, fun newer => (newer.resolve_left ?_).2⟩
  rw [level]
  exact lt_irrefl _

namespace Server

variable {o : Options} {s : Server} {hash : UInt32} {m : Moment} {user tag reqProto : Bytes}

theorem pin_setUser_other (now : ℤ) (user addr : Bytes) (apart : hash ≠ o.userHash user) :
    (s.setUser o now user addr false).pin hash = s.pin hash := by
  simp [pin, setUser, UserDir.setByHash, apart]

theorem clock_setUser (now : ℤ) (user addr : Bytes) :
    (s.setUser o now user addr false).userDir.clock = s.userDir.clock + 1 := rfl

/-- A user that is placed is told of with the stamp of the pin. -/
theorem assignAndPin_some {b : Backend} (picked : s.pickBackend o m user tag reqProto = some b) :
    s.assignAndPin o m user tag reqProto =
      (s.setUser o m.now user (joinHostPort b.ip (intText b.port)) false, some b,
        [.userAssign (o.userHash user) (joinHostPort b.ip (intText b.port)) (s.userDir.clock + 1)
          s.userDir.self]) := by
  have stamp : (s.setUser o m.now user (joinHostPort b.ip (intText b.port)) false).userDir.lastAssign
      (o.userHash user) = some (s.userDir.clock + 1, s.userDir.self) := by
    rw [lastAssign, setUser_entry]
    rfl
  simp [assignAndPin, picked, stamp]

theorem assignAndPin_none (picked : s.pickBackend o m user tag reqProto = none) :
    s.assignAndPin o m user tag reqProto = (s, none, []) := by
  simp [assignAndPin, picked]

/-- An assignment that is taken is merged with the pin, and the clock follows it. -/
theorem userDir_applyUserAssign (now : ℤ) (addr : Bytes) (seq : ℕ) (by_ : Bytes) :
    ∃ entry d, (s.applyUserAssign o now hash addr false seq by_).server.userDir = d ∧
      d.byHash = update s.userDir.byHash hash entry ∧
      entry.map UserEntry.pin = mergePin (s.pin hash) (addr, ⟨seq, by_⟩) ∧
      d.clock = max s.userDir.clock seq ∧ d.self = s.userDir.self := by
  have merged : (s.applyUserAssign o now hash addr false seq by_).server.userDir =
      (s.userDir.mergeByHash now hash addr false seq by_).1 := by
    unfold applyUserAssign
    dsimp only
    split <;> rfl
  rw [merged, pin]
  unfold mergeByHash
  split
  · next absent =>
    rw [absent]
    exact ⟨_, _, rfl, rfl, rfl, rfl, rfl⟩
  next cur present =>
  have stamp : (UserEntry.mk hash addr false (now + s.userDir.expire) seq by_).newer cur = true ↔
      Stamp.Newer ⟨seq, by_⟩ cur.pin.2 := UserEntry.newer_iff _ _
  simp only [present, map_some, mergePin, stamp]
  split
  · exact ⟨_, _, rfl, rfl, rfl, rfl, rfl⟩
  · refine ⟨some cur, _, rfl, ?_, rfl, rfl, rfl⟩
    rw [← present, update_eq_self]
    rfl

theorem userDir_applyUserKicked (user oldBackend : Bytes) :
    ∃ entry d, (s.applyUserKicked o user oldBackend).userDir = d ∧
      d.byHash = update s.userDir.byHash (o.userHash user) entry ∧
      entry.map UserEntry.pin = kickPin (s.pin (o.userHash user)) oldBackend ∧
      d.clock = s.userDir.clock ∧ d.self = s.userDir.self := by
  unfold applyUserKicked pin kickPin
  by_cases plain : oldBackend = []
  · subst plain
    exact ⟨none, _, rfl, rfl, rfl, rfl, rfl⟩
  simp only [ne_eq, plain, not_false_eq_true, if_true, if_false, deleteIfBackend]
  rcases present : s.userDir.byHash (o.userHash user) with _ | e
  · dsimp only
    exact ⟨none, _, rfl, by rw [← present, update_eq_self], rfl, rfl, rfl⟩
  by_cases there : hostOf e.host = oldBackend
  · simp only [there, if_true]
    exact ⟨none, _, rfl, rfl, by simp [there, UserEntry.pin, filter_some], rfl, rfl⟩
  · simp only [there, if_false]
    exact ⟨some e, _, rfl, by rw [← present, update_eq_self],
      by simp [there, UserEntry.pin, filter_some], rfl, rfl⟩

/-- A move writes the pin, and tells the address and at most a kick off another backend. -/
theorem moveUser_cases {now : ℤ} {user ip port : Bytes}
    (back : splitHostPort (joinHostPort ip port) = some (ip, port)) :
    ∃ s' sent, s.moveUser o now user (joinHostPort ip port) = (s', sent) ∧
      s'.userDir = (s.setUser o now user (joinHostPort ip port) false).userDir ∧
      .userMoved user ip port ∈ sent ∧
      ∀ e ∈ sent, e = .userMoved user ip port ∨ (∃ ttl, e = .userKilling (o.userHash user) ttl) ∨
        ∃ old, e = .userKicked user old ∧ old ≠ [] ∧ old ≠ ip := by
  unfold moveUser
  simp only [back, getD_some]
  split
  · next relocated =>
    refine ⟨_, _, rfl, ?_, .head _, ?_⟩
    · unfold attachFlush
      split
      · split <;> rfl
      · rfl
    · intro e member
      simp only [mem_cons, not_mem_nil, or_false] at member
      rcases member with rfl | rfl | rfl
      · exact .inl rfl
      · exact .inr (.inl ⟨_, rfl⟩)
      · exact .inr (.inr ⟨_, rfl, relocated⟩)
  · refine ⟨_, _, rfl, rfl, .head _, ?_⟩
    intro e member
    exact .inl (mem_singleton.mp member)

end Server

/-! ## The desk after a step -/

namespace Cluster

variable {ι : Type} [DecidableEq ι] {o : Options} {c : Cluster ι} {hash : UInt32} {i : ι} {s : Server}
  {sent : List Envelope} {k : ℕ} {e : Envelope} {deed : Deed ι}

theorem entry_update (inbox : ι → List Envelope) :
    (desk o ⟨update c.server i s, inbox⟩ hash).entry =
      update (c.desk o hash).entry i (s.pin hash) := by
  funext j
  exact apply_update (fun _ s => s.pin hash) c.server i s j

theorem clock_update (inbox : ι → List Envelope) :
    (desk o ⟨update c.server i s, inbox⟩ hash).clock =
      update (c.desk o hash).clock i s.userDir.clock := by
  funext j
  exact apply_update (fun _ s => s.userDir.clock) c.server i s j

theorem mail_tell (sent : List Envelope) (j : ι) (n : Note) : ((c.tell i s sent).desk o hash).mail j n ↔
      (c.desk o hash).mail j n ∨ j ≠ i ∧ ∃ e ∈ sent, e.note o hash = some n := by
  by_cases same : j = i
  · simp [desk, tell, same]
  · simp [desk, tell, same, or_and_right, exists_or]

/-- Events that say nothing of the user leave the user's mail. -/
theorem mail_tell_silent (silent : ∀ e ∈ sent, e.note o hash = none) :
    ((c.tell i s sent).desk o hash).mail = (c.desk o hash).mail := by
  funext j n
  refine propext ((mail_tell sent j n).trans ⟨fun either => either.resolve_right ?_, .inl⟩)
  rintro ⟨-, e, member, told⟩
  rw [silent e member] at told
  cases told

theorem turn_rest {name : ι → Bytes} {inbox : ι → List Envelope} (pin : s.pin hash = (c.server i).pin hash)
    (clock : (c.server i).userDir.clock ≤ s.userDir.clock)
    (mail : (desk o ⟨update c.server i s, inbox⟩ hash).mail = (c.desk o hash).mail) :
    Desk.Turn name (c.desk o hash) (desk o ⟨update c.server i s, inbox⟩ hash) := by
  refine .rest ?_ mail fun j => ?_
  · rw [entry_update, pin]
    exact update_eq_self i _
  · rw [clock_update]
    by_cases same : j = i
    · subst same
      rw [update_self]
      exact clock
    · rw [update_of_ne same]

theorem wrote_setUser {name : ι → Bytes} (named : ∀ i, (c.server i).userDir.self = name i) (now : ℤ)
    (user addr : Bytes) (inbox : ι → List Envelope) (pin : s.pin (o.userHash user) =
      ((c.server i).setUser o now user addr false).pin (o.userHash user))
    (clock : s.userDir.clock = (c.server i).userDir.clock + 1) :
    Desk.Wrote name (c.desk o (o.userHash user))
      (desk o ⟨update c.server i s, inbox⟩ (o.userHash user)) i addr where
  entry := by
    rw [entry_update, pin, Server.pin, setUser_entry, named]
    rfl
  clock := by
    rw [clock_update, clock]
    rfl

theorem mem_of_mem_erased {j : ι} (member : e ∈ update c.inbox i ((c.inbox i).eraseIdx k) j) :
    e ∈ c.inbox j := by
  by_cases same : j = i
  · subst same
    rw [update_self] at member
    exact mem_of_mem_eraseIdx member
  · rwa [update_of_ne same] at member

theorem mem_erased (found : (c.inbox i)[k]? = some e) {j : ι} {f : Envelope} (member : f ∈ c.inbox j) :
    f ∈ update c.inbox i ((c.inbox i).eraseIdx k) j ∨ j = i ∧ f = e := by
  by_cases same : j = i
  · subst same
    obtain ⟨l, at_⟩ := mem_iff_getElem?.mp member
    by_cases this : l = k
    · subst this
      exact .inr ⟨rfl, some.inj (at_.symm.trans found)⟩
    · rw [update_self]
      exact .inl (mem_eraseIdx_iff_getElem?.mpr ⟨l, this, at_⟩)
  · rw [update_of_ne same]
    exact .inl member

/-- An event that is taken out of an inbox is one note less, or none. -/
theorem took_eraseIdx {n : Note} (found : (c.inbox i)[k]? = some e) (told : e.note o hash = some n)
    (server : ι → Server) :
    Desk.Took (c.desk o hash) (desk o ⟨server, update c.inbox i ((c.inbox i).eraseIdx k)⟩ hash)
      i n where
  came := ⟨e, List.mem_of_getElem? found, told⟩
  rest j m := by
    rintro ⟨f, member, told'⟩
    exact ⟨f, mem_of_mem_erased member, told'⟩
  kept j m := by
    rintro ⟨f, member, told'⟩
    rcases mem_erased found member with still | ⟨rfl, rfl⟩
    · exact .inl ⟨f, still, told'⟩
    · exact .inr ⟨rfl, some.inj (told'.symm.trans told)⟩

theorem mail_eraseIdx_silent (found : (c.inbox i)[k]? = some e) (silent : e.note o hash = none)
    (server : ι → Server) :
    (desk o ⟨server, update c.inbox i ((c.inbox i).eraseIdx k)⟩ hash).mail = (c.desk o hash).mail := by
  funext j n
  apply propext
  constructor
  · rintro ⟨f, member, told⟩
    exact ⟨f, mem_of_mem_erased member, told⟩
  · rintro ⟨f, member, told⟩
    rcases mem_erased found member with still | ⟨-, rfl⟩
    · exact ⟨f, still, told⟩
    · rw [silent] at told
      cases told

/-! ## Steps of the cluster are turns of the desk -/

/-- Each director signs with its name, and nothing but events about users is under way. -/
structure Regular (name : ι → Bytes) (c : Cluster ι) : Prop where
  named : ∀ i, (c.server i).userDir.self = name i
  users : ∀ i, ∀ e ∈ c.inbox i, e.ofUser

variable {name : ι → Bytes}

section

variable (regular : c.Regular name)

include regular

/-- A pin written with nothing told. -/
theorem turn_follow (now : ℤ) (user addr : Bytes) {e : UserEntry}
    (held : (c.server i).userDir.byHash (o.userHash user) = some e) (points : e.host = addr)
    (quiet : (c.desk o (o.userHash user)).NoAssign) :
    Desk.Turn name (c.desk o hash)
      ((c.tell i ((c.server i).setUser o now user addr false) []).desk o hash) := by
  have silent : ((c.tell i ((c.server i).setUser o now user addr false) []).desk o hash).mail =
      (c.desk o hash).mail := mail_tell_silent nofun
  by_cases same : hash = o.userHash user
  · subst same
    refine .refresh i addr e.pin.2 quiet ?_ (wrote_setUser regular.named now user addr _ rfl rfl) silent
    simp [desk, pin, held, UserEntry.pin, points]
  · exact turn_rest (pin_setUser_other now user addr same) (Nat.le_succ _) silent

/-- A pin written and told with its stamp. -/
theorem turn_assign (m : Moment) (user tag reqProto : Bytes)
    (fresh : ((c.server i).pickBackend o m user tag reqProto).isSome → (c.desk o (o.userHash user)).Fresh i) :
    Desk.Turn name (c.desk o hash) ((c.step o (.assign i m user tag reqProto)).desk o hash) := by
  rcases picked : (c.server i).pickBackend o m user tag reqProto with _ | b
  · simp only [step, assignAndPin_none picked]
    exact turn_rest rfl (le_refl _) (mail_tell_silent nofun)
  rw [picked] at fresh
  simp only [step, assignAndPin_some picked]
  by_cases same : hash = o.userHash user
  · subst same
    refine .assign i _ (fresh rfl) (wrote_setUser regular.named m.now user _ _ rfl rfl) fun j n => ?_
    rw [mail_tell]
    simp [Envelope.note, Desk.next, desk, regular.named, eq_comm]
  · refine turn_rest (pin_setUser_other _ _ _ same) (Nat.le_succ _) (mail_tell_silent ?_)
    intro e member
    rw [mem_singleton.mp member, Envelope.note, if_neg (Ne.symm same)]

theorem turn_lookup (m : Moment) (username tag reqProto : Bytes)
    (calm : c.Calm o (.lookup i m username tag reqProto)) :
    Desk.Turn name (c.desk o hash) ((c.step o (.lookup i m username tag reqProto)).desk o hash) := by
  unfold step handleLookup
  rcases killing : (c.server i).isKilling m.now (o.hashOf username) with _ | _
  · have calm := calm killing
    simp only [killing, Bool.false_eq_true, if_false]
    rcases sticky : (c.server i).stickyPin o m.now (o.normalizeUser username) tag with _ | ⟨addr, host, port⟩
    · rw [sticky] at calm
      have turn : Desk.Turn name (c.desk o hash)
          ((c.step o (.assign i m (o.normalizeUser username) tag reqProto)).desk o hash) :=
        turn_assign regular m (o.normalizeUser username) tag reqProto calm
      simp only [step] at turn
      rcases placed : (c.server i).assignAndPin o m (o.normalizeUser username) tag reqProto with ⟨s,
        _ | b, sent⟩
      · rwa [placed] at turn
      · rwa [placed] at turn
    · rw [sticky] at calm
      obtain ⟨e, b, held, -, points, -⟩ := stickyPin_cases sticky
      exact turn_follow regular m.now _ addr held points calm
  · simp only [killing, if_true]
    exact turn_rest rfl (le_refl _) (mail_tell_silent nofun)

theorem turn_move (now : ℤ) (username ip port : Bytes) (calm : c.Calm o (.move i now username ip port)) :
    Desk.Turn name (c.desk o hash) ((c.step o (.move i now username ip port)).desk o hash) := by
  obtain ⟨clear, back⟩ := calm
  obtain ⟨s', sent, moved, userDir, told, only⟩ :=
    @moveUser_cases o (c.server i) now (o.normalizeUser username) ip port back
  have host : hostOf (joinHostPort ip port) = ip := by simp [hostOf, back]
  simp only [step, handleUserMove, moved]
  by_cases same : hash = o.hashOf username
  · subst same
    refine .move i (joinHostPort ip port) clear (wrote_setUser regular.named now _ _ _ ?_ ?_) ?_ ?_
    · rw [pin, userDir, pin]
    · rw [userDir, clock_setUser]
    · intro j apart
      refine (mail_tell sent j _).mpr (.inr ⟨apart, _, told, ?_⟩)
      rw [Envelope.note, if_pos rfl]
    · intro j n came
      rcases (mail_tell sent j n).mp came with before | ⟨-, e, member, noted⟩
      · exact absurd before (clear j n)
      rcases only e member with rfl | ⟨ttl, rfl⟩ | ⟨old, rfl, given, elsewhere⟩
      · rw [Envelope.note, if_pos rfl] at noted
        exact .inl (some.inj noted).symm
      · cases noted
      rw [Envelope.note, if_pos rfl] at noted
      rw [host]
      exact .inr ⟨old, (some.inj noted).symm, given, elsewhere⟩
  · refine turn_rest ?_ ?_ (mail_tell_silent ?_)
    · rw [pin, userDir]
      exact pin_setUser_other now _ _ same
    · rw [userDir, clock_setUser]
      exact Nat.le_succ _
    · intro e member
      rcases only e member with rfl | ⟨ttl, rfl⟩ | ⟨old, rfl, -⟩
      · rw [Envelope.note, if_neg (Ne.symm same)]
      · rfl
      · rw [Envelope.note, if_neg (Ne.symm same)]

theorem turn_deliver (m : Moment) (origin : Bytes) (found : (c.inbox i)[k]? = some e) :
    Desk.Turn name (c.desk o hash) (desk o
      ⟨update c.server i ((c.server i).applyEnvelope o m origin e),
        update c.inbox i ((c.inbox i).eraseIdx k)⟩ hash) := by
  have kind := regular.users i e (mem_of_getElem? found)
  have silent (quiet : e.note o hash = none) := mail_eraseIdx_silent found quiet
    (update c.server i ((c.server i).applyEnvelope o m origin e))
  cases e with
  | userAssign h addr seq by_ =>
    obtain ⟨entry, d, dir, byHash, merged, clock, -⟩ :=
      @userDir_applyUserAssign o (c.server i) h m.now addr seq by_
    by_cases same : h = hash
    · subst same
      refine .takeAssign i addr ⟨seq, by_⟩ (took_eraseIdx found (if_pos rfl) _) ?_ ?_
      · rw [entry_update, applyEnvelope, pin, dir, byHash, update_self, merged]
        rfl
      · rw [clock_update, applyEnvelope, dir, clock]
        rfl
    · refine turn_rest ?_ ?_ (silent (if_neg same))
      · rw [applyEnvelope, pin, dir, byHash, update_of_ne (.symm same), pin]
      · rw [applyEnvelope, dir, clock]
        exact le_max_left _ _
  | userMoved user ip port =>
    by_cases same : o.userHash user = hash
    · subst same
      exact .takeMove i (joinHostPort ip port) (took_eraseIdx found (if_pos rfl) _)
        (wrote_setUser regular.named m.now user _ _ rfl rfl)
    · exact turn_rest (pin_setUser_other _ _ _ (Ne.symm same)) (Nat.le_succ _) (silent (if_neg same))
  | userKicked user old =>
    obtain ⟨entry, d, dir, byHash, kicked, clock, -⟩ := @userDir_applyUserKicked o (c.server i) user old
    by_cases same : o.userHash user = hash
    · subst same
      refine .takeKick i old (took_eraseIdx found (if_pos rfl) _) ?_ ?_
      · rw [entry_update, applyEnvelope, pin, dir, byHash, update_self, kicked]
        rfl
      · rw [clock_update, applyEnvelope, dir, clock]
        exact update_eq_self i _
    · refine turn_rest ?_ ?_ (silent (if_neg same))
      · rw [applyEnvelope, pin, dir, byHash, update_of_ne (.symm same), pin]
      · rw [applyEnvelope, dir, clock]
  | userKilling h ttl => exact turn_rest rfl (le_refl _) (silent rfl)
  | ringChange | sessionOpen | sessionClose | userKillDone => cases kind

/-- Every step of a calm cluster is a turn of every user's desk. -/
theorem turn_step (calm : c.Calm o deed) : Desk.Turn name (c.desk o hash) ((c.step o deed).desk o hash) := by
  cases deed with
  | lookup i m username tag reqProto => exact turn_lookup regular m username tag reqProto calm
  | assign i m user tag reqProto => exact turn_assign regular m user tag reqProto calm
  | move i now username ip port => exact turn_move regular now username ip port calm
  | deliver i k m origin =>
    simp only [step]
    split
    · exact .rest rfl rfl fun _ => le_refl _
    · next e found => exact turn_deliver regular m origin found
  | refuse i k =>
    simp only [step]
    split
    · exact .rest rfl rfl fun _ => le_refl _
    next e found =>
    split
    · next guarded =>
      rcases noted : e.note o hash with _ | n
      · exact .rest rfl (mail_eraseIdx_silent found noted c.server) fun _ => le_refl _
      have took := took_eraseIdx found noted c.server
      cases e with
      | userKicked user old =>
        rw [Envelope.note] at noted
        split at noted
        · cases noted
          exact .dropKick i old took rfl rfl
        · cases noted
      | userAssign | userMoved => cases guarded
      | _ => cases noted
    · exact .rest rfl rfl fun _ => le_refl _
  | other i e =>
    refine turn_rest ?_ ?_ rfl
    · rw [pin, e.pins, pin]
    · rw [e.pins]

/-! ## Runs -/

section

variable (same : s.userDir.self = (c.server i).userDir.self)

include same

theorem Regular.named_update (j : ι) : (update c.server i s j).userDir.self = name j := by
  rw [← regular.named j]
  by_cases here : j = i
  · subst here
    simp [same]
  · simp [here]

theorem Regular.tell (users : ∀ e ∈ sent, e.ofUser) :
    (c.tell i s sent).Regular name where
  named := regular.named_update same
  users j e member := by
    simp only [Cluster.tell] at member
    split at member
    · exact regular.users j e member
    rcases mem_append.mp member with before | new
    · exact regular.users j e before
    · exact users e new

theorem Regular.erase :
    Regular name ⟨update c.server i s, update c.inbox i ((c.inbox i).eraseIdx k)⟩ where
  named := regular.named_update same
  users j e member := regular.users j e (mem_of_mem_erased member)

end

end

theorem self_applyEnvelope (m : Moment) (origin : Bytes) (kind : e.ofUser) :
    (s.applyEnvelope o m origin e).userDir.self = s.userDir.self := by
  cases e with
  | userAssign h addr seq by_ =>
    obtain ⟨-, d, dir, -, -, -, self⟩ := @userDir_applyUserAssign o s h m.now addr seq by_
    rw [applyEnvelope, dir, self]
  | userMoved user ip port => rfl
  | userKicked user old =>
    obtain ⟨-, d, dir, -, -, -, self⟩ := @userDir_applyUserKicked o s user old
    rw [applyEnvelope, dir, self]
  | userKilling h ttl => rfl
  | ringChange | sessionOpen | sessionClose | userKillDone => cases kind

theorem Regular.assign (regular : c.Regular name) (m : Moment) (user tag reqProto : Bytes) :
    (c.step o (.assign i m user tag reqProto)).Regular name := by
  rcases picked : (c.server i).pickBackend o m user tag reqProto with _ | b
  · simp only [step, assignAndPin_none picked]
    exact regular.tell rfl nofun
  simp only [step, assignAndPin_some picked]
  exact regular.tell rfl (forall_mem_singleton.mpr rfl)

theorem Regular.step (regular : c.Regular name) (calm : c.Calm o deed) : (c.step o deed).Regular name := by
  cases deed with
  | lookup i m username tag reqProto =>
    have placed := regular.assign (o := o) (i := i) m (o.normalizeUser username) tag reqProto
    simp only [Cluster.step, handleLookup] at placed ⊢
    split
    · exact regular.tell rfl (forall_mem_nil _)
    split
    · exact regular.tell rfl (forall_mem_nil _)
    rcases answer : (c.server i).assignAndPin o m (o.normalizeUser username) tag reqProto with
      ⟨s, _ | b, sent⟩
    · rwa [answer] at placed
    · rwa [answer] at placed
  | assign i m user tag reqProto => exact regular.assign m user tag reqProto
  | move i now username ip port =>
    obtain ⟨s', sent, moved, userDir, -, only⟩ :=
      @moveUser_cases o (c.server i) now (o.normalizeUser username) ip port calm.2
    simp only [Cluster.step, handleUserMove, moved]
    refine regular.tell (by rw [userDir]; rfl) fun e member => ?_
    rcases only e member with rfl | ⟨ttl, rfl⟩ | ⟨old, rfl, -⟩ <;> rfl
  | deliver i k m origin =>
    simp only [Cluster.step]
    split
    · exact regular
    · next e found =>
      exact regular.erase (self_applyEnvelope m origin (regular.users i e (mem_of_getElem? found)))
  | refuse i k =>
    simp only [Cluster.step]
    split
    · exact regular
    split
    · have erased := regular.erase (i := i) (k := k) (s := c.server i) rfl
      rwa [update_eq_self] at erased
    · exact regular
  | other i e => exact ⟨regular.named_update (by rw [e.pins]), regular.users⟩

/-- Every step of a run is calm. -/
def CalmRun (o : Options) (c : Cluster ι) (deeds : List (Deed ι)) : Prop :=
  ∀ before deed rest, deeds = before ++ deed :: rest → (c.after o before).Calm o deed

/-- Directors with different names that hold no pins, and nothing is under way. -/
structure Fresh (c : Cluster ι) : Prop where
  names : Function.Injective fun i => (c.server i).userDir.self
  noPins : ∀ i hash, (c.server i).userDir.byHash hash = none
  noMail : ∀ i, c.inbox i = []

theorem after_concat (deeds : List (Deed ι)) (deed : Deed ι) :
    c.after o (deeds ++ [deed]) = (c.after o deeds).step o deed := by
  simp [after]

theorem Fresh.run (fresh : c.Fresh) {deeds : List (Deed ι)} (calm : CalmRun o c deeds) (hash : UInt32) :
    (c.after o deeds).Regular (fun i => (c.server i).userDir.self) ∧
      ((c.after o deeds).desk o hash).Clocked (fun i => (c.server i).userDir.self) ∧
      ((c.after o deeds).desk o hash).Sound := by
  induction deeds using reverseRecOn with
  | nil =>
    have none (i : ι) : (c.desk o hash).entry i = .none := by
      simp [desk, pin, fresh.noPins i hash]
    have clear : (c.desk o hash).NoMail := by
      rintro j n ⟨e, member, -⟩
      rw [fresh.noMail j] at member
      cases member
    refine ⟨⟨fun _ => rfl, fun i e member => ?_⟩, ⟨?_, ?_, ?_⟩, .inl ⟨clear, fun i j => ?_⟩⟩
    · rw [after, foldl_nil, fresh.noMail i] at member
      cases member
    · intro i e held
      cases (none i).symm.trans held
    · intro i j e held
      cases (none i).symm.trans held
    · intro i j x σ came
      exact absurd came (clear i _)
    · rw [after, foldl_nil, Desk.host, Desk.host, none i, none j]
  | append_singleton deeds deed ih =>
    obtain ⟨earlier, last⟩ := eachStep_concat.mp calm
    obtain ⟨regular, clocked, sound⟩ := ih earlier
    have turn : Desk.Turn _ ((c.after o deeds).desk o hash) (((c.after o deeds).step o deed).desk o hash) :=
      turn_step regular last
    rw [after_concat]
    exact ⟨regular.step last, clocked.turn fresh.names turn, sound.turn clocked turn⟩

theorem calmRun_cons {rest : List (Deed ι)} :
    CalmRun o c (deed :: rest) ↔ c.Calm o deed ∧ CalmRun o (c.step o deed) rest :=
  eachStep_cons

end Cluster

open Cluster

/-- In every calm run of any directors, once every event about a user is delivered all directors hold
the same backend for the user. -/
theorem pins_converge {ι : Type} [DecidableEq ι] (o : Options) (c : Cluster ι) (fresh : c.Fresh)
    (deeds : List (Deed ι)) (calm : CalmRun o c deeds) (hash : UInt32)
    (delivered : ((c.after o deeds).desk o hash).NoMail) (i j : ι) :
    (((c.after o deeds).server i).userDir.byHash hash).map (·.host) =
      (((c.after o deeds).server j).userDir.byHash hash).map (·.host) := by
  have same := ((fresh.run calm hash).2.2.agreed delivered).same i j
  simpa [Desk.host, desk, pin, UserEntry.pin, comp_def] using same

/-- Two directors, `a` and `b`, with one backend. -/
def twoDirectors : Cluster Bool where
  server b :=
    { Server.fresh (Ring.after flatHashing (Ring.seating [65] [singleNode 65])) with
      userDir := ⟨fun _ => none, 1, if b then [98] else [97], 0, Int.one_pos⟩ }
  inbox _ := []

def hashPolicy : Options := ⟨flatHashing, false, .hash, 30, 5, true⟩

theorem twoDirectors_fresh : twoDirectors.Fresh where
  names i j same := by
    cases i <;> cases j
    · rfl
    · cases same
    · cases same
    · rfl
  noPins _ _ := rfl
  noMail _ := rfl

/-- A user placed by one director, and the placement taken by the other. -/
theorem pins_converge_placement : (((twoDirectors.after hashPolicy
        [.lookup false .start [117] [] [],
          .deliver true 0 .start []]).server false).userDir.byHash 0).map (·.host) =
      some [65, 58, 49, 52, 51] ∧
    (((twoDirectors.after hashPolicy
        [.lookup false .start [117] [] [],
          .deliver true 0 .start []]).server false).userDir.byHash 0).map (·.host) =
      (((twoDirectors.after hashPolicy
        [.lookup false .start [117] [] [],
          .deliver true 0 .start []]).server true).userDir.byHash 0).map (·.host) := by
  have clear : (twoDirectors.desk hashPolicy 0).NoMail := by
    rintro j n ⟨e, member, -⟩
    cases member
  have calm : CalmRun hashPolicy twoDirectors [.lookup false .start [117] [] [],
      .deliver true 0 .start []] := by
    refine calmRun_cons.mpr ⟨fun _ => ?_, calmRun_cons.mpr ⟨trivial, ?_⟩⟩
    · refine fun _ => ⟨fun j x => ⟨clear j _, clear j _⟩, .inr fun j e held => ?_⟩
      cases held
    · intro before b rest split
      cases before <;> cases split
  refine ⟨by decide, pins_converge hashPolicy twoDirectors twoDirectors_fresh _ calm 0 ?_ false true⟩
  rintro (_ | _) n ⟨e, member, -⟩
  · cases member
  · cases member

/-- Two moves that cross: each director ends with the backend the other moved the user to. -/
theorem crossing_moves_diverge : (∀ i, (twoDirectors.after hashPolicy
      [.move false 0 [117] [120] [49], .move true 0 [117] [121] [49],
        .deliver false 0 .start [], .deliver true 0 .start []]).inbox i = []) ∧
    (((twoDirectors.after hashPolicy
      [.move false 0 [117] [120] [49], .move true 0 [117] [121] [49],
        .deliver false 0 .start [], .deliver true 0 .start []]).server false).userDir.byHash 0).map (·.host) =
      some [121, 58, 49] ∧
    (((twoDirectors.after hashPolicy
      [.move false 0 [117] [120] [49], .move true 0 [117] [121] [49],
        .deliver false 0 .start [], .deliver true 0 .start []]).server true).userDir.byHash 0).map (·.host) =
      some [120, 58, 49] := by
  decide

end Yarilo.Director

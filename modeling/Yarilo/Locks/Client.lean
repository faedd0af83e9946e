import Mathlib.Data.List.Nodup
import Mathlib.Data.List.Pairwise
import Mathlib.Logic.Function.Basic
import Yarilo.Library.Bytes

/-! # The lock client's table of holds

Each goroutine has a map from resources to the identifiers it was granted. Both kinds of acquisition
write it, a completed `Unlock` of the goroutine clears the entry with that identifier, and
`HoldsResource` asks whether there is an entry. What the server answers is an argument of each call.
-/

namespace Yarilo.Locks

open Library List

/-- What comes back over the connection: nothing, or the fields of one line. -/
inductive Reply where
  | unavailable
  | fields (resp : List Bytes)
deriving DecidableEq

def respOK : Bytes := [79, 75]
def respBusy : Bytes := [66, 85, 83, 89]
def respNotFound : Bytes := [78, 79, 84, 95, 70, 79, 85, 78, 68]
def respError : Bytes := [69, 82, 82, 79, 82]
def siteUnknown : Bytes := [117, 110, 107, 110, 111, 119, 110]

inductive ClientAnswer where
  | locked (id : Bytes)
  | busy (owner site : Bytes)
  | unlocked
  | notFound
  | holds (answer : Bool)
  | ttlNotPositive
  | unavailable
  | emptyResponse
  | malformedOK
  | serverError (message : List Bytes)
  | unexpected (resp : List Bytes)
deriving DecidableEq

/-- The holds by goroutine. A goroutine without entries and one with an empty map are the same. -/
structure Client where
  holds : ℕ → Bytes → Option Bytes

def newClient : Client where
  holds _ _ := none

inductive ClientOp where
  | lock (resource : Bytes) (ttl : ℤ)
  | lockShared (resource : Bytes) (ttl : ℤ)
  | unlock (lockID : Bytes)
  | holdsResource (resource : Bytes)
deriving DecidableEq

structure ClientCall where
  gid : ℕ
  op : ClientOp
  reply : Reply
  /-- the order in which the goroutine's holds are met -/
  order : List Bytes
deriving DecidableEq

namespace Client

def record (c : Client) (gid : ℕ) (resource id : Bytes) : Client where
  holds := Function.update c.holds gid (Function.update (c.holds gid) resource (some id))

/-- The body of `Lock` and of `LockShared`, which differ in the command they send. -/
def take (c : Client) (gid : ℕ) (resource : Bytes) (ttl : ℤ) (reply : Reply) : ClientAnswer × Client :=
  if ttl ≤ 0 then (.ttlNotPositive, c)
  else
    match reply with
    | .unavailable => (.unavailable, c)
    | .fields [] => (.emptyResponse, c)
    | .fields (kind :: rest) =>
      if kind = respOK then
        match rest with
        | [id] => (.locked id, c.record gid resource id)
        | _ => (.malformedOK, c)
      else if kind = respBusy then
        let site := rest.getD 1 []
        (.busy (rest.getD 0 []) (if site = [] then siteUnknown else site), c)
      else if kind = respError then (.serverError rest, c)
      else (.unexpected (kind :: rest), c)

def lock (c : Client) (gid : ℕ) (resource : Bytes) (ttl : ℤ) (reply : Reply) : ClientAnswer × Client :=
  c.take gid resource ttl reply

def lockShared (c : Client) (gid : ℕ) (resource : Bytes) (ttl : ℤ) (reply : Reply) :
    ClientAnswer × Client :=
  c.take gid resource ttl reply

/-- The first entry with that identifier goes, in the order the goroutine's map is walked. -/
def dropHoldByID (c : Client) (gid : ℕ) (order : List Bytes) (lockID : Bytes) : Client :=
  match order.find? fun resource => c.holds gid resource = some lockID with
  | some resource =>
    { holds := Function.update c.holds gid (Function.update (c.holds gid) resource none) }
  | none => c

def unlock (c : Client) (gid : ℕ) (order : List Bytes) (lockID : Bytes) (reply : Reply) :
    ClientAnswer × Client :=
  match reply with
  | .unavailable => (.unavailable, c)
  | .fields resp =>
    let c := c.dropHoldByID gid order lockID
    match resp with
    | [] => (.emptyResponse, c)
    | kind :: rest =>
      if kind = respOK then (.unlocked, c)
      else if kind = respNotFound then (.notFound, c)
      else if kind = respError then (.serverError rest, c)
      else (.unexpected (kind :: rest), c)

def holdsResource (c : Client) (gid : ℕ) (resource : Bytes) : Bool := (c.holds gid resource).isSome

def step (c : Client) (call : ClientCall) : ClientAnswer × Client :=
  match call.op with
  | .lock resource ttl => c.lock call.gid resource ttl call.reply
  | .lockShared resource ttl => c.lockShared call.gid resource ttl call.reply
  | .unlock lockID => c.unlock call.gid call.order lockID call.reply
  | .holdsResource resource => (.holds (c.holdsResource call.gid resource), c)

/-- The state a sequence of calls ends in. -/
def run (c : Client) (calls : List ClientCall) : Client := calls.foldl (fun c call => (c.step call).2) c

end Client

/-- The resource an acquisition of either kind asks for, and its lifetime. -/
def ClientOp.acquires : ClientOp → Option (Bytes × ℤ)
  | lock resource ttl => some (resource, ttl)
  | lockShared resource ttl => some (resource, ttl)
  | unlock _ => none
  | holdsResource _ => none

/-- What the server grants the goroutine in this call: the resource and the identifier. -/
def ClientCall.granted (call : ClientCall) : Option (Bytes × Bytes) :=
  match call.op.acquires with
  | none => none
  | some (resource, ttl) =>
    match call.reply with
    | .fields [kind, id] => if 0 < ttl ∧ kind = respOK then some (resource, id) else none
    | _ => none

variable {call : ClientCall} {resource id resource' : Bytes} {past calls : List ClientCall} {gid : ℕ}

namespace Client

/-- An acquisition records what the server granted, and nothing else. -/
theorem take_snd (c : Client) {ttl : ℤ} (acquires : call.op.acquires = some (resource, ttl)) :
    (c.take call.gid resource ttl call.reply).2 =
      match call.granted with
      | some (resource, id) => c.record call.gid resource id
      | none => c := by
  simp only [ClientCall.granted, acquires]
  by_cases positive : 0 < ttl
  · simp only [take, if_neg (not_le.mpr positive)]
    cases call.reply with
    | unavailable => rfl
    | fields resp =>
      rcases resp with _ | ⟨kind, _ | ⟨id, _ | ⟨extra, more⟩⟩⟩
      · rfl
      · by_cases ok : kind = respOK
        · simp [ok]
        · simp only [if_neg ok]
          split_ifs <;> rfl
      · by_cases ok : kind = respOK
        · simp [ok, positive]
        · simp only [ok, and_false, if_false]
          split_ifs <;> rfl
      · by_cases ok : kind = respOK
        · simp [ok]
        · simp only [if_neg ok]
          split_ifs <;> rfl
  · simp only [take, if_pos (not_lt.mp positive), positive, false_and, if_false]
    cases call.reply with
    | unavailable => rfl
    | fields resp => rcases resp with _ | ⟨kind, _ | ⟨id, _ | ⟨extra, more⟩⟩⟩ <;> rfl

theorem unlock_snd (c : Client) (gid : ℕ) (order : List Bytes) (lockID : Bytes) (resp : List Bytes) :
    (c.unlock gid order lockID (.fields resp)).2 = c.dropHoldByID gid order lockID := by
  cases resp with
  | nil => rfl
  | cons kind rest =>
    simp only [unlock]
    split_ifs <;> rfl

/-- What a call can do to the holds: record a grant, clear an entry, or nothing. -/
theorem step_cases (c : Client) (call : ClientCall) :
    (∃ resource id, call.granted = some (resource, id) ∧ (∀ lockID, call.op ≠ .unlock lockID) ∧
        (c.step call).2 = c.record call.gid resource id) ∨
      (∃ lockID, call.op = .unlock lockID ∧ call.granted = none ∧ call.reply ≠ .unavailable ∧
        (c.step call).2 = c.dropHoldByID call.gid call.order lockID) ∨
      call.granted = none ∧ (∀ lockID, call.op = .unlock lockID → call.reply = .unavailable) ∧
        (c.step call).2 = c := by
  have taken : ∀ resource ttl, call.op.acquires = some (resource, ttl) →
      (∀ lockID, call.op ≠ .unlock lockID) →
      (c.step call).2 = (c.take call.gid resource ttl call.reply).2 →
      (∃ resource id, call.granted = some (resource, id) ∧ (∀ lockID, call.op ≠ .unlock lockID) ∧
          (c.step call).2 = c.record call.gid resource id) ∨
        call.granted = none ∧ (∀ lockID, call.op = .unlock lockID → call.reply = .unavailable) ∧
          (c.step call).2 = c := by
    intro resource ttl acquires other stepped
    rw [stepped, c.take_snd acquires]
    cases granted : call.granted with
    | some pair => exact .inl ⟨pair.1, pair.2, rfl, other, rfl⟩
    | none => exact .inr ⟨rfl, fun lockID call => absurd call (other lockID), rfl⟩
  cases op : call.op with
  | lock resource ttl =>
    rcases taken resource ttl (by simp [op, ClientOp.acquires]) (by simp [op])
      (by simp [step, op, lock]) with taken | taken
    · exact .inl (by simpa [op] using taken)
    · exact .inr (.inr (by simpa [op] using taken))
  | lockShared resource ttl =>
    rcases taken resource ttl (by simp [op, ClientOp.acquires]) (by simp [op])
      (by simp [step, op, lockShared]) with taken | taken
    · exact .inl (by simpa [op] using taken)
    · exact .inr (.inr (by simpa [op] using taken))
  | unlock lockID =>
    have nothing : call.granted = none := by simp [ClientCall.granted, op, ClientOp.acquires]
    right
    cases reply : call.reply with
    | unavailable => exact .inr ⟨nothing, fun _ _ => rfl, by simp [step, op, unlock, reply]⟩
    | fields resp =>
      exact .inl ⟨lockID, rfl, nothing, by simp, by simp [step, op, reply, unlock_snd]⟩
  | holdsResource resource =>
    exact .inr (.inr ⟨by simp [ClientCall.granted, op, ClientOp.acquires], by simp,
      by simp [step, op]⟩)

/-! ## What an entry says of the run -/

/-- The walk of the goroutine's holds meets every entry there is. -/
def Covers (c : Client) (call : ClientCall) : Prop :=
  ∀ resource, c.holds call.gid resource ≠ none → resource ∈ call.order

def Walks (c : Client) : List ClientCall → Prop
  | [] => True
  | call :: rest => c.Covers call ∧ (c.step call).2.Walks rest

end Client

/-- The goroutine's latest grant of the resource has this identifier, and the goroutine has not
finished an `Unlock` of it since. -/
def LatestGrant (past : List ClientCall) (gid : ℕ) (resource id : Bytes) : Prop :=
  ∃ before call after, past = before ++ call :: after ∧ call.gid = gid ∧
    call.granted = some (resource, id) ∧
    (∀ later ∈ after, later.gid = gid → ∀ id', later.granted ≠ some (resource, id')) ∧
    ∀ later ∈ after, later.gid = gid → later.op = .unlock id → later.reply = .unavailable

theorem LatestGrant.snoc (latest : LatestGrant past gid resource id)
    (other : call.gid = gid → ∀ id', call.granted ≠ some (resource, id'))
    (kept : call.gid = gid → call.op = .unlock id → call.reply = .unavailable) :
    LatestGrant (past ++ [call]) gid resource id := by
  obtain ⟨before, grant, after, rfl, own, granted, none, since⟩ := latest
  exact ⟨before, grant, after ++ [call], by simp, own, granted, forall_mem_concat none other,
    forall_mem_concat since kept⟩

/-- The identifiers the server granted, in the order of the calls. -/
def grantedIds (calls : List ClientCall) : List Bytes :=
  calls.filterMap fun call => call.granted.map Prod.snd

/-- An identifier granted once stands for one resource. -/
theorem resource_unique (distinct : (grantedIds calls).Nodup) {call' : ClientCall}
    (member : call ∈ calls) (member' : call' ∈ calls) (granted : call.granted = some (resource, id))
    (granted' : call'.granted = some (resource', id)) : resource' = resource := by
  by_cases same : call' = call
  · rw [same, granted] at granted'
    cases granted'
    rfl
  have apart := pairwise_filterMap.mp distinct
  have symmetric : Std.Symm fun a b : ClientCall => ∀ id, a.granted.map Prod.snd = some id →
      ∀ id', b.granted.map Prod.snd = some id' → id ≠ id' :=
    ⟨fun a b differ id left id' right => (differ id' right id left).symm⟩
  exact absurd rfl (apart.forall member' member same id (by simp [granted']) id
    (by simp [granted]))

namespace Client

/-- Every entry is the latest grant of its resource to its goroutine. -/
def Grounded (past : List ClientCall) (c : Client) : Prop :=
  ∀ gid resource id, c.holds gid resource = some id → LatestGrant past gid resource id

variable {c : Client}

theorem record_holds {gid' : ℕ} : (c.record gid resource id).holds gid' resource' =
      if gid' = gid ∧ resource' = resource then some id else c.holds gid' resource' := by
  by_cases own : gid' = gid
  · subst own
    by_cases here : resource' = resource
    · simp [record, here]
    · simp [record, here]
  · simp [record, own]

/-- What `dropHoldByID` leaves was there, and it is not the goroutine's only entry with the
identifier. -/
theorem dropHoldByID_holds (covers : c.Covers call) {lockID : Bytes}
    (held : (c.dropHoldByID call.gid call.order lockID).holds gid resource = some id) :
    c.holds gid resource = some id ∧ (call.gid = gid → lockID = id →
      ∃ resource', resource' ≠ resource ∧ c.holds gid resource' = some id) := by
  unfold dropHoldByID at held
  split at held
  · rename_i dropped found
    have entry : c.holds call.gid dropped = some lockID := by simpa using find?_some found
    by_cases own : gid = call.gid
    · subst own
      by_cases here : resource = dropped
      · simp [here] at held
      · have kept : c.holds call.gid resource = some id := by simpa [here] using held
        exact ⟨kept, fun _ same => ⟨dropped, Ne.symm here, by rw [entry, same]⟩⟩
    · have kept : c.holds gid resource = some id := by simpa [own] using held
      exact ⟨kept, fun same => absurd same.symm own⟩
  · rename_i missing
    refine ⟨held, ?_⟩
    rintro rfl rfl
    have absent := find?_eq_none.mp missing resource (covers resource (by simp [held]))
    simp [held] at absent

theorem Grounded.step (grounded : Grounded past c) (covers : c.Covers call)
    (distinct : (grantedIds past).Nodup) : Grounded (past ++ [call]) (c.step call).2 := by
  intro gid resource id held
  rcases c.step_cases call with
    ⟨resource', id', granted, noUnlock, recorded⟩ | ⟨lockID, op, nothing, answered, dropped⟩ |
    ⟨nothing, failed, same⟩
  · rw [recorded, record_holds] at held
    split at held
    · rename_i here
      obtain ⟨rfl, rfl⟩ := here
      cases held
      exact ⟨past, call, [], by simp, rfl, granted, by simp, by simp⟩
    · rename_i elsewhere
      refine (grounded gid resource id held).snoc ?_ ?_
      · rintro rfl id'' granted'
        rw [granted] at granted'
        cases granted'
        exact elsewhere ⟨rfl, rfl⟩
      · exact fun _ op => absurd op (noUnlock id)
  · rw [dropped] at held
    obtain ⟨entry, unique⟩ := dropHoldByID_holds covers held
    refine (grounded gid resource id entry).snoc (by simp [nothing]) ?_
    intro own op'
    rw [op, ClientOp.unlock.injEq] at op'
    -- two entries with one identifier would come from two grants of it
    obtain ⟨resource', other, entry'⟩ := unique own op'
    obtain ⟨_, grant, _, rfl, -, granted, -⟩ := grounded gid resource id entry
    obtain ⟨_, grant', _, split, -, granted', -⟩ := grounded gid resource' id entry'
    exact absurd (resource_unique distinct (by simp) (by rw [split]; simp) granted granted') other
  · rw [same] at held
    exact (grounded gid resource id held).snoc (by simp [nothing]) fun _ => failed id

theorem grantedIds_append (before after : List ClientCall) :
    grantedIds (before ++ after) = grantedIds before ++ grantedIds after :=
  filterMap_append

theorem Grounded.run (grounded : Grounded past c) (walks : c.Walks calls)
    (distinct : (grantedIds (past ++ calls)).Nodup) : Grounded (past ++ calls) (c.run calls) := by
  induction calls generalizing past c with
  | nil => simpa [Client.run] using grounded
  | cons call rest ih =>
    have known : (grantedIds past).Nodup := by
      rw [grantedIds_append] at distinct
      exact (nodup_append.mp distinct).1
    have next := ih (grounded.step walks.1 known) walks.2 (by simpa using distinct)
    simpa [Client.run] using next

theorem Walks.append {before after : List ClientCall} (walks : c.Walks (before ++ after)) :
    c.Walks before := by
  induction before generalizing c with
  | nil => trivial
  | cons call rest ih => exact ⟨walks.1, ih walks.2⟩

end Client

/-! ## Skipping a lock -/

/-- The goroutine's latest grant of the resource was exclusive, and nobody has tried to unlock its
identifier since. -/
def Rests (past : List ClientCall) (gid : ℕ) (resource : Bytes) : Prop :=
  ∃ before call after ttl id, past = before ++ call :: after ∧ call.gid = gid ∧
    call.op = .lock resource ttl ∧ call.granted = some (resource, id) ∧
    (∀ later ∈ after, later.gid = gid → ∀ id', later.granted ≠ some (resource, id')) ∧
    ∀ later ∈ after, later.op ≠ .unlock id

/-- The goroutine was granted no shared lock of the resource, and whoever tried to unlock one of its
identifiers was the goroutine itself and heard back from the server. -/
structure SkipSafe (past : List ClientCall) (gid : ℕ) (resource : Bytes) : Prop where
  exclusive : ∀ call ∈ past, call.gid = gid → ∀ ttl, call.op = .lockShared resource ttl →
    call.granted = none
  unlocks : ∀ call ∈ past, call.gid = gid → ∀ id, call.granted = some (resource, id) →
    ∀ later ∈ past, later.op = .unlock id → later.gid = gid ∧ later.reply ≠ .unavailable

theorem ClientCall.granted_resource (granted : call.granted = some (resource, id)) :
    (∃ ttl, call.op = .lock resource ttl) ∨ ∃ ttl, call.op = .lockShared resource ttl := by
  unfold ClientCall.granted at granted
  split at granted
  · cases granted
  rename_i asked ttl acquires
  have same : asked = resource := by
    split at granted
    · split_ifs at granted
      cases granted
      rfl
    · cases granted
  subst same
  cases op : call.op with
  | lock r t =>
    simp only [op, ClientOp.acquires] at acquires
    cases acquires
    exact .inl ⟨ttl, rfl⟩
  | lockShared r t =>
    simp only [op, ClientOp.acquires] at acquires
    cases acquires
    exact .inr ⟨ttl, rfl⟩
  | unlock _ => simp [op, ClientOp.acquires] at acquires
  | holdsResource _ => simp [op, ClientOp.acquires] at acquires

/-- In a run where the server repeats no identifier, every safe question that is answered with yes
rests on a held exclusive lock. -/
theorem skip_rests_on_held_lock (calls : List ClientCall) (walks : newClient.Walks calls)
    (distinct : (grantedIds calls).Nodup) (before after : List ClientCall) (query : ClientCall)
    (place : calls = before ++ query :: after) (resource : Bytes)
    (asks : query.op = .holdsResource resource) (safe : SkipSafe before query.gid resource)
    (answer : ((newClient.run before).step query).1 = .holds true) : Rests before query.gid resource := by
  subst place
  have grounded : Client.Grounded before (newClient.run before) := by
    rw [Client.grantedIds_append] at distinct
    have start : Client.Grounded [] newClient := by
      intro gid resource id held
      cases held
    exact start.run walks.append (nodup_append.mp distinct).1
  simp only [Client.step, asks, Client.holdsResource, ClientAnswer.holds.injEq] at answer
  obtain ⟨id, held⟩ := Option.isSome_iff_exists.mp answer
  obtain ⟨pre, call, post, rfl, own, granted, none, since⟩ := grounded _ _ _ held
  rcases call.granted_resource granted with ⟨ttl, op⟩ | ⟨ttl, op⟩
  · refine ⟨pre, call, post, ttl, id, rfl, own, op, granted, none, ?_⟩
    intro later member unlocks
    obtain ⟨mine, answered⟩ := safe.unlocks call (by simp) own id granted later
      (by simp [member]) unlocks
    exact answered (since later member mine unlocks)
  · rw [safe.exclusive call (by simp) own ttl op] at granted
    cases granted

/-- Goroutine 1 and the resource `r`, with the server's answer to the call. -/
def callOnR (op : ClientOp) (reply : Reply) : ClientCall :=
  { gid := 1, op := op, reply := reply, order := [[114]] }

theorem skip_rests_on_held_lock_after_lock :
    Rests [callOnR (.lock [114] 30) (.fields [respOK, [7]])] 1 [114] := by
  have walks : newClient.Walks [callOnR (.lock [114] 30) (.fields [respOK, [7]]),
      callOnR (.holdsResource [114]) .unavailable] := by
    refine ⟨fun resource held => absurd rfl held, ?_, trivial⟩
    intro resource held
    by_contra elsewhere
    have other : resource ≠ [114] := by simpa [callOnR] using elsewhere
    exact held (by simp [Client.step, callOnR, Client.lock, Client.take, Client.record, newClient, other])
  exact skip_rests_on_held_lock _ walks (by decide) [_] [] (callOnR (.holdsResource [114]) .unavailable)
    rfl [114] rfl ⟨by simp [callOnR], by simp [callOnR]⟩ (by decide)

/-- A shared lock and an `Unlock` that did not come through both leave an entry behind. -/
theorem skip_without_exclusive_lock :
    let shared := callOnR (.lockShared [114] 30) (.fields [respOK, [7]])
    let exclusive := callOnR (.lock [114] 30) (.fields [respOK, [7]])
    let lost := callOnR (.unlock [7]) .unavailable
    let ask := callOnR (.holdsResource [114]) .unavailable
    (((newClient.run [shared]).step ask).1 = .holds true ∧ ¬Rests [shared] 1 [114]) ∧
      ((newClient.run [exclusive, lost]).step ask).1 = .holds true ∧
      ¬Rests [exclusive, lost] 1 [114] := by
  refine ⟨⟨by decide, ?_⟩, by decide, ?_⟩
  · rintro ⟨before, call, after, ttl, id, split, -, op, -⟩
    have same : call ∈ [callOnR (.lockShared [114] 30) (.fields [respOK, [7]])] := by
      rw [split]
      simp
    rw [mem_singleton.mp same] at op
    cases op
  · rintro ⟨before, call, after, ttl, id, split, -, op, granted, -, since⟩
    rcases before with _ | ⟨first, _ | ⟨second, rest⟩⟩
    · -- the grant is the first call, and the lost `Unlock` follows it
      obtain ⟨rfl, rfl⟩ := split
      have same : id = [7] := by
        have eq : some (([114] : Bytes), ([7] : Bytes)) = some ([114], id) := granted
        simpa using eq.symm
      exact since (callOnR (.unlock [7]) .unavailable) (by simp) (by rw [same]; rfl)
    · simp only [cons_append, nil_append, cons.injEq] at split
      obtain ⟨-, rfl, -⟩ := split
      cases op
    · simp at split

end Yarilo.Locks

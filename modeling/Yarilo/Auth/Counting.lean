import Yarilo.Auth.Throttle
import Yarilo.Warden.Penalty

/-! # Counting failures under concurrency

Requests run at the same time, on one connection, on many and on several servers, and share one
penalty store. Each looks its address's count up, waits, has its password checked and then sets the
count to what it looked up and one more. Between the two the other requests go on. The count is that
of the failures as long as no request of the address looks up while another one is between the two.
-/

namespace Yarilo.Auth

open Library Warden List Server

/-- One AUTH line, the connection's peer address and the server it came to. -/
structure Request where
  srv : Server
  connIP : Bytes
  fields : List Bytes

namespace Request

/-- The address the server attributes the request to. -/
def address (r : Request) : Bytes :=
  let rip := (readAttributes (r.fields.drop 3)).rip
  if rip = [] then r.connIP else rip

/-- The call, if the line is well formed. -/
def call (r : Request) : Option AuthCall :=
  match r.fields with
  | _ :: _ :: mech :: rest =>
    let attrs := readAttributes rest
    (parsePlain mech attrs.resp).map (r.srv.callOf attrs r.connIP)
  | _ => none

/-- The address whose count the request looks up and sets. -/
def penalized (r : Request) : Option Bytes :=
  r.call.bind fun c => if r.srv.Throttles c then some c.remoteIP else none

/-- What the request does once its lookup is behind it: `looked` is the count it was told. -/
def effects (r : Request) (cache : Option Cache) (a : Answers) (looked : Option ℕ) : List Effect :=
  (r.srv.handleAuth cache { a with connIP := r.connIP, penalty := looked } r.fields).1

end Request

/-- Where a request stands. -/
inductive Phase where
  | received
  | looked (count : Option ℕ)
  | finished
deriving DecidableEq

structure Traffic where
  penalties : Penalties
  requests : List (Request × Phase)

/-- What happens next. `reached` says whether the store was reached. The cache a request meets and
what the outside answers to it are those of the event. -/
inductive Event where
  | lookup (i : ℕ) (now : ℤ) (reached : Bool)
  | decide (i : ℕ) (now : ℤ) (reached : Bool) (cache : Option Cache) (a : Answers)
  | sweep (now : ℤ)

/-- The store after an effect. -/
def perform (now : ℤ) (p : Penalties) : Effect → Penalties
  | .penaltyUpdate ip count => p.penaltyUpdate now ip count
  | _ => p

namespace Traffic

def lookup (s : Traffic) (i : ℕ) (r : Request) (now : ℤ) (reached : Bool) : Traffic :=
  match r.penalized, reached with
  | some ip, true =>
    let (count, penalties) := s.penalties.penaltyLookup now ip
    { penalties := penalties, requests := s.requests.set i (r, .looked (some count)) }
  | _, _ => { s with requests := s.requests.set i (r, .looked none) }

def finish (s : Traffic) (i : ℕ) (r : Request) (looked : Option ℕ) (now : ℤ) (reached : Bool)
    (cache : Option Cache) (a : Answers) : Traffic :=
  { penalties :=
      if reached then (r.effects cache a looked).foldl (perform now) s.penalties
      else s.penalties
    requests := s.requests.set i (r, .finished) }

def step (s : Traffic) : Event → Traffic
  | .lookup i now reached =>
    match s.requests[i]? with
    | some (r, .received) => s.lookup i r now reached
    | _ => s
  | .decide i now reached cache a =>
    match s.requests[i]? with
    | some (r, .looked count) => s.finish i r count now reached cache a
    | _ => s
  | .sweep now => { s with penalties := s.penalties.penaltySweep now }

def run (s : Traffic) (events : List Event) : Traffic := events.foldl step s

/-- The requests of an address that are answered. -/
def finishedFrom (s : Traffic) (ip : Bytes) : ℕ :=
  s.requests.countP fun q => q.1.address = ip ∧ q.2 = .finished

end Traffic

/-! ## What a request does to the store -/

variable {cache : Option Cache} {a : Answers} {looked : Option ℕ} {now : ℤ} {p : Penalties}

namespace Request

variable {r : Request} {ip : Bytes} {c : AuthCall}

/-- The policy server does not refuse the request beforehand, and the chains refuse it. -/
def Refused (r : Request) (cache : Option Cache) (a : Answers) : Prop := ∃ c, r.call = some c ∧
    ¬(r.srv.policy = true ∧ r.srv.policyMode.checkBefore = true ∧ a.rejectBefore = true) ∧
    (r.srv.authenticate cache a.now a.stamp c).1.result = .fail

theorem penalized_eq_some :
    r.penalized = some ip ↔ ∃ c, r.call = some c ∧ r.srv.Throttles c ∧ c.remoteIP = ip := by
  unfold penalized
  cases r.call with
  | none => simp
  | some c =>
    by_cases throttles : r.srv.Throttles c
    · simp [throttles]
    · simp [throttles]

theorem call_eq_some (parsed : r.call = some c) :
    ∃ verb id mech rest p, r.fields = verb :: id :: mech :: rest ∧
      parsePlain mech (readAttributes rest).resp = some p ∧
      c = r.srv.callOf (readAttributes rest) r.connIP p := by
  unfold call at parsed
  match fields : r.fields with
  | [] | [_] | [_, _] => simp [fields] at parsed
  | verb :: id :: mech :: rest =>
    simp only [fields, Option.map_eq_some_iff] at parsed
    obtain ⟨p, plain, rfl⟩ := parsed
    exact ⟨verb, id, mech, rest, p, rfl, plain, rfl⟩

theorem address_of_call (parsed : r.call = some c) : c.remoteIP = r.address := by
  obtain ⟨verb, id, mech, rest, p, fields, -, rfl⟩ := call_eq_some parsed
  simp [address, fields, callOf]

theorem address_of_penalized (counts : r.penalized = some ip) : r.address = ip := by
  obtain ⟨c, parsed, -, rfl⟩ := penalized_eq_some.mp counts
  exact (address_of_call parsed).symm

theorem effects_of_call (parsed : r.call = some c) (cache : Option Cache) (a : Answers) (looked : Option ℕ) :
    ∃ id session, r.effects cache a looked =
      (r.srv.handleCall cache { a with connIP := r.connIP, penalty := looked } id session c).1 := by
  obtain ⟨verb, id, mech, rest, p, fields, plain, rfl⟩ := call_eq_some parsed
  refine ⟨id, (readAttributes rest).session, ?_⟩
  simp [effects, handleAuth, fields, plain]

/-- Only a request that is penalized for an address sets its count. -/
theorem penalized_of_update {count : ℕ} (sets : .penaltyUpdate ip count ∈ r.effects cache a looked) :
    r.penalized = some ip := by
  cases parsed : r.call with
  | none =>
    match fields : r.fields with
    | [] | [_] | [_, _] => simp [effects, handleAuth, fields] at sets
    | verb :: id :: mech :: rest =>
      simp only [call, fields, Option.map_eq_none_iff] at parsed
      simp [effects, handleAuth, fields, parsed] at sets
  | some c =>
    obtain ⟨id, session, same⟩ := effects_of_call parsed cache a looked
    rw [same] at sets
    obtain ⟨throttles, rfl⟩ := throttles_of_penaltyUpdate sets
    exact penalized_eq_some.mpr ⟨c, parsed, throttles, rfl⟩

end Request

theorem foldl_perform_of_forall {effects : List Effect}
    (quiet : ∀ ip count, .penaltyUpdate ip count ∉ effects) : effects.foldl (perform now) p = p := by
  induction effects with
  | nil => rfl
  | cons e rest ih =>
    have still : perform now p e = p := by
      cases e with
      | penaltyUpdate ip count => exact absurd (.head _) (quiet ip count)
      | _ => rfl
    rw [foldl_cons, still]
    exact ih fun ip count member => quiet ip count (.tail _ member)

theorem count_foldl_perform {effects : List Effect} {ip : Bytes}
    (quiet : ∀ count, .penaltyUpdate ip count ∉ effects) :
    (effects.foldl (perform now) p).count ip = p.count ip := by
  induction effects generalizing p with
  | nil => rfl
  | cons e rest ih =>
    rw [foldl_cons, ih fun count member => quiet count (.tail _ member)]
    cases e with
    | penaltyUpdate other count =>
      refine Penalties.count_penaltyUpdate_of_ne ?_ count
      rintro rfl
      exact quiet count (.head _)
    | _ => rfl

/-- A refused request sets the count to what it looked up and one more. -/
theorem Request.foldl_effects_of_refused {r : Request} {ip : Bytes} (counts : r.penalized = some ip)
    (refused : r.Refused cache a) (looked : Option ℕ) (now : ℤ) (p : Penalties) :
    (r.effects cache a looked).foldl (perform now) p = p.penaltyUpdate now ip (looked.getD 0 + 1) := by
  obtain ⟨c, parsed, throttles, rfl⟩ := Request.penalized_eq_some.mp counts
  obtain ⟨c', parsed', passed, fail⟩ := refused
  cases parsed.symm.trans parsed'
  obtain ⟨id, session, same⟩ := Request.effects_of_call parsed cache a looked
  rw [same, handleCall_effects (by exact fun both => passed ⟨both.1.1, both.1.2.1, both.2⟩)]
  simp only [checkedEffects, throttles, if_true, fail, newCount, Option.map_some,
    Option.toList_some, foldl_append, foldl_cons, foldl_nil]
  have quiet : ∀ (condition : Prop) [Decidable condition] (e : Effect) (p : Penalties),
      (∀ ip count, e ≠ .penaltyUpdate ip count) →
        (onlyIf condition e).foldl (perform now) p = p := by
    intro condition _ e p other
    refine foldl_perform_of_forall fun ip count member => ?_
    unfold onlyIf at member
    split at member
    · exact other ip count (mem_singleton.mp member).symm
    · cases member
  rw [quiet _ _ _ (by simp), quiet _ _ _ (by simp)]
  exact foldl_perform_of_forall (penaltyUpdate_notMem_finish _ id session c _)

/-! ## Runs -/

namespace Traffic

/-- What the step asks of the requests of an address. A request looks up while no other one of the
address is between its lookup and its answer; it is penalized for the address, its password is
refused, the store is reached, and the address's entry has not decayed. -/
def Guarded (ip : Bytes) (s : Traffic) : Event → Prop
  | .lookup i now reached => ∀ r, s.requests[i]? = some (r, .received) → r.address = ip →
      r.penalized = some ip ∧ reached = true ∧ s.penalties.Fresh now ip ∧
        ∀ q ∈ s.requests, q.1.address = ip → ∀ count, q.2 ≠ .looked count
  | .decide i _ reached cache a => ∀ r count, s.requests[i]? = some (r, .looked count) →
      r.address = ip → reached = true ∧ r.Refused cache a
  | .sweep now => s.penalties.Fresh now ip

def GuardedRun (ip : Bytes) : Traffic → List Event → Prop
  | _, [] => True
  | s, e :: rest => s.Guarded ip e ∧ GuardedRun ip (s.step e) rest

/-- The request at `i` is one of the address, and between its lookup and its answer. -/
def Holds (ip : Bytes) (s : Traffic) (i : ℕ) (r : Request) (looked : Option ℕ) : Prop :=
  s.requests[i]? = some (r, .looked looked) ∧ r.address = ip

/-- The count is that of the answered requests, and at most one request of the address holds it. -/
structure Counted (ip : Bytes) (start : ℕ) (s : Traffic) : Prop where
  count : s.penalties.count ip = min (start + s.finishedFrom ip) maxPenalty
  held : ∀ i r looked, s.Holds ip i r looked → r.penalized = some ip ∧ looked = some (s.penalties.count ip)
  alone : ∀ i j r r' looked looked', s.Holds ip i r looked → s.Holds ip j r' looked' → i = j

variable {s : Traffic} {ip : Bytes} {i : ℕ} {r : Request} {start : ℕ} {before after : Phase}
  {penalties : Penalties} {reached : Bool}

theorem finishedFrom_set (present : s.requests[i]? = some (r, before)) (running : before ≠ .finished) :
    finishedFrom { penalties := penalties, requests := s.requests.set i (r, after) } ip =
      s.finishedFrom ip + if r.address = ip ∧ after = .finished then 1 else 0 := by
  obtain ⟨bound, here⟩ := List.getElem?_eq_some_iff.mp present
  simp [finishedFrom, countP_set bound, here, running]

/-- A request of another address leaves the address's requests as they are. -/
theorem holds_set_of_ne (ne : r.address ≠ ip) {j : ℕ} {r' : Request}
    (holds : Holds ip { penalties := penalties, requests := s.requests.set i (r, after) } j r' looked) :
    s.Holds ip j r' looked := by
  obtain ⟨here, address⟩ := holds
  simp only [getElem?_set] at here
  split at here
  · split at here
    · simp only [Option.some.injEq, Prod.mk.injEq] at here
      exact absurd (here.1 ▸ address) ne
    · cases here
  · exact ⟨here, address⟩

section

variable (counted : s.Counted ip start)

include counted

/-- A step of a request of another address. -/
theorem Counted.set_of_ne (present : s.requests[i]? = some (r, before)) (running : before ≠ .finished)
    (ne : r.address ≠ ip) (same : penalties.count ip = s.penalties.count ip) :
    Counted ip start { penalties := penalties, requests := s.requests.set i (r, after) } := by
  refine ⟨?_, ?_, ?_⟩
  · rw [finishedFrom_set present running]
    simp [same, counted.count, ne]
  · intro j r' looked holds
    rw [same]
    exact counted.held j r' looked (holds_set_of_ne ne holds)
  · intro j k q q' looked looked' first second
    exact counted.alone j k q q' looked looked' (holds_set_of_ne ne first) (holds_set_of_ne ne second)

/-- Looking up hands the count to the only request of the address. -/
theorem Counted.lookup (present : s.requests[i]? = some (r, .received))
    (guarded : s.Guarded ip (.lookup i now reached)) : (s.lookup i r now reached).Counted ip start := by
  by_cases from_ip : r.address = ip
  · obtain ⟨counts, rfl, fresh, free⟩ := guarded r present from_ip
    have nobody : ∀ j r' looked, ¬s.Holds ip j r' looked := by
      rintro j r' looked ⟨here, address⟩
      exact free _ (mem_of_getElem? here) address looked rfl
    have only : ∀ j r' looked, Holds ip
        ⟨s.penalties, s.requests.set i (r, .looked (some (s.penalties.count ip)))⟩ j r' looked →
          j = i ∧ r' = r ∧ looked = some (s.penalties.count ip) := by
      rintro j r' looked ⟨here, address⟩
      simp only [getElem?_set] at here
      split at here
      · split at here
        · simp only [Option.some.injEq, Prod.mk.injEq, Phase.looked.injEq] at here
          exact ⟨.symm ‹i = j›, here.1.symm, here.2.symm⟩
        · cases here
      · exact absurd ⟨here, address⟩ (nobody j r' looked)
    simp only [Traffic.lookup, counts, Penalties.penaltyLookup_of_fresh fresh]
    refine ⟨?_, ?_, ?_⟩
    · rw [finishedFrom_set present (by simp)]
      simp [counted.count]
    · intro j r' looked holds
      obtain ⟨-, rfl, rfl⟩ := only j r' looked holds
      exact ⟨counts, rfl⟩
    · intro j k q q' looked looked' first second
      rw [(only j q looked first).1, (only k q' looked' second).1]
  · have other : r.penalized ≠ some ip := fun counts => from_ip (Request.address_of_penalized counts)
    unfold Traffic.lookup
    split
    · rename_i elsewhere counts
      refine counted.set_of_ne present (by simp) from_ip (Penalties.count_penaltyLookup_of_ne ?_)
      rintro rfl
      exact other counts
    · exact counted.set_of_ne present (by simp) from_ip rfl

/-- The answer to the only request of the address adds one. -/
theorem Counted.finish (present : s.requests[i]? = some (r, .looked looked))
    (guarded : s.Guarded ip (.decide i now reached cache a)) :
    (s.finish i r looked now reached cache a).Counted ip start := by
  by_cases from_ip : r.address = ip
  · obtain ⟨rfl, refused⟩ := guarded r looked present from_ip
    obtain ⟨counts, rfl⟩ := counted.held i r looked ⟨present, from_ip⟩
    have nobody : ∀ j r' looked', ¬Holds ip (s.finish i r (some (s.penalties.count ip)) now true cache a)
        j r' looked' := by
      rintro j r' looked' ⟨here, address⟩
      simp only [Traffic.finish, getElem?_set] at here
      split at here
      · split at here
        · simp at here
        · cases here
      · exact absurd (counted.alone i j _ _ _ _ ⟨present, from_ip⟩ ⟨here, address⟩) ‹i ≠ j›
    refine ⟨?_, fun j r' looked' holds => absurd holds (nobody j r' looked'),
      fun j k q q' looked looked' first => absurd first (nobody j q looked)⟩
    simp only [Traffic.finish, if_true, Request.foldl_effects_of_refused counts refused,
      Penalties.count_penaltyUpdate, Option.getD_some]
    rw [finishedFrom_set present (by simp), counted.count]
    simp only [from_ip, and_self, if_true]
    omega
  · refine counted.set_of_ne present (by simp) from_ip ?_
    split
    · refine count_foldl_perform fun count sets => ?_
      exact from_ip (Request.address_of_penalized (Request.penalized_of_update sets))
    · rfl

theorem Counted.step {e : Event} (guarded : s.Guarded ip e) : (s.step e).Counted ip start := by
  cases e with
  | lookup i now reached =>
    simp only [Traffic.step]
    split
    · exact counted.lookup ‹_› guarded
    · exact counted
  | decide i now reached cache a =>
    simp only [Traffic.step]
    split
    · exact counted.finish ‹_› guarded
    · exact counted
  | sweep now =>
    have same := Penalties.count_penaltySweep_of_fresh guarded
    exact ⟨same.trans counted.count, fun i r looked holds => by
      rw [Traffic.step, same]; exact counted.held i r looked holds, counted.alone⟩

theorem Counted.run {events : List Event} (guarded : s.GuardedRun ip events) :
    (s.run events).Counted ip start := by
  induction events generalizing s with
  | nil => exact counted
  | cons e rest ih => exact ih (counted.step guarded.1) guarded.2

end

/-- The requests of an address, answered or not. -/
def sentFrom (s : Traffic) (ip : Bytes) : ℕ := s.requests.countP fun q => q.1.address = ip

theorem step_requests (s : Traffic) (e : Event) :
    (s.step e).requests.map Prod.fst = s.requests.map Prod.fst := by
  have set : ∀ (i : ℕ) (r : Request) (before after : Phase), s.requests[i]? = some (r, before) →
      (s.requests.set i (r, after)).map Prod.fst = s.requests.map Prod.fst := by
    intro i r before after present
    obtain ⟨bound, here⟩ := List.getElem?_eq_some_iff.mp present
    refine ext_getElem? fun j => ?_
    by_cases same : i = j
    · subst same
      simp [bound, here]
    · simp [getElem?_set_ne same]
  cases e with
  | lookup i now reached =>
    simp only [Traffic.step]
    split
    · rename_i r present
      unfold lookup
      split <;> exact set i r _ _ present
    · rfl
  | decide i now reached cache a =>
    simp only [Traffic.step]
    split
    · rename_i r count present
      exact set i r _ _ present
    · rfl
  | sweep now => rfl

theorem run_requests (s : Traffic) (events : List Event) :
    (s.run events).requests.map Prod.fst = s.requests.map Prod.fst := by
  induction events generalizing s with
  | nil => rfl
  | cons e rest ih => exact (ih (s.step e)).trans (s.step_requests e)

theorem sentFrom_run (s : Traffic) (events : List Event) (ip : Bytes) :
    (s.run events).sentFrom ip = s.sentFrom ip := by
  have count : ∀ s : Traffic, s.sentFrom ip = (s.requests.map Prod.fst).countP (·.address = ip) := by
    simp [sentFrom, countP_map, Function.comp_def]
  rw [count, count, run_requests]

/-- In every guarded run the stored count is the earlier one and one for each answered request of
the address, up to the cap; once they are all answered, one for each request. -/
theorem failures_counted (ip : Bytes) (s : Traffic) (received : ∀ q ∈ s.requests, q.2 = .received)
    (events : List Event) (guarded : s.GuardedRun ip events) :
    (s.run events).penalties.count ip =
        min (s.penalties.count ip + (s.run events).finishedFrom ip) maxPenalty ∧
      ((∀ q ∈ (s.run events).requests, q.1.address = ip → q.2 = .finished) →
        (s.run events).penalties.count ip = min (s.penalties.count ip + s.sentFrom ip) maxPenalty) := by
  have nobody : ∀ i r looked, ¬s.Holds ip i r looked := by
    rintro i r looked ⟨here, -⟩
    cases received _ (mem_of_getElem? here)
  have zero : s.finishedFrom ip = 0 := by
    refine countP_eq_zero.mpr fun q member => ?_
    simp [received q member]
  have start : s.Counted ip (s.penalties.count ip) :=
    ⟨by rw [zero, Nat.add_zero, min_eq_left Penalties.count_le],
      fun i r looked holds => absurd holds (nobody i r looked),
      fun i j q q' looked looked' first => absurd first (nobody i q looked)⟩
  have counted := (start.run guarded).count
  refine ⟨counted, fun answered => ?_⟩
  rw [counted, ← sentFrom_run s events ip]
  congr 2
  refine countP_congr fun q member => ?_
  simp only [Bool.decide_and, Bool.and_eq_true, decide_eq_true_eq, and_iff_left_iff_imp]
  exact answered q member

/-- A request of `u` with the password `p` from the address `1`, to a server that refuses it. -/
def refusedRequest : Request × Phase :=
  ({ srv :=
      { passdbs := [fun _ => ⟨.fail, []⟩], masterdb := [], masterUserSeparator := [],
        masterUsersEnabled := false, penalty := true, policy := false,
        policyMode := ⟨false, false, false⟩, mac := id }
     connIP := [49]
     fields := [[], [49], mechPlain, attrResp ++ [0, 117, 0, 112]] }, .received)

/-- Two such requests and an empty store. -/
def twoRefused : Traffic := ⟨⟨3600, fun _ => none⟩, [refusedRequest, refusedRequest]⟩

def plainAnswers : Answers := ⟨[], none, false, false, 0, 0, none⟩

theorem refusedRequest_refused : refusedRequest.1.Refused none plainAnswers :=
  ⟨⟨[], [117], [112], [], [49]⟩, by decide, by decide, by decide⟩

/-- One after the other they count as two. -/
theorem failures_counted_in_turn :
    (twoRefused.run [.lookup 0 0 true, .decide 0 1 true none plainAnswers, .lookup 1 2 true,
      .decide 1 3 true none plainAnswers]).penalties.count [49] = 2 := by
  have counted := (failures_counted [49] twoRefused (by decide)
    [.lookup 0 0 true, .decide 0 1 true none plainAnswers, .lookup 1 2 true,
      .decide 1 3 true none plainAnswers] ⟨?_, ?_, ?_, ?_, trivial⟩).2 (by decide)
  · exact counted
  · rintro r present -
    cases present
    refine ⟨by decide, rfl, by decide, ?_⟩
    intro q member _ count
    have waits : q ∈ [refusedRequest, refusedRequest] := member
    simp only [mem_cons, not_mem_nil, or_false, or_self] at waits
    simp [waits, refusedRequest]
  · rintro r count present -
    cases present
    exact ⟨rfl, refusedRequest_refused⟩
  · rintro r present -
    cases present
    refine ⟨by decide, rfl, by decide, ?_⟩
    intro q member _ count
    have waits : q ∈ [(refusedRequest.1, .finished), refusedRequest] := member
    simp only [mem_cons, not_mem_nil, or_false] at waits
    rcases waits with rfl | rfl <;> simp [refusedRequest]
  · rintro r count present -
    cases present
    exact ⟨rfl, refusedRequest_refused⟩

/-- Two refused requests that overlap count as one. -/
theorem overlapping_failures_count_once :
    (twoRefused.run [.lookup 0 0 true, .lookup 1 0 true, .decide 0 1 true none plainAnswers,
      .decide 1 1 true none plainAnswers]).finishedFrom [49] = 2 ∧
    (twoRefused.run [.lookup 0 0 true, .lookup 1 0 true, .decide 0 1 true none plainAnswers,
      .decide 1 1 true none plainAnswers]).penalties.count [49] = 1 := by
  decide

end Traffic

end Yarilo.Auth

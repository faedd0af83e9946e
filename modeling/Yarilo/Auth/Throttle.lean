import Yarilo.Auth.Handle

/-! # Who is throttled

A login is throttled when its address's penalty is looked up before the password is checked and set
after it, and the policy server is asked wherever it is enabled. Requests with a target are exempt.
The target is read before it is known whether it is another user, so a login that names itself as
its own target is checked as a plain login and exempt all the same.
-/

namespace Yarilo.Auth

open Library

namespace Server

/-- What throttling asks of the effects of a call that is decided with `result`: the penalty around
the check, and the enabled policy checks in their places. -/
def Surrounded (srv : Server) (c : AuthCall) (result : AuthResult) (effects : List Effect) : Prop :=
  ∃ before after, effects = before ++ .check c :: after ∧ (srv.penalty = true → c.remoteIP ≠ [] →
      .penaltyLookup c.remoteIP ∈ before ∧ ∃ count, .penaltyUpdate c.remoteIP count ∈ after) ∧
    (srv.policy = true → srv.policyMode.checkBefore = true → .policyBefore (policyRequest c) ∈ before) ∧
    (srv.policy = true → srv.policyMode.checkAfter = true → result = .ok →
      .policyAfter (policyRequest c) ∈ after)

/-- Whenever the command checks a password as a login of its owner and a decision is reached, the
check is surrounded. -/
def ThrottlesLogins (srv : Server) (cache : Option Cache) (a : Answers) (fields : List Bytes) : Prop :=
  ∀ c, .check c ∈ (srv.handleAuth cache a fields).1 → ¬c.Impersonates →
    (srv.authenticate cache a.now a.stamp c).1.result ≠ .tempFail →
    srv.Surrounded c (srv.authenticate cache a.now a.stamp c).1.result
      (srv.handleAuth cache a fields).1

/-- The response names the user whose password it gives as the target, in the first part or before
the separator. -/
def NamesItself (srv : Server) (p : PlainResponse) : Prop := srv.masterUsersEnabled = true ∧
    (p.authzid ≠ [] ∧ p.authzid = p.authid ∨ p.authzid = [] ∧ ∃ name, name ≠ [] ∧
        splitMasterFromAuthid p.authid srv.masterUserSeparator = (name, name))

/-- The command carries such a response. -/
def CommandNamesItself (srv : Server) (fields : List Bytes) : Prop :=
  ∃ verb id mech rest p, fields = verb :: id :: mech :: rest ∧
    parsePlain mech (readAttributes rest).resp = some p ∧ srv.NamesItself p

/-- A penalty store or a policy check is enabled. -/
def Guards (srv : Server) : Prop := srv.penalty = true ∨
    srv.policy = true ∧ (srv.policyMode.checkBefore = true ∨ srv.policyMode.checkAfter = true)

variable {srv : Server} {cache : Option Cache} {a : Answers} {session : Bytes} {c : AuthCall}
  {res : AuthResponse}

theorem namesItself_iff (p : PlainResponse) : srv.NamesItself p ↔
      (srv.masterAndTarget p).2 ≠ [] ∧ (srv.masterAndTarget p).2 = (srv.masterAndTarget p).1 := by
  unfold NamesItself masterAndTarget
  by_cases enabled : srv.masterUsersEnabled = true
  · simp only [enabled, true_and, if_true]
    by_cases authzid : p.authzid = []
    · by_cases sep : srv.masterUserSeparator = []
      · simp [authzid, sep, splitMasterFromAuthid]
      simp only [authzid, sep, ne_eq, not_true_eq_false, false_and, not_false_eq_true, and_self,
        if_true, true_and, false_or]
      cases split : splitMasterFromAuthid p.authid srv.masterUserSeparator with
      | mk master target =>
        by_cases missing : target = []
        · simp [missing]
        simp only [missing, if_false, not_false_eq_true, true_and]
        constructor
        · rintro ⟨name, -, same⟩
          cases same
          rfl
        · rintro rfl
          exact ⟨target, missing, rfl⟩
    · simp [authzid]
  · simp [enabled]

theorem check_notMem_finish (a : Answers) (id session : Bytes) (c c' : AuthCall)
    (res : AuthResponse) : .check c' ∉ (srv.finish a id session c res).1 := by
  unfold finish
  cases res.result with
  | ok =>
    simp only
    split <;> simp [onlyIf]
  | fail => simp [onlyIf]
  | tempFail => simp [onlyIf]

theorem penaltyUpdate_notMem_finish (a : Answers) (id session : Bytes) (c : AuthCall)
    (res : AuthResponse) (ip : Bytes) (count : ℕ) :
    .penaltyUpdate ip count ∉ (srv.finish a id session c res).1 := by
  unfold finish
  cases res.result with
  | ok =>
    simp only
    split <;> simp [onlyIf]
  | fail => simp [onlyIf]
  | tempFail => simp [onlyIf]

/-- The effects of a call whose password is checked. -/
def checkedEffects (srv : Server) (a : Answers) (id session : Bytes) (c : AuthCall)
    (res : AuthResponse) : List Effect :=
  onlyIf (srv.Throttles c) (.penaltyLookup c.remoteIP) ++
    onlyIf (srv.policy = true ∧ srv.policyMode.checkBefore ∧ c.target = [])
      (.policyBefore (policyRequest c)) ++
    .check c :: ((if srv.Throttles c then
        ((newCount (a.penalty.getD 0) res.result).map (Effect.penaltyUpdate c.remoteIP)).toList
      else []) ++ (srv.finish a id session c res).1)

/-- Unless the policy server refuses before it, the password is checked. -/
theorem handleCall_effects {id : Bytes}
    (passed : ¬((srv.policy = true ∧ srv.policyMode.checkBefore ∧ c.target = []) ∧ a.rejectBefore)) :
    (srv.handleCall cache a id session c).1 =
      srv.checkedEffects a id session c (srv.authenticate cache a.now a.stamp c).1 := by
  simp [handleCall, if_neg passed, checkedEffects]

/-- A check among the effects is the call's own, and the policy server has not refused before it. -/
theorem handleCall_of_check {id : Bytes} {c' : AuthCall}
    (checked : .check c' ∈ (srv.handleCall cache a id session c).1) :
    c' = c ∧ (srv.handleCall cache a id session c).1 =
      srv.checkedEffects a id session c (srv.authenticate cache a.now a.stamp c).1 := by
  by_cases refused : (srv.policy = true ∧ srv.policyMode.checkBefore ∧ c.target = []) ∧ a.rejectBefore
  · simp only [handleCall, if_pos refused] at checked
    simp [onlyIf] at checked
  have effects : (srv.handleCall cache a id session c).1 =
      srv.checkedEffects a id session c (srv.authenticate cache a.now a.stamp c).1 :=
    handleCall_effects refused
  refine ⟨?_, effects⟩
  rw [effects] at checked
  simp only [checkedEffects, onlyIf, List.mem_append, List.mem_cons, Effect.check.injEq] at checked
  rcases checked with (early | early) | same | update | late
  · split at early <;> simp at early
  · split at early <;> simp at early
  · exact same
  · split at update <;> simp at update
  · exact absurd late (check_notMem_finish a id session c c' _)

/-- Only a call that is throttled sets a count, and it sets that of its address. -/
theorem throttles_of_penaltyUpdate {id : Bytes} {ip : Bytes} {count : ℕ}
    (sets : .penaltyUpdate ip count ∈ (srv.handleCall cache a id session c).1) :
    srv.Throttles c ∧ c.remoteIP = ip := by
  by_cases refused : (srv.policy = true ∧ srv.policyMode.checkBefore ∧ c.target = []) ∧ a.rejectBefore
  · simp only [handleCall, if_pos refused] at sets
    simp [onlyIf] at sets
  rw [handleCall_effects refused] at sets
  simp only [checkedEffects, onlyIf, List.mem_append, List.mem_cons] at sets
  rcases sets with (early | early) | check | update | late
  · split at early <;> simp at early
  · split at early <;> simp at early
  · simp at check
  · split at update
    · rename_i throttles
      simp only [Option.mem_toList, Option.map_eq_some_iff, Effect.penaltyUpdate.injEq] at update
      obtain ⟨_, -, same, -⟩ := update
      exact ⟨throttles, same⟩
    · simp at update
  · exact absurd late (penaltyUpdate_notMem_finish a id session c _ ip count)

/-- A decision without a target is surrounded. -/
theorem surrounded_of_target {id : Bytes} (plain : c.target = []) (definite : res.result ≠ .tempFail) :
    srv.Surrounded c res.result (srv.checkedEffects a id session c res) := by
  refine ⟨_, _, rfl, ?_, ?_, ?_⟩
  · intro store address
    have throttles : srv.Throttles c := ⟨store, address, plain⟩
    refine ⟨by simp [onlyIf, throttles], ?_⟩
    cases result : res.result with
    | ok => exact ⟨0, by simp [throttles, newCount]⟩
    | fail => exact ⟨a.penalty.getD 0 + 1, by simp [throttles, newCount]⟩
    | tempFail => exact absurd result definite
  · intro policy enabled
    simp [onlyIf, policy, enabled, plain]
  · intro policy enabled ok
    refine List.mem_append_right _ ?_
    simp only [finish, ok]
    split
    · simp
    · simp [onlyIf, policy, enabled, plain]

/-- A decision with a target is surrounded by nothing. -/
theorem not_surrounded_of_target {id : Bytes} (target : c.target ≠ []) (address : c.remoteIP ≠ [])
    (guards : srv.Guards) (ok : res.result = .ok) :
    ¬srv.Surrounded c res.result (srv.checkedEffects a id session c res) := by
  have effects : ∀ e ∈ srv.checkedEffects a id session c res,
      (∀ ip, e ≠ .penaltyLookup ip) ∧ (∀ request, e ≠ .policyBefore request) ∧
        ∀ request, e ≠ .policyAfter request := by
    intro e member
    simp [checkedEffects, onlyIf, Throttles, target, finish, ok] at member
    rcases member with rfl | rfl <;> simp
  rintro ⟨before, after, split, penalty, early, late⟩
  have inside : ∀ e, e ∈ before ∨ e ∈ after → e ∈ srv.checkedEffects a id session c res := by
    rintro e (front | back)
    · rw [split]
      simp [front]
    · rw [split]
      simp [back]
  rcases guards with store | ⟨policy, enabled | enabled⟩
  · exact (effects _ (inside _ (.inl (penalty store address).1))).1 _ rfl
  · exact (effects _ (inside _ (.inl (early policy enabled)))).2.1 _ rfl
  · exact (effects _ (inside _ (.inr (late policy enabled ok)))).2.2 _ rfl

theorem surrounded_of_not_guards {result : AuthResult} {effects : List Effect} (unguarded : ¬srv.Guards)
    (checked : .check c ∈ effects) : srv.Surrounded c result effects := by
  obtain ⟨before, after, split⟩ := List.append_of_mem checked
  refine ⟨before, after, split, ?_, ?_, ?_⟩
  · intro store
    exact absurd (.inl store) unguarded
  · intro policy enabled
    exact absurd (.inr ⟨policy, .inl enabled⟩) unguarded
  · intro policy enabled
    exact absurd (.inr ⟨policy, .inr enabled⟩) unguarded

/-- A command that checks a password was read as a call, and the check is the call's. -/
theorem handleAuth_of_check {fields : List Bytes} (checked : .check c ∈ (srv.handleAuth cache a fields).1) :
    ∃ verb id mech rest p, fields = verb :: id :: mech :: rest ∧
      parsePlain mech (readAttributes rest).resp = some p ∧
      c = srv.callOf (readAttributes rest) a.connIP p ∧
      (srv.handleAuth cache a fields).1 = srv.checkedEffects a id (readAttributes rest).session c
          (srv.authenticate cache a.now a.stamp c).1 := by
  unfold handleAuth at checked ⊢
  match fields with
  | [] | [_] | [_, _] => simp at checked
  | verb :: id :: mech :: rest =>
    simp only at checked ⊢
    cases parsed : parsePlain mech (readAttributes rest).resp with
    | none => simp [parsed] at checked
    | some p =>
      simp only [parsed] at checked
      obtain ⟨rfl, effects⟩ := handleCall_of_check checked
      exact ⟨verb, id, mech, rest, p, rfl, parsed, rfl, effects⟩

/-- Whatever the password databases, the cache and the outside answer, the logins of a command are
throttled exactly if the command does not name its own user as the target or there is nothing to
throttle with. -/
theorem throttles_logins_iff (srv : Server) (fields : List Bytes) : (∀ passdbs masterdb cache a,
        ThrottlesLogins { srv with passdbs := passdbs, masterdb := masterdb } cache a fields) ↔
      ¬(srv.CommandNamesItself fields ∧ srv.Guards) := by
  constructor
  · rintro throttled ⟨⟨verb, id, mech, rest, p, rfl, parsed, names⟩, guards⟩
    -- every password is good, and the connection has an address
    let accepting : Server := { srv with passdbs := [fun _ => ⟨.ok, []⟩], masterdb := [] }
    let a : Answers := ⟨[49], none, false, false, 0, 0, none⟩
    let attrs := readAttributes rest
    let c := accepting.callOf attrs a.connIP p
    have handled : accepting.handleAuth none a (verb :: id :: mech :: rest) =
        accepting.handleCall none a id attrs.session c := by
      simp only [handleAuth, attrs, parsed]
      rfl
    obtain ⟨some, own⟩ := (@namesItself_iff accepting p).mp names
    have target : c.target ≠ [] := some
    have plain : ¬c.Impersonates := fun asks => asks.2 own
    have address : c.remoteIP ≠ [] := by
      simp only [c, callOf]
      split
      · simp [a]
      · assumption
    have ok : (accepting.authenticate none a.now a.stamp c).1.result = .ok := by
      simp [authenticate, authenticateMiss, chainResponse, runChains, plain, runAuth,
        chainAuthenticate, accepting, authResultFromChain]
    have effects : (accepting.handleAuth none a (verb :: id :: mech :: rest)).1 =
        accepting.checkedEffects a id attrs.session c (accepting.authenticate none a.now a.stamp c).1 := by
      rw [handled]
      exact handleCall_effects (by simp [a])
    have checked : .check c ∈ (accepting.handleAuth none a (verb :: id :: mech :: rest)).1 := by
      rw [effects]
      simp [checkedEffects]
    have surrounded := throttled _ _ none a c checked plain (by rw [ok]; simp)
    rw [effects] at surrounded
    exact not_surrounded_of_target target address guards ok surrounded
  · intro spared passdbs masterdb cache a c checked plain definite
    by_cases guards : srv.Guards
    · obtain ⟨verb, id, mech, rest, p, rfl, parsed, call, effects⟩ := handleAuth_of_check checked
      have target : c.target = [] := by
        by_contra some
        refine spared ⟨⟨verb, id, mech, rest, p, rfl, parsed, ?_⟩, guards⟩
        have own : c.target = c.master := by
          by_contra other
          exact plain ⟨some, other⟩
        rw [call] at some own
        exact (namesItself_iff p).mpr ⟨some, own⟩
      rw [effects]
      exact surrounded_of_target target definite
    · exact surrounded_of_not_guards guards checked

/-- With a penalty store and master users, `u` with the target `u` and a wrong password is refused by
the chains, and neither looked up nor counted. -/
theorem own_target_not_counted :
    let srv : Server :=
      { passdbs := [fun _ => ⟨.fail, []⟩], masterdb := [], masterUserSeparator := [],
        masterUsersEnabled := true, penalty := true, policy := false,
        policyMode := ⟨false, false, false⟩, mac := id }
    let a : Answers := ⟨[49], some 3, false, false, 0, 0, none⟩
    let fields : List Bytes := [[], [49], mechPlain, attrResp ++ [117, 0, 117, 0, 112]]
    (srv.handleAuth none a fields).1 =
      [.check ⟨[117], [117], [112], [], [49]⟩, .reply (replyFail ++ [49])] ∧
    ¬(AuthCall.mk [117] [117] [112] [] [49]).Impersonates ∧
    (srv.authenticate none 0 0 ⟨[117], [117], [112], [], [49]⟩).1.result = .fail ∧
    ¬srv.ThrottlesLogins none a fields := by
  refine ⟨by decide, by decide, by decide, ?_⟩
  intro throttled
  have effects : (Server.handleAuth
      { passdbs := [fun _ => ⟨.fail, []⟩], masterdb := [], masterUserSeparator := [],
        masterUsersEnabled := true, penalty := true, policy := false,
        policyMode := ⟨false, false, false⟩, mac := id } none ⟨[49], some 3, false, false, 0, 0, none⟩
      [[], [49], mechPlain, attrResp ++ [117, 0, 117, 0, 112]]).1 =
        [.check ⟨[117], [117], [112], [], [49]⟩, .reply (replyFail ++ [49])] := by decide
  obtain ⟨before, after, split, penalty, -⟩ :=
    throttled ⟨[117], [117], [112], [], [49]⟩ (by decide) (by decide) (by decide)
  have looked := (penalty rfl (by simp)).1
  have inside : .penaltyLookup [49] ∈ before ++ .check ⟨[117], [117], [112], [], [49]⟩ :: after := by
    simp [looked]
  rw [← split, effects] at inside
  simp at inside

end Server

end Yarilo.Auth

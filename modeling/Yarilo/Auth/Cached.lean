import Mathlib.Logic.Function.Basic
import Yarilo.Auth.Server

/-! # Answers from the cache

An entry of the cache was made from the chains' answer to an earlier call with its key and its
password. Where the key tells the calls apart and no driver looks at the address, that answer is the
answer to the present call.
-/

namespace Yarilo.Auth

open Library List

/-! ## What the chains look at -/

/-- The driver's answer does not depend on the client's address. -/
def Passdb.AddressFree (db : Passdb) : Prop :=
  ∀ (login : Login) (ip : Bytes), db { login with remoteIP := ip } = db login

/-- The driver never sets the user field to the empty name. -/
def Passdb.NamesUsers (db : Passdb) : Prop := ∀ login, (keyUser, []) ∉ (db login).sets

variable {dbs : List Passdb} {c c' : AuthCall} {fields : Fields}

theorem chainAuthenticate_address (free : ∀ db ∈ dbs, Passdb.AddressFree db) (login : Login)
    (ip : Bytes) (fields : Fields) :
    chainAuthenticate dbs { login with remoteIP := ip } fields = chainAuthenticate dbs login fields := by
  induction dbs with
  | nil => rfl
  | cons db rest ih =>
    simp [chainAuthenticate, free db (by simp) login ip, ih fun db member => free db (.tail _ member)]

theorem walkMasterdb_address (free : ∀ db ∈ dbs, Passdb.AddressFree db) (login : Login) (ip : Bytes)
    (fields : Fields) :
    walkMasterdb dbs { login with remoteIP := ip } fields = walkMasterdb dbs login fields := by
  induction dbs with
  | nil => rfl
  | cons db rest ih =>
    simp [walkMasterdb, free db (by simp) login ip, ih fun db member => free db (.tail _ member)]

/-- Every driver of the server is free of addresses and names users. -/
structure Server.Plain (srv : Server) : Prop where
  passdbs : ∀ db ∈ srv.passdbs, Passdb.AddressFree db ∧ Passdb.NamesUsers db
  masterdb : ∀ db ∈ srv.masterdb, Passdb.AddressFree db ∧ Passdb.NamesUsers db

/-! ## What the key tells apart -/

namespace AuthCall

/-- Neither the service nor the user whose password is given has a TAB in it. -/
structure TabFree (c : AuthCall) : Prop where
  service : (9 : UInt8) ∉ c.service
  master : (9 : UInt8) ∉ c.master

theorem makeCacheKey_inj {service service' user user' : Bytes} (free : (9 : UInt8) ∉ service)
    (free' : (9 : UInt8) ∉ service') (same : makeCacheKey service user = makeCacheKey service' user') :
    service = service' ∧ user = user' := by
  have cut := cut_singleton free user
  have cut' := cut_singleton free' user'
  simp only [makeCacheKey, append_assoc, singleton_append] at same
  rw [same, cut'] at cut
  simpa [eq_comm] using cut

/-- The name part of the key: the user, or the master and the target. -/
def keyName (c : AuthCall) : Bytes :=
  if c.Impersonates then [77, 58] ++ c.master ++ [9] ++ c.target else c.master

theorem key_eq (c : AuthCall) : c.key = makeCacheKey c.service c.keyName := by
  unfold key keyName
  split <;> rfl

/-- Two calls of one key ask the chains for the same. -/
theorem TabFree.of_key_eq (free : c.TabFree) (free' : c'.TabFree) (same : c.key = c'.key) :
    c.service = c'.service ∧ c.master = c'.master ∧ (c.Impersonates ↔ c'.Impersonates) ∧
      (c.Impersonates → c.target = c'.target) := by
  rw [key_eq, key_eq] at same
  obtain ⟨service, name⟩ := makeCacheKey_inj free.service free'.service same
  refine ⟨service, ?_⟩
  have marked : ∀ (m t m' : Bytes), (9 : UInt8) ∉ m' → [77, 58] ++ m ++ [9] ++ t ≠ m' := by
    rintro m t m' absent rfl
    exact absent (by simp)
  by_cases first : c.Impersonates <;> by_cases second : c'.Impersonates
  · simp only [keyName, first, second, if_true, append_assoc, append_cancel_left_eq,
      singleton_append] at name
    have cut := cut_singleton free.master c.target
    rw [name, cut_singleton free'.master] at cut
    obtain ⟨master, target⟩ : c'.master = c.master ∧ c'.target = c.target := by simpa using cut
    exact ⟨master.symm, by simp [first, second], fun _ => target.symm⟩
  · simp only [keyName, first, second, if_true, if_false] at name
    exact absurd name (marked _ _ _ free'.master)
  · simp only [keyName, first, second, if_true, if_false] at name
    exact absurd name.symm (marked _ _ _ free.master)
  · simp only [keyName, first, second, if_false] at name
    exact ⟨name, by simp [first, second], fun asks => absurd asks first⟩

end AuthCall

theorem Server.Plain.runChains_of_key_eq {srv : Server} (plain : srv.Plain) (free : c.TabFree)
    (free' : c'.TabFree) (same : c.key = c'.key) (password : c.password = c'.password) :
    srv.runChains c = srv.runChains c' := by
  obtain ⟨service, master, kind, target⟩ := free.of_key_eq free' same
  have login : c.login = { c'.login with remoteIP := c.remoteIP } := by
    simp [AuthCall.login, service, master, password]
  have regular := chainAuthenticate_address fun db member => (plain.passdbs db member).1
  have walk := walkMasterdb_address fun db member => (plain.masterdb db member).1
  by_cases asks : c.Impersonates
  · simp [Server.runChains, asks, kind.mp asks, runMasterAuth, masterFlag, login, regular, walk, target asks]
  · simp [Server.runChains, asks, kind.not.mp asks, runAuth, login, regular]

/-! ## The name in a response -/

namespace Fields

@[simp] theorem get_nil (key : Bytes) : get [] key = none := rfl

theorem get_set (f : Fields) (key value other : Bytes) :
    (f.set key value).get other = if other = key then some value else f.get other := by
  induction f with
  | nil =>
    by_cases same : other = key
    · simp [set, get, same]
    · have ne : (other == key) = false := by simpa using same
      simp [set, get, lookup_cons, same, ne]
  | cons p rest ih =>
    obtain ⟨k, v⟩ := p
    simp only [get] at ih
    by_cases here : k = key
    · subst here
      by_cases same : other = k
      · simp [set, get, same]
      · have ne : (other == k) = false := by simpa using same
        simp [set, get, lookup_cons, same, ne]
    · by_cases first : other = k
      · subst first
        simp [set, get, here]
      · have ne : (other == k) = false := by simpa using first
        simp [set, get, lookup_cons, here, ne, ih]

/-- The bag does not name the empty user. -/
def NamesUser (f : Fields) : Prop := f.get keyUser ≠ some []

theorem NamesUser.setAll {f : Fields} (named : f.NamesUser) {sets : List (Bytes × Bytes)}
    (plain : (keyUser, []) ∉ sets) : (f.setAll sets).NamesUser := by
  induction sets generalizing f with
  | nil => exact named
  | cons p rest ih =>
    obtain ⟨k, v⟩ := p
    simp only [mem_cons, Prod.mk.injEq, not_or] at plain
    refine ih ?_ plain.2
    unfold NamesUser
    rw [get_set]
    split
    · rename_i same
      intro empty
      exact plain.1 ⟨same, (Option.some.inj empty).symm⟩
    · exact named

end Fields

theorem chainAuthenticate_namesUser (names : ∀ db ∈ dbs, Passdb.NamesUsers db) (login : Login)
    (named : fields.NamesUser) : (chainAuthenticate dbs login fields).2.NamesUser := by
  induction dbs with
  | nil => exact named
  | cons db rest ih =>
    simp only [chainAuthenticate]
    split
    · exact ih fun db member => names db (.tail _ member)
    · exact named
    · exact named.setAll (names db (by simp) login)
    · exact named.setAll (names db (by simp) login)

theorem runMasterAuth_user (passdbs masterdb : List Passdb) (target : Bytes) (login : Login) :
    (runMasterAuth passdbs masterdb target login).2.get keyUser =
      if (runMasterAuth passdbs masterdb target login).1 = .ok then some target else none := by
  unfold runMasterAuth
  split
  rename_i result fields walked
  cases result <;> simp [switchIdentity, Fields.setAll, Fields.get_set]

/-- The name the chains answer with is the one a cached answer is completed with, unless the answer
refuses an impersonation. -/
theorem Server.Plain.username_eq {srv : Server} (plain : srv.Plain) (c : AuthCall)
    (granted : c.Impersonates → (srv.runChains c).1 = .ok) (e : CacheEntry)
    (made : srv.runChains c = (e.result, e.fields)) :
    responseFromCache c.reqUser e = srv.chainResponse c := by
  have fields : (srv.runChains c).2 = e.fields := by rw [made]
  simp only [responseFromCache, Server.chainResponse, made, AuthResponse.mk.injEq, true_and, and_true]
  by_cases asks : c.Impersonates
  · have ok := granted asks
    have named : e.fields.get keyUser = some c.target := by
      have user := runMasterAuth_user srv.passdbs srv.masterdb c.target c.login
      simp only [Server.runChains, asks, if_true] at ok fields
      rw [← fields, user, if_pos ok]
    simp [named, asks.1]
  · have own : c.reqUser = c.master := by
      unfold AuthCall.reqUser
      split
      · rfl
      rename_i some
      by_contra other
      exact asks ⟨some, other⟩
    have nonempty : e.fields.NamesUser := by
      rw [← fields]
      simp only [Server.runChains, asks, if_false]
      exact chainAuthenticate_namesUser (fun db member => (plain.passdbs db member).2) _
        (by simp [Fields.NamesUser])
    cases user : e.fields.get keyUser with
    | none => simp [asks, own]
    | some name =>
      have filled : name ≠ [] := by
        rintro rfl
        exact nonempty user
      simp [filled]

/-! ## Runs -/

namespace Cache

theorem evict_sublist (maxSize size : ℤ) (fuel : ℕ) (l : List (Bytes × CacheEntry)) :
    (evict maxSize size fuel l).Sublist l := by
  induction fuel generalizing l with
  | zero => exact .refl l
  | succ fuel ih =>
    simp only [evict]
    split
    · exact (ih l.dropLast).trans (dropLast_sublist l)
    · exact .refl l

variable {key : Bytes} {p : Bytes × CacheEntry}

theorem mem_of_mem_removeElement {c : Cache} (member : p ∈ (c.removeElement key).entries) : p ∈ c.entries :=
  (List.mem_filter.mp member).1

theorem mem_insert {c : Cache} {mac : Bytes → Bytes} {now : ℤ} {username password : Bytes}
    {result : Result} (member : p ∈ (c.insert mac now key username password result fields).entries) :
    p ∈ c.entries ∨ c.accepts key result = true ∧
      p = (key, c.newEntry mac now username password result fields) := by
  unfold insert at member
  split at member
  · rename_i accepted
    have kept : ∀ {q : Bytes × CacheEntry} {size : ℤ} {fuel : ℕ},
        q ∈ evict c.maxSize size fuel (c.removeElement key).entries → q ∈ c.entries :=
      fun inside => mem_of_mem_removeElement ((evict_sublist ..).subset inside)
    simp only at member
    split at member
    · exact .inl (kept member)
    rcases mem_cons.mp member with rfl | inside
    · exact .inr ⟨accepted, rfl⟩
    · exact .inl (kept inside)
  · exact .inl member

/-- What a lookup leaves was there, and what it answers with is an entry of the key and the password. -/
theorem lookup_cases (c : Cache) (mac : Bytes → Bytes) (now : ℤ) (key password : Bytes) :
    (∀ p ∈ (c.lookup mac now key password).2.entries, p ∈ c.entries) ∧
      (c.lookup mac now key password).2.negTTL = c.negTTL ∧
      ∀ e, (c.lookup mac now key password).1 = some e → (key, e) ∈ c.entries ∧ e.pwdMAC = mac password := by
  unfold lookup
  split
  · exact ⟨fun p member => member, rfl, by simp⟩
  rename_i e found
  have entry : (key, e) ∈ c.entries := by
    obtain ⟨front, back, split, -⟩ := lookup_eq_some_iff.mp found
    rw [split]
    simp
  split
  · exact ⟨fun p => mem_of_mem_removeElement, rfl, by simp⟩
  split
  · exact ⟨fun p member => member, rfl, by simp⟩
  rename_i fits
  refine ⟨forall_mem_cons.mpr ⟨entry, fun p => mem_of_mem_removeElement⟩, rfl, ?_⟩
  rintro e' same
  cases same
  exact ⟨entry, by simpa using (not_or.mp fits).2⟩

end Cache

/-- Every entry was made from the chains' answer to a call of its key and one of the passwords, and a
refused impersonation left none. -/
def Cache.Sound (srv : Server) (passwords : Set Bytes) (cache : Cache) : Prop :=
  ∀ key e, (key, e) ∈ cache.entries → ∃ c : AuthCall, c.TabFree ∧ c.password ∈ passwords ∧ c.key = key ∧
    e.pwdMAC = srv.mac c.password ∧ srv.runChains c = (e.result, e.fields) ∧
    (c.Impersonates → e.result = .ok)

/-- A request with the clock as the lookup and as the insertion read it. -/
structure Timed where
  now : ℤ
  stamp : ℤ
  call : AuthCall

/-- A request the cache cannot answer amiss: no TAB in its service and its user, and no refused
impersonation while refusals are kept. -/
structure Timed.Safe (srv : Server) (negTTL : ℤ) (t : Timed) : Prop where
  tabFree : t.call.TabFree
  granted : t.call.Impersonates → negTTL ≤ 0 ∨ (srv.runChains t.call).1 ≠ .fail

namespace Server

variable {srv : Server} {cache : Cache} {t : Timed} {passwords : Set Bytes}

theorem authenticateMiss_sound (sound : cache.Sound srv passwords) (safe : t.Safe srv cache.negTTL)
    (given : t.call.password ∈ passwords) :
    ∃ after, srv.authenticateMiss (some cache) t.stamp t.call = (srv.chainResponse t.call, some after) ∧
      after.Sound srv passwords ∧ after.negTTL = cache.negTTL := by
  simp only [authenticateMiss, Option.map_some]
  split
  · rename_i definite
    refine ⟨_, rfl, ?_, by unfold Cache.insert; split <;> rfl⟩
    intro key e member
    rcases Cache.mem_insert member with old | ⟨accepted, new⟩
    · exact sound key e old
    cases new
    refine ⟨t.call, safe.tabFree, given, rfl, rfl, rfl, ?_⟩
    intro asks
    rcases definite with ok | refused
    · exact ok
    -- a refusal is accepted only while refusals are kept
    rcases safe.granted asks with off | answered
    · rw [refused] at accepted
      simp only [Cache.accepts, decide_eq_true_eq] at accepted
      exact absurd accepted.1 (not_lt.mpr off)
    · exact absurd refused answered
  · exact ⟨cache, rfl, sound, rfl⟩

/-- One request: the answer is the chains', and the cache stays sound. -/
theorem Plain.authenticate_sound (plain : srv.Plain) (distinct : passwords.InjOn srv.mac)
    (sound : cache.Sound srv passwords) (safe : t.Safe srv cache.negTTL) (given : t.call.password ∈ passwords) :
    ∃ after, srv.authenticate (some cache) t.now t.stamp t.call = (srv.chainResponse t.call, some after) ∧
      after.Sound srv passwords ∧ after.negTTL = cache.negTTL := by
  obtain ⟨kept, negTTL, entry⟩ := cache.lookup_cases srv.mac t.now t.call.key t.call.password
  simp only [authenticate]
  split
  · rename_i e after found
    rw [found] at kept negTTL entry
    obtain ⟨member, digest⟩ := entry e rfl
    obtain ⟨c, free, known, key, made, answer, granted⟩ := sound _ _ member
    have password : c.password = t.call.password := distinct known given (by rw [← made, digest])
    have same := plain.runChains_of_key_eq free safe.tabFree key password
    have kind := (free.of_key_eq safe.tabFree key).2.2.1
    refine ⟨after, ?_, fun key e inside => sound key e (kept _ inside), negTTL⟩
    rw [plain.username_eq t.call (fun asks => ?_) e (by rw [← same, answer])]
    rw [← same, answer]
    exact granted (kind.mpr asks)
  · rename_i after found
    rw [found] at kept negTTL
    have smaller : after.Sound srv passwords := fun key e inside => sound key e (kept _ inside)
    obtain ⟨final, answer, sound, same⟩ := authenticateMiss_sound smaller (negTTL ▸ safe) given
    exact ⟨final, answer, sound, same.trans negTTL⟩

/-- The responses to a sequence of requests. -/
def serve (srv : Server) (cache : Option Cache) : List Timed → List AuthResponse
  | [] => []
  | t :: rest =>
    let (response, cache) := srv.authenticate cache t.now t.stamp t.call
    response :: srv.serve cache rest

theorem serve_none (requests : List Timed) :
    srv.serve none requests = requests.map fun t => srv.chainResponse t.call := by
  induction requests with
  | nil => rfl
  | cons t rest ih => simp [serve, authenticate, authenticateMiss, ih]

theorem Plain.serve_sound (plain : srv.Plain) (distinct : passwords.InjOn srv.mac)
    (sound : cache.Sound srv passwords) {requests : List Timed}
    (safe : ∀ t ∈ requests, t.Safe srv cache.negTTL) (given : ∀ t ∈ requests, t.call.password ∈ passwords) :
    srv.serve (some cache) requests = srv.serve none requests := by
  rw [serve_none]
  induction requests generalizing cache with
  | nil => rfl
  | cons t rest ih =>
    obtain ⟨after, answer, next, negTTL⟩ := plain.authenticate_sound distinct sound (safe t (by simp))
      (given t (by simp))
    simp only [serve, answer, map_cons]
    rw [ih next (fun t member => negTTL ▸ safe t (.tail _ member)) fun t member => given t (.tail _ member)]

/-- With drivers that do not look at the address and never name the empty user, a cache of any size
and lifetimes answers a sequence of safe requests, whose passwords have distinct digests, as the
chains do. -/
theorem cached_responses_eq (srv : Server) (plain : srv.Plain) (sizeBytes ttl negTTL : ℤ)
    (requests : List Timed) (safe : ∀ t ∈ requests, t.Safe srv negTTL)
    (distinct : Set.InjOn srv.mac {p | ∃ t ∈ requests, t.call.password = p}) :
    srv.serve (newCache sizeBytes ttl negTTL) requests = srv.serve none requests := by
  unfold newCache
  split
  · rfl
  · exact plain.serve_sound distinct (by simp [Cache.Sound]) safe fun t member => ⟨t, member, rfl⟩

/-- A server without masters, policy and penalties, over one password database; digests have 32 bytes. -/
def ofPassdb (db : Passdb) : Server where
  passdbs := [db]
  masterdb := []
  masterUserSeparator := []
  masterUsersEnabled := true
  penalty := false
  policy := false
  policyMode := ⟨false, false, false⟩
  mac password := (password ++ replicate 32 0).take 32

/-- A call at time 0 for the service `i` with the password `p`. -/
def timedCall (target master remoteIP : Bytes) : Timed where
  now := 0
  stamp := 0
  call := { target := target, master := master, password := [112], service := [105], remoteIP := remoteIP }

/-- The same call with the password `q`. -/
def mistyped (t : Timed) : Timed := { t with call := { t.call with password := [113] } }

theorem cached_responses_eq_twice :
    let srv := ofPassdb fun login => ⟨if login.password = [112] then .ok else .fail, []⟩
    let requests := [timedCall [] [97] [49], timedCall [] [97] [50], mistyped (timedCall [] [97] [50])]
    srv.serve (newCache 1000 60 60) requests = srv.serve none requests := by
  refine cached_responses_eq _ ⟨?_, ?_⟩ 1000 60 60 _ ?_ ?_
  · intro db member
    rw [mem_singleton.mp member]
    exact ⟨fun _ _ => rfl, fun login => by simp⟩
  · intro db member
    cases member
  · intro t member
    have call : t.call.service = [105] ∧ t.call.master = [97] ∧ t.call.target = [] := by
      simp only [mem_cons, not_mem_nil, or_false] at member
      rcases member with rfl | rfl | rfl <;> exact ⟨rfl, rfl, rfl⟩
    refine ⟨⟨by simp [call.1], by simp [call.2.1]⟩, fun asks => absurd call.2.2 asks.1⟩
  · rintro _ ⟨t, member, rfl⟩ _ ⟨u, member', rfl⟩
    simp only [mem_cons, not_mem_nil, or_false] at member member'
    rcases member with rfl | rfl | rfl <;> rcases member' with rfl | rfl | rfl <;> decide

/-- A login allowed from one address is answered from the cache at another one, and a regular login
under a name with a TAB in it answers for an impersonation. -/
theorem cached_response_ignores_address :
    let nets := ofPassdb fun login => ⟨if login.remoteIP = [49] then .ok else .fail, []⟩
    let named := ofPassdb fun login => ⟨if login.username = [77, 58, 109, 9, 116] then .ok else .fail, []⟩
    ((nets.serve (newCache 1000 60 60) [timedCall [] [97] [49], timedCall [] [97] [50]]).map
        (·.result) = [.ok, .ok] ∧
      (nets.serve none [timedCall [] [97] [49], timedCall [] [97] [50]]).map (·.result) = [.ok, .fail]) ∧
    (named.serve (newCache 1000 60 60)
        [timedCall [] [77, 58, 109, 9, 116] [49], timedCall [116] [109] [49]]).map (·.result) =
      [.ok, .ok] ∧
    (named.serve none [timedCall [] [77, 58, 109, 9, 116] [49], timedCall [116] [109] [49]]).map
        (·.result) = [.ok, .fail] := by
  decide

end Server

end Yarilo.Auth

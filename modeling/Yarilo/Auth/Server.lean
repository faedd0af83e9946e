import Yarilo.Auth.Cache

/-! # The authentication server

A request is read from its fields, the target of an impersonation is found in it, the client's
penalty is looked up, the policy server is asked, the chains or the cache decide, the penalty is set
again and the reply is written. What the penalty store and the policy server answer, the clock and
the connection's address are arguments; what the server asks of them is the list of its effects.
-/

namespace Yarilo.Auth

open Library

structure PolicyMode where
  checkBefore : Bool
  checkAfter : Bool
  reportAfter : Bool
deriving DecidableEq

structure Server where
  passdbs : List Passdb
  masterdb : List Passdb
  masterUserSeparator : Bytes
  masterUsersEnabled : Bool
  /-- a penalty store is attached -/
  penalty : Bool
  /-- a policy server is attached -/
  policy : Bool
  policyMode : PolicyMode
  /-- the keyed digest of the cache -/
  mac : Bytes → Bytes

inductive AuthResult where
  | ok
  | fail
  | tempFail
deriving DecidableEq

structure AuthResponse where
  result : AuthResult
  username : Bytes
  fields : Fields
deriving DecidableEq

def authResultFromChain : Result → AuthResult
  | .ok => .ok
  | .tempFail => .tempFail
  | .fail => .fail
  | .next => .fail

/-- The response a cached entry stands for. -/
def responseFromCache (reqUser : Bytes) (e : CacheEntry) : AuthResponse :=
  let named := (e.fields.get keyUser).getD []
  { result := authResultFromChain e.result
    username := if named = [] then reqUser else named
    fields := e.fields }

/-- What `authenticate` is called with. -/
structure AuthCall where
  target : Bytes
  master : Bytes
  password : Bytes
  service : Bytes
  remoteIP : Bytes
deriving DecidableEq

namespace AuthCall

variable (c : AuthCall)

/-- The call asks for another user than the one whose password it gives. -/
def Impersonates : Prop := c.target ≠ [] ∧ c.target ≠ c.master

instance (c : AuthCall) : Decidable c.Impersonates :=
  inferInstanceAs (Decidable (c.target ≠ [] ∧ c.target ≠ c.master))

def key : Bytes :=
  if c.Impersonates then makeCacheKey c.service ([77, 58] ++ c.master ++ [9] ++ c.target)
  else makeCacheKey c.service c.master

def login : Login :=
  { username := c.master, password := c.password, service := c.service, remoteIP := c.remoteIP }

/-- The user a response names when its fields name none. -/
def reqUser : Bytes := if c.target = [] then c.master else c.target

end AuthCall

namespace Server

variable (srv : Server)

def runChains (c : AuthCall) : Result × Fields :=
  if c.Impersonates then runMasterAuth srv.passdbs srv.masterdb c.target c.login
  else runAuth srv.passdbs c.login

/-- The response of the chains. A granted impersonation has switched the request's user name. -/
def chainResponse (c : AuthCall) : AuthResponse :=
  let (result, fields) := srv.runChains c
  let username := if c.Impersonates ∧ result = .ok then c.target else c.master
  { result := authResultFromChain result
    username := (fields.get keyUser).getD username
    fields := fields }

/-- The chains asked, and what they decided stored. -/
def authenticateMiss (cache : Option Cache) (stamp : ℤ) (c : AuthCall) :
    AuthResponse × Option Cache :=
  let (result, fields) := srv.runChains c
  (srv.chainResponse c,
    if result = .ok ∨ result = .fail then
      cache.map fun cache => cache.insert srv.mac stamp c.key c.master c.password result fields
    else cache)

def authenticate (cache : Option Cache) (now stamp : ℤ) (c : AuthCall) :
    AuthResponse × Option Cache :=
  match cache with
  | none => srv.authenticateMiss none stamp c
  | some cache =>
    match cache.lookup srv.mac now c.key c.password with
    | (some e, cache) => (responseFromCache c.reqUser e, some cache)
    | (none, cache) => srv.authenticateMiss (some cache) stamp c

end Server

end Yarilo.Auth

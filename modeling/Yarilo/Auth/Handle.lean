import Yarilo.Auth.Server

/-! # One AUTH command

The command's attributes are read, the SASL response is taken apart, the target of an impersonation
is found in the first part or in the user name, and the request runs through penalty, policy, chains
and reply. What it asks of the outside, in order, is its list of effects.
-/

namespace Yarilo.Auth

open Library

structure PolicyRequest where
  username : Bytes
  password : Bytes
  remoteIP : Bytes
  service : Bytes
deriving DecidableEq

inductive Effect where
  | penaltyLookup (ip : Bytes)
  | policyBefore (request : PolicyRequest)
  /-- the password is checked, by the cache or by the chains -/
  | check (call : AuthCall)
  | penaltyUpdate (ip : Bytes) (count : ℕ)
  | policyAfter (request : PolicyRequest)
  | policyReport (request : PolicyRequest) (success rejected : Bool)
  | reply (line : Bytes)
deriving DecidableEq

/-- The label of the request's metric. -/
inductive Label where
  | ok
  | fail
  | tempfail
  | badRequest
deriving DecidableEq

/-- What the outside answers while a request is handled. -/
structure Answers where
  /-- the address of the connection's peer -/
  connIP : Bytes
  /-- the count of the penalty store, unless the lookup fails -/
  penalty : Option ℕ
  /-- the policy server refuses before or after the chains -/
  rejectBefore : Bool
  rejectAfter : Bool
  /-- the clock as the cache reads it -/
  now : ℤ
  stamp : ℤ
  /-- the token of the session, if one is issued -/
  token : Option Bytes

/-! ## Reading the command -/

/-- The attributes of an AUTH command; of a repeated one the last counts. -/
structure Attributes where
  service : Bytes
  resp : Bytes
  rip : Bytes
  session : Bytes
deriving DecidableEq

def attrService : Bytes := [115, 101, 114, 118, 105, 99, 101, 61]
def attrResp : Bytes := [114, 101, 115, 112, 61]
def attrRip : Bytes := [114, 105, 112, 61]
def attrSession : Bytes := [115, 101, 115, 115, 105, 111, 110, 61]
def attrUser : Bytes := [117, 115, 101, 114, 61]

def Attributes.read (a : Attributes) (f : Bytes) : Attributes :=
  match f.dropPrefix? attrService with
  | some v => { a with service := v }
  | none =>
    match f.dropPrefix? attrResp with
    | some v => { a with resp := v }
    | none =>
      match f.dropPrefix? attrRip with
      | some v => { a with rip := v }
      | none =>
        match f.dropPrefix? attrSession with
        | some v => { a with session := v }
        | none => a

def readAttributes (fields : List Bytes) : Attributes :=
  fields.foldl Attributes.read ⟨[], [], [], []⟩

/-- The parts of a SASL PLAIN response. -/
structure PlainResponse where
  authzid : Bytes
  authid : Bytes
  password : Bytes
deriving DecidableEq

def mechPlain : Bytes := [80, 76, 65, 73, 78]
def mechLogin : Bytes := [76, 79, 71, 73, 78]

/-- Three parts between two NULs, or two parts and no `authzid`. -/
def parsePlain (mech resp : Bytes) : Option PlainResponse :=
  if mech = mechPlain ∨ mech = mechLogin then
    match cut [0] resp with
    | none => none
    | some (first, rest) =>
      match cut [0] rest with
      | some (second, third) => some ⟨first, second, third⟩
      | none => some ⟨[], first, rest⟩
  else none

/-- The master and the target of a name `target<sep>master`; without both sides the name is the
master's and there is no target. -/
def splitMasterFromAuthid (authid sep : Bytes) : Bytes × Bytes :=
  if sep = [] then (authid, [])
  else
    match cut sep authid with
    | none => (authid, [])
    | some (target, master) => if target = [] ∨ master = [] then (authid, []) else (master, target)

namespace Server

variable (srv : Server)

/-- The master and the target the server reads from a response. -/
def masterAndTarget (p : PlainResponse) : Bytes × Bytes :=
  if srv.masterUsersEnabled then
    if p.authzid = [] ∧ srv.masterUserSeparator ≠ [] then
      let (master, target) := splitMasterFromAuthid p.authid srv.masterUserSeparator
      if target = [] then (p.authid, []) else (master, target)
    else (p.authid, p.authzid)
  else (p.authid, [])

def callOf (attrs : Attributes) (connIP : Bytes) (p : PlainResponse) : AuthCall :=
  let (master, target) := srv.masterAndTarget p
  { target := target
    master := master
    password := p.password
    service := attrs.service
    remoteIP := if attrs.rip = [] then connIP else attrs.rip }

/-! ## Running it -/

/-- The penalty is looked up and set for this call: there is a store and an address, and no target. -/
def Throttles (c : AuthCall) : Prop := srv.penalty = true ∧ c.remoteIP ≠ [] ∧ c.target = []

instance (c : AuthCall) : Decidable (srv.Throttles c) :=
  inferInstanceAs (Decidable (srv.penalty = true ∧ c.remoteIP ≠ [] ∧ c.target = []))

def policyRequest (c : AuthCall) : PolicyRequest :=
  { username := c.master, password := c.password, remoteIP := c.remoteIP, service := c.service }

/-- The count a decision sets, given the count that was looked up. -/
def newCount (count : ℕ) : AuthResult → Option ℕ
  | .ok => some 0
  | .fail => some (count + 1)
  | .tempFail => none

def replyFail : Bytes := [70, 65, 73, 76, 9]
def reasonBadCredentials : Bytes :=
  [9, 114, 101, 97, 115, 111, 110, 61, 98, 97, 100, 45, 99, 114, 101, 100, 101, 110, 116, 105, 97,
    108, 115]
def codeTempFail : Bytes := [9, 99, 111, 100, 101, 61, 116, 101, 109, 112, 95, 102, 97, 105, 108]
def replyOK : Bytes := [79, 75, 9]
def attrToken : Bytes := [9, 116, 111, 107, 101, 110, 61]
def scopeInternal : Bytes := [97, 117, 116, 104, 95]

/-- TAB, LF, NUL and the backslash, so that a value stays inside its token. -/
def escapeByte (b : UInt8) : Bytes :=
  if b = 9 then [92, 116] else if b = 10 then [92, 110] else if b = 0 then [92, 48]
  else if b = 92 then [92, 92] else [b]

def escapeFieldValue (v : Bytes) : Bytes := v.flatMap escapeByte

/-- The tokens of a bag that cross the wire. -/
def wireForm (f : Fields) : List Bytes :=
  (f.filter fun p => (p.1.dropPrefix? scopeInternal).isNone).map fun p =>
    p.1 ++ [61] ++ escapeFieldValue p.2

def buildAuthOK (id : Bytes) (res : AuthResponse) : Bytes :=
  replyOK ++ id ++ [9] ++ attrUser ++ res.username ++
    ((wireForm res.fields).filter fun t => (t.dropPrefix? attrUser).isNone).flatMap ([9] ++ ·)

def onlyIf (condition : Prop) [Decidable condition] (e : Effect) : List Effect :=
  if condition then [e] else []

/-- What follows the chains' answer. -/
def finish (a : Answers) (id session : Bytes) (c : AuthCall) (res : AuthResponse) :
    List Effect × Label :=
  let request := policyRequest c
  let asked := srv.policy = true ∧ c.target = []
  match res.result with
  | .tempFail =>
    (.reply (replyFail ++ id ++ codeTempFail) ::
      onlyIf (asked ∧ srv.policyMode.reportAfter) (.policyReport request false false), .tempfail)
  | .fail =>
    (.reply (replyFail ++ id) ::
      onlyIf (asked ∧ srv.policyMode.reportAfter) (.policyReport request false false), .fail)
  | .ok =>
    if asked ∧ srv.policyMode.checkAfter ∧ a.rejectAfter then
      (.policyAfter request :: .reply (replyFail ++ id) ::
        onlyIf srv.policyMode.reportAfter (.policyReport request false true), .fail)
    else
      let token := if session = [] then [] else (a.token.map (attrToken ++ ·)).getD []
      (onlyIf (asked ∧ srv.policyMode.checkAfter) (.policyAfter request) ++
        .reply (buildAuthOK id res ++ token) ::
        onlyIf (asked ∧ srv.policyMode.reportAfter) (.policyReport request true false), .ok)

def handleCall (cache : Option Cache) (a : Answers) (id session : Bytes) (c : AuthCall) :
    List Effect × Label × Option Cache :=
  let request := policyRequest c
  let lookup := onlyIf (srv.Throttles c) (.penaltyLookup c.remoteIP)
  let asks := srv.policy = true ∧ srv.policyMode.checkBefore ∧ c.target = []
  if asks ∧ a.rejectBefore then
    (lookup ++ .policyBefore request :: .reply (replyFail ++ id) ::
      onlyIf srv.policyMode.reportAfter (.policyReport request false true), .fail, cache)
  else
    let (res, cache) := srv.authenticate cache a.now a.stamp c
    let update := if srv.Throttles c then
        ((newCount (a.penalty.getD 0) res.result).map (Effect.penaltyUpdate c.remoteIP)).toList
      else []
    let (effects, label) := srv.finish a id session c res
    (lookup ++ onlyIf asks (.policyBefore request) ++ .check c :: update ++ effects, label, cache)

/-- `handleAuth` on the fields of one line. -/
def handleAuth (cache : Option Cache) (a : Answers) (fields : List Bytes) :
    List Effect × Label × Option Cache :=
  match fields with
  | _ :: id :: mech :: rest =>
    let attrs := readAttributes rest
    match parsePlain mech attrs.resp with
    | none => ([.reply (replyFail ++ id ++ reasonBadCredentials)], .badRequest, cache)
    | some p => srv.handleCall cache a id attrs.session (srv.callOf attrs a.connIP p)
  | _ => ([], .badRequest, cache)

end Server

end Yarilo.Auth

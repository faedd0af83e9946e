import Yarilo.Library.Text

/-! # Password databases and their chains

A driver answers a login and sets fields of the request. A chain asks its drivers in turn until one
does not pass the login on; what a passed-on driver set is rolled back. An impersonation asks the
master databases first and then looks for the master flag in the regular chain.
-/

namespace Yarilo.Auth

open Library

inductive Result where
  | ok
  | fail
  | next
  | tempFail
deriving DecidableEq

/-- The bag of fields: keys in the order of their first setting. -/
abbrev Fields := List (Bytes × Bytes)

namespace Fields

def get (f : Fields) (key : Bytes) : Option Bytes := f.lookup key

/-- A key set again keeps its place. -/
def set : Fields → Bytes → Bytes → Fields
  | [], key, value => [(key, value)]
  | (k, v) :: rest, key, value =>
    if k = key then (k, value) :: rest else (k, v) :: set rest key value

def setAll (f : Fields) (pairs : List (Bytes × Bytes)) : Fields :=
  pairs.foldl (fun f p => f.set p.1 p.2) f

end Fields

/-- What a driver is asked. -/
structure Login where
  username : Bytes
  password : Bytes
  service : Bytes
  remoteIP : Bytes
deriving DecidableEq

/-- What a driver answers. An error comes with `tempFail` and only with it. -/
structure Outcome where
  result : Result
  sets : List (Bytes × Bytes)
deriving DecidableEq

/-- A driver whose answer depends on the login alone. -/
abbrev Passdb := Login → Outcome

/-- `Chain.Authenticate`: the drivers in turn, each on the bag it was given. -/
def chainAuthenticate : List Passdb → Login → Fields → Result × Fields
  | [], _, fields => (.fail, fields)
  | db :: rest, login, fields =>
    let out := db login
    match out.result with
    | .next => chainAuthenticate rest login fields
    | .tempFail => (.tempFail, fields)
    | .ok => (.ok, fields.setAll out.sets)
    | .fail => (.fail, fields.setAll out.sets)

def runAuth (passdbs : List Passdb) (login : Login) : Result × Fields :=
  chainAuthenticate passdbs login []

/-- The walk of the master databases. It ends with `next` when none of them knows the master. -/
def walkMasterdb : List Passdb → Login → Fields → Result × Fields
  | [], _, fields => (.next, fields)
  | db :: rest, login, fields =>
    let out := db login
    match out.result with
    | .next => walkMasterdb rest login fields
    | .tempFail => (.tempFail, fields)
    | .fail => (.fail, fields)
    | .ok => (.ok, fields.setAll out.sets)

def keyUser : Bytes := [117, 115, 101, 114]
def keyMasterUser : Bytes := [109, 97, 115, 116, 101, 114, 95, 117, 115, 101, 114]
def keyOriginalUser : Bytes := [111, 114, 105, 103, 105, 110, 97, 108, 95, 117, 115, 101, 114]
def keyLoginUser : Bytes := [108, 111, 103, 105, 110, 95, 117, 115, 101, 114]

/-- The identity switched to the target. -/
def switchIdentity (fields : Fields) (master target : Bytes) : Fields :=
  fields.setAll [(keyMasterUser, master), (keyOriginalUser, target), (keyLoginUser, target),
    (keyUser, target)]

/-- `1`, `yes`, `y`, `true`, `t` and `on`, in any case and between white space. -/
def isTruthy (value : Bytes) : Bool :=
  (trimSpace value).map toLowerByte ∈
    [[49], [121, 101, 115], [121], [116, 114, 117, 101], [116], [111, 110]]

/-- The regular chain with the master flag of the user required. -/
def masterFlag (passdbs : List Passdb) (login : Login) : Result × Fields :=
  match chainAuthenticate passdbs login [] with
  | (.tempFail, _) => (.tempFail, [])
  | (.ok, fields) =>
    if isTruthy ((fields.get keyMasterUser).getD []) then (.ok, fields) else (.fail, [])
  | (.fail, _) => (.fail, [])
  | (.next, _) => (.fail, [])

/-- `RunMasterAuth`; the login names the master. -/
def runMasterAuth (passdbs masterdb : List Passdb) (target : Bytes) (login : Login) :
    Result × Fields :=
  let (result, fields) :=
    match walkMasterdb masterdb login [] with
    | (.next, _) => masterFlag passdbs login
    | walked => walked
  match result with
  | .ok => (.ok, switchIdentity fields login.username target)
  | .tempFail => (.tempFail, [])
  | .fail => (.fail, [])
  | .next => (.fail, [])

end Yarilo.Auth

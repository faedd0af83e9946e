import Mathlib.Order.Monotone.Defs
import Yarilo.Acl.Evaluate
import Yarilo.Acl.Text
import Yarilo.Library.Path
import Yarilo.Mailbox.FolderName

/-! # The ACL store of a namespace

Every folder may have an ACL file. The store reads and writes these files under the folder's lock,
keeps what it parsed in a cache, and answers which rights somebody has on a folder: the first ACL
found on the folder, on one above it or at the root of the namespace counts, with the operator's
global ACL on top.
-/

namespace Yarilo.Acl

open Library Function

/-- A file as the file system has it. -/
structure AclFile where
  content : Bytes
  mtime : ℕ
  /-- whether it can be opened -/
  readable : Bool
deriving DecidableEq

/-- A folder's parsed ACL and the file it was parsed from; nil stands for no ACL. -/
structure CacheEntry where
  acl : Option ACL
  exists_ : Bool
  mtime : ℕ
  size : ℕ
  at_ : ℕ

structure GlobalRule where
  /-- a mailbox, or `*` for every mailbox -/
  mailbox : Bytes
  acl : ACL

/-- What is fixed for a store. -/
structure Config where
  /-- where a folder's file is; the empty name stands for the namespace root -/
  path : Bytes → Bytes
  mailboxesRoot : Bytes
  defaultsFromInbox : Bool
  globalsOnly : Bool
  global : List GlobalRule
  /-- how long a cached ACL is trusted; zero disables the cache -/
  ttl : ℕ

structure Store where
  files : Bytes → Option AclFile
  cache : Bytes → Option CacheEntry

inductive StoreError where
  | isRoot
  | outsideRoot
  | lock
  | unreadable
  | corrupt (err : ParseError)
  | refused
  | write
  | index
deriving DecidableEq

/-- The readings of the clock during a call; it does not go back. -/
structure Clock where
  reading : ℕ → ℕ
  monotone : Monotone reading

/-- What a writing call meets: whether it gets the lock, can change the file and the index, and the
time the file system stamps the file with. -/
structure Access where
  locked : Bool
  writes : Bool
  indexes : Bool
  mtime : ℕ
deriving DecidableEq

namespace Store

variable (s : Store)

def putCache (folder : Bytes) (ent : CacheEntry) : Store :=
  { s with cache := update s.cache folder (some ent) }

def invalidate (folder : Bytes) : Store :=
  { s with cache := update s.cache folder none }

def putFile (path : Bytes) (file : Option AclFile) : Store :=
  { s with files := update s.files path file }

/-- An entry is kept or dropped. -/
theorem invalidate_cache (folder f : Bytes) :
    (s.invalidate f).cache folder = s.cache folder ∨ (s.invalidate f).cache folder = none := by
  by_cases own : folder = f
  · right
    rw [own]
    exact update_self _ _ _
  · left
    exact update_of_ne own _ _

end Store

/-- The entries of all the global rules for a folder. -/
def globalFor (rules : List GlobalRule) (folder : Bytes) : ACL :=
  rules.flatMap fun rule => if rule.mailbox = [42] ∨ rule.mailbox = folder then rule.acl else []

def guardDestructivePath (root path : Bytes) : Except StoreError Unit :=
  if root = [] then .ok ()
  else if Path.clean path = Path.clean root then .error .isRoot
  else if Path.clean root ++ [47] <+: Path.clean path then .ok ()
  else .error .outsideRoot

namespace Config

variable (cfg : Config)

/-! ## Reading -/

def loadLocked (folder : Bytes) (s : Store) : Except StoreError (Option ACL) :=
  match s.files (cfg.path folder) with
  | none => .ok none
  | some file =>
    if file.readable then (parseACL file.content).mapError .corrupt else .error .unreadable

/-- The cached entry is trusted without a look at the file. -/
def Trusted (now : ℕ) (ent : CacheEntry) : Prop := now - ent.at_ < cfg.ttl

/-- The cached entry was parsed from this file, as far as its time and size tell. -/
def Matches (ent : CacheEntry) (file : AclFile) : Prop :=
  ent.exists_ = true ∧ ent.mtime = file.mtime ∧ ent.size = file.content.length

instance (now : ℕ) (ent : CacheEntry) : Decidable (cfg.Trusted now ent) :=
  inferInstanceAs (Decidable (_ < _))

instance (ent : CacheEntry) (file : AclFile) : Decidable (Matches ent file) :=
  inferInstanceAs (Decidable (_ ∧ _ ∧ _))

/-- Past the time a cached ACL is trusted, the file decides. -/
def revalidate (now : ℕ) (folder : Bytes) (s : Store) : Except StoreError (Option ACL) × Store :=
  match s.files (cfg.path folder) with
  | none => (.ok none, s.putCache folder ⟨none, false, 0, 0, now⟩)
  | some file =>
    match (s.cache folder).filter (Matches · file) with
    | some ent => (.ok ent.acl, s.putCache folder { ent with at_ := now })
    | none =>
      match cfg.loadLocked folder s with
      | .error err => (.error err, s)
      | .ok acl => (.ok acl, s.putCache folder ⟨acl, true, file.mtime, file.content.length, now⟩)

def getCached (now : ℕ) (folder : Bytes) (s : Store) : Except StoreError (Option ACL) × Store :=
  match (s.cache folder).filter (cfg.Trusted now ·) with
  | some ent => (.ok ent.acl, s)
  | none => cfg.revalidate now folder s

def get (now : ℕ) (folder : Bytes) (s : Store) : Except StoreError (Option ACL) × Store :=
  if 0 < cfg.ttl then cfg.getCached now folder s else (cfg.loadLocked folder s, s)

/-! ## Writing -/

variable (access : Access)

/-- The part of `Update` that runs under the lock. -/
def updateLocked (folder : Bytes)
    (fn : Option ACL → Except StoreError (Option ACL)) (s : Store) : Except StoreError Unit × Store :=
  let persist := fun current corrupted =>
    match fn current with
    | .error err => (.error err, s)
    | .ok none => (corrupted, s)
    | .ok (some next) =>
      if access.writes then
        let s := s.putFile (cfg.path folder) (some ⟨writeACL next.collapse.sorted, access.mtime, true⟩)
        (if access.indexes then .ok () else .error .index, s)
      else (.error .write, s)
  match cfg.loadLocked folder s with
  | .ok current => persist current (.ok ())
  -- a corrupt file is offered as empty, so that a function with a result repairs it
  | .error (.corrupt err) => persist none (.error (.corrupt err))
  | .error err => (.error err, s)

def update (folder : Bytes) (fn : Option ACL → Except StoreError (Option ACL))
    (s : Store) : Except StoreError Unit × Store :=
  match guardDestructivePath cfg.mailboxesRoot (cfg.path folder) with
  | .error err => (.error err, s)
  | .ok () =>
    let done := if access.locked then cfg.updateLocked access folder fn s else (.error .lock, s)
    (done.1, done.2.invalidate folder)

/-- Replaces a folder's ACL; nil leaves it alone. -/
def set (folder : Bytes) (acl : Option ACL) (s : Store) :
    Except StoreError Unit × Store :=
  cfg.update access folder (fun _ => .ok acl) s

def remove (folder : Bytes) (s : Store) : Except StoreError Unit × Store :=
  if ¬access.locked then (.error .lock, s)
  else if ¬access.writes then (.error .write, s)
  else
    (if access.indexes then .ok () else .error .index,
      (s.putFile (cfg.path folder) none).invalidate folder)

def rename (old new : Bytes) (s : Store) : Except StoreError Unit × Store :=
  let finish := fun s : Store =>
    (if access.indexes then .ok () else .error .index, (s.invalidate old).invalidate new)
  if ¬access.locked then (.error .lock, s)
  else
    match s.files (cfg.path old) with
    | none => finish s
    | some file =>
      if access.writes then
        finish ((s.putFile (cfg.path old) none).putFile (cfg.path new) (some file))
      else (.error .write, s)

/-! ## Rights -/

/-- What stands before each separator of a name, the longest first; names are read from behind. -/
def parents (sep : UInt8) : Bytes → List Bytes
  | [] => []
  | b :: before => if b = sep then before.reverse :: parents sep before else parents sep before

/-- The folder the namespace's default is read from. -/
def rootDefault : Bytes := if cfg.defaultsFromInbox then Mailbox.inbox else []

/-- The folders whose ACL is read for a folder, in turn; a separator of zero disables the walk. -/
def consulted (folder : Bytes) (sep : UInt8) : List Bytes :=
  if folder = [] then [cfg.rootDefault]
  else if sep = 0 then [folder]
  else (folder :: parents sep folder.reverse).takeWhile (· ≠ []) ++ [cfg.rootDefault]

/-- Reads the folders in turn, until one has an ACL. -/
def firstACL (clock : Clock) : (k : ℕ) → List Bytes → Store → Except StoreError (Option ACL) × Store
  | _, [], s => (.ok none, s)
  | k, folder :: rest, s =>
    match cfg.get (clock.reading k) folder s with
    | (.ok none, s) => firstACL clock (k + 1) rest s
    | found => found

def localACLFor (clock : Clock) (folder : Bytes) (sep : UInt8) (s : Store) :
    Except StoreError (Option ACL) × Store :=
  cfg.firstACL clock 0 (cfg.consulted folder sep) s

def effectiveFor (clock : Clock) (folder user : Bytes) (groups : List Bytes) (isOwner : Bool)
    (sep : UInt8) (s : Store) : Except StoreError Rights × Store :=
  if isOwner then (.ok fullRights, s)
  else
    let (found, s) := if cfg.globalsOnly then (.ok none, s) else cfg.localACLFor clock folder sep s
    match found with
    | .error err => (.error err, s)
    | .ok localACL =>
      let globalACL := globalFor cfg.global folder
      (.ok (if localACL = none ∧ globalACL = [] then ∅
        else effectiveWithGlobal (localACL.getD []) globalACL user groups false), s)

/-! ## Runs -/

inductive Call where
  | get (now : ℕ) (folder : Bytes)
  | update (access : Access) (folder : Bytes) (fn : Option ACL → Except StoreError (Option ACL))
  | remove (access : Access) (folder : Bytes)
  | rename (access : Access) (old new : Bytes)
  | effectiveFor (clock : Clock) (folder user : Bytes) (groups : List Bytes) (isOwner : Bool)
      (sep : UInt8)
  /-- another program changes a file -/
  | other (path : Bytes) (file : Option AclFile)

def step (s : Store) : Call → Store
  | .get now folder => (cfg.get now folder s).2
  | .update access folder fn => (cfg.update access folder fn s).2
  | .remove access folder => (cfg.remove access folder s).2
  | .rename access old new => (cfg.rename access old new s).2
  | .effectiveFor clock folder user groups isOwner sep =>
    (cfg.effectiveFor clock folder user groups isOwner sep s).2
  | .other path file => s.putFile path file

def run (s : Store) (calls : List Call) : Store := calls.foldl cfg.step s

end Config

end Yarilo.Acl

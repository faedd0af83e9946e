import Mathlib.Data.Finset.Insert
import Mathlib.Data.Fintype.Defs
import Yarilo.Library.Bytes

/-! # Rights, identifiers and entries

The rights of a mailbox are a set of eleven letters, an entry grants or withholds some of them to
whoever its identifier names, and an ACL is a list of entries.
-/

namespace Yarilo.Acl

open Library

inductive Right where
  | lookup | read | writeSeen | write | insert | post | create | deleteMailbox | deleteMessage
  | expunge | administer
deriving DecidableEq

/-- The canonical order of the letters. -/
def allRights : List Right :=
  [.lookup, .read, .writeSeen, .write, .insert, .post, .create, .deleteMailbox, .deleteMessage,
    .expunge, .administer]

theorem mem_allRights (r : Right) : r ∈ allRights := by
  cases r <;> decide

instance : Fintype Right := ⟨allRights.toFinset, fun r => List.mem_toFinset.mpr (mem_allRights r)⟩

def Right.letter : Right → UInt8
  | lookup => 108
  | read => 114
  | writeSeen => 115
  | write => 119
  | insert => 105
  | post => 112
  | create => 107
  | deleteMailbox => 120
  | deleteMessage => 116
  | expunge => 101
  | administer => 97

/-- A set of rights: the letter string is kept sorted and without repetitions, so it is the set. -/
abbrev Rights := Finset Right

def fullRights : Rights := Finset.univ

inductive Identifier where
  | anyone
  | authenticated
  | owner
  | user (name : Bytes)
  | group (name : Bytes)
  | groupOverride (name : Bytes)
deriving DecidableEq

structure Entry where
  identifier : Identifier
  rights : Rights
  negative : Bool
deriving DecidableEq

abbrev ACL := List Entry

end Yarilo.Acl

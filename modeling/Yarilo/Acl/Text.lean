import Mathlib.Data.Finset.Lattice.Basic
import Mathlib.Data.List.Sort
import Yarilo.Acl.Entry
import Yarilo.Library.Text
import Yarilo.Library.Utf8

/-! # The ACL file

An ACL is written one entry a line: the identifier, in quotes where a blank or a quote would be
misread, a minus sign before it (inside the quotes) if the entry withholds, a blank, and the letters
of the rights. A file without an entry is read as no ACL at all.
-/

namespace Yarilo.Acl

open Library

inductive EntryError where
  | unterminatedEscape
  | garbageAfterQuoted
  | unterminatedQuoted
  | emptyEntry
  | tooManyFields (line : Bytes)
  | identifierTooLong
  | identifierNotUtf8
  | controlCharacter
  | emptyName (kind : Bytes)
  | unknownIdentifier (s : Bytes)
  | invalidRight (rune : ℕ)
deriving DecidableEq

inductive ParseError where
  | line (number : ℕ) (err : EntryError)
  /-- a line that does not fit the reader's buffer -/
  | read
deriving DecidableEq

/-! ## Rights -/

/-- The rights a letter stands for; `c` and `d` are the obsolete ones. -/
def rightsOfRune (rune : ℕ) : Option Rights :=
  if rune = 99 then some {.create}
  else if rune = 100 then some {.deleteMessage, .expunge}
  else (allRights.find? fun r => r.letter.toNat = rune).map fun r => {r}

def parseRunes : List ℕ → Except EntryError Rights
  | [] => .ok ∅
  | rune :: rest =>
    match rightsOfRune rune with
    | none => .error (.invalidRight rune)
    | some rights => (parseRunes rest).map (rights ∪ ·)

def parseRights (s : Bytes) : Except EntryError Rights := parseRunes (Utf8.runes s)

/-- The letters in their canonical order. -/
def writeRights (rights : Rights) : Bytes := (allRights.filter (· ∈ rights)).map Right.letter

/-! ## Identifiers -/

def maxIdentifierLen : ℕ := 1024

def validIdentifier (s : Bytes) : Except EntryError Unit :=
  if maxIdentifierLen < s.length then .error .identifierTooLong
  else if ¬Utf8.Valid s then .error .identifierNotUtf8
  else if (Utf8.runes s).any fun rune => rune < 0x20 ∨ rune = 0x7f then .error .controlCharacter
  else .ok ()

def userKey : Bytes := [117, 115, 101, 114]

def groupKey : Bytes := [103, 114, 111, 117, 112]

def groupOverrideKey : Bytes := groupKey ++ [45, 111, 118, 101, 114, 114, 105, 100, 101]

/-- The kinds of identifier that carry a name, in the order in which they are tried. -/
def namedKinds : List (Bytes × (Bytes → Identifier)) :=
  [(userKey, .user), (groupOverrideKey, .groupOverride), (groupKey, .group)]

def parseNamed (s : Bytes) : List (Bytes × (Bytes → Identifier)) → Except EntryError Identifier
  | [] => .error (.unknownIdentifier s)
  | (kind, make) :: rest =>
    match s.dropPrefix? (kind ++ [61]) with
    | some name => if name = [] then .error (.emptyName kind) else .ok (make name)
    | none => parseNamed s rest

def anyoneWord : Bytes := [97, 110, 121, 111, 110, 101]

def anonymousWord : Bytes := [97, 110, 111, 110, 121, 109, 111, 117, 115]

def authenticatedWord : Bytes := [97, 117, 116, 104, 101, 110, 116, 105, 99, 97, 116, 101, 100]

def ownerWord : Bytes := [111, 119, 110, 101, 114]

def parseIdentifier (s : Bytes) : Except EntryError Identifier := do
  validIdentifier s
  if s = anyoneWord ∨ s = anonymousWord then return .anyone
  else if s = authenticatedWord then return .authenticated
  else if s = ownerWord then return .owner
  else parseNamed s namedKinds

def writeIdentifier : Identifier → Bytes
  | .anyone => anyoneWord
  | .authenticated => authenticatedWord
  | .owner => ownerWord
  | .user name => userKey ++ 61 :: name
  | .group name => groupKey ++ 61 :: name
  | .groupOverride name => groupOverrideKey ++ 61 :: name

/-! ## Entries -/

/-- A blank or a tab. -/
def isBlank (b : UInt8) : Bool := b = 32 ∨ b = 9

/-- `unquoteACL` behind the opening quote: the content and what follows the separator. -/
def unquote : Bytes → Except EntryError (Bytes × Bytes)
  | [] => .error .unterminatedQuoted
  | [92] => .error .unterminatedEscape
  | 92 :: c :: rest => (unquote rest).map fun (content, after) => (c :: content, after)
  | 34 :: [] => .ok ([], [])
  | 34 :: b :: rest => if isBlank b then .ok ([], rest) else .error .garbageAfterQuoted
  | c :: rest => (unquote rest).map fun (content, after) => (c :: content, after)

def splitIdentifier (s : Bytes) : Except EntryError (Bytes × Bytes) :=
  match s with
  | 34 :: rest => unquote rest
  | _ => .ok (s.takeWhile (!isBlank ·), (s.dropWhile (!isBlank ·)).tail)

def trimRight (p : UInt8 → Bool) (s : Bytes) : Bytes := (s.reverse.dropWhile p).reverse

/-- The entry of a line; blank lines and comments have none. -/
def parseEntry (line : Bytes) : Except EntryError (Option Entry) := do
  let t := trimSpace line
  if t = [] ∨ t.head? = some 35 then return none
  let s := trimRight (· = 13) (line.dropWhile isBlank)
  let (signed, rest) ← splitIdentifier s
  let (negative, idStr) := match signed with
    | 45 :: bare => (true, bare)
    | bare => (false, bare)
  if idStr = [] then throw .emptyEntry
  let rightsStr := trimRight isBlank (rest.dropWhile isBlank)
  if rightsStr.any isBlank then throw (.tooManyFields line)
  let id ← parseIdentifier idStr
  let rights ← parseRights rightsStr
  return some ⟨id, rights, negative⟩

def quote (id : Bytes) : Bytes :=
  34 :: id.flatMap (fun b => if b = 92 ∨ b = 34 then [92, b] else [b]) ++ [34]

def writeEntry (e : Entry) : Bytes :=
  let id := (if e.negative then [45] else []) ++ writeIdentifier e.identifier
  let id := if id.any fun b => isBlank b ∨ b = 34 ∨ b = 92 then quote id else id
  id ++ 32 :: writeRights e.rights

/-! ## The file -/

/-- One entry for each identifier and sign: the last one's rights, where the first one stood. -/
def collapseInto (out : ACL) (e : Entry) : ACL :=
  if out.any fun o => o.identifier = e.identifier ∧ o.negative = e.negative then
    out.map fun o =>
      if o.identifier = e.identifier ∧ o.negative = e.negative then { o with rights := e.rights }
      else o
  else out ++ [e]

def ACL.collapse (acl : ACL) : ACL := acl.foldl collapseInto []

def maxLineLen : ℕ := 1024 * 1024

/-- The lines between line feeds; nothing follows the last line feed. -/
def rawLines (s : Bytes) : List Bytes :=
  let parts := s.splitOn 10
  if parts.getLast? = some [] then parts.dropLast else parts

def dropCR (line : Bytes) : Bytes := if line.getLast? = some 13 then line.dropLast else line

/-- The entries of the lines, numbered from `number`; the first malformed one ends the reading. -/
def parseLines : (number : ℕ) → List Bytes → Except ParseError ACL
  | _, [] => .ok []
  | number, line :: rest =>
    if maxLineLen ≤ line.length then .error .read
    else
      match parseEntry (dropCR line) with
      | .error err => .error (.line number err)
      | .ok entry => (parseLines (number + 1) rest).map (entry.toList ++ ·)

/-- `ParseACL`; the result is nil when there is no entry. -/
def parseACL (s : Bytes) : Except ParseError (Option ACL) := do
  let out ← parseLines 1 (rawLines s)
  return if out = [] then none else some out.collapse

def Identifier.type : Identifier → ℕ
  | anyone => 1
  | authenticated => 2
  | owner => 3
  | user _ => 4
  | group _ => 5
  | groupOverride _ => 6

def Identifier.name : Identifier → Bytes
  | user name => name
  | group name => name
  | groupOverride name => name
  | _ => []

/-- The order of the entries in a file: by kind, name and sign. -/
def Entry.before (a b : Entry) : Bool :=
  if a.identifier.type ≠ b.identifier.type then a.identifier.type < b.identifier.type
  else if a.identifier.name ≠ b.identifier.name then a.identifier.name < b.identifier.name
  else !a.negative && b.negative

def ACL.sorted (acl : ACL) : ACL := acl.insertionSort fun a b => b.before a = false

def writeACL (acl : ACL) : Bytes := acl.flatMap fun e => writeEntry e ++ [10]

/-! ## An empty file is no ACL -/

theorem parseACL_nil : parseACL [] = .ok none := rfl

example : parseACL (writeACL [⟨.user [98, 32, 99], {.read, .lookup}, true⟩]) =
    .ok (some [⟨.user [98, 32, 99], {.lookup, .read}, true⟩]) := by
  decide +kernel

end Yarilo.Acl

import Mathlib.Data.List.Sort
import Yarilo.Mailbox.FolderName

/-! # The folders of a maildir

Folders are the dotted directories of the mail path. Creating a folder makes its directory, listing
reads the names back from the directories, and every start of a session brings directory names that
look foreign to the deployment's encoding.
-/

namespace Yarilo.Mailbox

open Library

/-! ## The check of a name -/

structure NameRules where
  validateFSNames : Bool
  refuseLayoutSeparator : Bool
  storageEscapeChar : Option EscapeChar
  reservedSegments : List Bytes

/-- The rules of a deployment that sets none, with its escape character. -/
def defaultNameRules (esc : Option EscapeChar) : NameRules where
  validateFSNames := true
  refuseLayoutSeparator := false
  storageEscapeChar := esc
  reservedSegments := [[99, 117, 114], [110, 101, 119], [116, 109, 112],
    [100, 98, 111, 120, 45, 77, 97, 105, 108, 115]]

inductive NameRefusal where
  | empty
  | nul
  | begins (byte : UInt8)
  | layoutSeparator
  | emptySegment
  | segment (segment : Bytes)
deriving DecidableEq

/-- A segment that is refused: a dot or two, or an empty one where the separator occurs. -/
def RefusedSegment (name : Bytes) (part : Bytes × Bytes) : Prop :=
  part.2 = [46] ∨ part.2 = [46, 46] ∨ part.2 = [] ∧ part.1 <:+: name

instance (name : Bytes) (part : Bytes × Bytes) : Decidable (RefusedSegment name part) :=
  inferInstanceAs (Decidable (_ ∨ _ ∨ _))

/-- `ValidateName` where the layout separator is the dot. That layout owns no names, so no reserved
segment is refused. -/
def validateName (rules : NameRules) (name : Bytes) (nsSep : Separator) : Except NameRefusal Unit :=
  if name = [] then .error .empty
  else if 0 ∈ name then .error .nul
  else if rules.validateFSNames = false ∧ rules.refuseLayoutSeparator = false ∧
      rules.reservedSegments = [] then .ok ()
  else if rules.validateFSNames ∧ name.head? = some 47 then .error (.begins 47)
  else if rules.validateFSNames ∧ name.head? = some 126 then .error (.begins 126)
  else if rules.refuseLayoutSeparator ∧ rules.storageEscapeChar.isNone ∧ nsSep.bytes ≠ [46] ∧ 46 ∈ name
    then .error .layoutSeparator
  else if rules.validateFSNames then
    match ([nsSep.bytes, [46], [47]].flatMap fun s => (split s name).map (s, ·)).find?
      fun part => RefusedSegment name part with
    | some part => .error (if part.2 = [] then .emptySegment else .segment part.2)
    | none => .ok ()
  else .ok ()

/-! ## Reading a stored name -/

def unhex (c : UInt8) : Option ℕ :=
  if 48 ≤ c ∧ c ≤ 57 then some (c.toNat - 48)
  else if 97 ≤ c ∧ c ≤ 102 then some (c.toNat - 87)
  else if 65 ≤ c ∧ c ≤ 70 then some (c.toNat - 55)
  else none

/-- An escape is read back; an escape character without two digits behind it stands for itself. -/
def unescapeStorageName (esc : UInt8) : Bytes → Bytes
  | [] => []
  | [a] => [a]
  | [a, b] => [a, b]
  | a :: b :: c :: rest =>
    if a = esc then
      match unhex b, unhex c with
      | some hi, some lo => UInt8.ofNat (hi * 16 + lo) :: unescapeStorageName esc rest
      | _, _ => a :: unescapeStorageName esc (b :: c :: rest)
    else a :: unescapeStorageName esc (b :: c :: rest)

namespace Naming

variable (n : Naming)

/-- The name of the folder that a dotted directory is, without the dot. -/
def logicalName (diskName : Bytes) : Option Bytes :=
  let decoded := if n.listUTF8 then some diskName else fromModUTF7 diskName
  decoded.map fun logical =>
    match n.escapeChar with
    | some esc =>
      n.separator.bytes.intercalate ((split [46] logical).map (unescapeStorageName esc.byte))
    | none =>
      if n.separator.bytes = [46] then logical else replaceAll [46] n.separator.bytes logical

def isASCIIName (s : Bytes) : Bool := s.all (· < 0x80)

/-- One level of a directory name in this deployment's encoding, unless it is not in the other one. -/
def adoptedLevel (level : Bytes) : Option Bytes :=
  if level = [] ∨ isASCIIName level ∧ 38 ∉ level then some level
  else if n.listUTF8 then fromModUTF7 level
  else if (fromModUTF7 level).map toModUTF7 = some level then some level
  else some (toModUTF7 level)

def adoptedDirName (dir : Bytes) : Option Bytes :=
  let levels := split [46] ((dir.dropPrefix? [46]).getD dir)
  (levels.mapM n.adoptedLevel).map fun wanted =>
    if wanted = levels then dir else 46 :: [46].intercalate wanted

end Naming

/-! ## The mail path -/

structure DirEntry where
  name : Bytes
  isDir : Bool
deriving DecidableEq

/-- The entries of the mail path. -/
abbrev MailDir := List DirEntry

namespace MailDir

/-- `os.ReadDir`: sorted by name. -/
def readDir (d : MailDir) : List DirEntry := d.insertionSort fun a b => a.name ≤ b.name

def Has (d : MailDir) (name : Bytes) : Prop := ∃ e ∈ d, e.name = name

instance (d : MailDir) (name : Bytes) : Decidable (d.Has name) :=
  inferInstanceAs (Decidable (∃ e ∈ d, e.name = name))

/-- A directory made if it is missing. A file in its place, or a NUL in its name, is an error, and the file
system may refuse (`refuses`). -/
def mkdir (refuses : Bytes → Bool) (d : MailDir) (name : Bytes) : Option MailDir :=
  if 0 ∈ name then none
  else if (⟨name, false⟩ : DirEntry) ∈ d then none
  else if d.Has name then some d
  else if refuses name then none
  else some (d ++ [⟨name, true⟩])

def rename (d : MailDir) (old new : Bytes) : MailDir :=
  d.map fun e => if e.name = old then { e with name := new } else e

end MailDir

namespace Naming

variable (n : Naming) (r : Roots)

/-- The way from the mail path to a path below it. -/
def below (path : Bytes) : Option (List Bytes) :=
  (Path.components path).dropPrefix? (Path.components r.mailPath)

/-- The entry of the mail path that a path leads to or through. -/
def entryOf (path : Bytes) : Option Bytes := (below r path).bind List.head?

/-- `Create`, as far as it shows in the mail path. The result is nothing on an error. -/
def create (refuses : Bytes → Bool) (d : MailDir) (folder : Bytes) : Option MailDir :=
  if folder ≠ inbox ∧ validateFolderName folder n.separator ≠ .ok () then none
  else if folder = inbox then some d
  else
    match entryOf r (n.folderPath r folder) with
    | some entry => d.mkdir refuses entry
    | none => some d

/-- One round of `adoptFolderNames`. A directory whose new name leads to another place than an entry of the mail
path is moved there if the file system lets it (`elsewhere`). -/
def adoptEntry (elsewhere refuses : Bytes → Bool) (d : MailDir) (e : DirEntry) : Option MailDir :=
  if e.isDir = false ∨ e.name.head? ≠ some 46 ∨ e.name = [46] ∨ e.name = [46, 46] then some d
  else
    match n.adoptedDirName e.name with
    | none => some d
    | some want =>
      if want = e.name then some d
      else
        match below r (Path.join r.mailPath want) with
        -- the mail path itself is there
        | some [] => none
        | some [entry] =>
          if 0 ∈ want ∨ d.Has entry ∨ refuses entry then none else some (d.rename e.name entry)
        | _ => if elsewhere want then some (d.filter (·.name ≠ e.name)) else none

def adoptFolderNames (elsewhere refuses : Bytes → Bool) (d : MailDir) : Option MailDir :=
  d.readDir.foldlM (n.adoptEntry r elsewhere refuses) d

def subdirs : List Bytes := [[99, 117, 114], [110, 101, 119], [116, 109, 112]]

/-- `Init` of a mailbox whose inbox is the mail path. -/
def init (elsewhere refuses : Bytes → Bool) (d : MailDir) : Option MailDir :=
  (subdirs.foldlM (MailDir.mkdir refuses) d).bind (n.adoptFolderNames r elsewhere refuses)

/-- `ListFolders`. -/
def listFolders (d : MailDir) : List Bytes :=
  inbox :: d.readDir.filterMap fun e =>
    if e.isDir ∧ e.name ≠ inbox then (e.name.dropPrefix? [46]).bind n.logicalName else none

end Naming

/-- What sessions do to the folders, and what the file system refuses them. -/
inductive FolderCall where
  | create (folder : Bytes) (refuses : Bytes → Bool)
  | init (elsewhere refuses : Bytes → Bool)

def FolderCall.created : FolderCall → Option Bytes
  | .create folder _ => some folder
  | .init .. => none

def FolderCall.refuses : FolderCall → Bytes → Bool
  | .create _ refuses => refuses
  | .init _ refuses => refuses

namespace Naming

variable (n : Naming) (r : Roots)

def step (d : MailDir) : FolderCall → Option MailDir
  | .create folder refuses => n.create r refuses d folder
  | .init elsewhere refuses => n.init r elsewhere refuses d

/-- The calls one after the other; nothing if one fails. -/
def run (d : MailDir) (calls : List FolderCall) : Option MailDir := calls.foldlM (n.step r) d

end Naming

end Yarilo.Mailbox

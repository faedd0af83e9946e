import Yarilo.Library.Path
import Yarilo.Mailbox.ModUtf7

/-! # Folder names and their directories

A folder's name becomes a directory of the maildir: the name is checked, the bytes that the layout
would read otherwise are escaped level by level, the text is encoded, the hierarchy separator is
written as a dot, and a dot is put in front. A name that the check refuses is sent to a directory
that does not exist.
-/

namespace Yarilo.Mailbox

open Library List

/-- The character that separates the levels of a name, as it is encoded. -/
structure Separator where
  bytes : Bytes
  nonempty : bytes ≠ []
  /-- one character: a single byte, or several bytes outside ASCII -/
  single : bytes.length = 1 ∨ ∀ b ∈ bytes, 0x80 ≤ b
  /-- the byte a character starts with is not among those that continue it -/
  apart : ∀ b ∈ bytes.head?, b ∉ bytes.tail

/-- The character that starts an escape. -/
structure EscapeChar where
  byte : UInt8
  ascii : byte < 0x80
  notDot : byte ≠ 46
  notSlash : byte ≠ 47

/-- How names become directory names. -/
structure Naming where
  separator : Separator
  escapeChar : Option EscapeChar
  listUTF8 : Bool

/-- The directories of a user's mailbox. -/
structure Roots where
  home : Bytes
  mailPath : Bytes
  inboxPath : Bytes
  explicitMailPath : Bool
  /-- empty when control files stay with the mail -/
  controlDir : Bytes
  mailPath_absolute : Path.Absolute mailPath
  controlDir_absolute : controlDir = [] ∨ Path.Absolute controlDir

inductive NameError where
  | empty
  | segment (segment : Bytes)
  | nul
deriving DecidableEq

def inbox : Bytes := [73, 78, 66, 79, 88]

/-- `ValidateFolderName`: no segment under the separator, a slash or a dot is a dot or two. -/
def validateFolderName (name : Bytes) (sep : Separator) : Except NameError Unit :=
  if name = [] then .error .empty
  else
    match ([sep.bytes, [47], [46]].flatMap fun s => split s name).find? fun segment =>
      segment = [46] ∨ segment = [46, 46] with
    | some segment => .error (.segment segment)
    | none => if 0 ∈ name then .error .nul else .ok ()

/-! ## Escaping -/

def hexDigit (n : ℕ) : UInt8 := if n < 10 then UInt8.ofNat (48 + n) else UInt8.ofNat (87 + n)

def writeEscaped (esc c : UInt8) : Bytes := [esc, hexDigit (c.toNat / 16), hexDigit (c.toNat % 16)]

/-- The bytes of a level that are escaped: the escape character, the layout separator, the slash, and
a tilde or a dot where a path segment starts. -/
def Escapes (esc : UInt8) (atSegmentStart : Bool) (c : UInt8) : Prop :=
  c = esc ∨ c = 46 ∨ c = 47 ∨ atSegmentStart = true ∧ (c = 126 ∨ c = 46)

instance (esc : UInt8) (atSegmentStart : Bool) (c : UInt8) : Decidable (Escapes esc atSegmentStart c) :=
  inferInstanceAs (Decidable (_ ∨ _ ∨ _ ∨ _))

def escapeFrom (esc : UInt8) : (atSegmentStart : Bool) → Bytes → Bytes
  | _, [] => []
  | atSegmentStart, c :: rest =>
    (if Escapes esc atSegmentStart c then writeEscaped esc c else [c]) ++
      escapeFrom esc (c = 47 ∨ c = 46) rest

/-- `EscapeStorageName` with the dot as layout separator; that layout owns no names of its own. -/
def escapeStorageName (name : Bytes) (esc : EscapeChar) : Bytes := escapeFrom esc.byte true name

def escapeLogicalName (name : Bytes) (nsSep : Separator) : Option EscapeChar → Bytes
  | none => name
  | some esc =>
    if name = [] then name
    else nsSep.bytes.intercalate ((split nsSep.bytes name).map (escapeStorageName · esc))

theorem hexDigit_table : ∀ n < 16, hexDigit n ≠ 46 ∧ hexDigit n ≠ 47 ∧ hexDigit n < 0x80 := by
  decide

theorem escapeFrom_eq_nil {esc : UInt8} {start : Bool} {s : Bytes} :
    escapeFrom esc start s = [] ↔ s = [] := by
  cases s with
  | nil => simp [escapeFrom]
  | cons c rest =>
    simp only [escapeFrom]
    split <;> simp [writeEscaped]

variable {b : UInt8} {name : Bytes} {esc : EscapeChar}

/-- A byte that the layout would read otherwise is not written. -/
theorem notMem_escapeFrom (esc : EscapeChar) (start : Bool) (s : Bytes) (special : b = 46 ∨ b = 47) :
    b ∉ escapeFrom esc.byte start s := by
  induction s generalizing start with
  | nil => simp [escapeFrom]
  | cons c rest ih =>
    have bound := c.toNat_lt
    have hi := hexDigit_table (c.toNat / 16) (by omega)
    have lo := hexDigit_table (c.toNat % 16) (by omega)
    simp only [escapeFrom, mem_append, not_or]
    refine ⟨?_, ih _⟩
    split
    · simp only [writeEscaped, mem_cons, not_mem_nil, or_false, not_or]
      rcases special with rfl | rfl
      · exact ⟨esc.notDot.symm, hi.1.symm, lo.1.symm⟩
      · exact ⟨esc.notSlash.symm, hi.2.1.symm, lo.2.1.symm⟩
    · rename_i kept
      rw [mem_singleton]
      rintro rfl
      refine kept ?_
      rcases special with rfl | rfl
      · exact .inr (.inl rfl)
      · exact .inr (.inr (.inl rfl))

/-- A level is written as it is, or with an escape in it. -/
theorem escapeFrom_eq_self_or (esc : UInt8) (start : Bool) (s : Bytes) : escapeFrom esc start s = s ∨
      esc ∈ escapeFrom esc start s ∧ 3 ≤ (escapeFrom esc start s).length := by
  induction s generalizing start with
  | nil => exact .inl rfl
  | cons c rest ih =>
    simp only [escapeFrom]
    split
    · exact .inr ⟨by simp [writeEscaped], by simp [writeEscaped]⟩
    rcases ih (c = 47 ∨ c = 46) with same | ⟨inside, long⟩
    · exact .inl (by rw [same]; rfl)
    refine .inr ⟨mem_append_right _ inside, ?_⟩
    rw [length_append]
    omega

namespace Separator

variable (sep : Separator)

/-- The separator holds an ASCII byte only if it is that byte. -/
theorem eq_of_mem (ascii : b < 0x80) (inside : b ∈ sep.bytes) : sep.bytes = [b] := by
  rcases sep.single with one | wide
  · obtain ⟨c, bytes⟩ := length_eq_one_iff.mp one
    rw [bytes, mem_singleton] at inside
    rw [bytes, inside]
  · exact absurd (wide b inside) (UInt8.not_le.mpr ascii)

theorem split_bytes : split sep.bytes sep.bytes = [[], []] := by
  have whole := split_append sep.nonempty []
  rwa [append_nil] at whole

end Separator

theorem mem_escapeLogicalName {sep : Separator} (special : b = 46 ∨ b = 47)
    (member : b ∈ escapeLogicalName name sep (some esc)) : sep.bytes = [b] := by
  have ascii : b < 0x80 := by
    rcases special with rfl | rfl <;> decide
  simp only [escapeLogicalName] at member
  split at member
  · simp_all
  rcases mem_intercalate member with inside | ⟨p, part, inside⟩
  · exact sep.eq_of_mem ascii inside
  · obtain ⟨q, -, rfl⟩ := mem_map.mp part
    exact absurd inside (notMem_escapeFrom esc true q special)

theorem escapeLogicalName_cases (sep : Separator) (esc : EscapeChar) (some : name ≠ []) :
    escapeLogicalName name sep (.some esc) = escapeStorageName name esc ∨
    ∃ p q rest, split sep.bytes name = p :: q :: rest ∧ escapeLogicalName name sep (.some esc) =
        escapeStorageName p esc ++ sep.bytes ++
          sep.bytes.intercalate ((q :: rest).map (escapeStorageName · esc)) := by
  have whole := intercalate_split sep.nonempty name
  have parts := split_ne_nil sep.nonempty name
  simp only [escapeLogicalName, some, if_false]
  match parted : split sep.bytes name with
  | [] => exact absurd parted parts
  | [p] =>
    rw [parted] at whole
    obtain rfl : p = name := by simpa [intercalate] using whole
    exact .inl (by simp [intercalate])
  | p :: q :: rest =>
    refine .inr ⟨p, q, rest, rfl, ?_⟩
    simp only [map_cons]
    rw [intercalate_cons_cons]

theorem escapeLogicalName_eq_nil {sep : Separator} :
    escapeLogicalName name sep (some esc) = [] ↔ name = [] := by
  by_cases empty : name = []
  · simp [escapeLogicalName, empty]
  rcases escapeLogicalName_cases sep esc empty with same | ⟨p, q, rest, -, same⟩
  · rw [same]
    exact escapeFrom_eq_nil
  · rw [same]
    simp [empty, sep.nonempty]

/-- Only the separator is written as the separator. -/
theorem escapeLogicalName_eq_separator {sep : Separator} :
    escapeLogicalName name sep (some esc) = sep.bytes ↔ name = sep.bytes := by
  constructor
  · intro written
    have some : name ≠ [] := by
      rintro rfl
      exact sep.nonempty written.symm
    rcases escapeLogicalName_cases sep esc some with same | ⟨p, q, rest, parts, same⟩
    · rw [same] at written
      rcases escapeFrom_eq_self_or esc.byte true name with kept | ⟨inside, long⟩
      · exact kept.symm.trans written
      have one := sep.eq_of_mem esc.ascii (written ▸ inside)
      have length := congrArg length (written.trans one)
      change (escapeFrom esc.byte true name).length = 1 at length
      omega
    · rw [same] at written
      have length := congrArg length written
      simp only [length_append] at length
      have first : escapeStorageName p esc = [] := length_eq_zero_iff.mp (by omega)
      have last : sep.bytes.intercalate ((q :: rest).map (escapeStorageName · esc)) = [] :=
        length_eq_zero_iff.mp (by omega)
      cases rest with
      | cons r rest =>
        rw [map_cons, map_cons, intercalate_cons_cons] at last
        simp [sep.nonempty] at last
      | nil =>
        have second : escapeStorageName q esc = [] := by simpa [intercalate] using last
        rw [← intercalate_split sep.nonempty name, parts, escapeFrom_eq_nil.mp first,
          escapeFrom_eq_nil.mp second]
        simp [intercalate]
  · rintro rfl
    simp [escapeLogicalName, sep.nonempty, sep.split_bytes, escapeStorageName, escapeFrom, intercalate]

/-! ## The directory -/

namespace Naming

def folderDiskName (n : Naming) (folder : Bytes) : Bytes :=
  let folder := escapeLogicalName folder n.separator n.escapeChar
  if n.listUTF8 then folder else toModUTF7 folder

/-- `toDiskSep` without an escape character: what is escaped was escaped before. -/
def toDiskSep (name imapSep diskSep : Bytes) : Bytes :=
  if imapSep = diskSep then name else replaceAll imapSep diskSep name

/-- `FolderSubpath` of a maildir. -/
def folderSubpath (folder diskName : Bytes) (sep : Separator) : Bytes :=
  if folder = inbox then [] else 46 :: toDiskSep diskName sep.bytes [46]

def invalidFolderMarker : Bytes :=
  [105, 110, 118, 97, 108, 105, 100, 45, 102, 111, 108, 100, 101, 114, 45, 110, 97, 109, 101]

/-- The directory that is the inbox. -/
def inboxDir (r : Roots) : Bytes :=
  if r.explicitMailPath then r.inboxPath else Path.join r.home inbox

def folderPath (n : Naming) (r : Roots) (folder : Bytes) : Bytes :=
  if folder ≠ inbox ∧ validateFolderName folder n.separator ≠ .ok () then
    Path.join r.mailPath invalidFolderMarker
  else if folder = inbox then inboxDir r
  else Path.join r.mailPath (folderSubpath folder (n.folderDiskName folder) n.separator)

def controlFolderPath (n : Naming) (r : Roots) (folder : Bytes) : Bytes :=
  if folder ≠ inbox ∧ validateFolderName folder n.separator ≠ .ok () then
    Path.join r.mailPath invalidFolderMarker
  else
    let sub := folderSubpath folder (n.folderDiskName folder) n.separator
    if r.controlDir ≠ [] then
      if folder = inbox then Path.join r.controlDir inbox else Path.join r.controlDir sub
    else if folder = inbox then inboxDir r
    else Path.join r.mailPath sub

end Naming

end Yarilo.Mailbox

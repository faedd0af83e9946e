import Yarilo.Mailbox.Containment
import Yarilo.Mailbox.Maildir

/-! # Names read back from their directories

An escaped level is unescaped to what it was. The separator stands between the levels of a name and,
if no escape spells it, nowhere else in the escaped name; so the dots of the directory's name are the
separators of the folder's name. In modified UTF-7 the same holds unless the separator is one of the
bytes that encoded text is written with.
-/

namespace Yarilo.Mailbox

open Library
open List

/-! ## Escapes -/

theorem unhex_hexDigit : ∀ k < 16, unhex (hexDigit k) = some k := by
  decide

theorem unescape_cons {esc a : UInt8} (ne : a ≠ esc) (rest : Bytes) :
    unescapeStorageName esc (a :: rest) = a :: unescapeStorageName esc rest := by
  match rest with
  | [] | [_] => simp [unescapeStorageName]
  | _ :: _ :: _ => simp [unescapeStorageName, ne]

theorem unescape_writeEscaped (esc c : UInt8) (rest : Bytes) :
    unescapeStorageName esc (writeEscaped esc c ++ rest) = c :: unescapeStorageName esc rest := by
  have bound := c.toNat_lt
  simp only [writeEscaped, cons_append, nil_append, unescapeStorageName, if_true,
    unhex_hexDigit _ (Nat.div_lt_of_lt_mul (m := c.toNat) (n := 16) (k := 16) (by omega)),
    unhex_hexDigit _ (Nat.mod_lt c.toNat (by decide : 0 < 16)), cons.injEq, and_true]
  rw [mul_comm, Nat.div_add_mod, UInt8.ofNat_toNat]

/-- An escaped level is unescaped, whatever follows. -/
theorem unescape_escapeFrom (esc : UInt8) (start : Bool) (p rest : Bytes) :
    unescapeStorageName esc (escapeFrom esc start p ++ rest) = p ++ unescapeStorageName esc rest := by
  induction p generalizing start with
  | nil => rfl
  | cons c p ih =>
    simp only [escapeFrom, append_assoc]
    split
    · rw [unescape_writeEscaped, ih]
      rfl
    rename_i kept
    have ne : c ≠ esc := fun same => kept (.inl same)
    rw [singleton_append, unescape_cons ne, ih]
    rfl

theorem unescape_escapeStorageName (p : Bytes) (esc : EscapeChar) :
    unescapeStorageName esc.byte (escapeStorageName p esc) = p := by
  have back := unescape_escapeFrom esc.byte true p []
  simpa [unescapeStorageName, escapeStorageName] using back

theorem unescape_append {esc : UInt8} {w : Bytes} (absent : esc ∉ w) (rest : Bytes) :
    unescapeStorageName esc (w ++ rest) = w ++ unescapeStorageName esc rest := by
  induction w with
  | nil => rfl
  | cons a w ih =>
    simp only [mem_cons, not_or] at absent
    rw [cons_append, unescape_cons (Ne.symm absent.1), ih absent.2]
    rfl

theorem hexDigit_ne_zero : ∀ k < 16, hexDigit k ≠ 0 := by
  decide

variable {p name : Bytes} {b c : UInt8} {parts : List Bytes}

/-- What an escaped level is written with. -/
theorem mem_escapeFrom {esc : UInt8} {start : Bool} (member : b ∈ escapeFrom esc start p) :
    b = esc ∨ (∃ k < 16, b = hexDigit k) ∨ b ∈ p := by
  induction p generalizing start with
  | nil => cases member
  | cons c p ih =>
    have bound := c.toNat_lt
    simp only [escapeFrom, mem_append] at member
    rcases member with here | later
    · split at here
      · simp only [writeEscaped, mem_cons, not_mem_nil, or_false] at here
        rcases here with same | same | same
        · exact .inl same
        · exact .inr (.inl ⟨_, by omega, same⟩)
        · exact .inr (.inl ⟨_, by omega, same⟩)
      · exact .inr (.inr (by simp [mem_singleton.mp here]))
    · rcases ih later with same | digit | inside
      · exact .inl same
      · exact .inr (.inl digit)
      · exact .inr (.inr (.tail _ inside))

/-! ## Levels -/

namespace Separator

variable {sep : Separator}

/-- The separator does not occur. -/
def Free (sep : Separator) (p : Bytes) : Prop := ¬sep.bytes <:+: p

theorem Free.tail (free : sep.Free (b :: p)) : sep.Free p :=
  fun inside => free (inside.trans (List.suffix_cons b p).isInfix)

/-- A separator starts nowhere in itself, so it is not found before the first one. -/
theorem Free.not_starts (free : sep.Free (b :: p)) (rest : Bytes) :
    ¬sep.bytes <+: b :: p ++ (sep.bytes ++ rest) := by
  intro starts
  rcases prefix_or_prefix_of_prefix starts (prefix_append _ _) with inside | ⟨t, same⟩
  · exact free inside.isInfix
  cases t with
  | nil =>
    rw [append_nil] at same
    exact free (same ▸ infix_refl _)
  | cons x t =>
    -- the second separator would start inside the first one
    rw [← same, prefix_append_right_inj] at starts
    have first : x = b := by
      rw [cons_append, cons_append, cons_prefix_cons] at starts
      exact starts.1
    refine sep.apart b ?_ ?_
    · rw [← same]
      rfl
    · rw [← same]
      simp [first]

theorem Free.split_append (free : sep.Free p) (rest : Bytes) :
    split sep.bytes (p ++ (sep.bytes ++ rest)) = p :: split sep.bytes rest := by
  induction p with
  | nil => exact Library.split_append sep.nonempty rest
  | cons b p ih =>
    have starts : ¬sep.bytes <+: b :: (p ++ (sep.bytes ++ rest)) := free.not_starts rest
    rw [cons_append, split_cons_of_not starts, ih free.tail]
    rfl

theorem Free.split_eq (free : sep.Free p) : split sep.bytes p = [p] := by
  induction p with
  | nil => rfl
  | cons b p ih =>
    rw [split_cons_of_not fun starts => free starts.isInfix, ih free.tail]
    rfl

theorem split_intercalate (some : parts ≠ []) (free : ∀ p ∈ parts, sep.Free p) :
    split sep.bytes (sep.bytes.intercalate parts) = parts := by
  induction parts with
  | nil => exact absurd rfl some
  | cons p rest ih =>
    cases rest with
    | nil =>
      have single : sep.bytes.intercalate [p] = p := by simp [intercalate]
      rw [single, (free p (by simp)).split_eq]
    | cons q rest =>
      rw [intercalate_cons_cons, append_assoc, (free p (by simp)).split_append,
        ih (by simp) fun p member => free p (.tail _ member)]

theorem free_of_mem_split {s : Bytes} (part : p ∈ split sep.bytes s) : sep.Free p := by
  induction s using split_induction sep.nonempty generalizing p with
  | nil =>
    rw [split_nil, mem_singleton] at part
    rw [part]
    exact fun inside => sep.nonempty (infix_nil.mp inside)
  | occurrence rest ih =>
    rw [Library.split_append sep.nonempty, mem_cons] at part
    rcases part with rfl | later
    · exact fun inside => sep.nonempty (infix_nil.mp inside)
    · exact ih later
  | byte b rest starts ih =>
    obtain ⟨first, tail, parts⟩ := exists_cons_of_ne_nil (split_ne_nil sep.nonempty rest)
    rw [split_cons_of_not starts, parts, modifyHead_cons, mem_cons] at part
    rcases part with rfl | later
    · intro inside
      rcases infix_cons_iff.mp inside with here | behind
      · -- the first part is where the rest starts
        have front : first <+: rest := by
          rw [← intercalate_split sep.nonempty rest, parts]
          cases tail with
          | nil => simp [intercalate]
          | cons q tail => rw [intercalate_cons_cons, append_assoc]; exact prefix_append _ _
        exact starts (here.trans ((prefix_cons_inj b).mpr front))
      · exact ih (by rw [parts]; simp) behind
    · exact ih (by rw [parts]; exact .tail _ later)

/-- No byte of the separator is one that an escape is written with. -/
def Clear (sep : Separator) (esc : EscapeChar) : Prop :=
  ∀ b ∈ sep.bytes, b ≠ esc.byte ∧ ∀ k < 16, b ≠ hexDigit k

theorem Clear.notMem_writeEscaped {esc : EscapeChar} (clear : sep.Clear esc)
    (written : b ∈ writeEscaped esc.byte c) : b ∉ sep.bytes := by
  intro inside
  have bound := c.toNat_lt
  simp only [writeEscaped, mem_cons, not_mem_nil, or_false] at written
  rcases written with same | same | same
  · exact (clear b inside).1 same
  · exact (clear b inside).2 _ (by omega) same
  · exact (clear b inside).2 _ (by omega) same

/-- What an escaped level starts with, the level starts with. -/
theorem prefix_of_prefix_escapeFrom {esc : EscapeChar} {w : Bytes}
    (kept : ∀ b ∈ w, ∀ c, b ∉ writeEscaped esc.byte c) {start : Bool} {p : Bytes}
    (starts : w <+: escapeFrom esc.byte start p) : w <+: p := by
  induction w generalizing start p with
  | nil => exact nil_prefix
  | cons b w ih =>
    cases p with
    | nil => simp [escapeFrom] at starts
    | cons c p =>
      simp only [escapeFrom] at starts
      split at starts
      · simp only [writeEscaped, cons_append, cons_prefix_cons] at starts
        exact absurd (by simp [writeEscaped, starts.1]) (kept b (by simp) c)
      rw [singleton_append, cons_prefix_cons] at starts
      rw [cons_prefix_cons]
      exact ⟨starts.1, ih (fun b member => kept b (.tail _ member)) starts.2⟩

/-- An escaped level has no separator in it. -/
theorem Free.escapeFrom {esc : EscapeChar} (clear : sep.Clear esc) (free : sep.Free p) (start : Bool) :
    sep.Free (Mailbox.escapeFrom esc.byte start p) := by
  have kept : ∀ b ∈ sep.bytes, ∀ c, b ∉ writeEscaped esc.byte c :=
    fun b inside c written => clear.notMem_writeEscaped written inside
  -- a separator that starts with a byte of an escape would hold it
  have skip : ∀ b c t, b ∈ writeEscaped esc.byte c → sep.bytes <:+: b :: t → sep.bytes <:+: t := by
    intro b c t written inside
    rcases infix_cons_iff.mp inside with here | behind
    · obtain ⟨first, rest, bytes⟩ := exists_cons_of_ne_nil sep.nonempty
      rw [bytes, cons_prefix_cons] at here
      refine absurd ?_ (clear.notMem_writeEscaped written)
      rw [bytes, here.1]
      exact .head _
    · exact behind
  induction p generalizing start with
  | nil => exact free
  | cons c p ih =>
    intro inside
    have whole := @prefix_of_prefix_escapeFrom esc sep.bytes kept start (c :: p)
    simp only [Mailbox.escapeFrom] at inside whole
    split at inside
    · have first := skip _ c _ (by simp [writeEscaped]) inside
      have second := skip _ c _ (by simp [writeEscaped]) first
      have third := skip _ c _ (by simp [writeEscaped]) second
      exact ih free.tail _ third
    · rcases infix_cons_iff.mp inside with here | behind
      · exact free (whole (by simpa [*] using here)).isInfix
      · exact ih free.tail _ behind

end Separator

/-! ## The directory of a name -/

section

variable {sep : Separator} {esc : EscapeChar}

/-- The levels of a name, escaped. -/
def levels (sep : Separator) (esc : EscapeChar) (name : Bytes) : List Bytes :=
  (split sep.bytes name).map (escapeStorageName · esc)

theorem levels_ne_nil (name : Bytes) : levels sep esc name ≠ [] := by
  rw [levels, ne_eq, map_eq_nil_iff]
  exact split_ne_nil sep.nonempty name

theorem escapeLogicalName_eq (name : Bytes) :
    escapeLogicalName name sep (some esc) = sep.bytes.intercalate (levels sep esc name) := by
  by_cases empty : name = []
  · simp [escapeLogicalName, empty, levels, escapeStorageName, escapeFrom, intercalate]
  · simp [escapeLogicalName, empty, levels]

theorem free_levels (clear : sep.Clear esc) (level : p ∈ levels sep esc name) : sep.Free p := by
  obtain ⟨q, part, rfl⟩ := mem_map.mp level
  exact (Separator.free_of_mem_split part).escapeFrom clear true

theorem dot_notMem_levels (level : p ∈ levels sep esc name) : 46 ∉ p := by
  obtain ⟨q, -, rfl⟩ := mem_map.mp level
  exact notMem_escapeFrom esc true q (.inl rfl)

/-- The levels read back and put together are the name. -/
theorem intercalate_unescape_levels (name : Bytes) :
    sep.bytes.intercalate ((levels sep esc name).map (unescapeStorageName esc.byte)) = name := by
  have read : (levels sep esc name).map (unescapeStorageName esc.byte) = split sep.bytes name := by
    rw [levels, map_map]
    exact (map_congr_left fun p _ => unescape_escapeStorageName p esc).trans (map_id _)
  rw [read, intercalate_split sep.nonempty]

/-- The escaped name read back in one go is the name. -/
theorem unescape_escapeLogicalName (absent : esc.byte ∉ sep.bytes) (name : Bytes) :
    unescapeStorageName esc.byte (escapeLogicalName name sep (some esc)) = name := by
  rw [escapeLogicalName_eq]
  have join : ∀ parts : List Bytes, unescapeStorageName esc.byte
      (sep.bytes.intercalate (parts.map (escapeStorageName · esc))) = sep.bytes.intercalate parts := by
    intro parts
    induction parts with
    | nil => rfl
    | cons p rest ih =>
      cases rest with
      | nil => simp [intercalate, unescape_escapeStorageName]
      | cons q rest =>
        rw [map_cons] at ih
        rw [map_cons, map_cons, intercalate_cons_cons, intercalate_cons_cons,
          append_assoc, escapeStorageName, unescape_escapeFrom, unescape_append absent, ih,
          append_assoc]
  rw [levels, join, intercalate_split sep.nonempty]

/-- Between the dots of a string stand its parts. -/
theorem split_dots (some : parts ≠ []) (absent : ∀ p ∈ parts, 46 ∉ p) :
    split [46] ([46].intercalate parts) = parts := by
  rw [split_singleton]
  exact splitOn_intercalate 46 absent some

theorem replaceAll_intercalate (some : parts ≠ []) (free : ∀ p ∈ parts, sep.Free p) (new : Bytes) :
    replaceAll sep.bytes new (sep.bytes.intercalate parts) = new.intercalate parts := by
  rw [replaceAll, Separator.split_intercalate some free]

theorem respelled_escapeFrom (esc : EscapeChar) (start : Bool) (p : Bytes) :
    Utf8.Respelled p (escapeFrom esc.byte start p) := by
  induction p generalizing start with
  | nil => exact .nil
  | cons c p ih =>
    simp only [escapeFrom]
    split
    · rename_i escapes
      have bound := c.toNat_lt
      have hi := hexDigit_table (c.toNat / 16) (by omega)
      have lo := hexDigit_table (c.toNat % 16) (by omega)
      have ascii : c < 0x80 := by
        rcases escapes with rfl | rfl | rfl | ⟨-, rfl | rfl⟩
        · exact esc.ascii
        all_goals decide
      refine .spell ascii esc.ascii ?_ (ih _)
      intro b member
      simp only [mem_cons, not_mem_nil, or_false] at member
      rcases member with rfl | rfl
      · exact hi.2.2
      · exact lo.2.2
    · exact .keep c (ih _)

/-- Escaping a valid name gives valid text. -/
theorem valid_escapeLogicalName (valid : Utf8.Valid name) :
    Utf8.Valid (escapeLogicalName name sep (some esc)) := by
  refine valid.respelled ?_
  rw [escapeLogicalName_eq]
  have join : ∀ parts : List Bytes, Utf8.Respelled (sep.bytes.intercalate parts)
      (sep.bytes.intercalate (parts.map (escapeStorageName · esc))) := by
    intro parts
    induction parts with
    | nil => exact .nil
    | cons p rest ih =>
      have first := respelled_escapeFrom esc true p
      cases rest with
      | nil => simpa [intercalate, escapeStorageName] using first
      | cons q rest =>
        rw [map_cons, map_cons, intercalate_cons_cons, intercalate_cons_cons]
        exact (first.append (.refl _)).append ih
  have whole := join (split sep.bytes name)
  rwa [intercalate_split sep.nonempty] at whole

theorem valid_of_intercalate (ascii : c < 0x80) (valid : Utf8.Valid ([c].intercalate parts)) :
    ∀ p ∈ parts, Utf8.Valid p := by
  induction parts with
  | nil => simp
  | cons p rest ih =>
    cases rest with
    | nil => simpa [intercalate] using valid
    | cons q rest =>
      rw [intercalate_cons_cons, append_assoc, singleton_append,
        Utf8.valid_append_cons ascii] at valid
      exact forall_mem_cons.mpr ⟨valid.1, ih valid.2⟩

end

namespace Naming

variable {n : Naming} {esc : EscapeChar}

/-- The settings under which names are stored and read back: the separator is no byte of an escape,
in modified UTF-7 no byte of encoded text, and no NUL is written. -/
structure ReadsBack (n : Naming) (esc : EscapeChar) : Prop where
  clear : n.separator.Clear esc
  encoded : n.listUTF8 = false → ∀ b ∈ n.separator.bytes, ¬ModByte b
  nul : n.listUTF8 = true → esc.byte ≠ 0

/-- The name is stored as one this deployment wrote: in UTF-8 no level reads as modified UTF-7 for
something else, and in modified UTF-7 the name is valid UTF-8. -/
def Native (n : Naming) (esc : EscapeChar) (name : Bytes) : Prop :=
  if n.listUTF8 then
    ∀ level ∈ levels n.separator esc name,
      fromModUTF7 level = none ∨ fromModUTF7 level = some level
  else Utf8.Valid name

/-- A row of directory levels that stands for a name and that no start of a session changes. -/
structure Stands (n : Naming) (name : Bytes) (stored : List Bytes) : Prop where
  nonempty : stored ≠ []
  noDots : ∀ p ∈ stored, 46 ∉ p
  noNul : 0 ∉ name → ∀ p ∈ stored, 0 ∉ p
  disk : n.disk (n.escaped name) = [46].intercalate stored
  named : n.logicalName ([46].intercalate stored) = some name
  adopted : ∀ p ∈ stored, n.adoptedLevel p = none ∨ n.adoptedLevel p = some p

theorem logicalName_of_levels (char : n.escapeChar = some esc) {text : Bytes}
    (decoded : (if n.listUTF8 then some text else fromModUTF7 text) =
      some ([46].intercalate (levels n.separator esc name))) : n.logicalName text = some name := by
  simp only [logicalName, decoded, char, Option.map_some]
  rw [split_dots (levels_ne_nil _) fun p => dot_notMem_levels, intercalate_unescape_levels]

theorem stands_utf8 (char : n.escapeChar = some esc) (settings : n.ReadsBack esc)
    (utf8 : n.listUTF8 = true) (native : n.Native esc name) :
    n.Stands name (levels n.separator esc name) where
  nonempty := levels_ne_nil name
  noDots := fun p => dot_notMem_levels
  noNul := by
    intro absent p level nul
    obtain ⟨q, part, rfl⟩ := mem_map.mp level
    rcases mem_escapeFrom nul with same | ⟨k, small, same⟩ | inside
    · exact settings.nul utf8 same.symm
    · exact hexDigit_ne_zero k small same.symm
    · exact absent (mem_of_mem_split n.separator.nonempty part inside)
  disk := by
    rw [disk, encode, if_pos utf8, escaped, char, escapeLogicalName_eq,
      replaceAll_intercalate (levels_ne_nil name) fun p => free_levels settings.clear]
  named := logicalName_of_levels char (by simp [utf8])
  adopted := by
    intro level member
    have decoded : fromModUTF7 level = none ∨ fromModUTF7 level = some level := by
      rw [Native, if_pos utf8] at native
      exact native level member
    unfold adoptedLevel
    split
    · exact .inr rfl
    · simpa [utf8] using decoded

theorem adoptedLevel_toModUTF7 (utf7 : n.listUTF8 = false) (valid : Utf8.Valid p) :
    n.adoptedLevel (toModUTF7 p) = some (toModUTF7 p) := by
  simp [adoptedLevel, utf7, fromModUTF7_toModUTF7 valid]

section

variable (char : n.escapeChar = some esc) (settings : n.ReadsBack esc)

include char settings

/-- In modified UTF-7 with a separator that stands for itself the levels are encoded apart. -/
theorem stands_plain
    (utf7 : n.listUTF8 = false) (single : n.separator.bytes = [c]) (plain : ModUtf7.Plain c.toNat)
    (valid : Utf8.Valid name) : n.Stands name ((levels n.separator esc name).map toModUTF7) := by
  have apart : ¬ModByte c := settings.encoded utf7 c (by simp [single])
  have whole : escapeLogicalName name n.separator (some esc) =
      [c].intercalate (levels n.separator esc name) := by rw [escapeLogicalName_eq, single]
  have validLevels : ∀ p ∈ levels n.separator esc name, Utf8.Valid p := by
    refine valid_of_intercalate plain.ascii ?_
    rw [← whole]
    exact valid_escapeLogicalName valid
  have free : ∀ p ∈ (levels n.separator esc name).map toModUTF7, n.separator.Free p := by
    intro p member inside
    obtain ⟨q, level, rfl⟩ := mem_map.mp member
    rw [single, singleton_infix_iff] at inside
    refine free_levels settings.clear level ?_
    rw [single, singleton_infix_iff]
    exact (mem_toModUTF7 inside).resolve_left apart
  refine ⟨by simp [levels_ne_nil], ?_, ?_, ?_, ?_, ?_⟩
  · intro p member dot
    obtain ⟨q, level, rfl⟩ := mem_map.mp member
    exact dot_notMem_levels level ((mem_toModUTF7 dot).resolve_left (by decide))
  · intro _ p member nul
    obtain ⟨q, -, rfl⟩ := mem_map.mp member
    exact absurd (printable_of_mem_toModUTF7 nul).1 (by decide)
  · rw [disk, encode, if_neg (by simp [utf7]), escaped, char, whole, toModUTF7_intercalate plain,
      ← single, replaceAll_intercalate (by simp [levels_ne_nil]) free]
  · refine logicalName_of_levels char ?_
    rw [if_neg (by simp [utf7]), fromModUTF7_intercalate (by decide) validLevels]
  · intro p member
    obtain ⟨q, level, rfl⟩ := mem_map.mp member
    exact .inr (adoptedLevel_toModUTF7 utf7 (validLevels q level))

/-- With a separator that is encoded itself the whole name is one level on disk. -/
theorem stands_encoded
    (utf7 : n.listUTF8 = false) (inside : b ∈ n.separator.bytes) (hidden : ¬ModUtf7.Plain b.toNat)
    (dot : n.separator.bytes ≠ [46]) (valid : Utf8.Valid name) :
    n.Stands name [toModUTF7 (escapeLogicalName name n.separator (some esc))] := by
  have apart : ¬ModByte b := settings.encoded utf7 b inside
  have validName : Utf8.Valid (escapeLogicalName name n.separator (some esc)) :=
    valid_escapeLogicalName valid
  have noDot : 46 ∉ escapeLogicalName name n.separator (some esc) :=
    fun member => dot (mem_escapeLogicalName (.inl rfl) member)
  have join : ∀ p : Bytes, [46].intercalate [p] = p := by simp [intercalate]
  have free : n.separator.Free (toModUTF7 (escapeLogicalName name n.separator (some esc))) := by
    intro occurs
    have printable := printable_of_mem_toModUTF7 (occurs.subset inside)
    refine hidden ⟨UInt8.le_iff_toNat_le.mp printable.1, UInt8.le_iff_toNat_le.mp printable.2, ?_⟩
    intro amp
    exact apart (.inl (UInt8.toNat_inj.mp amp))
  refine ⟨by simp, ?_, ?_, ?_, ?_, ?_⟩
  · intro p member member'
    rw [mem_singleton.mp member] at member'
    exact noDot ((mem_toModUTF7 member').resolve_left (by decide))
  · intro _ p member nul
    rw [mem_singleton.mp member] at nul
    exact absurd (printable_of_mem_toModUTF7 nul).1 (by decide)
  · rw [disk, encode, if_neg (by simp [utf7]), escaped, char, replaceAll, free.split_eq]
  · rw [join, logicalName, if_neg (by simp [utf7]), fromModUTF7_toModUTF7 validName, char]
    simp only [Option.map_some, split_singleton, splitOn_eq_singleton noDot, map_singleton]
    rw [unescape_escapeLogicalName fun member => (settings.clear _ member).1 rfl]
    simp [intercalate]
  · intro p member
    rw [mem_singleton.mp member]
    exact .inr (adoptedLevel_toModUTF7 utf7 validName)

/-- Under the settings, the directory of a native name stands for it. -/
theorem exists_stands (native : n.Native esc name) : ∃ stored, n.Stands name stored := by
  cases encoding : n.listUTF8 with
  | true => exact ⟨_, stands_utf8 char settings encoding native⟩
  | false =>
    have valid : Utf8.Valid name := by simpa [Native, encoding] using native
    by_cases plain : ∀ b ∈ n.separator.bytes, ModUtf7.Plain b.toNat
    · obtain ⟨c, rest, bytes⟩ := exists_cons_of_ne_nil n.separator.nonempty
      have first := plain c (by simp [bytes])
      have single := n.separator.eq_of_mem first.ascii (by simp [bytes])
      exact ⟨_, stands_plain char settings encoding single first valid⟩
    · push Not at plain
      obtain ⟨b, inside, hidden⟩ := plain
      refine ⟨_, stands_encoded char settings encoding inside hidden ?_ valid⟩
      intro dot
      rw [dot, mem_singleton] at inside
      exact hidden (by rw [inside]; decide)

end

end Naming

end Yarilo.Mailbox

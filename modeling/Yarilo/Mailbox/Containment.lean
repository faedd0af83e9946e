import Yarilo.Mailbox.FolderName

/-! # Which names stay below the root

A name that passes the check leads below the root, except where the separator, written as a dot, makes
a dot or two of a path part. With an escape character, or with the slash as separator, the name is one
part, and only the separator alone goes wrong: it becomes two dots. Without, the slashes of a name
part the path, and the parts are walked.
-/

namespace Yarilo.Mailbox

open Library List Path

variable {name : Bytes} {sep : Separator}

theorem validateFolderName_eq_ok : validateFolderName name sep = .ok () ↔
      name ≠ [] ∧ (∀ s ∈ [sep.bytes, [47], [46]], ∀ p ∈ split s name, p ≠ [46] ∧ p ≠ [46, 46]) ∧
        0 ∉ name := by
  unfold validateFolderName
  split
  · simp_all
  split
  · rename_i segment found
    have bad := find?_some found
    have inside := mem_of_find?_eq_some found
    simp only [decide_eq_true_eq] at bad
    obtain ⟨s, listed, part⟩ := mem_flatMap.mp inside
    simp only [reduceCtorEq, false_iff, not_and]
    intro _ clean
    exact absurd bad (not_or.mpr (clean s listed segment part))
  · rename_i absent
    split
    · simp [*]
    · simp_all

namespace Naming

/-- The encoding leaves the separator as it is. -/
def SeparatorStays (n : Naming) : Prop := n.listUTF8 = true ∨ ∀ b ∈ n.separator.bytes, ModUtf7.Plain b.toNat

instance (n : Naming) : Decidable n.SeparatorStays := inferInstanceAs (Decidable (_ ∨ _))

/-- Where the part of a name before its first slash leads; a dot is put in front of it. -/
def firstMove (n : Naming) (part : Bytes) : Path.Move :=
  if part = [] then .stay
  else if n.SeparatorStays ∧ part = n.separator.bytes then .up
  else .down

/-- Where a part behind a slash leads. -/
def laterMove (n : Naming) (part : Bytes) : Path.Move :=
  let s := n.separator.bytes
  if part = [] ∨ n.SeparatorStays ∧ part = s then .stay
  else if n.SeparatorStays ∧ (part = s ++ s ∨ part = s ++ [46] ∨ part = 46 :: s) then .up
  else .down

/-- The walk of a name over its slashes. -/
def moves (n : Naming) (name : Bytes) : List Path.Move :=
  match name.splitOn 47 with
  | [] => []
  | first :: rest => n.firstMove first :: rest.map n.laterMove

/-- The name leads below the root: it is not the separator alone; where slashes part the path, the
walk over them never goes above its start and ends below it. -/
def Contained (n : Naming) (name : Bytes) : Prop :=
  if n.escapeChar.isSome ∨ n.separator.bytes = [47] then
    ¬(n.SeparatorStays ∧ name = n.separator.bytes)
  else Path.Descends (n.moves name)

/-! ## What the encoding makes of a part -/

/-- The text as it is stored. -/
def encode (n : Naming) (s : Bytes) : Bytes := if n.listUTF8 then s else toModUTF7 s

variable {n : Naming} {s word p : Bytes}

theorem encode_append_cons (p q : Bytes) : n.encode (p ++ 47 :: q) = n.encode p ++ 47 :: n.encode q := by
  unfold encode
  split
  · rfl
  · exact toModUTF7_append_cons p (by decide) q

theorem encode_eq_nil : n.encode s = [] ↔ s = [] := by
  unfold encode
  split
  · rfl
  · exact toModUTF7_eq_nil

theorem slash_mem_of_mem_encode (member : 47 ∈ n.encode s) : 47 ∈ s := by
  unfold encode at member
  split at member
  · exact member
  · exact slash_mem_of_mem_toModUTF7 member

/-- A word of bytes that stand for themselves is stored for itself only. -/
theorem encode_eq_of_plain (plain : ∀ b ∈ word, ModUtf7.Plain b.toNat) : n.encode s = word ↔ s = word := by
  unfold encode
  split
  · rfl
  constructor
  · intro same
    have absent : 38 ∉ toModUTF7 s := by
      rw [same]
      intro amp
      exact (plain _ amp).2.2 rfl
    rw [← eq_of_toModUTF7 absent, same]
  · rintro rfl
    exact toModUTF7_of_plain plain

/-- A word made of separators and dots is stored for itself where the separator stays, and for
nothing elsewhere. -/
theorem encode_eq_word (made : ∀ b ∈ word, b ∈ n.separator.bytes ∨ b = 46)
    (holds : ∀ b ∈ n.separator.bytes, b ∈ word) : n.encode s = word ↔ n.SeparatorStays ∧ s = word := by
  by_cases plain : ∀ b ∈ n.separator.bytes, ModUtf7.Plain b.toNat
  · have all : ∀ b ∈ word, ModUtf7.Plain b.toNat := by
      intro b member
      rcases made b member with of | rfl
      · exact plain b of
      · decide
    rw [encode_eq_of_plain all]
    exact (and_iff_right (.inr plain)).symm
  · by_cases utf8 : n.listUTF8 = true
    · simp [encode, utf8, SeparatorStays]
    have still : ¬n.SeparatorStays := not_or.mpr ⟨utf8, plain⟩
    simp only [encode, utf8, if_false, still, false_and, iff_false, Bool.false_eq_true]
    intro same
    -- the separator's bytes are printable, so it is one byte, the ampersand
    push Not at plain
    obtain ⟨b, of, special⟩ := plain
    have written : b ∈ toModUTF7 s := same ▸ holds b of
    have printable := printable_of_mem_toModUTF7 written
    have amp : b = 38 := by
      by_contra other
      refine special ⟨UInt8.le_iff_toNat_le.mp printable.1, UInt8.le_iff_toNat_le.mp printable.2, ?_⟩
      intro value
      exact other (UInt8.toNat_inj.mp value)
    subst amp
    have minus := minus_mem_toModUTF7 written
    rw [same] at minus
    rcases made 45 minus with inside | dot
    · rw [n.separator.eq_of_mem (by decide) of, mem_singleton] at inside
      exact absurd inside (by decide)
    · exact absurd dot (by decide)

theorem encode_eq_dots {k : ℕ} : n.encode s = .replicate k 46 ↔ s = .replicate k 46 := by
  refine encode_eq_of_plain fun b inside => ?_
  rw [eq_of_mem_replicate inside]
  decide

/-- The stored text with dots between its levels. -/
def disk (n : Naming) (s : Bytes) : Bytes := replaceAll n.separator.bytes [46] (n.encode s)

theorem disk_eq_nil : n.disk s = [] ↔ s = [] := by
  rw [disk, replaceAll_eq_nil n.separator.nonempty (by simp), encode_eq_nil]

theorem disk_eq_dot (ne : s ≠ [46]) : n.disk s = [46] ↔ n.SeparatorStays ∧ s = n.separator.bytes := by
  rw [disk, replaceAll_eq_singleton n.separator.nonempty, encode_eq_word (fun _ => .inl) (fun _ => id)]
  have dot : n.encode s ≠ [46] := mt (encode_eq_dots (k := 1)).mp ne
  simp [dot]

theorem disk_eq_dots (ne : s ≠ [46, 46]) : n.disk s = [46, 46] ↔ n.SeparatorStays ∧
      (s = n.separator.bytes ++ n.separator.bytes ∨ s = n.separator.bytes ++ [46] ∨
        s = 46 :: n.separator.bytes) := by
  have dots : n.encode s ≠ [46, 46] := mt (encode_eq_dots (k := 2)).mp ne
  rw [disk, replaceAll_eq_pair n.separator.nonempty dots]
  rw [encode_eq_word (by simp +contextual) (by simp), encode_eq_word (by simp +contextual)
    (by simp +contextual), encode_eq_word (by simp +contextual) (by simp +contextual)]
  simp [← and_or_left]

/-! ## The walk over the slashes -/

theorem slash_notMem_separator (ne : sep.bytes ≠ [47]) : (47 : UInt8) ∉ sep.bytes :=
  fun inside => ne (sep.eq_of_mem (by decide) inside)

theorem disk_append_cons (ne : n.separator.bytes ≠ [47]) (p q : Bytes) :
    n.disk (p ++ 47 :: q) = n.disk p ++ 47 :: n.disk q := by
  rw [disk, encode_append_cons, replaceAll_append_cons n.separator.nonempty _ (slash_notMem_separator ne)]
  rfl

theorem slash_mem_of_mem_disk (member : 47 ∈ n.disk s) : 47 ∈ s := by
  rcases mem_replaceAll n.separator.nonempty member with dot | stored
  · cases mem_singleton.mp dot
  · exact slash_mem_of_mem_encode stored

theorem splitOn_disk (ne : n.separator.bytes ≠ [47]) (s : Bytes) :
    (n.disk s).splitOn 47 = (s.splitOn 47).map n.disk := by
  induction s using splitOn_induction 47 with
  | single p absent =>
    rw [splitOn_eq_singleton absent,
      splitOn_eq_singleton fun member => absent (slash_mem_of_mem_disk member)]
    rfl
  | cons p q absent ih =>
    rw [disk_append_cons ne, splitOn_append_cons, splitOn_append_cons, ih, map_append,
      splitOn_eq_singleton absent,
      splitOn_eq_singleton fun member => absent (slash_mem_of_mem_disk member)]
    rfl

theorem move_dot_disk (dot : p ≠ [46]) : move (46 :: n.disk p) = n.firstMove p := by
  simp [move, firstMove, cons_ne_nil, disk_eq_nil, disk_eq_dot dot]

theorem move_disk (dot : p ≠ [46]) (dots : p ≠ [46, 46]) : move (n.disk p) = n.laterMove p := by
  simp [move, laterMove, disk_eq_nil, disk_eq_dot dot, disk_eq_dots dots]

/-- The parts of the directory's path move as the parts of the name. -/
theorem map_move_disk (ne : n.separator.bytes ≠ [47])
    (clean : ∀ p ∈ name.splitOn 47, p ≠ [46] ∧ p ≠ [46, 46]) :
    ((46 :: n.disk name).splitOn 47).map move = n.moves name := by
  have parts : (46 :: n.disk name).splitOn 47 = ((name.splitOn 47).map n.disk).modifyHead (46 :: ·) := by
    rw [← splitOn_disk ne]
    simp only [splitOn]
    rw [splitOnP_cons_eq_if_modifyHead]
    simp
  rw [parts, moves]
  cases split : name.splitOn 47 with
  | nil => rfl
  | cons first rest =>
    rw [split] at clean
    simp only [map_cons, modifyHead_cons, move_dot_disk (clean first (by simp)).1,
      map_map, cons.injEq, true_and]
    refine map_congr_left fun p member => ?_
    have part := clean p (.tail _ member)
    exact move_disk part.1 part.2

/-! ## The directory of a name -/

/-- The escaped name. -/
def escaped (n : Naming) (name : Bytes) : Bytes := escapeLogicalName name n.separator n.escapeChar

theorem folderSubpath_eq (notInbox : name ≠ inbox) :
    folderSubpath name (n.folderDiskName name) n.separator = 46 :: n.disk (n.escaped name) := by
  have diskName : n.folderDiskName name = n.encode (n.escaped name) := rfl
  rw [folderSubpath, if_neg notInbox, diskName, toDiskSep, disk]
  split
  · rename_i same
    rw [same, replaceAll, intercalate_split (by simp)]
  · rfl

section

variable (some : name ≠ []) (dot : name ≠ [46]) (single : n.escapeChar.isSome ∨ n.separator.bytes = [47])

include some dot single

/-- With an escape character, or with the slash as separator, the directory is one path part, and it
is made of the separator alone only for the separator alone. -/
theorem escaped_single :
    n.escaped name ≠ [] ∧ n.escaped name ≠ [46] ∧
      (n.escaped name = n.separator.bytes ↔ name = n.separator.bytes) ∧
      47 ∉ n.disk (n.escaped name) := by
  have replaced : n.separator.bytes = [47] → 47 ∉ n.disk (n.escaped name) := by
    intro slash
    rw [disk, slash]
    exact notMem_replaceAll (by decide) _
  cases char : n.escapeChar with
  | none =>
    have same : n.escaped name = name := by simp [escaped, char, escapeLogicalName]
    have slash : n.separator.bytes = [47] := by simpa [char] using single
    rw [same]
    exact ⟨some, dot, .rfl, same ▸ replaced slash⟩
  | some esc =>
    have same : n.escaped name = escapeLogicalName name n.separator (.some esc) := by
      rw [escaped, char]
    rw [same] at replaced ⊢
    refine ⟨mt escapeLogicalName_eq_nil.mp some, ?_, escapeLogicalName_eq_separator, ?_⟩
    · intro single
      have sep := mem_escapeLogicalName (.inl rfl) (single ▸ mem_singleton_self 46)
      exact dot ((escapeLogicalName_eq_separator.mp (single.trans sep.symm)).trans sep)
    · intro inside
      have slash := mem_escapeLogicalName (.inr rfl) (slash_mem_of_mem_disk inside)
      exact replaced slash inside

theorem move_single :
    move (46 :: n.disk (n.escaped name)) =
      if n.SeparatorStays ∧ name = n.separator.bytes then .up else .down := by
  obtain ⟨full, notDot, same, -⟩ := escaped_single some dot single
  simp only [← same, ← disk_eq_dot notDot]
  simp [move, disk_eq_nil, full]

/-- Where the name is one path part, it leads down unless it is the separator alone. -/
theorem descends_single :
    Path.Descends (((46 :: n.disk (n.escaped name)).splitOn 47).map move) ↔
      ¬(n.SeparatorStays ∧ name = n.separator.bytes) := by
  have noSlash := (escaped_single some dot single).2.2.2
  rw [splitOn_eq_singleton (by simpa using noSlash), map_singleton, move_single some dot single]
  by_cases up : n.SeparatorStays ∧ name = n.separator.bytes
  · simp [up, Path.Descends, depth]
  · simp [up, Path.Descends, depth]

end

theorem descends_iff_contained (valid : validateFolderName name n.separator = .ok ()) :
    Path.Descends (((46 :: n.disk (n.escaped name)).splitOn 47).map move) ↔ n.Contained name := by
  obtain ⟨some, clean, -⟩ := validateFolderName_eq_ok.mp valid
  have parts : ∀ p ∈ name.splitOn 47, p ≠ [46] ∧ p ≠ [46, 46] := by
    rw [← split_singleton]
    exact clean [47] (by simp)
  have dot : name ≠ [46] := by
    rintro rfl
    exact (parts [46] (by decide)).1 rfl
  unfold Contained
  split
  · exact descends_single some dot ‹_›
  rename_i walked
  obtain ⟨plain, ne⟩ := not_or.mp walked
  have same : n.escaped name = name := by
    cases char : n.escapeChar with
    | none => simp [escaped, char, escapeLogicalName]
    | some esc => simp [char] at plain
  rw [same, map_move_disk ne parts]

/-- Whatever the roots, the directories of a name lie strictly below the mail root, or the control
root, exactly if the check refuses the name or it is contained. -/
theorem folders_below_roots_iff (n : Naming) (name : Bytes) (notInbox : name ≠ inbox) :
    (∀ r : Roots, Path.StrictlyBelow r.mailPath (n.folderPath r name) ∧
        (Path.StrictlyBelow r.mailPath (n.controlFolderPath r name) ∨
          r.controlDir ≠ [] ∧ Path.StrictlyBelow r.controlDir (n.controlFolderPath r name))) ↔
      validateFolderName name n.separator ≠ .ok () ∨ n.Contained name := by
  by_cases valid : validateFolderName name n.separator = .ok ()
  · have folder : ∀ r : Roots,
        n.folderPath r name = join r.mailPath (46 :: n.disk (n.escaped name)) := by
      simp [folderPath, notInbox, valid, folderSubpath_eq]
    simp only [valid, ne_eq, not_true_eq_false, false_or]
    rw [← descends_iff_contained valid]
    constructor
    · intro below
      refine forall_strictlyBelow_iff.mp fun root absolute => ?_
      rw [← folder ⟨[], root, [], true, [], absolute, .inl rfl⟩]
      exact (below _).1
    · intro descends r
      rw [folder]
      refine ⟨strictlyBelow_of_descends descends r.mailPath_absolute, ?_⟩
      by_cases control : r.controlDir = []
      · refine .inl ?_
        simp only [controlFolderPath, notInbox, valid, control, folderSubpath_eq notInbox]
        rw [if_neg (by simp), if_neg (by simp), if_neg (by simp)]
        exact strictlyBelow_of_descends descends r.mailPath_absolute
      · refine .inr ⟨control, ?_⟩
        simp only [controlFolderPath, notInbox, valid, folderSubpath_eq notInbox]
        rw [if_neg (by simp), if_pos control, if_neg (by simp)]
        exact strictlyBelow_of_descends descends (r.controlDir_absolute.resolve_left control)
  · have marker : Path.Descends ((invalidFolderMarker.splitOn 47).map move) := by decide
    simp only [ne_eq, valid, not_false_eq_true, true_or, iff_true]
    intro r
    have below := strictlyBelow_of_descends marker r.mailPath_absolute
    constructor
    · rw [folderPath, if_pos ⟨notInbox, valid⟩]
      exact below
    · refine .inl ?_
      rw [controlFolderPath, if_pos ⟨notInbox, valid⟩]
      exact below

/-- Names with one byte as separator and no escape character, stored as they are. -/
def ofByte (b : UInt8) : Naming where
  separator := { bytes := [b], nonempty := by simp, single := .inl rfl, apart := by simp }
  escapeChar := none
  listUTF8 := true

/-- The root `/m/u`. -/
def exampleRoots : Roots where
  home := [47, 109]
  mailPath := [47, 109, 47, 117]
  inboxPath := [47, 109, 47, 117]
  explicitMailPath := true
  controlDir := []
  mailPath_absolute := by decide
  controlDir_absolute := by decide

theorem folders_below_roots_a :
    Path.StrictlyBelow exampleRoots.mailPath ((ofByte 47).folderPath exampleRoots [97]) :=
  ((folders_below_roots_iff (ofByte 47) [97] (by decide)).mpr
    (.inr (by simp [Contained, ofByte])) exampleRoots).1

/-- With the slash as separator the name `/` is the directory above the root, `/m`. With `^` the name
`^/x` is `/m/x`, and with the dot the name `/` is the root. -/
theorem separator_name_leaves_root : validateFolderName [47] (ofByte 47).separator = .ok () ∧
    (ofByte 47).folderPath exampleRoots [47] = [47, 109] ∧
    (ofByte 47).controlFolderPath exampleRoots [47] = [47, 109] ∧
    ¬Path.StrictlyBelow exampleRoots.mailPath ((ofByte 47).folderPath exampleRoots [47]) ∧
    (ofByte 94).folderPath exampleRoots [94, 47, 120] = [47, 109, 47, 120] ∧
    (ofByte 46).folderPath exampleRoots [47] = exampleRoots.mailPath := by
  decide

end Naming

end Yarilo.Mailbox

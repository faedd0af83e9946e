import Yarilo.Mailbox.RoundTrip

/-! # Folders keep their names

In every run of creations and starts, the dotted directories of the mail path are those of the folders
created, one each: a creation adds its own, and a start changes none. So the listing gives back the
names.
-/

namespace Yarilo.Mailbox

open Library List

variable {name : Bytes}

/-- A name that `ValidateName` accepts is one that the driver accepts, and not the separator. -/
private theorem validateFolderName_of_validateName {esc : Option EscapeChar} {sep : Separator}
    (accepted : validateName (defaultNameRules esc) name sep = .ok ()) :
    validateFolderName name sep = .ok () ∧ name ≠ [] ∧ 0 ∉ name ∧ name ≠ [46] ∧ name ≠ sep.bytes := by
  simp only [validateName, defaultNameRules] at accepted
  split at accepted
  · cases accepted
  rename_i some
  split at accepted
  · cases accepted
  rename_i nul
  simp only [Bool.true_eq_false, false_and, if_false, true_and, Bool.false_eq_true] at accepted
  split at accepted
  · cases accepted
  split at accepted
  · cases accepted
  simp only [if_true] at accepted
  split at accepted
  · cases accepted
  rename_i absent
  have clean : ∀ s ∈ [sep.bytes, [46], [47]], ∀ p ∈ split s name, ¬RefusedSegment name (s, p) := by
    intro s listed p part
    have := find?_eq_none.mp absent (s, p)
      (mem_flatMap.mpr ⟨s, listed, mem_map.mpr ⟨p, part, rfl⟩⟩)
    simpa using this
  refine ⟨validateFolderName_eq_ok.mpr ⟨some, ?_, nul⟩, some, nul, ?_, ?_⟩
  · intro s listed p part
    have segment := clean s (by simp_all; tauto) p part
    exact ⟨fun dot => segment (.inl dot), fun dots => segment (.inr (.inl dots))⟩
  · rintro rfl
    exact clean [47] (by simp) [46] (by decide) (.inl rfl)
  · rintro rfl
    refine clean sep.bytes (by simp) [] ?_ (.inr (.inr ⟨rfl, infix_refl _⟩))
    rw [sep.split_bytes]
    simp

namespace Naming

variable {n : Naming} {esc : EscapeChar} {r : Roots}

/-- The directory of a folder, as an entry of the mail path. -/
def dirName (n : Naming) (name : Bytes) : Bytes := 46 :: n.disk (n.escaped name)

/-- A name that a session may create, with settings and encoding that keep it. -/
structure Creatable (n : Naming) (esc : EscapeChar) (name : Bytes) : Prop where
  notInbox : name ≠ inbox
  accepted : validateName (defaultNameRules (some esc)) name n.separator = .ok ()
  native : n.Native esc name

section

variable (char : n.escapeChar = some esc)

include char

private theorem components_folderPath (creatable : n.Creatable esc name) :
    Path.components (n.folderPath r name) = Path.components r.mailPath ++ [n.dirName name] := by
  obtain ⟨valid, some, -, dot, ne⟩ := validateFolderName_of_validateName creatable.accepted
  have single : n.escapeChar.isSome ∨ n.separator.bytes = [47] := .inl (by simp [char])
  have noSlash := (escaped_single some dot single).2.2.2
  have down : Path.move (n.dirName name) = .down := by
    rw [dirName, move_single some dot single, if_neg fun both => ne both.2]
  have path : n.folderPath r name = Path.join r.mailPath (n.dirName name) := by
    simp [folderPath, creatable.notInbox, valid, folderSubpath_eq, dirName]
  rw [path, (Path.components_join r.mailPath_absolute _).2,
    splitOn_eq_singleton (by simpa [dirName] using noSlash), foldl_cons, foldl_nil,
    Path.enter_of_move, down]

private theorem entryOf_folderPath (creatable : n.Creatable esc name) :
    entryOf r (n.folderPath r name) = some (n.dirName name) := by
  rw [entryOf, below, components_folderPath char creatable, dropPrefix?_append]
  rfl

/-- What a folder's directory is read back as. -/
private theorem logicalName_dirName (settings : n.ReadsBack esc) (native : n.Native esc name) :
    ((n.dirName name).dropPrefix? [46]).bind n.logicalName = some name := by
  obtain ⟨stored, stands⟩ := exists_stands char settings native
  have front : (n.dirName name).dropPrefix? [46] = some (n.disk (n.escaped name)) :=
    dropPrefix?_append [46] _
  rw [front, Option.bind_some, stands.disk, stands.named]

private theorem dirName_inj (settings : n.ReadsBack esc) {name' : Bytes} (native : n.Native esc name)
    (native' : n.Native esc name') (same : n.dirName name = n.dirName name') : name = name' := by
  have read := logicalName_dirName char settings native
  rw [same, logicalName_dirName char settings native'] at read
  exact (Option.some.inj read).symm

end

private theorem mapM_eq_self {f : Bytes → Option Bytes} {parts : List Bytes}
    (kept : ∀ p ∈ parts, f p = none ∨ f p = some p) : parts.mapM f = none ∨ parts.mapM f = some parts := by
  induction parts with
  | nil => exact .inr rfl
  | cons p rest ih =>
    rw [mapM_cons]
    rcases kept p (by simp) with none | same
    · exact .inl (by rw [none]; rfl)
    rcases ih fun p member => kept p (.tail _ member) with none | later
    · exact .inl (by rw [same, none]; rfl)
    · exact .inr (by rw [same, later]; rfl)

/-- A folder's directory is never taken for a foreign one. -/
private theorem adoptedDirName_dirName (char : n.escapeChar = some esc) (settings : n.ReadsBack esc)
    (native : n.Native esc name) :
    n.adoptedDirName (n.dirName name) = none ∨
      n.adoptedDirName (n.dirName name) = some (n.dirName name) := by
  obtain ⟨stored, stands⟩ := exists_stands char settings native
  have front : (n.dirName name).dropPrefix? [46] = some ([46].intercalate stored) := by
    rw [← stands.disk]
    exact dropPrefix?_append [46] _
  simp only [adoptedDirName, front, Option.getD_some, split_dots stands.nonempty stands.noDots]
  rcases mapM_eq_self stands.adopted with none | same
  · exact .inl (by rw [none]; rfl)
  · exact .inr (by rw [same]; simp)

/-! ## Runs -/

/-- An entry that counts as a folder. -/
def Dotted (e : DirEntry) : Prop := e.name.head? = some 46

instance (e : DirEntry) : Decidable (Dotted e) := inferInstanceAs (Decidable (_ = _))

/-- The dotted entries are the directories of the folders, and the inbox's own directories are no
files. -/
structure Holds (n : Naming) (d : MailDir) (names : List Bytes) : Prop where
  dotted : (d.filter Dotted).Perm (names.map fun name => ⟨n.dirName name, true⟩)
  inboxDirs : ∀ e ∈ d, e.name ∈ subdirs → e.isDir = true

/-- A maildir without folders. -/
def Fresh (d : MailDir) : Prop := ∀ e ∈ d, ¬Dotted e ∧ (e.name ∈ subdirs → e.isDir = true)

private theorem Fresh.holds {d : MailDir} (fresh : Fresh d) : n.Holds d [] := by
  refine ⟨?_, fun e member => (fresh e member).2⟩
  rw [map_nil, perm_nil, filter_eq_nil_iff]
  intro e member
  simpa using (fresh e member).1

variable {d : MailDir} {names : List Bytes}

private theorem Holds.folder (holds : n.Holds d names) {e : DirEntry} (member : e ∈ d) (dotted : Dotted e) :
    ∃ name ∈ names, e = ⟨n.dirName name, true⟩ := by
  have inside : e ∈ d.filter Dotted := mem_filter.mpr ⟨member, by simpa using dotted⟩
  obtain ⟨name, of, same⟩ := mem_map.mp (holds.dotted.subset inside)
  exact ⟨name, of, same.symm⟩

variable (refuses : Bytes → Bool)

private theorem Holds.mkdir_subdir (holds : n.Holds d names) {sub : Bytes} (listed : sub ∈ subdirs) :
    (d.mkdir refuses sub = none ∧ ∃ dir, refuses dir = true) ∨
      ∃ d', d.mkdir refuses sub = some d' ∧ n.Holds d' names := by
  have plain : 0 ∉ sub ∧ sub.head? ≠ some 46 := by
    simp only [subdirs, mem_cons, not_mem_nil, or_false] at listed
    rcases listed with rfl | rfl | rfl <;> decide
  have noFile : (⟨sub, false⟩ : DirEntry) ∉ d := by
    intro file
    cases holds.inboxDirs _ file listed
  rw [MailDir.mkdir, if_neg plain.1, if_neg noFile]
  split
  · exact .inr ⟨d, rfl, holds⟩
  split
  · exact .inl ⟨rfl, sub, ‹_›⟩
  refine .inr ⟨_, rfl, ?_, ?_⟩
  · have hidden : ¬Dotted ⟨sub, true⟩ := plain.2
    have last : [(⟨sub, true⟩ : DirEntry)].filter Dotted = [] := by simp [hidden]
    rw [filter_append, last, append_nil]
    exact holds.dotted
  · exact forall_mem_concat holds.inboxDirs fun _ => rfl

private theorem Holds.mkdirs (holds : n.Holds d names) {subs : List Bytes}
    (listed : ∀ s ∈ subs, s ∈ subdirs) :
    (subs.foldlM (MailDir.mkdir refuses) d = none ∧ ∃ dir, refuses dir = true) ∨
      ∃ d', subs.foldlM (MailDir.mkdir refuses) d = some d' ∧ n.Holds d' names := by
  induction subs generalizing d with
  | nil => exact .inr ⟨d, rfl, holds⟩
  | cons sub rest ih =>
    rw [foldlM_cons]
    rcases holds.mkdir_subdir refuses (listed sub (by simp)) with
      ⟨failed, refused⟩ | ⟨next, made, holds⟩
    · exact .inl ⟨by rw [failed]; rfl, refused⟩
    · rw [made]
      exact ih holds fun s member => listed s (.tail _ member)

private theorem foldlM_of_fixed {σ α : Type} {f : σ → α → Option σ} {s : σ} {l : List α}
    (fixed : ∀ a ∈ l, f s a = some s) : l.foldlM f s = some s := by
  induction l with
  | nil => rfl
  | cons a rest ih =>
    rw [foldlM_cons, fixed a (by simp)]
    exact ih fun a member => fixed a (.tail _ member)

section

variable (char : n.escapeChar = some esc)

include char

section

variable (settings : n.ReadsBack esc) (holds : n.Holds d names) (native : ∀ name ∈ names, n.Native esc name)

include settings holds native

/-- A start leaves the folders as they are. -/
private theorem Holds.init (elsewhere : Bytes → Bool) :
    (n.init r elsewhere refuses d = none ∧ ∃ dir, refuses dir = true) ∨
      ∃ d', n.init r elsewhere refuses d = some d' ∧ n.Holds d' names := by
  rcases holds.mkdirs refuses fun s (listed : s ∈ subdirs) => listed with
    ⟨failed, refused⟩ | ⟨d', made, holds⟩
  · exact .inl ⟨by rw [Naming.init, failed]; rfl, refused⟩
  refine .inr ⟨d', ?_, holds⟩
  rw [Naming.init, made]
  refine foldlM_of_fixed fun e member => ?_
  have inside : e ∈ d' := (perm_insertionSort _ _).subset member
  unfold adoptEntry
  split
  · rfl
  rename_i folder
  simp only [not_or, not_not] at folder
  obtain ⟨name, of, rfl⟩ := holds.folder inside folder.2.1
  rcases adoptedDirName_dirName char settings (native name of) with none | same
  · simp [none]
  · simp [same]

/-- A creation adds the folder's directory. -/
private theorem Holds.create (creatable : n.Creatable esc name) (new : name ∉ names) :
    (n.create r refuses d name = none ∧ ∃ dir, refuses dir = true) ∨
      ∃ d', n.create r refuses d name = some d' ∧ n.Holds d' (names ++ [name]) := by
  obtain ⟨valid, -, nul, -, -⟩ := validateFolderName_of_validateName creatable.accepted
  have dotted : ∀ dir, Dotted ⟨n.dirName name, dir⟩ := fun _ => rfl
  have absent : ¬d.Has (n.dirName name) := by
    rintro ⟨e, member, same⟩
    obtain ⟨other, of, rfl⟩ := holds.folder member (by rw [Dotted, same]; rfl)
    have equal := dirName_inj char settings (native other of) creatable.native same
    exact new (equal ▸ of)
  have noFile : (⟨n.dirName name, false⟩ : DirEntry) ∉ d := fun file => absent ⟨_, file, rfl⟩
  have noNul : 0 ∉ n.dirName name := by
    obtain ⟨stored, stands⟩ := exists_stands char settings creatable.native
    rw [dirName, stands.disk]
    intro member
    rcases mem_cons.mp member with dot | inside
    · cases dot
    rcases mem_intercalate inside with dot | ⟨p, level, of⟩
    · cases mem_singleton.mp dot
    · exact stands.noNul nul p level of
  have made : n.create r refuses d name =
      if refuses (n.dirName name) then none else some (d ++ [⟨n.dirName name, true⟩]) := by
    rw [Naming.create, if_neg fun both => both.2 valid, if_neg creatable.notInbox,
      entryOf_folderPath char creatable]
    simp [MailDir.mkdir, noNul, noFile, absent]
  by_cases refused : refuses (n.dirName name) = true
  · exact .inl ⟨made.trans (if_pos refused), _, refused⟩
  refine .inr ⟨_, made.trans (if_neg refused), ?_, ?_⟩
  · rw [filter_append, map_append]
    refine holds.dotted.append ?_
    simp [dotted]
  · exact forall_mem_concat holds.inboxDirs fun _ => rfl

/-- The listing of a maildir that holds the folders. -/
private theorem Holds.listFolders : (n.listFolders d).Perm (inbox :: names) := by
  let read : DirEntry → Option Bytes := fun e =>
    if e.isDir ∧ e.name ≠ inbox then (e.name.dropPrefix? [46]).bind n.logicalName else none
  have undotted : d.filterMap read = (d.filter Dotted).filterMap read := by
    rw [filterMap_filter]
    refine filterMap_congr fun e _ => ?_
    by_cases dotted : Dotted e
    · simp [dotted]
    have front : e.name.dropPrefix? [46] = none := by
      cases bytes : e.name with
      | nil => rfl
      | cons b rest =>
        have ne : b ≠ 46 := by
          rintro rfl
          exact dotted (by rw [Dotted, bytes]; rfl)
        simp [dropPrefix?, ne]
    simp [dotted, read, front]
  have named : (names.map fun name => (⟨n.dirName name, true⟩ : DirEntry)).filterMap read = names := by
    rw [filterMap_map]
    refine (filterMap_congr fun name of => ?_).trans filterMap_some
    have ne : n.dirName name ≠ inbox := by simp [dirName, inbox]
    simp only [Function.comp_apply, read]
    rw [if_pos ⟨trivial, ne⟩]
    exact logicalName_dirName char settings (native name of)
  refine .cons _ ?_
  have sorted : (d.readDir.filterMap read).Perm (d.filterMap read) :=
    (perm_insertionSort _ _).filterMap _
  have folders := holds.dotted.filterMap read
  rw [← undotted, named] at folders
  exact sorted.trans folders

end

/-- Every run whose creations are of distinct creatable names holds their folders, unless it is refused. -/
private theorem Holds.run (settings : n.ReadsBack esc) (holds : n.Holds d names) {calls : List FolderCall}
    (creatable : ∀ name ∈ names ++ calls.filterMap FolderCall.created, n.Creatable esc name)
    (distinct : (names ++ calls.filterMap FolderCall.created).Nodup) :
    (n.run r d calls = none ∧ ∃ call ∈ calls, ∃ dir, call.refuses dir = true) ∨
      ∃ d', n.run r d calls = some d' ∧ n.Holds d' (names ++ calls.filterMap FolderCall.created) := by
  induction calls generalizing d names with
  | nil => exact .inr ⟨d, rfl, by simpa using holds⟩
  | cons call rest ih =>
    have native : ∀ name ∈ names, n.Native esc name :=
      fun name of => (creatable name (mem_append_left _ of)).native
    -- What the rest does, once the call has gone well.
    have go {next : MailDir} {names' : List Bytes} (made : n.step r d call = some next)
        (more : names' ++ rest.filterMap FolderCall.created =
          names ++ (call :: rest).filterMap FolderCall.created) (holds : n.Holds next names') :
        (n.run r d (call :: rest) = none ∧ ∃ c ∈ call :: rest, ∃ dir, c.refuses dir = true) ∨
          ∃ d', n.run r d (call :: rest) = some d' ∧
            n.Holds d' (names ++ (call :: rest).filterMap FolderCall.created) := by
      have run : n.run r d (call :: rest) = n.run r next rest := by
        rw [Naming.run, foldlM_cons, made]
        rfl
      rw [← more] at creatable distinct ⊢
      rw [run]
      exact (ih holds creatable distinct).imp_left fun ⟨failed, c, member, refused⟩ =>
        ⟨failed, c, .tail _ member, refused⟩
    have stop (failed : n.step r d call = none) (refused : ∃ dir, call.refuses dir = true) :
        n.run r d (call :: rest) = none ∧ ∃ c ∈ call :: rest, ∃ dir, c.refuses dir = true :=
      ⟨by rw [Naming.run, foldlM_cons, failed]; rfl, call, .head _, refused⟩
    cases call with
    | create name refuses =>
      have new : name ∉ names := by
        intro of
        exact (nodup_append.mp distinct).2.2 name of name (by simp [FolderCall.created]) rfl
      rcases holds.create (r := r) refuses char settings native
        (creatable name (by simp [FolderCall.created])) new with ⟨failed, refused⟩ | ⟨next, made, holds⟩
      · exact .inl (stop failed refused)
      · exact go made (by simp [FolderCall.created]) holds
    | init elsewhere refuses =>
      rcases holds.init (r := r) refuses char settings native elsewhere with
        ⟨failed, refused⟩ | ⟨next, made, holds⟩
      · exact .inl (stop failed refused)
      · exact go made rfl holds

end

/-- In every run of creations and starts on a maildir that the file system does not refuse, the listing is
the inbox and the names created, each in its own directory of the mail path. -/
theorem folders_keep_names (n : Naming) (esc : EscapeChar) (char : n.escapeChar = some esc)
    (settings : n.ReadsBack esc) (r : Roots) (d : MailDir) (fresh : Fresh d) (calls : List FolderCall)
    (creatable : ∀ name ∈ calls.filterMap FolderCall.created, n.Creatable esc name)
    (distinct : (calls.filterMap FolderCall.created).Nodup) :
    (n.run r d calls = none ∧ ∃ call ∈ calls, ∃ dir, call.refuses dir = true) ∨
      ∃ d', n.run r d calls = some d' ∧
      (n.listFolders d').Perm (inbox :: calls.filterMap FolderCall.created) ∧
      (∀ name ∈ calls.filterMap FolderCall.created, ∃ dir, ⟨dir, true⟩ ∈ d' ∧
        Path.components (n.folderPath r name) = Path.components r.mailPath ++ [dir]) ∧
      ∀ name ∈ calls.filterMap FolderCall.created, ∀ name' ∈ calls.filterMap FolderCall.created,
        n.folderPath r name = n.folderPath r name' → name = name' := by
  rcases (Fresh.holds fresh).run (r := r) char settings creatable distinct with
    refused | ⟨d', run, holds⟩
  · exact .inl refused
  rw [nil_append] at holds
  refine .inr ⟨d', run, ?_, ?_, ?_⟩
  · exact holds.listFolders char settings fun name of => (creatable name of).native
  · intro name of
    refine ⟨n.dirName name, ?_, components_folderPath char (creatable name of)⟩
    have inside := holds.dotted.symm.subset (mem_map.mpr ⟨name, of, rfl⟩)
    exact (mem_filter.mp inside).1
  · intro name of name' of' same
    have first := entryOf_folderPath (r := r) char (creatable name of)
    rw [same, entryOf_folderPath char (creatable name' of')] at first
    exact (dirName_inj char settings (creatable name' of').native (creatable name of).native
      (Option.some.inj first)).symm

/-- Names with the slash as separator and `^` as escape character, stored as they are. -/
def caretNaming : Naming where
  separator := { bytes := [47], nonempty := by simp, single := .inl rfl, apart := by simp }
  escapeChar := some { byte := 94, ascii := by decide, notDot := by decide, notSlash := by decide }
  listUTF8 := true

/-- The folder `x.y` is created and the mailbox started twice, and nothing is refused. -/
def dottedCalls : List FolderCall :=
  let never : Bytes → Bool := fun _ => false
  [.create [120, 46, 121] never, .init never never, .init never never]

theorem folders_keep_names_dotted :
    ∃ d', caretNaming.run exampleRoots [] dottedCalls = some d' ∧
      (caretNaming.listFolders d').Perm [inbox, [120, 46, 121]] := by
  have settings : caretNaming.ReadsBack
      { byte := 94, ascii := by decide, notDot := by decide, notSlash := by decide } := by
    refine ⟨?_, by simp [caretNaming], by simp⟩
    intro b inside
    rw [mem_singleton.mp inside]
    decide
  have native : caretNaming.Native
      { byte := 94, ascii := by decide, notDot := by decide, notSlash := by decide }
      [120, 46, 121] := by
    intro level member
    rw [mem_singleton.mp member]
    exact .inr (by decide)
  obtain ⟨d', run, listed, -⟩ := (folders_keep_names caretNaming _ rfl settings exampleRoots []
    (by simp [Fresh]) dottedCalls
    (fun name of => by
      rw [mem_singleton.mp of]
      exact ⟨by decide, by decide, native⟩)
    (nodup_singleton _)).resolve_left (by simp [dottedCalls, FolderCall.refuses])
  exact ⟨d', run, listed⟩

/-- In UTF-8 the folder `a&-b` is `a&b` after the next start. -/
theorem encoded_looking_name_changes :
    validateName (defaultNameRules caretNaming.escapeChar) [97, 38, 45, 98] caretNaming.separator = .ok () ∧
    let created : FolderCall := .create [97, 38, 45, 98] fun _ => false
    (caretNaming.run exampleRoots [] [created]).map caretNaming.listFolders =
      some [inbox, [97, 38, 45, 98]] ∧
    (caretNaming.run exampleRoots [] [created, .init (fun _ => false) fun _ => false]).map
      caretNaming.listFolders = some [inbox, [97, 38, 98]] := by
  decide

end Naming

end Yarilo.Mailbox

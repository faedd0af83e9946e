import Mathlib.Data.List.Perm.Subperm
import Yarilo.Maildir.Visits

/-! # The listings of a folder

After the deliveries are moved in, `new/` holds no file and the scan is the files of `cur/` in the
order of their names. The messages of the index are its ledger in the order of the UIDs. A clean check
means that the two have the same names.
-/

namespace Yarilo.Maildir

open Library FileIndex List
open Mailbox (DirEntry MailDir)

variable {name base : Bytes}

namespace Folder

variable {f g : Folder}

/-- The files of `cur/` as they are listed. -/
def files (f : Folder) : List Bytes := (f.cur.readDir.filter (!·.isDir)).map (·.name)

/-- No delivery waits. -/
def Settled (f : Folder) : Prop := ∀ e ∈ f.new, e.isDir = true

theorem readDir_perm (d : MailDir) : d.readDir.Perm d := List.perm_insertionSort _ _

theorem mem_files : name ∈ f.files ↔ (⟨name, false⟩ : DirEntry) ∈ f.cur := by
  unfold files
  rw [mem_map]
  constructor
  · rintro ⟨⟨name, isDir⟩, listed, rfl⟩
    obtain ⟨member, file⟩ := mem_filter.mp listed
    obtain rfl : isDir = false := by simpa using file
    exact (readDir_perm f.cur).mem_iff.mp member
  · intro member
    exact ⟨_, mem_filter.mpr ⟨(readDir_perm f.cur).mem_iff.mpr member, rfl⟩, rfl⟩

theorem files_nodup (f : Folder) : f.files.Nodup := by
  have all : (f.cur.readDir.map (·.name)).Nodup := ((readDir_perm f.cur).map _).nodup_iff.mpr f.distinct
  exact all.sublist (filter_sublist.map _)

theorem files_named (member : name ∈ f.files) : name ≠ [] := f.named _ (mem_files.mp member)

theorem files_inCurDir (member : name ∈ f.files) : f.inCurDir name = true :=
  List.any_eq_true.mpr ⟨_, mem_files.mp member, by simp⟩

theorem files_stillOnDisk (member : name ∈ f.files) : f.stillOnDisk name = true := by
  rw [stillOnDisk, show f.cur.any (·.name = name) = true from files_inCurDir member, Bool.true_or]

theorem hasNewMail_eq_false : f.hasNewMail = false ↔ f.Settled := by
  unfold hasNewMail Settled
  rw [any_eq_false]
  simp

theorem fetchNew_of_settled (settled : f.Settled) : f.fetchNew = .ok f := by
  unfold fetchNew
  rw [hasNewMail_eq_false.mpr settled]
  rfl

theorem moveIn_new (moved : f.moveIn name = .ok g) : g.new = f.new.filter (·.name ≠ name) := by
  unfold moveIn at moved
  split at moved
  · cases moved
  · rw [← Except.ok.inj moved]

/-- A round removes the file it is about, and brings nothing back. -/
theorem moves_new {entries : List DirEntry}
    (moved : entries.foldlM (fun g e => if e.isDir then .ok g else g.moveIn e.name) f = .ok g) :
    ∀ e ∈ g.new, e ∈ f.new ∧ (e.isDir = false → e ∉ entries) := by
  induction entries generalizing f with
  | nil =>
    cases moved
    exact fun e member => ⟨member, fun _ => not_mem_nil⟩
  | cons head rest ih =>
    rw [foldlM_cons] at moved
    obtain ⟨h, first, moved⟩ := bind_eq_ok.mp moved
    intro e member
    obtain ⟨older, later⟩ := ih moved e member
    split at first
    · rename_i dir
      cases first
      refine ⟨older, fun file => ?_⟩
      rw [mem_cons]
      refine not_or.mpr ⟨?_, later file⟩
      rintro rfl
      rw [file] at dir
      cases dir
    · rw [moveIn_new first] at older
      obtain ⟨older, other⟩ := mem_filter.mp older
      refine ⟨older, fun file => ?_⟩
      rw [mem_cons]
      refine not_or.mpr ⟨?_, later file⟩
      rintro rfl
      simp at other

theorem fetchNew_settled (fetched : f.fetchNew = .ok g) : g.Settled := by
  unfold fetchNew at fetched
  split at fetched
  · intro e member
    obtain ⟨older, gone⟩ := moves_new fetched e member
    refine Bool.eq_true_of_not_eq_false fun file => ?_
    exact gone file ((readDir_perm f.new).mem_iff.mpr older)
  · rename_i quiet
    cases fetched
    exact hasNewMail_eq_false.mp (Bool.eq_false_iff.mpr quiet)

theorem scan_filenames (host : Host) (settled : f.Settled) : (f.scan host).map (·.filename) = f.files := by
  have none : (f.new.readDir.filter (!·.isDir)) = [] := by
    rw [filter_eq_nil_iff]
    intro e member
    rw [settled e ((readDir_perm f.new).mem_iff.mp member)]
    decide
  unfold scan files
  rw [filter_append, none, append_nil, map_map]
  rfl

end Folder

/-- The name of a base among the files of a listing: the last one. -/
def lastOf (files : List Bytes) (base : Bytes) : Option Bytes := files.reverse.find? (maildirBase · = base)

theorem diskOf_eq_lastOf (scanned : List ScanRecord) :
    diskOf scanned = lastOf (scanned.map (·.filename)) := by
  funext base
  unfold diskOf onDisk lastOf
  rw [← map_reverse, find?_map]
  rfl

theorem lastOf_eq_some {files : List Bytes} (found : lastOf files base = some name) :
    name ∈ files ∧ maildirBase name = base :=
  ⟨List.mem_reverse.mp (List.mem_of_find?_eq_some found), by simpa using List.find?_some found⟩

theorem lastOf_isSome {files : List Bytes} : (lastOf files base).isSome ↔ base ∈ files.map maildirBase := by
  unfold lastOf
  rw [find?_isSome, mem_map]
  simp

/-- Where the first and the last file of a base are one, the base has no other. -/
theorem eq_of_first_last {files : List Bytes} (nodup : files.Nodup) {name other : Bytes}
    (first : files.find? (maildirBase · = maildirBase name) = some name)
    (last : lastOf files (maildirBase name) = some name) (member : other ∈ files)
    (same : maildirBase other = maildirBase name) : other = name := by
  obtain ⟨_, before, behind, rfl, none⟩ := find?_eq_some_iff_append.mp first
  rcases mem_append.mp member with early | late
  · have := none other early
    simp [same] at this
  rcases mem_cons.mp late with rfl | late
  · rfl
  have split := nodup_append.mp nodup
  have behind_ne : name ∉ behind := (nodup_cons.mp split.2.1).1
  have found : (behind.reverse.find? (maildirBase · = maildirBase name)).isSome := by
    rw [find?_isSome]
    exact ⟨other, mem_reverse.mpr late, by simpa using same⟩
  obtain ⟨y, y_found⟩ := Option.isSome_iff_exists.mp found
  unfold lastOf at last
  rw [reverse_append, reverse_cons, append_assoc, find?_append, y_found] at last
  cases last
  exact absurd (mem_reverse.mp (mem_of_find?_eq_some y_found)) behind_ne

/-! ## The messages of the index -/

theorem getMessages_perm (fs : FolderState) : (fs.getMessages.map pairOf).Perm fs.ledger.entries := by
  refine ((perm_insertionSort _ _).map _).trans (.of_eq ?_)
  unfold FolderState.ledger Ledger.entries
  rw [map_map, map_map]
  rfl

theorem getMessages_sorted (fs : FolderState) : (fs.getMessages.map pairOf).Pairwise (·.1 ≤ ·.1) := by
  rw [pairwise_map]
  exact pairwise_insertionSort _ _

/-- The base of a message. -/
def baseOfMessage (m : MessageMeta) : Bytes := maildirBase m.filename

theorem map_baseOf (messages : List MessageMeta) :
    (messages.map pairOf).map baseOf = messages.map baseOfMessage := by
  rw [map_map]
  rfl

/-- A clean check: the records and the files have the same names, each once. -/
theorem names_of_clean {existing : List MessageMeta} {scanned : List ScanRecord}
    (clean : reconcileIsClean existing scanned = true) (nodup : (scanned.map (·.filename)).Nodup) :
    (existing.map (·.filename)).Perm (scanned.map (·.filename)) := by
  obtain ⟨_, _, _, length, known⟩ := of_decide_eq_true clean
  refine (List.Subperm.perm_of_length_le (subperm_of_subset nodup ?_) ?_).symm
  · intro name member
    obtain ⟨r, listed, rfl⟩ := mem_map.mp member
    obtain ⟨_, m, held, same, _⟩ := known r listed
    exact mem_map.mpr ⟨m, held, same⟩
  · rw [length_map, length_map, length]

end Yarilo.Maildir

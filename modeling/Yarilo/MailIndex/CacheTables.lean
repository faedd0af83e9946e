import Yarilo.Library.Runs
import Yarilo.MailIndex.CacheFile

/-! # Field tables in a damaged file

The tables of a cache file are found by following links the file holds, and nothing counts the links.
A chain that leads back to one of its tables is followed for ever.
-/

namespace Yarilo.MailIndex

open Library

namespace CacheFile

/-- The table the one at `off` links to, if it can be read and is not the last. -/
def nextTable (c : CacheFile) (file : Bytes) (off : ℕ) : Option ℕ :=
  match c.readFieldTable file off with
  | .error _ => none
  | .ok (next, _) => if next = 0 then none else some next

/-- The same by the link word alone. -/
def nextLink (c : CacheFile) (file : Bytes) (off : ℕ) : Option ℕ :=
  match c.readAt file off 4 with
  | none => none
  | some word => if linkTarget (getLe 4 0 word) = 0 then none else some (linkTarget (getLe 4 0 word))

variable {c : CacheFile} {file : Bytes} {off : ℕ}

theorem readFieldTable_error {err : CacheErr} (failed : c.readFieldTable file off = .error err) :
    err = .invalid := by
  unfold readFieldTable at failed
  split at failed
  · cases failed; rfl
  simp only at failed
  split at failed
  · cases failed; rfl
  split at failed
  · cases failed; rfl
  split at failed
  · rename_i decoded
    unfold decodeFields at decoded
    simp only at decoded
    split at decoded
    · cases decoded
      cases failed
      rfl
    · cases decoded
  · cases failed

/-- The walk over the tables returns as soon as the chain has ended, with a table or as invalid. -/
theorem loadTables_returns_iff (fuel : ℕ) : walk (c.nextTable file) fuel off = none ↔
    (∃ fields, c.loadTables file fuel off = .ok fields) ∨ c.loadTables file fuel off = .error .invalid := by
  induction fuel generalizing off with
  | zero => simp [walk, loadTables]
  | succ fuel ih =>
    rw [walk, loadTables, nextTable]
    cases read : c.readFieldTable file off with
    | error err => simp [readFieldTable_error read]
    | ok table =>
      by_cases last : table.1 = 0
      · simp [last]
      · simpa [last] using ih

theorem newestTable_returns_iff (fuel : ℕ) : walk (c.nextLink file) fuel off = none ↔
    (∃ tail, c.newestTable file fuel off = .ok tail) ∨ c.newestTable file fuel off = .error .invalid := by
  induction fuel generalizing off with
  | zero => simp [walk, newestTable]
  | succ fuel ih =>
    rw [walk, newestTable, nextLink]
    cases read : c.readAt file off 4 with
    | none => simp
    | some word =>
      by_cases last : linkTarget (getLe 4 0 word) = 0
      · simp [last]
      · simpa [last] using ih

/-- Only what lies in the file or in its copy is read. -/
theorem lt_of_readAt {length : ℕ} (some : 0 < length) (read : (c.readAt file off length).isSome) :
    off < file.length + (c.snap.getD []).length := by
  unfold readAt readFile at read
  split at read <;> split_ifs at read <;> simp_all <;> omega

theorem lt_of_nextTable {next : ℕ} (onward : c.nextTable file off = some next) :
    off < file.length + (c.snap.getD []).length := by
  apply lt_of_readAt (by decide : 0 < 12)
  unfold nextTable readFieldTable at onward
  cases read : c.readAt file off 12 with
  | none => simp [read] at onward
  | some fixed => rfl

theorem lt_of_nextLink {next : ℕ} (onward : c.nextLink file off = some next) :
    off < file.length + (c.snap.getD []).length := by
  apply lt_of_readAt (by decide : 0 < 4)
  unfold nextLink at onward
  cases read : c.readAt file off 4 with
  | none => simp [read] at onward
  | some word => rfl

/-- Both walks over the tables come to an end exactly if the links never lead back to a table the walk
has been at. -/
theorem table_walks_end_iff (c : CacheFile) (file : Bytes) :
    ((∃ turns, (∃ fields, c.loadTables file turns c.hdr.fieldHeaderOffset.toNat = .ok fields) ∨
        c.loadTables file turns c.hdr.fieldHeaderOffset.toNat = .error .invalid) ↔
      NoReturn (c.nextTable file) c.hdr.fieldHeaderOffset.toNat) ∧
    ((∃ turns, (∃ tail, c.newestTable file turns c.hdr.fieldHeaderOffset.toNat = .ok tail) ∨
        c.newestTable file turns c.hdr.fieldHeaderOffset.toNat = .error .invalid) ↔
      NoReturn (c.nextLink file) c.hdr.fieldHeaderOffset.toNat) := by
  simp only [← loadTables_returns_iff, ← newestTable_returns_iff]
  exact ⟨exists_ends_iff fun _ _ => lt_of_nextTable, exists_ends_iff fun _ _ => lt_of_nextLink⟩

/-- A header that names the byte behind it, and there a table without fields that names itself. -/
def selfLinked : CacheFile × Bytes :=
  let (c, _) := createCache 1 1
  let hdr := { c.hdr with fieldHeaderOffset := 32 }
  ({ c with hdr := hdr },
    hdr.encode ++ (putLe 4 (packCacheOffset 32#32).toNat ++ (putLe 4 12 ++ putLe 4 0)))

theorem selfLinked_walks_on : openCache selfLinked.2 1 1 = .error .endless ∧
    ¬∃ turns, (∃ fields, selfLinked.1.loadTables selfLinked.2 turns 32 = .ok fields) ∨
      selfLinked.1.loadTables selfLinked.2 turns 32 = .error .invalid := by
  refine ⟨rfl, ?_⟩
  simp only [← loadTables_returns_iff]
  rintro ⟨turns, ends⟩
  exact noReturn_of_ends ends 0 1 32 (by omega) rfl (by decide +kernel)

/-! ## Refused writes -/

/-- The writes of `AddFields`, of which the system may refuse any. -/
inductive CacheWrite where
  | table
  | header
  | link
deriving DecidableEq

/-- `AddFields` under refusals, a refused write being the error `none`: its answer and the handle it
leaves. -/
def addFieldsUnder (refused : CacheWrite → Bool) (c : CacheFile) (file : Bytes)
    (add : List CacheField) : Except (Option CacheErr) ℕ × CacheFile :=
  let firstNew := u32 c.fields.length
  let (merged, byName) := c.mergeFields add
  let c := { c with byName := byName }
  if u32 merged.length = firstNew then (.ok firstNew, c)
  else
    match encodeTable merged with
    | .error err => (.error (some err), c)
    | .ok buf =>
      if refused .table then (.error none, c)
      else
        match appendAligned file buf with
        | (.error err, _) => (.error (some err), c)
        | (.ok off, file) =>
          if c.hdr.fieldHeaderOffset = 0 then
            let c := { c with hdr := { c.hdr with fieldHeaderOffset := UInt32.ofNat off } }
            if refused .header then (.error none, c) else (.ok firstNew, { c with fields := merged })
          else
            match c.newestTableOffset file with
            | .error err => (.error (some err), c)
            | .ok _ =>
              if refused .link then (.error none, c) else (.ok firstNew, { c with fields := merged })

/-- Without refusals it is the one that writes. -/
theorem addFieldsUnder_none (c : CacheFile) (file : Bytes) (add : List CacheField) :
    c.addFieldsUnder (fun _ => false) file add =
      ((c.addFields file add).1.mapError some, (c.addFields file add).2.1) := by
  unfold addFieldsUnder addFields linkTable
  dsimp only
  split
  · rfl
  cases encodeTable (c.mergeFields add).1 with
  | error err => rfl
  | ok buf =>
    rcases appended : appendAligned file buf with ⟨_ | off, file'⟩
    · simp [appended, Except.mapError]
    by_cases first : c.hdr.fieldHeaderOffset = 0
    · simp [appended, first, Except.mapError]
    · cases newest : ({ c with byName := (c.mergeFields add).2 } : CacheFile).newestTableOffset file' <;>
        simp [appended, first, newest, Except.mapError]

theorem mergeField_fold_known (add : List CacheField) {held : List CacheField}
    {ids : Bytes → Option UInt32} {name : Bytes} (known : (ids name).isSome) :
    (add.foldl mergeField (held, ids)).2 name = ids name := by
  induction add generalizing held ids with
  | nil => rfl
  | cons fl rest ih =>
    rw [List.foldl_cons, mergeField]
    split
    · exact ih known
    rename_i new
    have other : name ≠ fl.name := by
      rintro rfl
      exact new known
    rw [ih (by simpa [Function.update_of_ne other] using known)]
    exact Function.update_of_ne other _ _

/-- A merge that leaves the ids alone adds nothing. -/
theorem mergeField_fold_unchanged {add held : List CacheField} {ids : Bytes → Option UInt32}
    (same : (add.foldl mergeField (held, ids)).2 = ids) : (add.foldl mergeField (held, ids)).1 = held := by
  induction add with
  | nil => rfl
  | cons fl rest ih =>
    rw [List.foldl_cons, mergeField] at same ⊢
    split at same
    · rename_i known
      rw [if_pos known]
      exact ih same
    rename_i new
    have id := congrFun same fl.name
    rw [mergeField_fold_known rest (by simp)] at id
    simp [← id] at new

theorem newestTableOffset_byName (ids : Bytes → Option UInt32) :
    ({ c with byName := ids } : CacheFile).newestTableOffset file = c.newestTableOffset file := by
  have walks : ∀ fuel off, ({ c with byName := ids } : CacheFile).newestTable file fuel off =
      c.newestTable file fuel off := by
    intro fuel
    induction fuel with
    | zero => exact fun _ => rfl
    | succ fuel ih =>
      intro off
      simp only [newestTable, ih]
      rfl
  exact walks _ _

/-- The error is one the call comes back with: no panic and no walk without end. -/
def returned (err : Option CacheErr) : Bool := err ≠ some .sliceBounds ∧ err ≠ some .endless

/-- Nothing is refused, the file takes the table, and the table it is linked from is found. -/
def WritesThrough (refused : CacheWrite → Bool) (c : CacheFile) (file : Bytes)
    (merged : List CacheField) : Prop :=
  let padded := file ++ zeros (pad4 file.length)
  refused .table = false ∧ padded.length ≤ 0x3fffffff ∧
    if c.hdr.fieldHeaderOffset = 0 then refused .header = false
    else
      match c.newestTableOffset (padded ++ (putLe 4 0 ++ tableRest merged)) with
      | .error err => ¬returned (some err)
      | .ok _ => refused .link = false

/-- A call that returns an error leaves fields and ids as they were only where it returns none: without
a new name, or with every write done. The names of a call that failed stay in the handle. -/
theorem addFields_failure_unseen_iff (refused : CacheWrite → Bool) (c : CacheFile) (file : Bytes)
    (add : List CacheField) :
    (∀ err, (c.addFieldsUnder refused file add).1 = .error err → returned err →
        (c.addFieldsUnder refused file add).2.fields = c.fields ∧
          (c.addFieldsUnder refused file add).2.byName = c.byName) ↔
      u32 (c.mergeFields add).1.length = u32 c.fields.length ∨
        tableSize (c.mergeFields add).1 < 12 + 10 * (c.mergeFields add).1.length ∨
        WritesThrough refused c file (c.mergeFields add).1 := by
  unfold addFieldsUnder
  dsimp only
  by_cases none : u32 (c.mergeFields add).1.length = u32 c.fields.length
  · simp [none]
  have changed : (c.mergeFields add).2 ≠ c.byName := by
    intro same
    exact none (congrArg _ (congrArg _ (mergeField_fold_unchanged same)))
  rw [if_neg none, encodeTable]
  by_cases panics : tableSize (c.mergeFields add).1 < 12 + 10 * (c.mergeFields add).1.length
  · simp [panics, returned]
  simp only [none, panics, if_false, false_or, WritesThrough]
  by_cases table : refused .table
  · simp [table, changed, returned]
  by_cases beyond : 0x3fffffff < (file ++ zeros (pad4 file.length)).length
  · simp only [table, appendAligned, if_pos beyond, not_le.mpr beyond]
    simp [changed, returned]
  simp only [table, appendAligned, if_neg beyond, not_lt.mp beyond, newestTableOffset_byName]
  by_cases first : c.hdr.fieldHeaderOffset = 0
  · cases refused .header <;> simp [first, changed, returned]
  cases newest : c.newestTableOffset (file ++ zeros (pad4 file.length) ++
      (putLe 4 0 ++ tableRest (c.mergeFields add).1)) with
  | error err => cases err <;> simp [first, changed, returned]
  | ok tail => cases refused .link <;> simp [first, changed, returned]

/-- The table of a fresh file is not written. The field is known from then on, its id is one no record
may use, and the same call succeeds without doing anything. -/
theorem refused_field_stays_known :
    let field : CacheField := ⟨[97], 2, 0, 0, 0⟩
    let (c, file) := createCache 1 1
    let (answer, failed) := c.addFieldsUnder (fun w => w = .table) file [field]
    answer = .error none ∧ failed.fields = [] ∧ failed.byName [97] = some 0 ∧
      (failed.appendRecord file 0 [⟨0, []⟩]).1 = .error .unknownField ∧
      (failed.addFields file [field]).1 = .ok 0 ∧ (failed.addFields file [field]).2.1.fields = [] := by
  refine ⟨rfl, rfl, rfl, rfl, rfl, rfl⟩

end CacheFile

end Yarilo.MailIndex

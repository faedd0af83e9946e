import Yarilo.Maildir.Reconcile

/-! # Matching records with files

What one pass makes of the messages of an index, in terms of UIDs and names only: which records stay
and under which name, which files are imported, and the UIDs the imports get. `disk` is the name the
listing has for a base and `present` the check for one name.
-/

namespace Yarilo.Maildir

open Library FileIndex List

/-- The base of a message given by its UID and filename. -/
def baseOf (e : ℕ × Bytes) : Bytes := maildirBase e.2

variable {tracked names : List Bytes} {name : Bytes}

section Keep

variable (disk : Bytes → Option Bytes) (present : Bytes → Bool) {old : List (ℕ × Bytes)}
  {e m : ℕ × Bytes}

/-- The records that stay, in the order of the visits. -/
def keep : List Bytes → List (ℕ × Bytes) → List (ℕ × Bytes)
  | _, [] => []
  | tracked, e :: rest =>
    match disk (baseOf e) with
    | none => if present e.2 then e :: keep tracked rest else keep tracked rest
    | some name =>
      if baseOf e ∈ tracked then keep tracked rest
      else (e.1, name) :: keep (baseOf e :: tracked) rest

/-- The bases that have their record after the visits. -/
def claim : List Bytes → List (ℕ × Bytes) → List Bytes
  | tracked, [] => tracked
  | tracked, e :: rest =>
    if (disk (baseOf e)).isSome ∧ baseOf e ∉ tracked then claim (baseOf e :: tracked) rest
    else claim tracked rest

variable {disk present}

theorem keep_cons (tracked : List Bytes) (e : ℕ × Bytes) (rest : List (ℕ × Bytes)) :
    keep disk present tracked (e :: rest) =
      keep disk present tracked [e] ++ keep disk present (claim disk tracked [e]) rest := by
  simp only [keep, claim]
  cases disk (baseOf e) with
  | none => cases present e.2 <;> simp
  | some name => by_cases known : baseOf e ∈ tracked <;> simp [known]

theorem keep_uids (tracked : List Bytes) (old : List (ℕ × Bytes)) :
    ((keep disk present tracked old).map (·.1)).Sublist (old.map (·.1)) := by
  induction old generalizing tracked with
  | nil => exact .slnil
  | cons e rest ih =>
    unfold keep
    split
    · split
      · exact (ih tracked).cons_cons _
      · exact (ih tracked).cons _
    split
    · exact (ih tracked).cons _
    · exact (ih _).cons_cons _

theorem mem_claim {base : Bytes} :
    base ∈ claim disk tracked old ↔
      base ∈ tracked ∨ (disk base).isSome ∧ base ∈ old.map baseOf := by
  induction old generalizing tracked with
  | nil => simp [claim]
  | cons e rest ih =>
    unfold claim
    split
    · rename_i first
      rw [ih, mem_cons, map_cons, mem_cons]
      constructor
      · rintro ((rfl | known) | ⟨there, later⟩)
        · exact .inr ⟨first.1, .inl rfl⟩
        · exact .inl known
        · exact .inr ⟨there, .inr later⟩
      · rintro (known | ⟨there, rfl | later⟩)
        · exact .inl (.inr known)
        · exact .inl (.inl rfl)
        · exact .inr ⟨there, later⟩
    · rename_i skipped
      rw [ih, map_cons, mem_cons]
      constructor
      · rintro (known | ⟨there, later⟩)
        · exact .inl known
        · exact .inr ⟨there, .inr later⟩
      · rintro (known | ⟨there, rfl | later⟩)
        · exact .inl known
        · exact .inl (by_contra fun new => skipped ⟨there, new⟩)
        · exact .inr ⟨there, later⟩

theorem mem_keep_single {head : ℕ × Bytes} : e ∈ keep disk present tracked [head] ↔
      e = head ∧ disk (baseOf head) = none ∧ present head.2 ∨
        e.1 = head.1 ∧ disk (baseOf head) = some e.2 ∧ baseOf head ∉ tracked := by
  simp only [keep]
  cases disk (baseOf head) with
  | none => cases present head.2 <;> simp
  | some name => by_cases known : baseOf head ∈ tracked <;> simp [known, Prod.ext_iff, @eq_comm _ e.2]

theorem mem_keep (kept : e ∈ keep disk present tracked old) :
    e ∈ old ∧ disk (baseOf e) = none ∧ present e.2 ∨
      ∃ m ∈ old, m.1 = e.1 ∧ disk (baseOf m) = some e.2 ∧ baseOf m ∉ tracked := by
  induction old generalizing tracked with
  | nil => cases kept
  | cons head rest ih =>
    rw [keep_cons, mem_append] at kept
    rcases kept with here | later
    · rcases mem_keep_single.mp here with ⟨rfl, missing, there⟩ | ⟨uid, found, new⟩
      · exact .inl ⟨.head _, missing, there⟩
      · exact .inr ⟨head, .head _, uid.symm, found, new⟩
    rcases ih later with ⟨member, rest⟩ | ⟨m, member, uid, found, new⟩
    · exact .inl ⟨mem_cons_of_mem _ member, rest⟩
    · exact .inr ⟨m, mem_cons_of_mem _ member, uid, found, fun known => new (mem_claim.mpr (.inl known))⟩

/-- Every base that is on disk and has a record keeps one, under the name of the listing. -/
theorem exists_mem_keep (member : m ∈ old) (found : disk (baseOf m) = some name)
    (new : baseOf m ∉ tracked) : ∃ uid, (uid, name) ∈ keep disk present tracked old := by
  induction old generalizing tracked with
  | nil => cases member
  | cons head rest ih =>
    rw [keep_cons]
    by_cases same : baseOf m = baseOf head
    · exact ⟨head.1, mem_append_left _ (mem_keep_single.mpr (.inr ⟨rfl, same ▸ found, same ▸ new⟩))⟩
    · have later : m ∈ rest := (mem_cons.mp member).resolve_left fun eq => same (eq ▸ rfl)
      obtain ⟨uid, kept⟩ := @ih (claim disk tracked [head]) later (by simp [mem_claim, new, same])
      exact ⟨uid, mem_append_right _ kept⟩

/-- The record that stays for a base on disk is the first one, so the one with the lowest UID. -/
theorem keep_lowest (lawful : ∀ base name, disk base = some name → maildirBase name = base)
    (sorted : old.Pairwise (·.1 ≤ ·.1)) (kept : e ∈ keep disk present tracked old)
    (there : (disk (baseOf e)).isSome) (member : m ∈ old) (same : baseOf m = baseOf e) : e.1 ≤ m.1 := by
  induction old generalizing tracked with
  | nil => cases member
  | cons head rest ih =>
    obtain ⟨least, sorted⟩ := pairwise_cons.mp sorted
    rw [keep_cons, mem_append] at kept
    rcases kept with here | inside
    · have uid : e.1 = head.1 := by
        rcases mem_keep_single.mp here with ⟨rfl, -⟩ | ⟨uid, -⟩
        · rfl
        · exact uid
      rcases mem_cons.mp member with rfl | later
      · exact uid.le
      · exact uid.trans_le (least m later)
    rcases mem_cons.mp member with rfl | later
    · -- The base had its record when the rest was visited, so no record of it is kept there.
      rcases mem_keep inside with ⟨_, missing, _⟩ | ⟨m', _, _, found, new⟩
      · rw [missing] at there
        cases there
      · have base : baseOf m' = baseOf e := (lawful _ _ found).symm
        exact absurd (mem_claim.mpr (.inr ⟨base ▸ there, by simp [base, same]⟩)) new
    · exact ih sorted inside later

/-- No two records that stay have one base, if all of them are on disk. -/
theorem keep_bases_nodup (lawful : ∀ base name, disk base = some name → maildirBase name = base)
    (gone : ∀ m ∈ old, disk (baseOf m) = none → present m.2 = false) :
    ((keep disk present tracked old).map baseOf).Nodup := by
  induction old generalizing tracked with
  | nil => exact nodup_nil
  | cons head rest ih =>
    have tail := fun t => @ih t fun m later => gone m (.tail _ later)
    unfold keep
    split
    · rename_i missing
      rw [gone head (.head _) missing]
      exact tail tracked
    rename_i name found
    split
    · exact tail tracked
    rw [map_cons, nodup_cons]
    refine ⟨fun again => ?_, tail _⟩
    obtain ⟨e, kept, base⟩ := mem_map.mp again
    have this : baseOf e = baseOf head := base.trans (lawful _ _ found)
    rcases mem_keep kept with ⟨_, missing, _⟩ | ⟨m, _, _, found', new⟩
    · rw [this, found] at missing
      cases missing
    · have : baseOf m = baseOf head := (lawful _ _ found').symm.trans this
      exact new (this ▸ (.head _))

/-- A record that is not listed but found stays. -/
theorem mem_keep_of_present (member : e ∈ old) (missing : disk (baseOf e) = none)
    (there : present e.2 = true) : e ∈ keep disk present tracked old := by
  induction old generalizing tracked with
  | nil => cases member
  | cons head rest ih =>
    rw [keep_cons, mem_append]
    rcases mem_cons.mp member with rfl | later
    · left
      simp [keep, missing, there]
    · exact .inr (ih later)

/-- Records that agree with the listing stay as they are. -/
theorem keep_agree (agree : ∀ e ∈ old, disk (baseOf e) = some e.2) (bases : (old.map baseOf).Nodup)
    (new : ∀ e ∈ old, baseOf e ∉ tracked) : keep disk present tracked old = old := by
  induction old generalizing tracked with
  | nil => rfl
  | cons head rest ih =>
    obtain ⟨fresh, bases⟩ := nodup_cons.mp bases
    unfold keep
    rw [agree head (.head _)]
    dsimp only
    rw [if_neg (new head (.head _)), ih (fun e later => agree e (.tail _ later)) bases]
    intro e later known
    rcases mem_cons.mp known with again | known
    · exact fresh (again ▸ mem_map_of_mem later)
    · exact new e (.tail _ later) known

end Keep

/-! ## Imports -/

/-- The files that are imported: the first of each base without a record. -/
def imports : List Bytes → List Bytes → List Bytes
  | _, [] => []
  | tracked, name :: rest =>
    if maildirBase name ∈ tracked then imports tracked rest
    else name :: imports (maildirBase name :: tracked) rest

/-- The UIDs of imports. A recorded UID is taken as it is; a counted one is the next UID, which
skips zero and wraps around at 32 bits. -/
def numbers (recorded : Bytes → Option ℕ) : ℕ → List Bytes → List ℕ
  | _, [] => []
  | next, name :: rest =>
    match recorded name with
    | some uid => uid :: numbers recorded (if next ≤ uid then u32 (uid + 1) else next) rest
    | none =>
      let uid := if next = 0 then 1 else next
      uid :: numbers recorded (u32 (uid + 1)) rest

theorem length_numbers (recorded : Bytes → Option ℕ) (next : ℕ) (names : List Bytes) :
    (numbers recorded next names).length = names.length := by
  induction names generalizing next with
  | nil => rfl
  | cons name rest ih =>
    unfold numbers
    split <;> simp [ih]

theorem mem_imports (member : name ∈ imports tracked names) : name ∈ names ∧ maildirBase name ∉ tracked := by
  induction names generalizing tracked with
  | nil => cases member
  | cons head rest ih =>
    unfold imports at member
    split at member
    · exact (ih member).imp_left (mem_cons_of_mem _)
    rename_i new
    rcases mem_cons.mp member with rfl | later
    · exact ⟨.head _, new⟩
    · exact ⟨mem_cons_of_mem _ (ih later).1,
        fun known => (ih later).2 (.tail _ known)⟩

theorem imports_bases_nodup (tracked names : List Bytes) :
    ((imports tracked names).map maildirBase).Nodup := by
  induction names generalizing tracked with
  | nil => exact nodup_nil
  | cons head rest ih =>
    unfold imports
    split
    · exact ih tracked
    rw [map_cons, nodup_cons]
    refine ⟨fun again => ?_, ih _⟩
    obtain ⟨name, later, base⟩ := mem_map.mp again
    exact (mem_imports later).2 (base ▸ (.head _))

/-- Of a base without a record the file that is listed first is imported. -/
theorem find_mem_imports (first : names.find? (maildirBase · = maildirBase name) = some name)
    (new : maildirBase name ∉ tracked) : name ∈ imports tracked names := by
  induction names generalizing tracked with
  | nil => cases first
  | cons head rest ih =>
    unfold imports
    rw [find?_cons] at first
    split at first
    · rename_i same
      cases first
      rw [if_neg new]
      exact .head _
    · rename_i other
      have other : maildirBase head ≠ maildirBase name := by simpa using other
      split
      · exact ih first new
      refine mem_cons_of_mem _ (ih first ?_)
      rw [mem_cons]
      exact not_or.mpr ⟨other.symm, new⟩

/-- Nothing is imported where every base has its record. -/
theorem imports_eq_nil (known : ∀ name ∈ names, maildirBase name ∈ tracked) : imports tracked names = [] := by
  induction names with
  | nil => rfl
  | cons head rest ih =>
    unfold imports
    rw [if_pos (known head (.head _))]
    exact ih fun name later => known name (.tail _ later)

end Yarilo.Maildir

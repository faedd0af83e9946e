import Yarilo.MailIndex.Record

/-! # What a layout depends on

The stretches of a record follow from the names, sizes and alignments of the extensions that have
one. Header data, header-only extensions, the order of the list and the sorting routine do not
matter, and neither do they for the bytes of a record.
-/

namespace Yarilo.MailIndex

open Library Extension List

/-- What an extension asks of a record. -/
structure Claim where
  name : Bytes
  size : UInt16
  align : UInt16
deriving DecidableEq

/-- What it is given. -/
structure Stretch where
  name : Bytes
  offset : UInt16
  size : UInt16
deriving DecidableEq

def Extension.claim (e : Extension) : Claim := ⟨e.name, e.recordSize, e.recordAlign⟩

def Extension.stretch (e : Extension) : Stretch := ⟨e.name, e.recordOffset, e.recordSize⟩

/-- The extensions with a stretch in the record. -/
def recordExts (exts : List Extension) : List Extension := exts.filter fun e => e.recordSize ≠ 0

def claims (exts : List Extension) : List Claim := (recordExts exts).map claim

def stretches (exts : List Extension) : List Stretch := (recordExts exts).map stretch

def Claim.before (c d : Claim) : Bool :=
  if c.align ≠ d.align then d.align < c.align
  else c.name.map UInt8.toNat < d.name.map UInt8.toNat

/-- The loop that assigns offsets, over claims alone. -/
def place (pos : ℕ) : List Claim → Option (ℕ × List Stretch)
  | [] => some (pos, [])
  | c :: rest =>
    let start := alignUp pos c.align.toNat
    if 0xFFFF < start then none
    else (place (start + c.size.toNat) rest).map fun placed =>
      (placed.1, ⟨c.name, UInt16.ofNat start, c.size⟩ :: placed.2)

/-- Header-only extensions take no part in the assignment. -/
theorem assign_eq_place (pos : ℕ) (exts : List Extension) :
    (assign pos exts).toOption.map (fun r => (r.1, stretches r.2)) = place pos (claims exts) := by
  induction exts generalizing pos with
  | nil => rfl
  | cons e rest ih =>
    rw [assign]
    by_cases empty : e.recordSize = 0
    · have skipped : claims (e :: rest) = claims rest := by simp [claims, recordExts, empty]
      rw [if_pos empty, skipped, ← ih pos]
      cases assign pos rest with
      | error err => rfl
      | ok result =>
        simp [Except.toOption, stretches, recordExts, empty]
    · have taken : claims (e :: rest) = ⟨e.name, e.recordSize, e.recordAlign⟩ :: claims rest := by
        simp [claims, recordExts, empty, claim]
      rw [if_neg empty, taken, place]
      by_cases beyond : 0xFFFF < alignUp pos e.recordAlign.toNat
      · rw [if_pos beyond, if_pos beyond]
        rfl
      · rw [if_neg beyond, if_neg beyond, ← ih]
        cases assign (alignUp pos e.recordAlign.toNat + e.recordSize.toNat) rest with
        | error err => rfl
        | ok result => simp [Except.toOption, stretches, recordExts, empty, stretch]

/-! ## Order -/

variable {exts exts' : List Extension} {layout : RecordLayout}

theorem claims_perm (perm : exts.Perm exts') : (claims exts).Perm (claims exts') := (perm.filter _).map _

/-- Placing in order gives the claims in the one order they can have. -/
theorem claims_sort_eq (s s' : Sorter) (distinct : (exts.map name).Nodup)
    (same : (claims exts).Perm (claims exts')) :
    claims (s.sort before exts) = claims (s'.sort before exts') := by
  have ordered : ∀ (s : Sorter) (exts : List Extension),
      (claims (s.sort before exts)).Pairwise fun c d => d.before c = false := by
    intro s exts
    have sorted := (s.ordered before_comparison exts).filter fun e => e.recordSize ≠ 0
    exact pairwise_map.mpr sorted
  have left := claims_perm (s.perm before exts)
  have right := claims_perm (s'.perm before exts')
  refine List.Perm.eq_of_pairwise ?_ (ordered s exts) (ordered s' exts')
    (left.trans (same.trans right.symm))
  intro c d first second later earlier
  have inside : ∀ c ∈ claims exts, ∃ e ∈ exts, e.claim = c := by
    intro c member
    obtain ⟨e, held, claim⟩ := mem_map.mp member
    exact ⟨e, mem_of_mem_filter held, claim⟩
  obtain ⟨e, held, rfl⟩ := inside c (left.subset first)
  obtain ⟨f, held', rfl⟩ := inside d (same.symm.subset (right.subset second))
  rw [eq_of_name_eq distinct held held' (name_eq_of_not_before earlier later)]

/-- The stretches lie in the order of their offsets already. -/
theorem stretches_sort_eq (s : Sorter) {pos size : ℕ} {placed : List Extension}
    (assigned : assign pos exts = .ok (size, placed)) :
    stretches (s.sort offsetLess placed) = stretches placed := by
  have apart := (assign_stretches assigned).2.2
  have rising : (stretches placed).Pairwise fun a b => a.offset < b.offset := by
    refine pairwise_map.mpr ?_
    have positive : ∀ e : Extension, e.recordSize ≠ 0 → 0 < e.recordSize.toNat := by
      intro e room
      exact Nat.pos_of_ne_zero fun zero => room (UInt16.toNat_inj.mp zero)
    refine (apart.filter fun e => e.recordSize ≠ 0).imp_of_mem ?_
    intro e f left right ends
    have first : e.recordSize ≠ 0 := by simpa using (mem_filter.mp left).2
    have second : f.recordSize ≠ 0 := by simpa using (mem_filter.mp right).2
    have behind := ends first second
    have room := positive e first
    unfold stop at behind
    simp only [stretch, UInt16.lt_iff_toNat_lt]
    omega
  have sorted : (stretches (s.sort offsetLess placed)).Pairwise
      fun a b => ¬ b.offset < a.offset := by
    refine pairwise_map.mpr ?_
    have ordered := (s.ordered offsetLess_comparison placed).filter fun e => e.recordSize ≠ 0
    refine ordered.imp ?_
    intro e f later
    exact of_decide_eq_false later
  have perm : (stretches (s.sort offsetLess placed)).Perm (stretches placed) :=
    ((s.perm offsetLess placed).filter _).map _
  have offsets : ((stretches placed).map Stretch.offset).Nodup :=
    (pairwise_map.mpr (rising.imp fun less same => by simp [same] at less))
  refine List.Perm.eq_of_pairwise ?_ sorted (rising.imp fun less later => ?_) perm
  · intro a b first second later earlier
    refine inj_on_of_nodup_map offsets (perm.subset first) second ?_
    simp only [UInt16.lt_iff_toNat_lt] at later earlier
    exact UInt16.toNat_inj.mp (by omega)
  · simp only [UInt16.lt_iff_toNat_lt] at less later
    omega

/-! ## Layouts -/

/-- The extensions of a list are laid out alike under another sort and in any company of header-only
extensions. -/
theorem computeRecordLayout_congr {s : Sorter} (s' : Sorter)
    (distinct : (exts.map name).Nodup) (same : (claims exts).Perm (claims exts'))
    (fine : ∀ e ∈ exts', e.check = none) (done : computeRecordLayout s exts = .ok layout) :
    ∃ layout', computeRecordLayout s' exts' = .ok layout' ∧ layout'.recordSize = layout.recordSize ∧
      stretches layout'.extensions = stretches layout.extensions := by
  obtain ⟨-, placed, assigned, listed⟩ := computeRecordLayout_ok done
  have first := assign_eq_place recordMinSize (s.sort before exts)
  have second := assign_eq_place recordMinSize (s'.sort before exts')
  rw [assigned, claims_sort_eq s s' distinct same] at first
  rw [← first] at second
  cases assigned' : assign recordMinSize (s'.sort before exts') with
  | error err => simp [assigned', Except.toOption] at second
  | ok result =>
    obtain ⟨size, placed'⟩ := result
    have both : size = layout.recordSize ∧ stretches placed' = stretches placed := by
      simpa [assigned', Except.toOption] using second
    have clean : exts'.findSome? check = none := by
      rw [findSome?_eq_none_iff]
      exact fine
    refine ⟨_, by rw [computeRecordLayout, clean]; simp only [assigned']; rfl, both.1, ?_⟩
    rw [listed, stretches_sort_eq s assigned, ← both.2]
    exact stretches_sort_eq s' assigned'

/-! ## Bytes of a record -/

theorem Record.slots_eq (rec : Record) (exts : List Extension) :
    rec.slots exts = (stretches exts).filterMap fun st =>
      if rec.ext st.name = [] then none
      else some { offset := st.offset.toNat, data := rec.ext st.name } := by
  induction exts with
  | nil => rfl
  | cons e rest ih =>
    by_cases empty : e.recordSize = 0
    · have skipped : stretches (e :: rest) = stretches rest := by
        simp [stretches, recordExts, empty]
      rw [skipped, ← ih]
      simp [Record.slots, empty]
    · have taken : stretches (e :: rest) = e.stretch :: stretches rest := by
        simp [stretches, recordExts, empty]
      rw [taken, filterMap_cons, ← ih]
      by_cases absent : rec.ext e.name = []
      · simp [Record.slots, stretch, absent]
      · simp [Record.slots, stretch, absent, empty]

theorem Record.bytes_congr (rec : Record) {layout' : RecordLayout}
    (size : layout.recordSize = layout'.recordSize)
    (same : stretches layout.extensions = stretches layout'.extensions) :
    rec.bytes layout = rec.bytes layout' := by
  rw [Record.bytes, Record.bytes, rec.slots_eq, rec.slots_eq, same, size]

end Yarilo.MailIndex

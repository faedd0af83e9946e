import Mathlib.Data.List.Lex
import Yarilo.Library.Sorting
import Yarilo.MailIndex.Header

/-! # Extensions and the layout of a record

Every extension may claim a stretch of each record. The layout places the stretches by falling
alignment and, within one alignment, by name; the placed extensions are then listed by offset.
-/

namespace Yarilo.MailIndex

open Library List

def extNameMaxLength : ℕ := 64
def recordMinSize : ℕ := 5

structure Extension where
  name : Bytes
  hdrSize : UInt32
  recordSize : UInt16
  recordAlign : UInt16
  resetID : UInt32
  recordOffset : UInt16
  hdrData : Bytes
deriving DecidableEq

structure RecordLayout where
  recordSize : ℕ
  extensions : List Extension
deriving DecidableEq

namespace Extension

/-- What is wrong with an extension, in the order the checks are made. -/
def check (e : Extension) : Option FileErr :=
  if e.name = [] then some .emptyName
  else if extNameMaxLength < e.name.length then some .nameTooLong
  else if e.recordAlign = 0 ∧ e.recordSize ≠ 0 then some .zeroAlign
  else if 8 < e.recordAlign ∨ e.recordAlign ≠ 0 ∧ e.recordAlign &&& (e.recordAlign - 1) ≠ 0 then
    some .invalidAlign
  else if UInt32.ofNat e.hdrData.length ≠ e.hdrSize then some .hdrDataSize
  else none

/-- The order of placing: the widest alignment first, then by name, byte by byte. -/
def before (e f : Extension) : Bool :=
  if e.recordAlign ≠ f.recordAlign then f.recordAlign < e.recordAlign
  else e.name.map UInt8.toNat < f.name.map UInt8.toNat

def offsetLess (e f : Extension) : Bool := e.recordOffset < f.recordOffset

end Extension

open Extension

/-- The next position that honours the alignment. -/
def alignUp (pos align : ℕ) : ℕ :=
  if 1 < align ∧ pos % align ≠ 0 then pos + (align - pos % align) else pos

/-- The loop that gives each extension its offset, from the write position on. Header-only
extensions take no room. -/
def assign (pos : ℕ) : List Extension → Except FileErr (ℕ × List Extension)
  | [] => .ok (pos, [])
  | e :: rest =>
    if e.recordSize = 0 then
      match assign pos rest with
      | .error err => .error err
      | .ok (size, placed) => .ok (size, { e with recordOffset := 0 } :: placed)
    else
      let start := alignUp pos e.recordAlign.toNat
      if 0xFFFF < start then .error .recordOffsetOverflow
      else
        match assign (start + e.recordSize.toNat) rest with
        | .error err => .error err
        | .ok (size, placed) => .ok (size, { e with recordOffset := UInt16.ofNat start } :: placed)

def computeRecordLayout (s : Sorter) (exts : List Extension) : Except FileErr RecordLayout :=
  match exts.findSome? check with
  | some err => .error err
  | none =>
    match assign recordMinSize (s.sort before exts) with
    | .error err => .error err
    | .ok (size, placed) =>
      .ok { recordSize := size, extensions := s.sort offsetLess placed }

/-! ## The two orders -/

theorem before_comparison : Comparison before where
  asymm := by
    intro e f first
    unfold before at first ⊢
    by_cases same : e.recordAlign = f.recordAlign
    · simp only [same, ne_eq, not_true_eq_false, if_false, decide_eq_true_eq,
        decide_eq_false_iff_not] at first ⊢
      exact lt_asymm first
    simp only [ne_eq, same, Ne.symm same, not_false_eq_true, if_true, decide_eq_true_eq,
      decide_eq_false_iff_not, UInt16.lt_iff_toNat_lt] at first ⊢
    omega
  through := by
    intro e f g first second
    unfold before at first second ⊢
    have align : ∀ {a b : UInt16}, a ≠ b → a.toNat ≠ b.toNat :=
      fun differ same => differ (UInt16.toNat_inj.mp same)
    by_cases left : e.recordAlign = f.recordAlign <;> by_cases right : f.recordAlign = g.recordAlign
    · simp only [left, right, ne_eq, not_true_eq_false, if_false, decide_eq_false_iff_not,
        not_lt] at first second ⊢
      exact second.trans first
    · simp only [left, ne_eq, right, not_true_eq_false, not_false_eq_true, if_false, if_true,
        decide_eq_false_iff_not] at first second ⊢
      exact second
    · simp only [← right, ne_eq, left, not_true_eq_false, not_false_eq_true, if_false, if_true,
        decide_eq_false_iff_not] at first second ⊢
      exact first
    · have := align left
      have := align right
      simp only [ne_eq, left, right, not_false_eq_true, if_true, decide_eq_false_iff_not,
        UInt16.lt_iff_toNat_lt] at first second
      have differ : e.recordAlign ≠ g.recordAlign := by
        intro same
        rw [same] at first
        omega
      simp only [ne_eq, differ, not_false_eq_true, if_true, decide_eq_false_iff_not, UInt16.lt_iff_toNat_lt]
      omega

theorem offsetLess_comparison : Comparison offsetLess where
  asymm := by
    simp only [offsetLess, decide_eq_true_eq, decide_eq_false_iff_not, UInt16.lt_iff_toNat_lt]
    omega
  through := by
    simp only [offsetLess, decide_eq_false_iff_not, UInt16.lt_iff_toNat_lt]
    omega

variable {e f : Extension} {pos size : ℕ} {placed exts : List Extension} {s : Sorter}
  {layout : RecordLayout}

/-- The placing order tells extensions of different names apart. -/
theorem name_eq_of_not_before (first : e.before f = false) (second : f.before e = false) :
    e.name = f.name := by
  unfold before at first second
  by_cases same : e.recordAlign = f.recordAlign
  · simp only [same, ne_eq, not_true_eq_false, if_false, decide_eq_false_iff_not, not_lt]
      at first second
    have spelled := le_antisymm second first
    exact map_injective_iff.mpr (fun a b => UInt8.toNat_inj.mp) spelled
  · have differ : e.recordAlign.toNat ≠ f.recordAlign.toNat :=
      fun eq => same (UInt16.toNat_inj.mp eq)
    simp only [ne_eq, same, Ne.symm same, not_false_eq_true, if_true, decide_eq_false_iff_not,
      UInt16.lt_iff_toNat_lt] at first second
    omega

/-! ## Placing -/

/-- The extension as it was before it got an offset. -/
def Extension.unplaced (e : Extension) : Extension := { e with recordOffset := 0 }

/-- The stretch an extension takes of each record, if any, ends here. -/
def Extension.stop (e : Extension) : ℕ := e.recordOffset.toNat + e.recordSize.toNat

theorem le_alignUp (pos align : ℕ) : pos ≤ alignUp pos align := by
  unfold alignUp
  split <;> omega

theorem dvd_alignUp {align : ℕ} (some : 0 < align) (pos : ℕ) : align ∣ alignUp pos align := by
  unfold alignUp
  split
  · have under := (Nat.mod_lt pos some).le
    rw [← Nat.div_add_mod pos align, Nat.mul_add_mod, Nat.mod_mod, Nat.add_assoc, Nat.add_sub_cancel' under]
    exact Nat.dvd_add (Nat.dvd_mul_right ..) (Nat.dvd_refl _)
  · rename_i fine
    rcases Nat.lt_or_ge 1 align with wide | byte
    · exact Nat.dvd_of_mod_eq_zero (by_contra fun rest => fine ⟨wide, rest⟩)
    · exact (show align = 1 by omega) ▸ Nat.one_dvd _

theorem assign_cons {rest : List Extension} (done : assign pos (e :: rest) = .ok (size, placed)) :
    (e.recordSize = 0 ∧ ∃ others, placed = { e with recordOffset := 0 } :: others ∧
        assign pos rest = .ok (size, others)) ∨
      e.recordSize ≠ 0 ∧ alignUp pos e.recordAlign.toNat ≤ 0xFFFF ∧ ∃ others, placed = { e with
          recordOffset := .ofNat (alignUp pos e.recordAlign.toNat) } :: others ∧
        assign (alignUp pos e.recordAlign.toNat + e.recordSize.toNat) rest = .ok (size, others) := by
  rw [assign] at done
  by_cases empty : e.recordSize = 0
  · rw [if_pos empty] at done
    cases later : assign pos rest with
    | error err => simp [later] at done
    | ok pair =>
      simp only [later, Except.ok.injEq, Prod.mk.injEq] at done
      obtain ⟨rfl, rfl⟩ := done
      exact .inl ⟨empty, pair.2, rfl, rfl⟩
  · simp only [if_neg empty] at done
    split at done
    · cases done
    rename_i below
    cases later : assign (alignUp pos e.recordAlign.toNat + e.recordSize.toNat) rest with
    | error err => simp [later] at done
    | ok pair =>
      simp only [later, Except.ok.injEq, Prod.mk.injEq] at done
      obtain ⟨rfl, rfl⟩ := done
      exact .inr ⟨empty, not_lt.mp below, pair.2, rfl, rfl⟩

theorem toNat_ofNat_start {start : ℕ} (below : start ≤ 0xFFFF) : (UInt16.ofNat start).toNat = start :=
  UInt16.toNat_ofNat_of_lt' (Nat.lt_succ_of_le below)

section

variable (done : assign pos exts = .ok (size, placed))

include done

/-- Placing changes offsets only. -/
theorem assign_unplaced : placed.map unplaced = exts.map unplaced := by
  induction exts generalizing pos placed with
  | nil =>
    cases done
    rfl
  | cons e rest ih =>
    rcases assign_cons done with ⟨-, others, rfl, later⟩ | ⟨-, -, others, rfl, later⟩
    · rw [map_cons, map_cons, ih later]
      rfl
    · rw [map_cons, map_cons, ih later]
      rfl

/-- Placing what is placed changes nothing. -/
theorem assign_placed : assign pos placed = .ok (size, placed) := by
  induction exts generalizing pos placed with
  | nil =>
    cases done
    rfl
  | cons e rest ih =>
    rcases assign_cons done with ⟨empty, others, rfl, later⟩ | ⟨room, below, others, rfl, later⟩
    · rw [assign, if_pos empty, ih later]
    · rw [assign, if_neg room]
      simp [if_neg (not_lt.mpr below), ih later]

/-- The stretches lie behind the start, aligned, one behind the other, up to the size. -/
theorem assign_stretches : pos ≤ size ∧
      (∀ e ∈ placed, e.recordSize ≠ 0 → pos ≤ e.recordOffset.toNat ∧ e.stop ≤ size ∧
        (e.recordAlign ≠ 0 → e.recordAlign.toNat ∣ e.recordOffset.toNat)) ∧
      placed.Pairwise fun e f => e.recordSize ≠ 0 → f.recordSize ≠ 0 → e.stop ≤ f.recordOffset.toNat := by
  induction exts generalizing pos placed with
  | nil =>
    cases done
    simp
  | cons e rest ih =>
    rcases assign_cons done with ⟨empty, others, rfl, later⟩ | ⟨room, below, others, rfl, later⟩
    · obtain ⟨grows, inside, apart⟩ := ih later
      exact ⟨grows, forall_mem_cons.mpr ⟨fun room => absurd empty room, inside⟩,
        pairwise_cons.mpr ⟨fun f _ room => absurd empty room, apart⟩⟩
    · obtain ⟨grows, inside, apart⟩ := ih later
      have behind := le_alignUp pos e.recordAlign.toNat
      refine ⟨by omega, ?_, pairwise_cons.mpr ⟨?_, apart⟩⟩
      · intro f member some
        rcases mem_cons.mp member with rfl | member
        · simp only [stop, toNat_ofNat_start below]
          refine ⟨behind, grows, fun aligned => dvd_alignUp (Nat.pos_of_ne_zero ?_) pos⟩
          exact fun zero => aligned (UInt16.toNat_inj.mp zero)
        · obtain ⟨starts, rest⟩ := inside f member some
          exact ⟨by omega, rest⟩
      · intro f member _ some
        simp only [stop, toNat_ofNat_start below]
        exact (inside f member some).1

/-- The size is where the last stretch stops. -/
theorem assign_last : size = pos ∨ ∃ e ∈ placed, e.recordSize ≠ 0 ∧ e.stop = size := by
  induction exts generalizing pos placed with
  | nil =>
    cases done
    exact .inl rfl
  | cons e rest ih =>
    rcases assign_cons done with ⟨-, others, rfl, later⟩ | ⟨room, below, others, rfl, later⟩
    · rcases ih later with same | ⟨f, member, some, stops⟩
      · exact .inl same
      · exact .inr ⟨f, mem_cons_of_mem _ member, some, stops⟩
    rcases ih later with same | ⟨f, member, some, stops⟩
    · refine .inr ⟨_, .head _, room, ?_⟩
      simp only [stop, toNat_ofNat_start below]
      exact same.symm
    · exact .inr ⟨f, mem_cons_of_mem _ member, some, stops⟩

end

/-! ## The layout -/

theorem computeRecordLayout_ok (done : computeRecordLayout s exts = .ok layout) :
    (∀ e ∈ exts, e.check = none) ∧ ∃ placed,
      assign recordMinSize (s.sort before exts) = .ok (layout.recordSize, placed) ∧
      layout.extensions = s.sort offsetLess placed := by
  unfold computeRecordLayout at done
  split at done
  · cases done
  rename_i fine
  split at done
  · cases done
  rename_i size placed assigned
  cases done
  exact ⟨findSome?_eq_none_iff.mp fine, placed, assigned, rfl⟩

theorem Extension.check_unplaced (e : Extension) : e.unplaced.check = e.check := rfl

/-- The layout lists the extensions it was given, with offsets of its own. -/
theorem computeRecordLayout_perm (done : computeRecordLayout s exts = .ok layout) :
    (layout.extensions.map unplaced).Perm (exts.map unplaced) := by
  obtain ⟨-, placed, assigned, listed⟩ := computeRecordLayout_ok done
  rw [listed]
  have first := (s.perm offsetLess placed).map unplaced
  rw [assign_unplaced assigned] at first
  exact first.trans ((s.perm before exts).map unplaced)

theorem check_of_mem_layout (done : computeRecordLayout s exts = .ok layout)
    (member : e ∈ layout.extensions) : e.check = none := by
  obtain ⟨f, origin, same⟩ := mem_map.mp
    ((computeRecordLayout_perm done).subset (mem_map_of_mem member))
  rw [← e.check_unplaced, ← same, f.check_unplaced]
  exact (computeRecordLayout_ok done).1 f origin

theorem map_name_unplaced (exts : List Extension) :
    (exts.map unplaced).map Extension.name = exts.map Extension.name := by
  rw [map_map]
  rfl

/-- The stretches lie apart, aligned, behind the fixed fields and inside the record. -/
structure RecordLayout.Placed (layout : RecordLayout) : Prop where
  base : recordMinSize ≤ layout.recordSize
  inside : ∀ e ∈ layout.extensions, e.recordSize ≠ 0 →
    recordMinSize ≤ e.recordOffset.toNat ∧ e.stop ≤ layout.recordSize
  aligned : ∀ e ∈ layout.extensions, e.recordSize ≠ 0 → e.recordAlign.toNat ∣ e.recordOffset.toNat
  apart : layout.extensions.Pairwise fun e f => e.recordSize ≠ 0 → f.recordSize ≠ 0 →
    e.stop ≤ f.recordOffset.toNat ∨ f.stop ≤ e.recordOffset.toNat

/-- What a record codec relies on: the stretches lie apart, behind the fixed fields, and the last one
ends the record. -/
structure RecordLayout.Sound (layout : RecordLayout) : Prop where
  names : (layout.extensions.map Extension.name).Nodup
  base : recordMinSize ≤ layout.recordSize
  inside : ∀ e ∈ layout.extensions, e.recordSize ≠ 0 →
    recordMinSize ≤ e.recordOffset.toNat ∧ e.stop ≤ layout.recordSize
  apart : layout.extensions.Pairwise fun e f => e.recordSize ≠ 0 → f.recordSize ≠ 0 →
    e.stop ≤ f.recordOffset.toNat ∨ f.stop ≤ e.recordOffset.toNat
  last : layout.recordSize = recordMinSize ∨
    ∃ e ∈ layout.extensions, e.recordSize ≠ 0 ∧ e.stop = layout.recordSize

theorem computeRecordLayout_placed (done : computeRecordLayout s exts = .ok layout) : layout.Placed := by
  obtain ⟨-, placed, assigned, listed⟩ := computeRecordLayout_ok done
  obtain ⟨base, inside, apart⟩ := assign_stretches assigned
  have perm : layout.extensions.Perm placed := by
    rw [listed]
    exact s.perm _ _
  refine ⟨base, ?_, ?_, ?_⟩
  · intro e member room
    obtain ⟨behind, stops, -⟩ := inside e (perm.subset member) room
    exact ⟨behind, stops⟩
  · intro e member room
    refine (inside e (perm.subset member) room).2.2 fun zero => ?_
    -- such an extension is refused
    have checked := check_of_mem_layout done member
    unfold check at checked
    split_ifs at checked with named short refused
    exact refused ⟨zero, room⟩
  · refine (perm.pairwise_iff ?_).mpr (apart.imp fun behind left right => .inl (behind left right))
    exact fun either left right => (either right left).symm

variable (distinct : (exts.map Extension.name).Nodup)

include distinct

theorem computeRecordLayout_sound (done : computeRecordLayout s exts = .ok layout) : layout.Sound := by
  obtain ⟨-, placed, assigned, listed⟩ := computeRecordLayout_ok done
  obtain ⟨base, inside, -, apart⟩ := computeRecordLayout_placed done
  refine ⟨?_, base, inside, apart, ?_⟩
  · have names := (computeRecordLayout_perm done).map Extension.name
    rw [map_name_unplaced, map_name_unplaced] at names
    exact names.nodup_iff.mpr distinct
  · rcases assign_last assigned with same | ⟨e, member, room, stops⟩
    · exact .inl same
    · have perm := s.perm offsetLess placed
      exact .inr ⟨e, listed ▸ perm.symm.subset member, room, stops⟩

theorem eq_of_name_eq (left : e ∈ exts) (right : f ∈ exts) (same : e.name = f.name) : e = f :=
  List.inj_on_of_nodup_map distinct left right same

/-- The layout of a layout's extensions is the layout. -/
theorem computeRecordLayout_self (done : computeRecordLayout s exts = .ok layout) :
    computeRecordLayout s layout.extensions = .ok layout := by
  have sound := computeRecordLayout_sound distinct done
  obtain ⟨-, placed, assigned, listed⟩ := computeRecordLayout_ok done
  have perm : layout.extensions.Perm placed := by
    rw [listed]
    exact s.perm _ _
  have checked : layout.extensions.findSome? check = none :=
    findSome?_eq_none_iff.mpr fun e => check_of_mem_layout done
  have ordered : placed.Pairwise fun e f => f.before e = false := by
    -- the order does not look at offsets
    have before := s.ordered before_comparison exts
    have lift : ∀ l : List Extension, (l.Pairwise fun e f => f.before e = false) ↔
        (l.map unplaced).Pairwise fun e f => f.before e = false := by
      intro l
      rw [pairwise_map]
      exact .rfl
    rw [lift, assign_unplaced assigned]
    exact (lift _).mp before
  have sorted : s.sort before layout.extensions = placed := by
    refine s.sort_eq before_comparison perm.symm ordered ?_
    intro e left f right first second
    exact eq_of_name_eq sound.names left right (name_eq_of_not_before first second)
  rw [computeRecordLayout, checked]
  simp [sorted, assign_placed assigned, ← listed]

end Yarilo.MailIndex

import Mathlib.Logic.Function.Basic
import Yarilo.MailIndex.ExtHeaders

/-! # Records in bytes

A record is a UID, a byte of flags and the stretches of the extensions. The upper bound of a stretch
is a 16-bit word, so a stretch that ends beyond 65535 has no slice.
-/

namespace Yarilo.MailIndex

open Library List Extension

/-- A record. An extension without a value has the empty one. -/
structure Record where
  uid : UInt32
  flags : UInt8
  ext : Bytes → Bytes

/-- The bounds of the extension's slice of a buffer of this length are in order. -/
def Extension.inBounds (e : Extension) (length : ℕ) : Bool :=
  e.recordOffset ≤ e.recordOffset + e.recordSize ∧ (e.recordOffset + e.recordSize).toNat ≤ length

def encodeExt (rec : Record) (buf : Bytes) (e : Extension) : Except FileErr Bytes :=
  if e.recordSize = 0 then .ok buf
  else
    let data := rec.ext e.name
    if data = [] then .ok buf
    else if UInt16.ofNat data.length ≠ e.recordSize then .error .extValueSize
    else if e.inBounds buf.length then
      .ok (blit e.recordOffset.toNat (data.take e.recordSize.toNat) buf)
    else .error .sliceBounds

def encodeRecord (buf : Bytes) (layout : RecordLayout) (rec : Record) : Except FileErr Bytes :=
  if buf.length ≠ layout.recordSize then .error .bufferSize
  else if buf.length < recordMinSize then .error .sliceBounds
  else
    layout.extensions.foldlM (encodeExt rec)
      (blit 0 (put32 rec.uid ++ put8 rec.flags) (zeros buf.length))

def decodeExt (buf : Bytes) (ext : Bytes → Bytes) (e : Extension) : Except FileErr (Bytes → Bytes) :=
  if e.recordSize = 0 then .ok ext
  else if e.inBounds buf.length then
    .ok (Function.update ext e.name (slice e.recordOffset.toNat e.recordSize.toNat buf))
  else .error .sliceBounds

def decodeRecord (buf : Bytes) (layout : RecordLayout) : Except FileErr Record :=
  if buf.length ≠ layout.recordSize then .error .bufferSize
  else if buf.length < recordMinSize then .error .sliceBounds
  else
    match layout.extensions.foldlM (decodeExt buf) fun _ => [] with
    | .error err => .error err
    | .ok ext => .ok { uid := get32 0 buf, flags := get8 4 buf, ext := ext }

/-! ## Stretches -/

variable {e : Extension} {exts : List Extension} {buf : Bytes} {ext : Bytes → Bytes}

theorem inBounds_iff {length : ℕ} : e.inBounds length = true ↔ e.stop < 65536 ∧ e.stop ≤ length := by
  have size := e.recordSize.toNat_lt
  simp only [inBounds, stop, decide_eq_true_eq, UInt16.le_iff_toNat_le,
    UInt16.toNat_add]
  omega

/-- The values a record brings, each where its extension is placed. -/
def Record.slots (rec : Record) (exts : List Extension) : List (Slot UInt8) :=
  exts.filterMap fun e =>
    if e.recordSize = 0 ∨ rec.ext e.name = [] then none
    else some { offset := e.recordOffset.toNat, data := rec.ext e.name }

/-- Every value of the record belongs to one of the extensions and has its size. -/
def Record.Fits (exts : List Extension) (rec : Record) : Prop := ∀ name, rec.ext name ≠ [] →
    ∃ e ∈ exts, e.name = name ∧ (rec.ext name).length = e.recordSize.toNat

/-- The values the record brings have the sizes of their extensions. -/
def Record.Sized (exts : List Extension) (rec : Record) : Prop :=
  ∀ e ∈ exts, rec.ext e.name ≠ [] → (rec.ext e.name).length = e.recordSize.toNat

/-- What is read back of a record: zeros for a value it did not bring. -/
def Record.filled (exts : List Extension) (rec : Record) : Record where
  uid := rec.uid
  flags := rec.flags
  ext name :=
    match exts.find? fun e => e.name = name with
    | some e => if rec.ext name = [] then zeros e.recordSize.toNat else rec.ext name
    | none => rec.ext name

theorem find?_name (distinct : (exts.map name).Nodup) (member : e ∈ exts) :
    (exts.find? fun f => f.name = e.name) = some e := by
  cases found : exts.find? fun f => f.name = e.name with
  | none =>
    have absent := find?_eq_none.mp found e member
    simp at absent
  | some f =>
    have same : f.name = e.name := by simpa using find?_some found
    rw [eq_of_name_eq distinct (mem_of_find?_eq_some found) member same]

theorem Record.Fits.sized {rec : Record} (fits : rec.Fits exts)
    (distinct : (exts.map name).Nodup) : rec.Sized exts := by
  intro e member brought
  obtain ⟨f, found, same, length⟩ := fits e.name brought
  rw [length, eq_of_name_eq distinct found member same]

/-! ## Writing -/

/-- The loop over the extensions writes the slots of those whose stretches it meets. -/
theorem encodeExts_eq {rec : Record} (sized : rec.Sized exts)
    (inside : ∀ e ∈ exts, e.recordSize ≠ 0 → e.stop < 65536 ∧ e.stop ≤ buf.length) :
    exts.foldlM (encodeExt rec) buf = .ok (blitAll (rec.slots exts) buf) := by
  induction exts generalizing buf with
  | nil => rfl
  | cons e rest ih =>
    have others : rec.Sized rest := fun f member => sized f (by simp [member])
    rw [foldlM_cons]
    by_cases skip : e.recordSize = 0 ∨ rec.ext e.name = []
    · have same : encodeExt rec buf e = .ok buf := by
        unfold encodeExt
        rcases skip with empty | absent
        · rw [if_pos empty]
        · simp [absent]
      have slots : rec.slots (e :: rest) = rec.slots rest := by
        simp [Record.slots, skip]
      rw [same, slots]
      exact ih others fun f member => inside f (by simp [member])
    · obtain ⟨room, brought⟩ := not_or.mp skip
      have length := sized e (by simp) brought
      obtain ⟨small, fits⟩ := inside e (by simp) room
      have written : encodeExt rec buf e = .ok (blit e.recordOffset.toNat (rec.ext e.name) buf) := by
        have word : .ofNat (rec.ext e.name).length = e.recordSize := by
          rw [length, UInt16.ofNat_toNat]
        simp only [encodeExt, if_neg room, if_neg brought, word, ne_eq, not_true_eq_false, if_false,
          inBounds_iff.mpr ⟨small, fits⟩, if_true]
        rw [take_of_length_le (le_of_eq length)]
      have kept : (blit e.recordOffset.toNat (rec.ext e.name) buf).length = buf.length := by
        apply length_blit
        rw [length]
        exact fits
      have slots : rec.slots (e :: rest) =
          { offset := e.recordOffset.toNat, data := rec.ext e.name } :: rec.slots rest := by
        simp [Record.slots, skip]
      rw [written, slots]
      refine ih others ?_
      intro f member some
      rw [kept]
      exact inside f (by simp [member]) some

theorem mem_slots {rec : Record} {s : Slot UInt8} :
    s ∈ rec.slots exts ↔ ∃ e ∈ exts, e.recordSize ≠ 0 ∧ rec.ext e.name ≠ [] ∧
      s = { offset := e.recordOffset.toNat, data := rec.ext e.name } := by
  simp only [Record.slots, mem_filterMap]
  constructor
  · rintro ⟨e, member, chosen⟩
    split at chosen
    · cases chosen
    rename_i kept
    obtain ⟨room, brought⟩ := not_or.mp kept
    cases chosen
    exact ⟨e, member, room, brought, rfl⟩
  · rintro ⟨e, member, room, brought, rfl⟩
    exact ⟨e, member, by simp [room, brought]⟩

/-! ## Reading back -/

/-- Reading the stretches. A name reads as the value all its stretches have, if it has one. -/
theorem decodeExts_eq (inside : ∀ e ∈ exts, e.recordSize ≠ 0 → e.stop < 65536 ∧ e.stop ≤ buf.length) :
    ∃ ext', exts.foldlM (decodeExt buf) ext = .ok ext' ∧ ∀ name value,
      (∀ e ∈ exts, e.recordSize ≠ 0 → e.name = name →
        slice e.recordOffset.toNat e.recordSize.toNat buf = value) →
      ext' name = value ∨ ext' name = ext name ∧ ∀ e ∈ exts, e.recordSize ≠ 0 → e.name ≠ name := by
  induction exts generalizing ext with
  | nil => exact ⟨ext, rfl, fun name value _ => .inr ⟨rfl, by simp⟩⟩
  | cons e rest ih =>
    have later : ∀ f ∈ rest, f.recordSize ≠ 0 → f.stop < 65536 ∧ f.stop ≤ buf.length :=
      fun f member => inside f (by simp [member])
    rw [foldlM_cons]
    by_cases empty : e.recordSize = 0
    · have same : decodeExt buf ext e = .ok ext := by rw [decodeExt, if_pos empty]
      have next : ∃ ext', rest.foldlM (decodeExt buf) ext = .ok ext' ∧ _ := ih later
      obtain ⟨ext', read, names⟩ := next
      rw [same]
      refine ⟨ext', read, fun name value shows => ?_⟩
      simpa [empty] using names name value fun f member => shows f (by simp [member])
    · let shown := slice e.recordOffset.toNat e.recordSize.toNat buf
      have updated : decodeExt buf ext e = .ok (Function.update ext e.name shown) := by
        rw [decodeExt, if_neg empty, if_pos (inBounds_iff.mpr (inside e (by simp) empty))]
      have next : ∃ ext', rest.foldlM (decodeExt buf) (Function.update ext e.name shown) = .ok ext' ∧ _ :=
        ih later
      obtain ⟨ext', read, names⟩ := next
      rw [updated]
      refine ⟨ext', read, fun name value shows => ?_⟩
      rcases names name value fun f member => shows f (by simp [member]) with left | ⟨kept, apart⟩
      · exact .inl left
      by_cases same : e.name = name
      · rw [kept, ← same, Function.update_self]
        exact .inl (shows e (by simp) empty same)
      · rw [kept, Function.update_of_ne (Ne.symm same)]
        exact .inr ⟨rfl, by simpa [empty, same] using apart⟩

/-- A decoded record shows that every stretch ends below 65536 and inside the record. -/
theorem stop_lt_of_decodeExts {ext' : Bytes → Bytes} (read : exts.foldlM (decodeExt buf) ext = .ok ext') :
    ∀ e ∈ exts, e.recordSize ≠ 0 → e.stop < 65536 ∧ e.stop ≤ buf.length := by
  induction exts generalizing ext with
  | nil => simp
  | cons e rest ih =>
    rw [foldlM_cons] at read
    cases first : decodeExt buf ext e with
    | error err => simp [first, bind, Except.bind] at read
    | ok middle =>
      simp only [first, bind, Except.bind] at read
      intro f member room
      rcases mem_cons.mp member with rfl | member
      · unfold decodeExt at first
        rw [if_neg room] at first
        split at first
        · rename_i bounds
          exact inBounds_iff.mp bounds
        · cases first
      · exact ih read f member room

variable {layout : RecordLayout} {rec : Record}

/-- The bounds of every slice are in order, in a buffer of the layout's size. -/
def RecordLayout.InBounds (layout : RecordLayout) : Prop := recordMinSize ≤ layout.recordSize ∧
    ∀ e ∈ layout.extensions, e.recordSize ≠ 0 → e.stop < 65536 ∧ e.stop ≤ layout.recordSize

theorem decodeRecord_ok_iff :
    (∃ rec, decodeRecord buf layout = .ok rec) ↔ buf.length = layout.recordSize ∧ layout.InBounds := by
  rw [decodeRecord, RecordLayout.InBounds]
  constructor
  · rintro ⟨rec, read⟩
    split_ifs at read with length short
    rw [← not_not.mp length]
    split at read
    · cases read
    · rename_i ext stretches
      exact ⟨rfl, not_lt.mp short, stop_lt_of_decodeExts stretches⟩
  · rintro ⟨length, base, inside⟩
    rw [← length] at base inside
    obtain ⟨ext, read, -⟩ : ∃ ext, layout.extensions.foldlM (decodeExt buf) (fun _ => []) = .ok ext ∧ _ :=
      decodeExts_eq inside
    rw [if_neg (not_not.mpr length), if_neg (not_lt.mpr base), read]
    exact ⟨_, rfl⟩

/-- The stretches of a layout, in a buffer of its size. -/
theorem RecordLayout.Placed.stretches (placed : layout.Placed) (small : layout.recordSize < 65536)
    (length : buf.length = layout.recordSize) :
    ∀ e ∈ layout.extensions, e.recordSize ≠ 0 → e.stop < 65536 ∧ e.stop ≤ buf.length := by
  intro e member room
  have stops := (placed.inside e member room).2
  exact ⟨by omega, by omega⟩

/-- The buffer with the fixed fields in place. -/
def Record.start (rec : Record) (size : ℕ) : Bytes := blit 0 (put32 rec.uid ++ put8 rec.flags) (zeros size)

theorem Record.length_start {size : ℕ} (base : recordMinSize ≤ size) : (rec.start size).length = size := by
  rw [Record.start, length_blit, length_zeros]
  simpa [recordMinSize] using base

/-- The record's bytes: the fixed fields, then its slots over zeros. -/
def Record.bytes (layout : RecordLayout) (rec : Record) : Bytes :=
  blitAll (rec.slots layout.extensions) (rec.start layout.recordSize)

section

variable (placed : layout.Placed) (sized : rec.Sized layout.extensions)

include placed sized

theorem Record.slots_apart : (rec.slots layout.extensions).Pairwise Slot.Apart := by
  refine pairwise_filterMap.mpr (placed.apart.imp_of_mem ?_)
  intro e f left right apart s chosen t chosen'
  split at chosen
  · cases chosen
  split at chosen'
  · cases chosen'
  rename_i kept kept'
  cases chosen
  cases chosen'
  obtain ⟨room, brought⟩ := not_or.mp kept
  obtain ⟨room', brought'⟩ := not_or.mp kept'
  simp only [Slot.Apart, sized e left brought, sized f right brought']
  exact apart room room'

theorem Record.slots_fit :
    ∀ s ∈ rec.slots layout.extensions, recordMinSize ≤ s.offset ∧ s.Fits (rec.start layout.recordSize) := by
  intro s member
  obtain ⟨e, inExts, room, brought, rfl⟩ := mem_slots.mp member
  obtain ⟨behind, stops⟩ := placed.inside e inExts room
  refine ⟨behind, ?_⟩
  rw [Slot.Fits, Record.length_start placed.base, sized e inExts brought]
  exact stops

theorem encodeRecord_eq (small : layout.recordSize < 65536) (length : buf.length = layout.recordSize) :
    encodeRecord buf layout rec = .ok (rec.bytes layout) := by
  have base := placed.base
  rw [encodeRecord, if_neg (not_not.mpr length), if_neg (by omega), length]
  exact encodeExts_eq sized (placed.stretches small (Record.length_start base))

theorem Record.length_bytes : (rec.bytes layout).length = layout.recordSize := by
  rw [Record.bytes, length_blitAll fun s member => (slots_fit placed sized s member).2,
    Record.length_start placed.base]

/-- The fixed fields stay in front of the stretches. -/
theorem Record.bytes_head :
    rec.bytes layout = put32 rec.uid ++ (put8 rec.flags ++ (rec.bytes layout).drop recordMinSize) := by
  have head : slice 0 recordMinSize (rec.bytes layout) = put32 rec.uid ++ put8 rec.flags := by
    rw [Record.bytes, slice_blitAll_of_apart fun s member => (slots_fit placed sized s member).2]
    · have width : (put32 rec.uid ++ put8 rec.flags).length = recordMinSize := by
        simp [recordMinSize]
      have base := placed.base
      have cut : slice 0 (put32 rec.uid ++ put8 rec.flags).length (rec.start layout.recordSize) = _ :=
        slice_blit_self (by rw [width, length_zeros]; omega)
      rwa [width] at cut
    · intro s member
      exact .inl (by simpa using (slots_fit placed sized s member).1)
  rw [← append_assoc, ← head, slice, drop_zero, take_append_drop]

/-- A stretch reads as the value the record brought, or as zeros. -/
theorem Record.slice_bytes (member : e ∈ layout.extensions) (room : e.recordSize ≠ 0) :
    slice e.recordOffset.toNat e.recordSize.toNat (rec.bytes layout) =
      if rec.ext e.name = [] then zeros e.recordSize.toNat else rec.ext e.name := by
  have fits : ∀ s ∈ rec.slots layout.extensions, s.Fits (rec.start layout.recordSize) :=
    fun s member => (slots_fit placed sized s member).2
  obtain ⟨behind, stops⟩ := placed.inside e member room
  split
  · rename_i absent
    -- no slot meets the stretch, so the zeros of the fresh buffer are still there
    rw [Record.bytes, slice_blitAll_of_apart fits, Record.start, slice_blit_of_apart]
    · unfold stop at stops
      simp only [slice, zeros, drop_replicate, take_replicate]
      congr 1
      omega
    · have base := placed.base
      simpa [recordMinSize] using base
    · right
      simpa [recordMinSize] using behind
    · intro s chosen
      obtain ⟨f, inExts, room', brought, rfl⟩ := mem_slots.mp chosen
      have differ : e ≠ f := by
        rintro rfl
        exact brought absent
      have symmetric : Std.Symm fun e f : Extension => e.recordSize ≠ 0 → f.recordSize ≠ 0 →
          e.stop ≤ f.recordOffset.toNat ∨ f.stop ≤ e.recordOffset.toNat :=
        ⟨fun e f apart left right => (apart right left).symm⟩
      have apart := placed.apart.forall member inExts differ room room'
      simpa only [stop, sized f inExts brought] using apart
  · rename_i brought
    have chosen : ({ offset := e.recordOffset.toNat, data := rec.ext e.name } : Slot UInt8) ∈
        rec.slots layout.extensions := mem_slots.mpr ⟨e, member, room, brought, rfl⟩
    have read := slice_blitAll fits (slots_apart placed sized) chosen
    rwa [sized e member brought] at read

/-- The bytes of a record read as its fixed fields and, by name, what the stretches show. -/
theorem decodeRecord_bytes (small : layout.recordSize < 65536) :
    ∃ ext, decodeRecord (rec.bytes layout) layout = .ok ⟨rec.uid, rec.flags, ext⟩ ∧ ∀ name value,
      (∀ e ∈ layout.extensions, e.recordSize ≠ 0 → e.name = name →
        (if rec.ext name = [] then zeros e.recordSize.toNat else rec.ext name) = value) →
      ext name = value ∨ ext name = [] ∧ ∀ e ∈ layout.extensions, e.recordSize ≠ 0 → e.name ≠ name := by
  have length := Record.length_bytes placed sized
  have base := placed.base
  have decoded : ∃ ext, layout.extensions.foldlM (decodeExt (rec.bytes layout)) (fun _ => []) =
      .ok ext ∧ _ := decodeExts_eq (placed.stretches small length)
  obtain ⟨ext, read, shows⟩ := decoded
  refine ⟨ext, ?_, fun name value each => shows name value fun e member room same => ?_⟩
  · have uid : get32 0 (rec.bytes layout) = rec.uid := by
      rw [Record.bytes_head placed sized]
      exact get32_put32 _ _
    have flags : get8 4 (rec.bytes layout) = rec.flags := by
      rw [Record.bytes_head placed sized, get8_behind _ (by simp), length_put32]
      exact get8_put8 _ _
    rw [decodeRecord, if_neg (not_not.mpr length), if_neg (by omega), read]
    simp [uid, flags]
  · rw [Record.slice_bytes placed sized member room, same]
    exact each e member room same

end

/-- What is written is read back, with zeros for what was not brought. -/
theorem decodeRecord_filled (placed : layout.Placed) (small : layout.recordSize < 65536)
    (fits : rec.Fits layout.extensions) (names : (layout.extensions.map name).Nodup) :
    decodeRecord (rec.bytes layout) layout = .ok (rec.filled layout.extensions) := by
  have sized := fits.sized names
  obtain ⟨ext, read, shows⟩ := decodeRecord_bytes placed sized small
  have values : ext = (rec.filled layout.extensions).ext := by
    funext name
    have each : ∀ e ∈ layout.extensions, e.recordSize ≠ 0 → e.name = name →
        (if rec.ext name = [] then zeros e.recordSize.toNat else rec.ext name) =
          (rec.filled layout.extensions).ext name := by
      rintro e member room rfl
      simp [Record.filled, find?_name names member]
    rcases shows name _ each with read | ⟨none, apart⟩
    · exact read
    rw [none, Record.filled]
    dsimp only
    cases found : layout.extensions.find? fun e => e.name = name with
    | none =>
      have absent : ∀ e ∈ layout.extensions, e.name ≠ name := by
        simpa using find?_eq_none.mp found
      by_contra brought
      obtain ⟨e, member, same, -⟩ := fits name (.symm brought)
      exact absent e member same
    | some e =>
      have same : e.name = name := by simpa using find?_some found
      have member := mem_of_find?_eq_some found
      have room : e.recordSize = 0 := by_contra fun room => apart e member room same
      by_cases brought : rec.ext name = []
      · simp [brought, room, zeros]
      -- a header-only extension has no value to bring
      have length := sized e member (same ▸ brought)
      rw [same, room] at length
      exact absurd (eq_nil_of_length_eq_zero length) brought
  rw [read, values]
  rfl

end Yarilo.MailIndex

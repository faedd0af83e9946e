import Yarilo.MailIndex.BaseFile

/-! # Slices inside their bounds

Where the readers and writers of an index file slice out of range. The stretches of a record are cut with
16-bit bounds and the entries of the extended header are walked with 32-bit positions.
-/

namespace Yarilo.MailIndex

open Library

/-- Where the stretches of the extensions end when they are placed from `pos` on, each at the next
position of its alignment. -/
def placedEnd (pos : ℕ) (exts : List Extension) : ℕ :=
  exts.foldl (fun pos e =>
    if e.recordSize = 0 then pos else alignUp pos e.recordAlign.toNat + e.recordSize.toNat) pos

variable {s : Sorter} {exts : List Extension} {layout : RecordLayout} {pos size fuel : ℕ} {bs : Bytes}

theorem size_eq_placedEnd {placed : List Extension} (done : assign pos exts = .ok (size, placed)) :
    size = placedEnd pos exts := by
  induction exts generalizing pos placed with
  | nil =>
    cases done
    rfl
  | cons e rest ih =>
    rw [placedEnd, List.foldl_cons]
    rcases assign_cons done with ⟨empty, others, rfl, later⟩ | ⟨room, -, others, rfl, later⟩
    · rw [if_pos empty]
      exact ih later
    · rw [if_neg room]
      exact ih later

theorem blank_sized : (⟨0, 0, fun _ => []⟩ : Record).Sized exts := fun _ _ brought => absurd rfl brought

/-- Every accepted layout has its stretches aligned, apart and inside the record. What is encoded with it
is decoded again without failure exactly if the stretches end below 65536. -/
theorem accepted_layout_codec_iff (done : computeRecordLayout s exts = .ok layout) : layout.Placed ∧
      ((∀ (rec : Record) (buf : Bytes), rec.Sized layout.extensions → buf.length = layout.recordSize →
          ∃ bytes back, encodeRecord buf layout rec = .ok bytes ∧
            decodeRecord bytes layout = .ok back ∧ back.uid = rec.uid ∧ back.flags = rec.flags ∧
            ∀ e ∈ layout.extensions, rec.ext e.name ≠ [] → back.ext e.name = rec.ext e.name) ↔
        placedEnd recordMinSize (s.sort Extension.before exts) < 65536) := by
  have placed := computeRecordLayout_placed done
  obtain ⟨-, listed, assigned, same⟩ := computeRecordLayout_ok done
  rw [← size_eq_placedEnd assigned]
  refine ⟨placed, ?_, ?_⟩
  · intro works
    -- the record without values is written, and its last stretch has to be read
    obtain ⟨bytes, back, -, read, -⟩ :=
      works ⟨0, 0, fun _ => []⟩ (zeros layout.recordSize) blank_sized (length_zeros _)
    rcases assign_last assigned with least | ⟨e, member, room, stops⟩
    · rw [least, recordMinSize]
      omega
    rw [← stops]
    refine ((decodeRecord_ok_iff.mp ⟨back, read⟩).2.2 e ?_ room).1
    rw [same]
    exact (s.perm _ _).symm.subset member
  · intro small rec buf sized length
    obtain ⟨ext, read, shows⟩ := decodeRecord_bytes placed sized small
    refine ⟨_, _, encodeRecord_eq placed sized small length, read, rfl, rfl, fun e member brought => ?_⟩
    rcases shows e.name (rec.ext e.name) fun f _ _ _ => if_neg brought with value | ⟨-, apart⟩
    · exact value
    refine absurd rfl (apart e member fun empty => brought ?_)
    apply List.eq_nil_of_length_eq_zero
    rw [sized e member brought, empty]
    rfl

theorem accepted_layout_codec_iff_four : computeRecordLayout .insertion [sampleExtension 4] =
      .ok ⟨9, [{ sampleExtension 4 with recordOffset := 5 }]⟩ ∧
    ∃ bytes back, encodeRecord (zeros 9) ⟨9, [{ sampleExtension 4 with recordOffset := 5 }]⟩
        ⟨7, 1, fun _ => [1, 2, 3, 4]⟩ = .ok bytes ∧
      decodeRecord bytes ⟨9, [{ sampleExtension 4 with recordOffset := 5 }]⟩ = .ok back ∧
      back.ext (sampleExtension 4).name = [1, 2, 3, 4] := by
  have placed : computeRecordLayout .insertion [sampleExtension 4] =
      .ok ⟨9, [{ sampleExtension 4 with recordOffset := 5 }]⟩ := by decide
  have sized : (⟨7, 1, fun _ => [1, 2, 3, 4]⟩ : Record).Sized
      [{ sampleExtension 4 with recordOffset := 5 }] := by
    intro e member _
    rw [List.mem_singleton.mp member]
    rfl
  obtain ⟨bytes, back, written, read, -, -, shows⟩ :=
    (accepted_layout_codec_iff placed).2.mpr (by decide) _ (zeros 9) sized (length_zeros 9)
  have value := shows { sampleExtension 4 with recordOffset := 5 } (.head _) nofun
  exact ⟨placed, bytes, back, written, read, value⟩

/-- An extension of 65535 bytes is accepted, and its records are written and cannot be read. -/
theorem wide_layout_accepted : computeRecordLayout .insertion [sampleExtension 65535] = .ok wideLayout ∧
    ∃ bytes, encodeRecord (zeros wideLayout.recordSize) wideLayout blankRecord = .ok bytes ∧
      decodeRecord bytes wideLayout = .error .sliceBounds :=
  ⟨by decide, _, wide_encoded, wide_unreadable (Record.length_start (by decide))⟩

end Yarilo.MailIndex

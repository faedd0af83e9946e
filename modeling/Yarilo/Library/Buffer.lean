import Mathlib.Data.List.Basic
import Mathlib.Data.List.Pairwise

/-! # Writing into a fixed-length buffer

A write replaces a stretch of the buffer and keeps its length. A stretch apart from it reads as
before, so that a family of stretches pairwise apart reads back whatever order it was written in.
-/

namespace Yarilo.Library

open List

variable {α : Type*} {buf src : List α} {offset length : ℕ}

/-- The stretch of `length` elements that starts at `offset`. -/
def slice (offset length : ℕ) (buf : List α) : List α := (buf.drop offset).take length

/-- The buffer with `src` written at `offset`. -/
def blit (offset : ℕ) (src buf : List α) : List α :=
  buf.take offset ++ src ++ buf.drop (offset + src.length)

theorem length_slice (fits : offset + length ≤ buf.length) : (slice offset length buf).length = length := by
  simp only [slice, length_take, length_drop]
  omega

theorem length_blit (fits : offset + src.length ≤ buf.length) :
    (blit offset src buf).length = buf.length := by
  simp only [blit, length_append, length_take, length_drop]
  omega

theorem getElem?_slice (offset length : ℕ) (buf : List α) (i : ℕ) :
    (slice offset length buf)[i]? = if i < length then buf[offset + i]? else none := by
  rw [slice, getElem?_take]
  simp [getElem?_drop]

section

variable (fits : offset + src.length ≤ buf.length)

include fits

theorem getElem?_blit (i : ℕ) :
    (blit offset src buf)[i]? =
      if offset ≤ i ∧ i < offset + src.length then src[i - offset]? else buf[i]? := by
  have head : (buf.take offset).length = offset := by
    rw [length_take]
    omega
  rw [blit, append_assoc, getElem?_append, head]
  split
  · rename_i before
    rw [getElem?_take_of_lt before, if_neg (by omega)]
  rw [getElem?_append]
  split
  · rw [if_pos (by omega)]
  rw [if_neg (by omega), getElem?_drop]
  congr 1
  omega

theorem slice_blit_self : slice offset src.length (blit offset src buf) = src := by
  apply ext_getElem?
  intro i
  rw [getElem?_slice, getElem?_blit fits]
  split
  · rw [if_pos (by omega), Nat.add_sub_cancel_left]
  · rename_i beyond
    exact (getElem?_eq_none (by omega)).symm

/-- A stretch apart from the written one reads as before. -/
theorem slice_blit_of_apart {offset' : ℕ}
    (apart : offset' + length ≤ offset ∨ offset + src.length ≤ offset') :
    slice offset' length (blit offset src buf) = slice offset' length buf := by
  apply ext_getElem?
  intro i
  rw [getElem?_slice, getElem?_slice, getElem?_blit fits]
  split
  · rw [if_neg (by omega)]
  · rfl

end

/-- A write right behind what is done. -/
theorem blit_append (done src rest : List α) :
    blit done.length src (done ++ rest) = done ++ src ++ rest.drop src.length := by
  simp [blit, drop_append]

/-- A part of a concatenation, cut out where it stands. -/
theorem slice_append (front part rest : List α) :
    slice front.length part.length (front ++ part ++ rest) = part := by
  rw [slice, append_assoc, drop_left, take_left]

/-! ## Families of writes -/

/-- What is written and where. -/
structure Slot (α : Type*) where
  offset : ℕ
  data : List α

variable {s : Slot α} {slots : List (Slot α)}

namespace Slot

def Apart (s t : Slot α) : Prop :=
  s.offset + s.data.length ≤ t.offset ∨ t.offset + t.data.length ≤ s.offset

variable {t : Slot α}

def Fits (buf : List α) (s : Slot α) : Prop := s.offset + s.data.length ≤ buf.length

theorem Fits.blit (fits : s.Fits buf) (other : t.Fits buf) : t.Fits (blit s.offset s.data buf) := by
  rw [Fits, length_blit fits]
  exact other

end Slot

def blitAll (slots : List (Slot α)) (buf : List α) : List α :=
  slots.foldl (fun buf s => blit s.offset s.data buf) buf

variable (fits : ∀ s ∈ slots, s.Fits buf)

include fits

theorem length_blitAll : (blitAll slots buf).length = buf.length := by
  induction slots generalizing buf with
  | nil => rfl
  | cons s rest ih =>
    have later : ∀ t ∈ rest, t.Fits (blit s.offset s.data buf) :=
      fun t member => (fits s (by simp)).blit (fits t (by simp [member]))
    exact (ih later).trans (length_blit (fits s (by simp)))

/-- A stretch apart from every write reads as before. -/
theorem slice_blitAll_of_apart
    (apart : ∀ s ∈ slots, offset + length ≤ s.offset ∨ s.offset + s.data.length ≤ offset) :
    slice offset length (blitAll slots buf) = slice offset length buf := by
  induction slots generalizing buf with
  | nil => rfl
  | cons s rest ih =>
    have later : ∀ t ∈ rest, t.Fits (blit s.offset s.data buf) :=
      fun t member => (fits s (by simp)).blit (fits t (by simp [member]))
    have tail := ih later fun t member => apart t (by simp [member])
    exact tail.trans (slice_blit_of_apart (fits s (by simp)) (apart s (by simp)))

/-- Writes pairwise apart all read back. -/
theorem slice_blitAll (apart : slots.Pairwise Slot.Apart) (member : s ∈ slots) :
    slice s.offset s.data.length (blitAll slots buf) = s.data := by
  induction slots generalizing buf with
  | nil => cases member
  | cons first rest ih =>
    have later : ∀ t ∈ rest, t.Fits (blit first.offset first.data buf) :=
      fun t member => (fits first (by simp)).blit (fits t (by simp [member]))
    obtain ⟨here, there⟩ := pairwise_cons.mp apart
    rcases mem_cons.mp member with rfl | member
    · have kept := slice_blitAll_of_apart later fun t inside => here t inside
      exact kept.trans (slice_blit_self (fits s (by simp)))
    · exact ih later there member

end Yarilo.Library

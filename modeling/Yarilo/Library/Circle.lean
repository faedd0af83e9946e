import Mathlib.Data.List.Sort
import Mathlib.Order.Lattice

/-! # Points on a circle

Points have positions, and a position is served by the first point at or after it, going round past
the last one. A list ordered by position is searched by halving. Points that share the position which
is found are told apart by the list's order only.
-/

namespace Yarilo.Library.Circle

open List Option

/-! ## Search by halving -/

def bisect (f : ℕ → Bool) : (fuel : ℕ) → (i j : ℕ) → ℕ
  | 0, i, _ => i
  | fuel + 1, i, j =>
    if i < j then
      if f ((i + j) / 2) then bisect f fuel i ((i + j) / 2) else bisect f fuel ((i + j) / 2 + 1) j
    else i

/-- The least index below `n` that passes, or `n`, where passing goes on to later indices. -/
def search (n : ℕ) (f : ℕ → Bool) : ℕ := bisect f n 0 n

variable {f : ℕ → Bool} {n : ℕ}

section

variable (mono : ∀ {a b}, a ≤ b → b < n → f a = true → f b = true)

include mono

theorem bisect_spec {fuel i j : ℕ} (enough : j ≤ i + fuel) (order : i ≤ j) (bound : j ≤ n)
    (below : ∀ k < i, f k = false) (top : j < n → f j = true) :
    bisect f fuel i j ≤ n ∧ (∀ k < bisect f fuel i j, f k = false) ∧
      (bisect f fuel i j < n → f (bisect f fuel i j) = true) := by
  induction fuel generalizing i j with
  | zero =>
    obtain rfl : i = j := by omega
    exact ⟨bound, below, top⟩
  | succ fuel ih =>
    unfold bisect
    split
    · next room =>
      have half : i ≤ (i + j) / 2 ∧ (i + j) / 2 < j := by omega
      split
      · next passes =>
        exact ih (by omega) half.1 (by omega) below fun _ => passes
      next fails =>
      refine ih (by omega) (by omega) bound (fun k before => ?_) top
      by_contra holds
      have later := mono (show k ≤ (i + j) / 2 by omega) (by omega) (Bool.eq_true_of_not_eq_false holds)
      exact fails later
    · next full =>
      obtain rfl : i = j := by omega
      exact ⟨bound, below, top⟩

theorem search_spec :
    search n f ≤ n ∧ (∀ k < search n f, f k = false) ∧ (search n f < n → f (search n f) = true) :=
  bisect_spec mono (by omega) (by omega) le_rfl (fun k before => by omega) fun before => by omega

end

/-! ## The point that serves a position -/

variable {α ι : Type} [LinearOrder ι] (pos : α → ι) {a b : α} {m : List α}

def locate (l : List α) (h : ι) : Option α :=
  let i := search l.length fun k => (l[k]?).any fun a => decide (h ≤ pos a)
  if i = l.length then l[0]? else l[i]?

/-- A point is the first at or after the position; past the last point the circle starts again. -/
def Nearest (l : List α) (h : ι) (a : α) : Prop :=
  a ∈ l ∧ ((h ≤ pos a ∧ ∀ b ∈ l, h ≤ pos b → pos a ≤ pos b) ∨
    (∀ b ∈ l, pos b < h) ∧ ∀ b ∈ l, pos a ≤ pos b)

variable {pos} {l : List α} {h : ι}

theorem Nearest.pos_eq (left : Nearest pos l h a) (right : Nearest pos l h b) : pos a = pos b := by
  obtain ⟨memberA, ⟨afterA, leastA⟩ | ⟨pastA, leastA⟩⟩ := left
  · obtain ⟨memberB, ⟨afterB, leastB⟩ | ⟨pastB, -⟩⟩ := right
    · exact le_antisymm (leastA b memberB afterB) (leastB a memberA afterA)
    · exact absurd (pastB a memberA) (not_lt.mpr afterA)
  · obtain ⟨memberB, ⟨afterB, -⟩ | ⟨-, leastB⟩⟩ := right
    · exact absurd (pastA b memberB) (not_lt.mpr afterB)
    · exact le_antisymm (leastA b memberB) (leastB a memberA)

/-- A nearest point is nearest among fewer points. -/
theorem Nearest.subset (near : Nearest pos l h a) (fewer : m ⊆ l) (member : a ∈ m) : Nearest pos m h a := by
  obtain ⟨-, ⟨after, least⟩ | ⟨past, least⟩⟩ := near
  · exact ⟨member, .inl ⟨after, fun b there => least b (fewer there)⟩⟩
  · exact ⟨member, .inr ⟨fun b there => past b (fewer there), fun b there => least b (fewer there)⟩⟩

/-- A point at the position of a nearest one is nearest. -/
theorem Nearest.of_pos_eq (near : Nearest pos l h a) (member : b ∈ l) (same : pos b = pos a) :
    Nearest pos l h b := by
  refine ⟨member, ?_⟩
  rw [same]
  exact near.2

/-- Which points are nearest depends on the points alone. -/
theorem Nearest.congr (same : ∀ b, b ∈ m ↔ b ∈ l) : Nearest pos m h a ↔ Nearest pos l h a := by
  simp [Nearest, same]

variable (ordered : l.Pairwise fun a b => pos a ≤ pos b)

include ordered

/-- In an ordered list the search finds the first point at or after the position, or the first. -/
theorem locate_eq : locate pos l h = (l.find? fun a => decide (h ≤ pos a)).or l.head? := by
  have spec := search_spec (f := fun k => (l[k]?).any fun a => decide (h ≤ pos a)) (n := l.length) (by
    intro i j upTo bound passes
    rcases Nat.eq_or_lt_of_le upTo with rfl | before
    · exact passes
    have first : i < l.length := lt_trans before bound
    simp only [getElem?_eq_getElem, first, bound, any_some, decide_eq_true_eq] at passes ⊢
    exact le_trans passes (pairwise_iff_getElem.mp ordered i j first bound before))
  unfold locate
  revert spec
  generalize search l.length (fun k => (l[k]?).any fun a => decide (h ≤ pos a)) = i
  rintro ⟨bound, below, reached⟩
  rcases Nat.eq_or_lt_of_le bound with rfl | inside
  · have absent : (l.find? fun a => decide (h ≤ pos a)) = none := by
      rw [find?_eq_none]
      intro a member
      obtain ⟨k, first, rfl⟩ := getElem_of_mem member
      have fails := below k first
      rw [getElem?_eq_getElem first, any_some] at fails
      simp [fails]
    rw [if_pos rfl, absent, none_or, head?_eq_getElem?]
  · have passes := reached inside
    rw [getElem?_eq_getElem inside, any_some] at passes
    have found : (l.find? fun a => decide (h ≤ pos a)) = some l[i] := by
      rw [find?_eq_some_iff_getElem]
      refine ⟨passes, i, inside, rfl, fun j before => ?_⟩
      have fails := below j before
      rw [getElem?_eq_getElem (lt_trans before inside), any_some] at fails
      simp [fails]
    rw [if_neg (ne_of_lt inside), found, some_or, getElem?_eq_getElem inside]

theorem locate_eq_none : locate pos l h = none ↔ l = [] := by
  rw [locate_eq ordered, or_eq_none_iff, head?_eq_none_iff]
  constructor
  · exact And.right
  · rintro rfl
    exact ⟨rfl, rfl⟩

/-- The point found is nearest, and none before it in the list shares its position. -/
theorem locate_eq_some (found : locate pos l h = some a) :
    Nearest pos l h a ∧ ∃ before after, l = before ++ a :: after ∧ ∀ b ∈ before, pos b ≠ pos a := by
  rw [locate_eq ordered, or_eq_some_iff] at found
  rcases found with at_ | ⟨past, first⟩
  · obtain ⟨passes, before, after, rfl, fail⟩ := find?_eq_some_iff_append.mp at_
    simp only [decide_eq_true_eq, Bool.not_eq_eq_eq_not, Bool.not_true, decide_eq_false_iff_not,
      not_le] at passes fail
    have split := pairwise_append.mp ordered
    refine ⟨⟨by simp, .inl ⟨passes, fun b member reach => ?_⟩⟩, before, after, rfl, fun b member => ?_⟩
    · rcases mem_append.mp member with early | late
      · exact absurd reach (not_le.mpr (fail b early))
      rcases mem_cons.mp late with rfl | later
      · exact le_rfl
      · exact (pairwise_cons.mp split.2.1).1 b later
    · exact ne_of_lt (lt_of_lt_of_le (fail b member) passes)
  · obtain ⟨rest, rfl⟩ : ∃ rest, l = a :: rest := head?_eq_some_iff.mp first
    have least := (pairwise_cons.mp ordered).1
    refine ⟨⟨by simp, .inr ⟨fun b member => ?_, forall_mem_cons.mpr ⟨le_rfl, least⟩⟩⟩, [], rest,
      rfl, by simp⟩
    have fails := find?_eq_none.mp past b member
    simpa using fails

/-- Of the points at its position the one found comes first. -/
theorem locate_head (found : locate pos l h = some a) :
    (l.filter fun b => decide (pos b = pos a)).head? = some a := by
  obtain ⟨-, before, after, rfl, unlike⟩ := locate_eq_some ordered found
  have none_before : (before.filter fun b => decide (pos b = pos a)) = [] := by
    rw [filter_eq_nil_iff]
    intro b member
    simp [unlike b member]
  rw [filter_append, none_before]
  simp

end Yarilo.Library.Circle

import Mathlib.Data.List.Sort

/-! # Sorting by a comparison

A sort that keeps the elements and puts them in order, with nothing said about elements the
comparison cannot tell apart. Where it tells all elements apart, the result does not depend on the
sort.
-/

namespace Yarilo.Library

/-- What makes a comparison an order up to ties. -/
structure Comparison {α : Type} (less : α → α → Bool) : Prop where
  asymm : ∀ {a b}, less a b = true → less b a = false
  through : ∀ {a b c}, less a b = false → less b c = false → less a c = false

/-- A sorting routine, stable or not. -/
structure Sorter where
  sort : {α : Type} → (α → α → Bool) → List α → List α
  perm : ∀ {α : Type} (less : α → α → Bool) (l : List α), (sort less l).Perm l
  ordered : ∀ {α : Type} {less : α → α → Bool}, Comparison less → ∀ l : List α,
    (sort less l).Pairwise fun a b => less b a = false

namespace Sorter

variable {α : Type} {less : α → α → Bool} {l : List α}

/-- Insertion, which is what short lists are sorted by. -/
def insertion : Sorter where
  sort less l := l.insertionSort fun a b => less b a = false
  perm less l := l.perm_insertionSort _
  ordered := by
    intro α less comparison l
    have total : Std.Total fun a b => less b a = false := by
      refine ⟨fun a b => ?_⟩
      cases before : less b a with
      | false => exact .inl rfl
      | true => exact .inr (comparison.asymm before)
    have trans : IsTrans α fun a b => less b a = false :=
      ⟨fun _ _ _ first second => comparison.through second first⟩
    exact l.pairwise_insertionSort _

/-- Insertion of the list read backwards. -/
def reversed : Sorter where
  sort less l := insertion.sort less l.reverse
  perm less l := (insertion.perm less l.reverse).trans l.reverse_perm
  ordered comparison l := insertion.ordered comparison l.reverse

/-- Insertion leaves elements in their order that the comparison cannot tell apart. -/
theorem insertion_filter {p : α → Bool} (alike : ∀ a b, p a = true → p b = true → less a b = false) :
    (insertion.sort less l).filter p = l.filter p := by
  have perm : ((insertion.sort less l).filter p).Perm (l.filter p) := (insertion.perm less l).filter p
  have kept : (l.filter p).Sublist (insertion.sort less l) := by
    refine List.sublist_insertionSort ?_ List.filter_sublist
    refine List.pairwise_of_forall_mem_list fun a left b right => ?_
    exact alike b a (List.mem_filter.mp right).2 (List.mem_filter.mp left).2
  have filtered := kept.filter p
  rw [List.filter_filter] at filtered
  simp only [Bool.and_self] at filtered
  exact (filtered.eq_of_length perm.length_eq.symm).symm

/-- An ordered rearrangement is the sort's result where the comparison leaves no ties. -/
theorem sort_eq (s : Sorter) (comparison : Comparison less) {placed : List α} (perm : placed.Perm l)
    (ordered : placed.Pairwise fun a b => less b a = false)
    (apart : ∀ a ∈ l, ∀ b ∈ l, less a b = false → less b a = false → a = b) : s.sort less l = placed := by
  have same := (s.perm less l).trans perm.symm
  refine List.Perm.eq_of_pairwise ?_ (s.ordered comparison l) ordered same
  intro a b left right first second
  exact apart a ((s.perm less l).subset left) b (perm.subset right) second first

end Sorter

end Yarilo.Library

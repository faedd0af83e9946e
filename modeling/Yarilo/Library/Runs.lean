import Mathlib.Data.Fintype.Pigeonhole
import Mathlib.Data.List.Induction

/-! # Conditions along a run

A condition on a step that may look at the steps before it, at every step of a run; and runs of a
step that may end.
-/

namespace Yarilo.Library

open List

variable {α : Type*} {P : List α → α → Prop} {a : α} {before rest : List α}

/-- Every step meets the condition, behind the steps before it. -/
def EachStep (P : List α → α → Prop) (steps : List α) : Prop :=
  ∀ before a rest, steps = before ++ a :: rest → P before a

theorem eachStep_nil : EachStep P [] := by
  intro before a rest split
  cases before <;> cases split

theorem eachStep_cons : EachStep P (a :: rest) ↔ P [] a ∧ EachStep (fun before => P (a :: before)) rest := by
  constructor
  · intro each
    exact ⟨each [] a rest rfl, fun before b more split => each (a :: before) b more (by rw [split]; rfl)⟩
  · rintro ⟨first, later⟩ before b more split
    cases before with
    | nil =>
      cases split
      exact first
    | cons c before =>
      obtain ⟨rfl, tail⟩ := cons.inj split
      exact later before b more tail

theorem EachStep.left (each : EachStep P (before ++ rest)) : EachStep P before := by
  intro first b more split
  apply each first b (more ++ rest)
  rw [split, append_assoc, cons_append]

theorem eachStep_concat : EachStep P (before ++ [a]) ↔ EachStep P before ∧ P before a := by
  constructor
  · intro each
    exact ⟨each.left, each before a [] rfl⟩
  · rintro ⟨inside, last⟩ first b more split
    rcases eq_nil_or_concat more with rfl | ⟨init, c, rfl⟩
    · obtain ⟨rfl, same⟩ := append_inj' split rfl
      obtain rfl := singleton_inj.mp same
      exact last
    · rw [concat_eq_append, ← cons_append, ← append_assoc] at split
      exact inside first b init (append_inj' split rfl).1

/-- What every step keeps that meets its condition holds after the run. -/
theorem EachStep.induction {I : List α → Prop} {steps : List α} (each : EachStep P steps) (start : I [])
    (keep : ∀ before a, I before → P before a → I (before ++ [a])) : I steps := by
  induction steps using reverseRecOn with
  | nil => exact start
  | append_singleton before a ih =>
    obtain ⟨earlier, last⟩ := eachStep_concat.mp each
    exact keep before a (ih earlier) last

/-! ## Walks -/

variable {next : α → Option α} {k : ℕ}

/-- Where a walk is after so many steps, if it has not ended. -/
def walk (next : α → Option α) : ℕ → α → Option α
  | 0, a => some a
  | k + 1, a => (next a).bind (walk next k)

theorem walk_add (i j : ℕ) (a : α) : walk next (i + j) a = (walk next i a).bind (walk next j) := by
  induction i generalizing a with
  | zero => rw [Nat.zero_add]; rfl
  | succ i ih =>
    rw [Nat.succ_add, walk, walk, Option.bind_assoc]
    exact Option.bind_congr fun b _ => ih b

/-- The walk is never twice at one place. -/
def NoReturn (next : α → Option α) (a : α) : Prop :=
  ∀ i j b, i < j → walk next i a = some b → walk next j a ≠ some b

/-- A walk that ends does not return: it would go round for ever. -/
theorem noReturn_of_ends (ends : walk next k a = none) : NoReturn next a := by
  intro i j b later first again
  have round : ∀ m, walk next (i + m * (j - i)) a = some b := by
    intro m
    induction m with
    | zero => simpa using first
    | succ m ih =>
      have back : walk next (j - i) b = some b := by
        rw [show j = i + (j - i) by omega, walk_add, first] at again
        exact again
      rw [Nat.succ_mul, ← Nat.add_assoc, walk_add, ih]
      exact back
  have far : k ≤ i + k * (j - i) := (Nat.le_mul_of_pos_right k (by omega)).trans (Nat.le_add_left ..)
  have some := round k
  rw [← Nat.add_sub_cancel' far, walk_add, ends] at some
  cases some

/-- Among finitely many places a walk that does not return ends. -/
theorem NoReturn.ends {next : ℕ → Option ℕ} {a bound : ℕ} (apart : NoReturn next a)
    (below : ∀ a b, next a = some b → a < bound) : walk next (bound + 1) a = none := by
  by_contra goes
  have inside : ∀ k < bound + 1, ∃ b < bound, walk next k a = some b := by
    intro k early
    rw [show bound + 1 = k + (bound - k + 1) by omega, walk_add] at goes
    cases here : walk next k a with
    | none => simp [here] at goes
    | some b =>
      refine ⟨b, ?_, rfl⟩
      cases onward : next b with
      | none => simp [here, walk, onward] at goes
      | some c => exact below b c onward
  choose place small here using inside
  obtain ⟨i, j, differ, same⟩ := Fintype.exists_ne_map_eq_of_card_lt
    (fun k : Fin (bound + 1) => (⟨place k k.2, small k k.2⟩ : Fin bound)) (by simp)
  have same : place i i.2 = place j j.2 := congrArg Fin.val same
  rcases lt_or_gt_of_ne (Fin.val_ne_of_ne differ) with first | first
  · exact apart i j _ first (here i i.2) (same ▸ here j j.2)
  · exact apart j i _ first (here j j.2) (same ▸ here i i.2)

theorem exists_ends_iff {next : ℕ → Option ℕ} {a bound : ℕ}
    (below : ∀ a b, next a = some b → a < bound) : (∃ k, walk next k a = none) ↔ NoReturn next a :=
  ⟨fun ⟨_, ends⟩ => noReturn_of_ends ends, fun apart => ⟨_, apart.ends below⟩⟩

end Yarilo.Library

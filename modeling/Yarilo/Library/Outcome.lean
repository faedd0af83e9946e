import Mathlib.Logic.Basic

/-! # Computations that succeed

What a computation that may fail yields, along its binds.
-/

namespace Yarilo.Library

variable {ε α β : Type} {x : Except ε α} {P Q : α → Prop}

/-- The computation succeeds, with such a result. -/
def Yields (x : Except ε α) (P : α → Prop) : Prop := ∃ a, x = .ok a ∧ P a

theorem Yields.ok {a : α} (holds : P a) : Yields (.ok a : Except ε α) P := ⟨a, rfl, holds⟩

theorem Yields.mono (yields : Yields x P) (weaken : ∀ a, P a → Q a) : Yields x Q := by
  obtain ⟨a, done, holds⟩ := yields
  exact ⟨a, done, weaken a holds⟩

theorem Yields.bind {k : α → Except ε β} {R : β → Prop} (first : Yields x P)
    (next : ∀ a, P a → Yields (k a) R) : Yields (x >>= k) R := by
  obtain ⟨a, rfl, holds⟩ := first
  exact next a holds

end Yarilo.Library

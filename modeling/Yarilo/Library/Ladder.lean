import Mathlib.Data.Finset.Insert
import Mathlib.Data.Finset.Lattice.Basic
import Mathlib.Order.Defs.LinearOrder

/-! # Reading entries up a ladder

Entries with a tier each are read from the lowest tier up. An entry of a new tier replaces what was
collected and one of the same tier adds to it, so that in the end the highest tier has decided.
-/

namespace Yarilo.Library

/-- What has been collected, and the tier of the entry read last. -/
structure Rung (ι β : Type) where
  value : Finset β
  tier : Option ι

namespace Rung

variable {α β ι : Type} [DecidableEq β] {l : List α}

def start : Rung ι β := ⟨∅, none⟩

def climb [DecidableEq ι] (s : Rung ι β) (tier : ι) (value : Finset β) : Rung ι β where
  value := if s.tier = some tier then s.value ∪ value else value
  tier := some tier

def climbAll [DecidableEq ι] (tier : α → ι) (value : α → Finset β) (l : List α) : Rung ι β :=
  l.foldl (fun s a => s.climb (tier a) (value a)) start

/-- The entry stands on the highest tier that occurs. -/
def Highest [LE ι] (tier : α → ι) (l : List α) (a : α) : Prop :=
  a ∈ l ∧ ∀ c ∈ l, tier c ≤ tier a

variable [LinearOrder ι] {tier : α → ι} {value : α → Finset β}

theorem climbAll_concat (l : List α) (a : α) :
    climbAll tier value (l ++ [a]) = (climbAll tier value l).climb (tier a) (value a) := by
  simp [climbAll]

theorem climbAll_tier (l : List α) : (climbAll tier value l).tier = l.getLast?.map tier := by
  induction l using List.reverseRecOn with
  | nil => rfl
  | append_singleton l a ih => simp [climbAll_concat, climb]

theorem highest_concat {x a : α} (below : ∀ c ∈ l, tier c ≤ tier x) :
    Highest tier (l ++ [x]) a ↔ a = x ∨ a ∈ l ∧ tier a = tier x := by
  simp only [Highest, List.mem_append, List.mem_singleton]
  constructor
  · rintro ⟨member | rfl, top⟩
    · exact .inr ⟨member, le_antisymm (below a member) (top x (.inr rfl))⟩
    · exact .inl rfl
  · rintro (rfl | ⟨member, same⟩)
    · refine ⟨.inr rfl, ?_⟩
      rintro c (inside | rfl)
      · exact below c inside
      · exact le_rfl
    · refine ⟨.inl member, ?_⟩
      rintro c (inside | rfl)
      · rw [same]
        exact below c inside
      · rw [same]

/-- Read in order of tiers, the entries of the highest tier are what is left. -/
theorem mem_climbAll (ordered : l.Pairwise fun a b => tier a ≤ tier b) (b : β) :
    b ∈ (climbAll tier value l).value ↔ ∃ a, Highest tier l a ∧ b ∈ value a := by
  induction l using List.reverseRecOn with
  | nil => simp [climbAll, start, Highest]
  | append_singleton l x ih =>
    obtain ⟨earlier, -, between⟩ := List.pairwise_append.mp ordered
    have below : ∀ c ∈ l, tier c ≤ tier x := fun c member => between c member x (by simp)
    rw [climbAll_concat]
    simp only [climb, climbAll_tier, highest_concat below]
    rcases List.eq_nil_or_concat' l with rfl | ⟨front, last, rfl⟩
    · simp
    have top : ∀ c ∈ front ++ [last], tier c ≤ tier last := by
      intro c member
      rcases List.mem_append.mp member with inside | here
      · exact (List.pairwise_append.mp earlier).2.2 c inside last (by simp)
      · rw [List.mem_singleton.mp here]
    by_cases same : tier last = tier x
    · -- the new entry shares its tier with the last one, and adds to it
      rw [if_pos (by simp [same]), Finset.mem_union, ih earlier]
      constructor
      · rintro (⟨a, ⟨member, above⟩, inside⟩ | inside)
        · have equal : tier a = tier x := by
            rw [← same]
            exact le_antisymm (top a member) (above last (by simp))
          exact ⟨a, .inr ⟨member, equal⟩, inside⟩
        · exact ⟨x, .inl rfl, inside⟩
      · rintro ⟨a, rfl | ⟨member, equal⟩, inside⟩
        · exact .inr inside
        · refine .inl ⟨a, ⟨member, fun c other => ?_⟩, inside⟩
          rw [equal, ← same]
          exact top c other
    · -- the new entry stands alone on its tier
      rw [if_neg (by simp [same])]
      constructor
      · exact fun inside => ⟨x, .inl rfl, inside⟩
      · rintro ⟨a, rfl | ⟨member, equal⟩, inside⟩
        · exact inside
        · have reached := le_antisymm (below last (by simp)) (equal ▸ top a member)
          exact absurd reached same

end Rung

end Yarilo.Library

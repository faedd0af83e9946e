import Yarilo.Library.Text

/-! # The penalty store

Per client address a count of failures and the time it was set. A count is forgotten once it is
older than the decay, by the lookup that meets it or by a sweep. A count of zero is no entry, and the
server caps what it stores.
-/

namespace Yarilo.Warden

open Library

def maxPenalty : ℕ := 4

structure PenaltyEntry where
  count : ℕ
  lastUpdate : ℤ
  positive : 0 < count
  capped : count ≤ maxPenalty

structure Penalties where
  decay : ℤ
  entries : Bytes → Option PenaltyEntry

namespace Penalties

def delete (p : Penalties) (ip : Bytes) : Penalties :=
  { p with entries := fun other => if other = ip then none else p.entries other }

/-- The entry is older than the decay. -/
def Expired (p : Penalties) (now : ℤ) (e : PenaltyEntry) : Prop := p.decay < now - e.lastUpdate

instance (p : Penalties) (now : ℤ) (e : PenaltyEntry) : Decidable (p.Expired now e) :=
  inferInstanceAs (Decidable (p.decay < now - e.lastUpdate))

def penaltyLookup (p : Penalties) (now : ℤ) (ip : Bytes) : ℕ × Penalties :=
  match p.entries ip with
  | none => (0, p)
  | some e => if p.Expired now e then (0, p.delete ip) else (e.count, p)

/-- `handlePenaltyUpdate` and the store behind it: the count is capped, and zero deletes. -/
def penaltyUpdate (p : Penalties) (now : ℤ) (ip : Bytes) (count : ℕ) : Penalties :=
  if positive : 0 < count then
    let entry : PenaltyEntry :=
      { count := min count maxPenalty
        lastUpdate := now
        positive := lt_min positive (by decide)
        capped := min_le_right _ _ }
    { p with entries := fun other => if other = ip then some entry else p.entries other }
  else p.delete ip

/-- `PenaltySweep`. -/
def penaltySweep (p : Penalties) (now : ℤ) : Penalties :=
  { p with entries := fun ip => (p.entries ip).filter fun e => ¬p.Expired now e }

/-- The count stored for an address. -/
def count (p : Penalties) (ip : Bytes) : ℕ := ((p.entries ip).map (·.count)).getD 0

/-- The address has no entry that is older than the decay. -/
def Fresh (p : Penalties) (now : ℤ) (ip : Bytes) : Prop := ∀ e, p.entries ip = some e → ¬p.Expired now e

instance (p : Penalties) (now : ℤ) (ip : Bytes) : Decidable (p.Fresh now ip) :=
  decidable_of_iff (∀ e ∈ (p.entries ip).toList, ¬p.Expired now e)
    (forall_congr' fun _ => imp_congr_left (by simp))

variable {p : Penalties} {now : ℤ} {ip other : Bytes}

theorem count_le : p.count ip ≤ maxPenalty := by
  unfold count
  cases p.entries ip with
  | none => simp
  | some e => exact e.capped

theorem count_delete_of_ne (ne : other ≠ ip) : (p.delete ip).count other = p.count other := by
  simp [count, delete, ne]

theorem count_penaltyUpdate (count : ℕ) : (p.penaltyUpdate now ip count).count ip = min count maxPenalty := by
  unfold penaltyUpdate
  split
  · simp [Penalties.count]
  · rename_i zero
    simp [Penalties.count, delete, Nat.eq_zero_of_not_pos zero]

theorem count_penaltyUpdate_of_ne (ne : other ≠ ip) (count : ℕ) :
    (p.penaltyUpdate now ip count).count other = p.count other := by
  unfold penaltyUpdate
  split
  · simp [Penalties.count, ne]
  · exact count_delete_of_ne ne

theorem penaltyLookup_of_fresh (fresh : p.Fresh now ip) : p.penaltyLookup now ip = (p.count ip, p) := by
  unfold penaltyLookup count
  cases entry : p.entries ip with
  | none => rfl
  | some e => simp [fresh e entry]

theorem count_penaltyLookup_of_ne (ne : other ≠ ip) :
    (p.penaltyLookup now ip).2.count other = p.count other := by
  unfold penaltyLookup
  cases p.entries ip with
  | none => rfl
  | some e =>
    by_cases expired : p.Expired now e
    · simp only [expired, if_true]
      exact count_delete_of_ne ne
    · simp [expired]

theorem count_penaltySweep_of_fresh (fresh : p.Fresh now ip) :
    (p.penaltySweep now).count ip = p.count ip := by
  unfold penaltySweep count
  cases entry : p.entries ip with
  | none => simp [entry]
  | some e => simp [entry, Option.filter, fresh e entry]

end Penalties

end Yarilo.Warden

import Mathlib.Algebra.Order.Group.Int
import Yarilo.Library.Bytes

/-! # Decimal numbers

Numbers as they are printed, and the parsers that read them back: an unsigned one with a bound, and a
signed one.
-/

namespace Yarilo.Library

open Option

def digit (n : ℕ) : UInt8 := UInt8.ofNat (48 + n % 10)

def digits : (fuel : ℕ) → (n : ℕ) → Bytes
  | 0, _ => []
  | fuel + 1, n => if n < 10 then [digit n] else digits fuel (n / 10) ++ [digit n]

def natText (n : ℕ) : Bytes := digits (n + 1) n

def intText (n : ℤ) : Bytes := if n < 0 then 45 :: natText n.natAbs else natText n.natAbs

def digitValue (b : UInt8) : Option ℕ := if 48 ≤ b ∧ b ≤ 57 then some (b.toNat - 48) else none

def readDigits (value : ℕ) : Bytes → Option ℕ
  | [] => some value
  | b :: rest => (digitValue b).bind fun d => readDigits (10 * value + d) rest

/-- A number of at least one digit, below the bound. -/
def parseUint (bound : ℕ) (s : Bytes) : Option ℕ :=
  if s = [] then none else (readDigits 0 s).filter (· < bound)

/-- A number with an optional sign, within the bounds of a machine integer. -/
def atoi (s : Bytes) : Option ℤ :=
  match s with
  | 45 :: rest => (parseUint (2 ^ 63 + 1) rest).map fun n : ℕ => -(n : ℤ)
  | 43 :: rest => (parseUint (2 ^ 63) rest).map fun n : ℕ => (n : ℤ)
  | s => (parseUint (2 ^ 63) s).map fun n : ℕ => (n : ℤ)

/-- What the signed parser returns beside its error: zero, or the nearest machine integer. -/
def atoiValue (s : Bytes) : ℤ :=
  match s with
  | 45 :: rest => if rest = [] then 0 else ((readDigits 0 rest).map fun n : ℕ =>
    max (-2 ^ 63) (-(n : ℤ))).getD 0
  | 43 :: rest => if rest = [] then 0 else ((readDigits 0 rest).map fun n : ℕ =>
    min (2 ^ 63 - 1) (n : ℤ)).getD 0
  | s => if s = [] then 0 else ((readDigits 0 s).map fun n : ℕ => min (2 ^ 63 - 1) (n : ℤ)).getD 0

theorem digit_toNat (n : ℕ) : (digit n).toNat = 48 + n % 10 := by
  have small : 48 + n % 10 < 256 := by omega
  simp [digit, Nat.mod_eq_of_lt small]

theorem digitValue_digit (n : ℕ) : digitValue (digit n) = some (n % 10) := by
  unfold digitValue
  rw [if_pos, digit_toNat]
  · simp
  · simp only [UInt8.le_iff_toNat_le, digit_toNat, UInt8.reduceToNat]
    omega

theorem readDigits_append (value : ℕ) (s t : Bytes) :
    readDigits value (s ++ t) = (readDigits value s).bind fun v => readDigits v t := by
  induction s generalizing value with
  | nil => rfl
  | cons b rest ih =>
    simp [readDigits, bind_assoc, ih]

variable {fuel n : ℕ} {b : UInt8}

theorem readDigits_digits (enough : n < fuel) : readDigits 0 (digits fuel n) = some n := by
  induction fuel generalizing n with
  | zero => omega
  | succ fuel ih =>
    unfold digits
    split
    · next small =>
      simp only [readDigits, digitValue_digit, bind_some, some.injEq]
      omega
    next large =>
    rw [readDigits_append, ih (by omega)]
    simp only [readDigits, digitValue_digit, bind_some, some.injEq]
    omega

theorem natText_ne_nil (n : ℕ) : natText n ≠ [] := by
  unfold natText digits
  split <;> simp

theorem parseUint_natText {bound : ℕ} (below : n < bound) : parseUint bound (natText n) = some n := by
  rw [parseUint, if_neg (natText_ne_nil n), natText, readDigits_digits (Nat.lt_succ_self n)]
  simp [below]

theorem mem_digits (member : b ∈ digits fuel n) : ∃ k, b = digit k := by
  induction fuel generalizing n with
  | zero => cases member
  | succ fuel ih =>
    unfold digits at member
    split at member
    · exact ⟨n, List.mem_singleton.mp member⟩
    rcases List.mem_append.mp member with early | last
    · exact ih early
    · exact ⟨n, List.mem_singleton.mp last⟩

/-- A printed number has no byte but digits. -/
theorem digit_of_mem_natText (member : b ∈ natText n) : 48 ≤ b.toNat ∧ b.toNat ≤ 57 := by
  obtain ⟨k, rfl⟩ := mem_digits member
  rw [digit_toNat]
  omega

theorem digit_of_mem_intText {n : ℤ} (member : b ∈ intText n) : b = 45 ∨ 48 ≤ b.toNat ∧ b.toNat ≤ 57 := by
  unfold intText at member
  split at member
  · rcases List.mem_cons.mp member with rfl | later
    · exact .inl rfl
    · exact .inr (digit_of_mem_natText later)
  · exact .inr (digit_of_mem_natText member)

theorem atoi_natText (below : n < 2 ^ 63) : atoi (natText n) = some (n : ℤ) := by
  unfold atoi
  split
  · next rest signed =>
    have sign := digit_of_mem_natText (n := n) (b := 45) (by rw [signed]; exact (.head _))
    exact absurd sign (by decide)
  · next rest signed =>
    have sign := digit_of_mem_natText (n := n) (b := 43) (by rw [signed]; exact (.head _))
    exact absurd sign (by decide)
  · rw [parseUint_natText below]
    rfl

/-- What is printed is read back. -/
theorem atoi_intText {n : ℤ} (above : -2 ^ 63 ≤ n) (below : n < 2 ^ 63) : atoi (intText n) = some n := by
  unfold intText
  split
  · next negative =>
    have bound : n.natAbs < 2 ^ 63 + 1 := by omega
    change (parseUint (2 ^ 63 + 1) (natText n.natAbs)).map (fun n : ℕ => -(n : ℤ)) = some n
    rw [parseUint_natText bound, map_some, some.injEq]
    omega
  · next positive =>
    rw [atoi_natText (by omega)]
    simp only [some.injEq]
    omega

theorem atoiValue_intText {n : ℤ} (above : -2 ^ 63 ≤ n) (below : n < 2 ^ 63) : atoiValue (intText n) = n := by
  unfold intText
  split
  · next negative =>
    change (if natText n.natAbs = [] then 0 else
      ((readDigits 0 (natText n.natAbs)).map fun n : ℕ => max (-2 ^ 63) (-(n : ℤ))).getD 0) = n
    rw [if_neg (natText_ne_nil _), natText, readDigits_digits (Nat.lt_succ_self _), map_some,
      getD_some]
    omega
  · next positive =>
    unfold atoiValue
    split
    · next rest signed =>
      have sign := digit_of_mem_natText (n := n.natAbs) (b := 45) (by rw [signed]; exact (.head _))
      exact absurd sign (by decide)
    · next rest signed =>
      have sign := digit_of_mem_natText (n := n.natAbs) (b := 43) (by rw [signed]; exact (.head _))
      exact absurd sign (by decide)
    rw [if_neg (natText_ne_nil _), natText, readDigits_digits (Nat.lt_succ_self _), map_some,
      getD_some]
    omega

end Yarilo.Library

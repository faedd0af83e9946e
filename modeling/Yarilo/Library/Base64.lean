import Yarilo.Library.Bytes

/-! # Base64 without padding

Three bytes are written as four digits of six bits; one or two bytes left over as two or three digits.
The reader skips line breaks, refuses any other byte outside the alphabet and a single digit left
over, and ignores the unused bits of the last digit.
-/

namespace Yarilo.Library

open List

namespace Base64

/-- The digit of a value below 64. -/
def digit (n : ℕ) : UInt8 :=
  if n < 26 then UInt8.ofNat (65 + n)
  else if n < 52 then UInt8.ofNat (71 + n)
  else if n < 62 then UInt8.ofNat (n - 4)
  else if n = 62 then 43
  else 47

def value (b : UInt8) : Option ℕ :=
  if 65 ≤ b ∧ b ≤ 90 then some (b.toNat - 65)
  else if 97 ≤ b ∧ b ≤ 122 then some (b.toNat - 71)
  else if 48 ≤ b ∧ b ≤ 57 then some (b.toNat + 4)
  else if b = 43 then some 62
  else if b = 47 then some 63
  else none

/-- The six-bit values of a byte string. -/
def digits : Bytes → List ℕ
  | [] => []
  | [a] => [a.toNat / 4, a.toNat % 4 * 16]
  | [a, b] => [a.toNat / 4, a.toNat % 4 * 16 + b.toNat / 16, b.toNat % 16 * 4]
  | a :: b :: c :: rest =>
    [a.toNat / 4, a.toNat % 4 * 16 + b.toNat / 16, b.toNat % 16 * 4 + c.toNat / 64,
      c.toNat % 64] ++ digits rest

def encode (s : Bytes) : Bytes := (digits s).map digit

/-- The bytes that a row of digits spells. -/
def decodeDigits : List ℕ → Option Bytes
  | [] => some []
  | [_] => none
  | [x, y] => some [UInt8.ofNat (x * 4 + y / 16)]
  | [x, y, z] => some [UInt8.ofNat (x * 4 + y / 16), UInt8.ofNat (y % 16 * 16 + z / 4)]
  | x :: y :: z :: w :: rest =>
    (decodeDigits rest).map fun bytes =>
      UInt8.ofNat (x * 4 + y / 16) :: UInt8.ofNat (y % 16 * 16 + z / 4) ::
        UInt8.ofNat (z % 4 * 64 + w) :: bytes

def decode (s : Bytes) : Option Bytes :=
  ((s.filter fun b => b ≠ 10 ∧ b ≠ 13).mapM value).bind decodeDigits

/-! ## Round trip -/

theorem value_digit_table : ∀ n < 64, value (digit n) = some n := by
  decide

variable {n : ℕ} {b : UInt8} {s : Bytes}

theorem value_digit (bound : n < 64) : value (digit n) = some n := value_digit_table n bound

theorem digits_lt (s : Bytes) : ∀ n ∈ digits s, n < 64 := by
  fun_induction digits s with
  | case1 => simp
  | case2 a =>
    have := a.toNat_lt
    simp only [mem_cons, not_mem_nil, or_false]
    rintro n (rfl | rfl) <;> omega
  | case3 a b =>
    have := a.toNat_lt
    have := b.toNat_lt
    simp only [mem_cons, not_mem_nil, or_false]
    rintro n (rfl | rfl | rfl) <;> omega
  | case4 a b c rest ih =>
    have := a.toNat_lt
    have := b.toNat_lt
    have := c.toNat_lt
    simp only [cons_append, nil_append, mem_cons]
    rintro n (rfl | rfl | rfl | rfl | later)
    all_goals first | omega | exact ih n later

theorem ofNat_eq (same : n = b.toNat) : UInt8.ofNat n = b := by
  rw [same, UInt8.ofNat_toNat]

theorem decodeDigits_digits (s : Bytes) : decodeDigits (digits s) = some s := by
  fun_induction digits s with
  | case1 => rfl
  | case2 a =>
    simp only [decodeDigits]
    rw [ofNat_eq (b := a) (by omega)]
  | case3 a b =>
    have := b.toNat_lt
    simp only [decodeDigits]
    rw [ofNat_eq (b := a) (by omega), ofNat_eq (b := b) (by omega)]
  | case4 a b c rest ih =>
    have := b.toNat_lt
    have := c.toNat_lt
    simp only [cons_append, nil_append, decodeDigits, ih, Option.map_some]
    rw [ofNat_eq (b := a) (by omega), ofNat_eq (b := b) (by omega), ofNat_eq (b := c) (by omega)]

/-- The bytes that `encode` writes. -/
def Alphabet (b : UInt8) : Prop := (value b).isSome

instance (b : UInt8) : Decidable (Alphabet b) := inferInstanceAs (Decidable ((value b).isSome = true))

theorem alphabet_table : ∀ n < 256, Alphabet (UInt8.ofNat n) → 43 ≤ n ∧ n ≤ 122 := by
  decide +kernel

/-- The alphabet is printable. -/
theorem Alphabet.bounds (inside : Alphabet b) : 43 ≤ b.toNat ∧ b.toNat ≤ 122 :=
  alphabet_table b.toNat b.toNat_lt (by rwa [UInt8.ofNat_toNat])

theorem alphabet_of_mem_encode (member : b ∈ encode s) : Alphabet b := by
  rw [encode, mem_map] at member
  obtain ⟨n, inside, rfl⟩ := member
  simp [Alphabet, value_digit (digits_lt s n inside)]

theorem decode_encode (s : Bytes) : decode (encode s) = some s := by
  have kept : (encode s).filter (fun b => b ≠ 10 ∧ b ≠ 13) = encode s := by
    rw [filter_eq_self]
    intro b member
    have inside := alphabet_of_mem_encode member
    simp only [ne_eq, Bool.decide_and, decide_not, Bool.and_eq_true, Bool.not_eq_eq_eq_not,
      Bool.not_true, decide_eq_false_iff_not]
    constructor <;> rintro rfl <;> exact absurd inside (by decide)
  rw [decode, kept, encode, mapM_map, mapM_eq_pure (f := value ∘ digit)
    fun n member => value_digit (digits_lt s n member), map_id']
  exact decodeDigits_digits s

theorem encode_eq_nil : encode s = [] ↔ s = [] := by
  match s with
  | [] | [_] | [_, _] | _ :: _ :: _ :: _ => simp [encode, digits]

end Base64

end Yarilo.Library

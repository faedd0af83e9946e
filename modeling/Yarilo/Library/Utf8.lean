import Yarilo.Library.Bytes

/-! # UTF-8

A byte string is read rune by rune. Bytes that start no well-formed rune are read one at a time, each
as the replacement character. Writing a rune that is no scalar value writes the replacement character
as well. Scalar values are read back as they were written; an ASCII byte stands for itself and keeps
the text before it and behind it apart.
-/

namespace Yarilo.Library

open List UInt8

namespace Utf8

def runeError : ℕ := 0xFFFD

/-- A byte that continues a rune. -/
def Continues (b : UInt8) : Prop := 0x80 ≤ b ∧ b ≤ 0xBF

instance (b : UInt8) : Decidable (Continues b) := inferInstanceAs (Decidable (_ ∧ _))

def Pair (a b : UInt8) : Prop := 0xC2 ≤ a ∧ a ≤ 0xDF ∧ Continues b

instance (a b : UInt8) : Decidable (Pair a b) := inferInstanceAs (Decidable (_ ∧ _ ∧ _))

/-- Three bytes that are neither overlong nor a surrogate. -/
def Triple (a b c : UInt8) : Prop :=
  0xE0 ≤ a ∧ a ≤ 0xEF ∧ (a = 0xE0 → 0xA0 ≤ b) ∧ (a = 0xED → b ≤ 0x9F) ∧ Continues b ∧ Continues c

instance (a b c : UInt8) : Decidable (Triple a b c) := inferInstanceAs (Decidable (_ ∧ _ ∧ _ ∧ _ ∧ _ ∧ _))

/-- Four bytes that are neither overlong nor beyond the last code point. -/
def Quad (a b c d : UInt8) : Prop := 0xF0 ≤ a ∧ a ≤ 0xF4 ∧ (a = 0xF0 → 0x90 ≤ b) ∧ (a = 0xF4 → b ≤ 0x8F) ∧
    Continues b ∧ Continues c ∧ Continues d

instance (a b c d : UInt8) : Decidable (Quad a b c d) :=
  inferInstanceAs (Decidable (_ ∧ _ ∧ _ ∧ _ ∧ _ ∧ _ ∧ _))

/-- The first rune of a string and how many bytes it takes. -/
def decodeRune : Bytes → ℕ × ℕ
  | [] => (runeError, 0)
  | a :: rest =>
    -- a byte that is not there continues nothing
    let b := rest[0]?.getD 0
    let c := rest[1]?.getD 0
    let d := rest[2]?.getD 0
    if a < 0x80 then (a.toNat, 1)
    else if Pair a b then ((a.toNat - 0xC0) * 0x40 + (b.toNat - 0x80), 2)
    else if Triple a b c then
      ((a.toNat - 0xE0) * 0x1000 + (b.toNat - 0x80) * 0x40 + (c.toNat - 0x80), 3)
    else if Quad a b c d then
      ((a.toNat - 0xF0) * 0x40000 + (b.toNat - 0x80) * 0x1000 + (c.toNat - 0x80) * 0x40 +
        (d.toNat - 0x80), 4)
    else (runeError, 1)

/-- The runes of a string. `skip` bytes of a rune are still to pass. -/
def runesFrom : (skip : ℕ) → Bytes → List ℕ
  | _, [] => []
  | skip + 1, _ :: rest => runesFrom skip rest
  | 0, a :: rest =>
    let (rune, width) := decodeRune (a :: rest)
    rune :: runesFrom (width - 1) rest

def runes (s : Bytes) : List ℕ := runesFrom 0 s

/-- A code point that is no surrogate. -/
def Scalar (r : ℕ) : Prop := r < 0xD800 ∨ 0xE000 ≤ r ∧ r < 0x110000

instance (r : ℕ) : Decidable (Scalar r) := inferInstanceAs (Decidable (_ ∨ _ ∧ _))

def encodeScalar (r : ℕ) : Bytes :=
  if r < 0x80 then [UInt8.ofNat r]
  else if r < 0x800 then [UInt8.ofNat (0xC0 + r / 0x40), UInt8.ofNat (0x80 + r % 0x40)]
  else if r < 0x10000 then
    [UInt8.ofNat (0xE0 + r / 0x1000), UInt8.ofNat (0x80 + r / 0x40 % 0x40), UInt8.ofNat (0x80 + r % 0x40)]
  else
    [UInt8.ofNat (0xF0 + r / 0x40000), UInt8.ofNat (0x80 + r / 0x1000 % 0x40),
      UInt8.ofNat (0x80 + r / 0x40 % 0x40), UInt8.ofNat (0x80 + r % 0x40)]

def encodeRune (r : ℕ) : Bytes := encodeScalar (if Scalar r then r else runeError)

/-- A string that is the encoding of its runes. -/
def Valid (s : Bytes) : Prop := (runes s).flatMap encodeRune = s

instance (s : Bytes) : Decidable (Valid s) := inferInstanceAs (Decidable ((runes s).flatMap encodeRune = s))

theorem runesFrom_eq (skip : ℕ) (s : Bytes) : runesFrom skip s = runes (s.drop skip) := by
  induction skip generalizing s with
  | zero => rfl
  | succ skip ih =>
    cases s with
    | nil => rfl
    | cons a rest => exact ih rest

variable {b c a : UInt8} {rest s t : Bytes} {r : ℕ}

theorem not_continues_of_ascii (ascii : b < 0x80) : ¬Continues b := by
  intro continues
  exact absurd continues.1 (UInt8.not_le.mpr ascii)

/-- What continues a rune is there. -/
theorem lt_length_of_continues {i : ℕ} (continues : Continues (rest[i]?.getD 0)) : i < rest.length := by
  by_contra missing
  rw [getElem?_eq_none (by omega)] at continues
  exact not_continues_of_ascii (by decide) continues

/-- The ways to read a first rune. -/
theorem decodeRune_cases (a : UInt8) (rest : Bytes) : (a < 0x80 ∧ decodeRune (a :: rest) = (a.toNat, 1)) ∨
    (∃ b tail, rest = b :: tail ∧ Pair a b ∧
      decodeRune (a :: rest) = ((a.toNat - 0xC0) * 0x40 + (b.toNat - 0x80), 2)) ∨
    (∃ b c tail, rest = b :: c :: tail ∧ Triple a b c ∧ decodeRune (a :: rest) =
        ((a.toNat - 0xE0) * 0x1000 + (b.toNat - 0x80) * 0x40 + (c.toNat - 0x80), 3)) ∨
    (∃ b c d tail, rest = b :: c :: d :: tail ∧ Quad a b c d ∧ decodeRune (a :: rest) =
        ((a.toNat - 0xF0) * 0x40000 + (b.toNat - 0x80) * 0x1000 + (c.toNat - 0x80) * 0x40 +
          (d.toNat - 0x80), 4)) ∨
    (0x80 ≤ a ∧ decodeRune (a :: rest) = (runeError, 1)) := by
  simp only [decodeRune]
  split
  · exact .inl ⟨‹_›, rfl⟩
  split
  · rename_i pair
    refine .inr (.inl ?_)
    have there := lt_length_of_continues pair.2.2
    match rest, there with
    | b :: tail, _ => exact ⟨b, tail, rfl, pair, rfl⟩
  · split
    · rename_i triple
      refine .inr (.inr (.inl ?_))
      have there := lt_length_of_continues triple.2.2.2.2.2
      match rest, there with
      | b :: c :: tail, _ => exact ⟨b, c, tail, rfl, triple, rfl⟩
    · split
      · rename_i quad
        refine .inr (.inr (.inr (.inl ?_)))
        have there := lt_length_of_continues quad.2.2.2.2.2.2
        match rest, there with
        | b :: c :: d :: tail, _ => exact ⟨b, c, d, tail, rfl, quad, rfl⟩
      · rename_i other _ _ _
        exact .inr (.inr (.inr (.inr ⟨UInt8.not_lt.mp other, rfl⟩)))

theorem decodeRune_width (a : UInt8) (rest : Bytes) :
    0 < (decodeRune (a :: rest)).2 ∧ (decodeRune (a :: rest)).2 ≤ (a :: rest).length := by
  rcases decodeRune_cases a rest with ⟨-, same⟩ | ⟨b, tail, rfl, -, same⟩ |
    ⟨b, c, tail, rfl, -, same⟩ | ⟨b, c, d, tail, rfl, -, same⟩ | ⟨-, same⟩
  all_goals simp [same]

/-- An ASCII byte behind a string does not change how its first rune is read. -/
theorem decodeRune_append (a : UInt8) (rest : Bytes) (ascii : c < 0x80) (tail : Bytes) :
    decodeRune (a :: (rest ++ c :: tail)) = decodeRune (a :: rest) := by
  have ends := not_continues_of_ascii ascii
  have missing : ¬Continues 0 := by decide
  match rest with
  | [] => simp [decodeRune, Pair, Triple, Quad, ends, missing]
  | [b] => simp [decodeRune, Pair, Triple, Quad, ends, missing]
  | [b, b'] => simp [decodeRune, Pair, Triple, Quad, ends, missing]
  | b :: b' :: b'' :: rest => simp [decodeRune]

theorem runes_cons (a : UInt8) (rest : Bytes) : runes (a :: rest) =
      (decodeRune (a :: rest)).1 :: runes ((a :: rest).drop (decodeRune (a :: rest)).2) := by
  have positive := (decodeRune_width a rest).1
  obtain ⟨width, same⟩ := Nat.exists_eq_succ_of_ne_zero (Nat.pos_iff_ne_zero.mp positive)
  simp only [runes, runesFrom, same]
  rw [runesFrom_eq]
  simp [runes]

/-- The rule for whatever is said of a string by its runes. -/
theorem runes_induction {motive : Bytes → Prop} (s : Bytes) (nil : motive [])
    (cons : ∀ a rest, motive ((a :: rest).drop (decodeRune (a :: rest)).2) → motive (a :: rest)) :
    motive s := by
  induction length : s.length using Nat.strong_induction_on generalizing s with
  | _ n ih =>
    cases s with
    | nil => exact nil
    | cons a rest =>
      refine cons a rest (ih _ ?_ _ rfl)
      have := decodeRune_width a rest
      simp only [length_drop]
      omega

/-- An ASCII byte is a rune, and the text on its two sides is read apart. -/
theorem runes_append_cons (p : Bytes) (ascii : c < 0x80) (q : Bytes) :
    runes (p ++ c :: q) = runes p ++ c.toNat :: runes q := by
  induction p using runes_induction with
  | nil =>
    have single : decodeRune (c :: q) = (c.toNat, 1) := by simp [decodeRune, ascii]
    rw [nil_append, runes_cons, single]
    rfl
  | cons a rest ih =>
    have same := decodeRune_append a rest ascii q
    have bound := (decodeRune_width a rest).2
    rw [cons_append, runes_cons, runes_cons, same, cons_append, ← ih,
      ← cons_append, drop_append_of_le_length bound]

theorem Pair.bounds (pair : Pair a b) : 0x80 ≤ (a.toNat - 0xC0) * 0x40 + (b.toNat - 0x80) ∧
      (a.toNat - 0xC0) * 0x40 + (b.toNat - 0x80) < 0x800 := by
  obtain ⟨low, high, -, highB⟩ := pair
  simp only [le_iff_toNat_le, reduceToNat] at low high highB
  omega

theorem Triple.bounds (triple : Triple a b c) :
    0x800 ≤ (a.toNat - 0xE0) * 0x1000 + (b.toNat - 0x80) * 0x40 + (c.toNat - 0x80) ∧
      (a.toNat - 0xE0) * 0x1000 + (b.toNat - 0x80) * 0x40 + (c.toNat - 0x80) < 0x10000 ∧
      Scalar ((a.toNat - 0xE0) * 0x1000 + (b.toNat - 0x80) * 0x40 + (c.toNat - 0x80)) := by
  obtain ⟨low, high, overlong, surrogate, ⟨lowB, highB⟩, ⟨lowC, highC⟩⟩ := triple
  simp only [le_iff_toNat_le, reduceToNat, ← UInt8.toNat_inj] at *
  unfold Scalar
  omega

theorem Quad.bounds {d : UInt8} (quad : Quad a b c d) :
    0x10000 ≤ (a.toNat - 0xF0) * 0x40000 + (b.toNat - 0x80) * 0x1000 + (c.toNat - 0x80) * 0x40 +
        (d.toNat - 0x80) ∧
      (a.toNat - 0xF0) * 0x40000 + (b.toNat - 0x80) * 0x1000 + (c.toNat - 0x80) * 0x40 +
        (d.toNat - 0x80) < 0x110000 := by
  obtain ⟨low, high, overlong, beyond, ⟨lowB, highB⟩, ⟨lowC, highC⟩, ⟨lowD, highD⟩⟩ := quad
  simp only [le_iff_toNat_le, reduceToNat, ← UInt8.toNat_inj] at *
  omega

/-- A rune below 0x80 is an ASCII byte. -/
theorem ascii_of_decodeRune_lt (small : (decodeRune (a :: rest)).1 < 0x80) :
    decodeRune (a :: rest) = (a.toNat, 1) := by
  rcases decodeRune_cases a rest with ⟨-, same⟩ | ⟨b, tail, rfl, pair, same⟩ |
    ⟨b, c, tail, rfl, triple, same⟩ | ⟨b, c, d, tail, rfl, quad, same⟩ | ⟨-, same⟩
  · exact same
  all_goals
    rw [same] at small
    refine absurd small ?_
    simp
  · exact pair.bounds.1
  · exact le_trans (by decide) triple.bounds.1
  · exact le_trans (by decide) quad.bounds.1
  · decide

theorem scalar_decodeRune (a : UInt8) (rest : Bytes) : Scalar (decodeRune (a :: rest)).1 := by
  rcases decodeRune_cases a rest with ⟨ascii, same⟩ | ⟨b, tail, rfl, pair, same⟩ |
    ⟨b, c, tail, rfl, triple, same⟩ | ⟨b, c, d, tail, rfl, quad, same⟩ | ⟨-, same⟩
  all_goals rw [same]
  · exact .inl (lt_trans (lt_iff_toNat_lt.mp ascii) (by decide))
  · exact .inl (lt_trans pair.bounds.2 (by decide))
  · exact triple.bounds.2.2
  · exact .inr ⟨le_trans (by decide) quad.bounds.1, quad.bounds.2⟩
  · decide

theorem scalar_of_mem_runes (member : r ∈ runes s) : Scalar r := by
  induction s using runes_induction with
  | nil => cases member
  | cons a rest ih =>
    rw [runes_cons] at member
    rcases mem_cons.mp member with rfl | later
    · exact scalar_decodeRune a rest
    · exact ih later

theorem map_runes_of_ascii (ascii : ∀ r ∈ runes s, r < 0x80) : (runes s).map .ofNat = s := by
  induction s using runes_induction with
  | nil => rfl
  | cons a rest ih =>
    rw [runes_cons] at ascii ⊢
    have single := ascii_of_decodeRune_lt (ascii _ (.head _))
    rw [single] at ascii ih ⊢
    rw [map_cons, ih fun r member => ascii r (.tail _ member), UInt8.ofNat_toNat]
    rfl

theorem mem_of_mem_runes (member : r ∈ runes s) (ascii : r < 0x80) : .ofNat r ∈ s := by
  induction s using runes_induction with
  | nil => cases member
  | cons a rest ih =>
    rw [runes_cons] at member
    rcases mem_cons.mp member with rfl | later
    · rw [ascii_of_decodeRune_lt ascii, UInt8.ofNat_toNat]
      exact .head _
    · exact mem_of_mem_drop (ih later)

theorem runes_of_ascii (ascii : ∀ b ∈ s, b < 0x80) : runes s = s.map UInt8.toNat := by
  induction s with
  | nil => rfl
  | cons a rest ih =>
    have single := runes_append_cons [] (ascii a (by simp)) rest
    rw [nil_append] at single
    rw [single, ih fun b member => ascii b (.tail _ member)]
    rfl

/-! ## Valid text -/

theorem encodeRune_of_ascii (ascii : r < 0x80) : encodeRune r = [.ofNat r] := by
  have scalar : Scalar r := .inl (lt_trans ascii (by decide))
  rw [encodeRune, if_pos scalar, encodeScalar, if_pos ascii]

theorem length_encodeScalar (r : ℕ) : (encodeScalar r).length =
      if r < 0x80 then 1 else if r < 0x800 then 2 else if r < 0x10000 then 3 else 4 := by
  unfold encodeScalar
  repeat' split
  all_goals rfl

/-- What is read as a rune is not written shorter. -/
theorem width_le_length_encodeRune (a : UInt8) (rest : Bytes) :
    (decodeRune (a :: rest)).2 ≤ (encodeRune (decodeRune (a :: rest)).1).length := by
  rw [encodeRune, if_pos (scalar_decodeRune a rest), length_encodeScalar]
  rcases decodeRune_cases a rest with ⟨ascii, same⟩ | ⟨b, tail, rfl, pair, same⟩ |
    ⟨b, c, tail, rfl, triple, same⟩ | ⟨b, c, d, tail, rfl, quad, same⟩ | ⟨-, same⟩
  all_goals rw [same]
  · have small : a.toNat < 0x80 := lt_iff_toNat_lt.mp ascii
    rw [if_pos small]
  · have := pair.bounds
    rw [if_neg (by omega), if_pos (by omega)]
  · have := triple.bounds
    rw [if_neg (by omega), if_neg (by omega), if_pos (by omega)]
  · have := quad.bounds
    rw [if_neg (by omega), if_neg (by omega), if_neg (by omega)]
  · decide

theorem length_le_length_flatMap_runes (s : Bytes) : s.length ≤ ((runes s).flatMap encodeRune).length := by
  induction s using runes_induction with
  | nil => simp
  | cons a rest ih =>
    have width := width_le_length_encodeRune a rest
    rw [runes_cons, flatMap_cons, length_append]
    rw [length_drop] at ih
    omega

/-- An ASCII byte keeps valid text apart. -/
theorem valid_append_cons {p q : Bytes} (ascii : c < 0x80) : Valid (p ++ c :: q) ↔ Valid p ∧ Valid q := by
  have value := UInt8.lt_iff_toNat_lt.mp ascii
  unfold Valid
  rw [runes_append_cons p ascii, flatMap_append, flatMap_cons, encodeRune_of_ascii value,
    UInt8.ofNat_toNat, singleton_append]
  constructor
  · intro same
    have lengths := congrArg length same
    have first := length_le_length_flatMap_runes p
    have second := length_le_length_flatMap_runes q
    simp only [length_append, length_cons] at lengths
    obtain ⟨left, right⟩ := append_inj same (by omega)
    exact ⟨left, (cons.inj right).2⟩
  · rintro ⟨left, right⟩
    rw [left, right]

/-- Text with some of its ASCII bytes spelled in other ASCII bytes. -/
inductive Respelled : Bytes → Bytes → Prop where
  | nil : Respelled [] []
  | keep (b : UInt8) {s t : Bytes} : Respelled s t → Respelled (b :: s) (b :: t)
  | spell {c d : UInt8} {w s t : Bytes} : c < 0x80 → d < 0x80 → (∀ b ∈ w, b < 0x80) →
      Respelled s t → Respelled (c :: s) (d :: w ++ t)

theorem Respelled.refl (s : Bytes) : Respelled s s := by
  induction s with
  | nil => exact .nil
  | cons b rest ih => exact .keep b ih

theorem Respelled.append {u v : Bytes} (front : Respelled s t) (back : Respelled u v) :
    Respelled (s ++ u) (t ++ v) := by
  induction front with
  | nil => exact back
  | keep b _ ih => exact .keep b ih
  | @spell c d w s t ascii first word _ ih =>
    rw [append_assoc]
    exact .spell ascii first word ih

/-- Text that was respelled is the same up to a byte, or all the way. -/
theorem Respelled.cases_first (respelled : Respelled s t) :
    s = t ∨ ∃ a c d w b b', s = a ++ c :: b ∧ t = a ++ d :: (w ++ b') ∧ c < 0x80 ∧ d < 0x80 ∧
      (∀ x ∈ w, x < 0x80) ∧ Respelled b b' := by
  induction respelled with
  | nil => exact .inl rfl
  | keep b _ ih =>
    rcases ih with rfl | ⟨a, c, d, w, b', b'', rfl, rfl, ascii, first, word, rest⟩
    · exact .inl rfl
    · exact .inr ⟨b :: a, c, d, w, b', b'', rfl, rfl, ascii, first, word, rest⟩
  | @spell c d w s t ascii first word rest _ =>
    exact .inr ⟨[], c, d, w, s, t, rfl, rfl, ascii, first, word, rest⟩

theorem Valid.ascii_append {w : Bytes} (word : ∀ b ∈ w, b < 0x80) (valid : Valid t) : Valid (w ++ t) := by
  induction w with
  | nil => exact valid
  | cons d rest ih =>
    refine (valid_append_cons (p := []) (word d (by simp))).mpr ⟨rfl, ?_⟩
    exact ih fun b member => word b (.tail _ member)

theorem Valid.respelled (valid : Valid s) (respelled : Respelled s t) : Valid t := by
  induction length : s.length using Nat.strong_induction_on generalizing s t with
  | _ n ih =>
    subst length
    rcases respelled.cases_first with rfl | ⟨a, c, d, w, b, b', rfl, rfl, ascii, first, word, rest⟩
    · exact valid
    obtain ⟨front, back⟩ := (valid_append_cons ascii).mp valid
    refine (valid_append_cons first).mpr ⟨front, .ascii_append word (ih _ ?_ back rest rfl)⟩
    simp only [length_append, length_cons]
    omega

end Utf8

end Yarilo.Library

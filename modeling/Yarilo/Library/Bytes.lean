import Mathlib.Data.List.Basic
import Mathlib.Tactic.Ring

/-! # Little-endian words in byte lists

Files are lists of bytes. A fixed-width unsigned word is written least significant byte first and
read back from any list that starts with those bytes, so that a record codec is a concatenation
of words and its round trip a chain of `take`/`drop` rewrites.
-/

namespace Yarilo.Library

open List

abbrev Bytes := List UInt8

instance : LawfulBEq Bytes := inferInstance

/-- The `width` low bytes of `n`, least significant first. -/
def putLe : (width : ℕ) → (n : ℕ) → Bytes
  | 0, _ => []
  | width + 1, n => UInt8.ofNat (n % 256) :: putLe width (n / 256)

/-- The number a byte list spells, least significant byte first. -/
def leNat : Bytes → ℕ
  | [] => 0
  | b :: bs => b.toNat + 256 * leNat bs

/-- The word of `width` bytes that starts at `offset`. -/
def getLe (width offset : ℕ) (bs : Bytes) : ℕ := leNat ((bs.drop offset).take width)

@[simp] theorem length_putLe (width n : ℕ) : (putLe width n).length = width := by
  induction width generalizing n with
  | zero => rfl
  | succ width ih => simp [putLe, ih]

theorem leNat_putLe (width n : ℕ) : leNat (putLe width n) = n % 256 ^ width := by
  induction width generalizing n with
  | zero => simp [putLe, leNat, Nat.mod_one]
  | succ width ih =>
    have byte : (UInt8.ofNat (n % 256)).toNat = n % 256 := by
      simp
    rw [putLe, leNat, ih, byte, pow_succ', Nat.mod_mul]

/-- A word is read back from any list whose bytes at `offset` start with it. -/
theorem getLe_append (before after : Bytes) (width n : ℕ) :
    getLe width before.length (before ++ putLe width n ++ after) = n % 256 ^ width := by
  rw [getLe, append_assoc, drop_left, take_left' (length_putLe width n), leNat_putLe]

theorem getLe_putLe (width n : ℕ) (after : Bytes) :
    getLe width 0 (putLe width n ++ after) = n % 256 ^ width := by
  simpa using getLe_append [] after width n

/-- A word behind a fixed-length field is the same word of the rest. -/
theorem getLe_add_length (width offset : ℕ) (before after : Bytes) :
    getLe width (before.length + offset) (before ++ after) = getLe width offset after := by
  rw [getLe, getLe, drop_append]
  simp [drop_eq_nil_of_le]

theorem getLe_putLe_nil (width n : ℕ) : getLe width 0 (putLe width n) = n % 256 ^ width := by
  have read := getLe_putLe width n []
  rwa [append_nil] at read

/-- A word behind another one. -/
theorem getLe_skip {skip offset : ℕ} (width n : ℕ) (after : Bytes) (behind : skip ≤ offset) :
    getLe width offset (putLe skip n ++ after) = getLe width (offset - skip) after := by
  have read := getLe_add_length width (offset - skip) (putLe skip n) after
  rwa [length_putLe, Nat.add_sub_cancel' behind] at read

theorem getLe_cons (width offset : ℕ) (b : UInt8) (after : Bytes) :
    getLe width (offset + 1) (b :: after) = getLe width offset after := rfl

theorem putLe_add (low high n : ℕ) : putLe (low + high) n = putLe low n ++ putLe high (n / 256 ^ low) := by
  induction low generalizing n with
  | zero => simp [putLe]
  | succ low ih =>
    rw [Nat.succ_add, putLe, ih, putLe, cons_append, Nat.div_div_eq_div_mul, pow_succ']

/-- The pieces of `width` bytes a list consists of; a partial one at the end is dropped. -/
def strides (width : ℕ) (bs : Bytes) : List Bytes :=
  (List.range (bs.length / width)).map fun i => (bs.drop (i * width)).take width

theorem strides_flatMap {α : Type} {width : ℕ} (pos : 0 < width) (encode : α → Bytes) (xs : List α)
    (length : ∀ x ∈ xs, (encode x).length = width) : strides width (xs.flatMap encode) = xs.map encode := by
  induction xs with
  | nil => simp [strides]
  | cons x xs ih =>
    have first := length x (.head _)
    have later := ih fun x member => length x (.tail _ member)
    have count : ((x :: xs).flatMap encode).length / width = (xs.flatMap encode).length / width + 1 := by
      rw [flatMap_cons, length_append, first, Nat.add_comm, Nat.add_div_right _ pos]
    rw [strides, count, range_succ_eq_map, map_cons, map_map, map_cons, ← later,
      strides, flatMap_cons]
    congr 1
    · rw [Nat.zero_mul, drop_zero, take_left' first]
    · apply map_congr_left
      intro i _
      have offset : (i + 1) * width = (encode x).length + i * width := by rw [first]; ring
      simp only [Function.comp, Nat.succ_eq_add_one]
      rw [offset, drop_append, drop_eq_nil_of_le (by omega), nil_append,
        Nat.add_sub_cancel_left]

/-- Zero bytes that fill `n` up to a multiple of four. -/
def pad4 (n : ℕ) : ℕ := (4 - n % 4) % 4

theorem add_pad4_mod (n : ℕ) : (n + pad4 n) % 4 = 0 := by
  unfold pad4; omega

theorem forall_mem_concat {α : Type*} {P : α → Prop} {l : List α} {a : α} (old : ∀ x ∈ l, P x)
    (new : P a) : ∀ x ∈ l ++ [a], P x :=
  List.forall_mem_append.mpr ⟨old, List.forall_mem_singleton.mpr new⟩

theorem forall_mem_filterMap_concat {α β : Type*} {P : β → Prop} {f : α → Option β} {l : List α} {a : α}
    (old : ∀ b ∈ l.filterMap f, P b) (new : ∀ b, f a = some b → P b) : ∀ b ∈ (l ++ [a]).filterMap f, P b := by
  rw [filterMap_append, List.forall_mem_append]
  exact ⟨old, by simpa using new⟩

theorem mapM_eq_pure {m : Type → Type} [Monad m] [LawfulMonad m] {α β : Type} {f : α → m β} {g : α → β}
    {l : List α} (each : ∀ a ∈ l, f a = pure (g a)) : l.mapM f = pure (l.map g) := by
  induction l with
  | nil => rfl
  | cons a rest ih => simp [each a (by simp), ih fun b member => each b (.tail _ member)]

theorem nodup_concat {α : Type*} {l : List α} {a : α} (nodup : l.Nodup) (new : a ∉ l) : (l ++ [a]).Nodup := by
  grind

end Yarilo.Library

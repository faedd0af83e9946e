import Mathlib.Data.List.Basic
import Mathlib.Data.List.Infix
import Yarilo.Library.Bytes

/-! # Text in byte strings

The first occurrence of a separator cuts a string in two; with no occurrence there is nothing to
cut. One string is cut in one way, so joining with the separator is undone by cutting as long as the
separator does not occur earlier. White space and letter case are those of UTF-8 text.
-/

namespace Yarilo.Library

open List

/-- What stands before and behind the first occurrence of `sep`. -/
def cut (sep : Bytes) : Bytes → Option (Bytes × Bytes)
  | [] => if sep = [] then some ([], []) else none
  | b :: rest =>
    match (b :: rest).dropPrefix? sep with
    | some after => some ([], after)
    | none => (cut sep rest).map fun (before, after) => (b :: before, after)

theorem dropPrefix?_append {α : Type} [BEq α] [LawfulBEq α] (s rest : List α) :
    (s ++ rest).dropPrefix? s = some rest := by
  rw [dropPrefix?_eq_some_iff]
  exact ⟨s, rfl, by simp⟩

variable {s sep rest before old p new : Bytes} {c b d : UInt8} {motive : Bytes → Prop}
  {parts : List Bytes}

/-- A string whose first byte cannot start the separator is cut behind that byte. -/
theorem cut_cons_of_ne (sep s : Bytes) (ne : b ≠ c) :
    cut (c :: sep) (b :: s) = (cut (c :: sep) s).map fun (before, after) => (b :: before, after) := by
  have missing : (b :: s).dropPrefix? (c :: sep) = none := by
    simp [dropPrefix?, ne]
  simp [cut, missing]

/-- A one-byte separator is found where it first stands. -/
theorem cut_singleton (absent : c ∉ before) (after : Bytes) :
    cut [c] (before ++ c :: after) = some (before, after) := by
  induction before with
  | nil => simp [cut, dropPrefix?]
  | cons b rest ih =>
    simp only [mem_cons, not_or] at absent
    rw [cons_append, cut_cons_of_ne _ _ (Ne.symm absent.1), ih absent.2]
    rfl

/-! ## Splitting and replacing -/

/-- The parts between the occurrences of `sep`, read from the left. `skip` bytes of an occurrence
are still to pass. -/
def splitFrom (sep : Bytes) : (skip : ℕ) → Bytes → List Bytes
  | _, [] => [[]]
  | skip + 1, _ :: rest => splitFrom sep skip rest
  | 0, b :: rest =>
    if sep.isPrefixOf (b :: rest) then [] :: splitFrom sep (sep.length - 1) rest
    else (splitFrom sep 0 rest).modifyHead (b :: ·)

def split (sep s : Bytes) : List Bytes := splitFrom sep 0 s

/-- Every occurrence of `old` replaced. -/
def replaceAll (old new s : Bytes) : Bytes := new.intercalate (split old s)

theorem splitFrom_eq (sep : Bytes) (skip : ℕ) (s : Bytes) :
    splitFrom sep skip s = split sep (s.drop skip) := by
  induction skip generalizing s with
  | zero => rfl
  | succ skip ih =>
    cases s with
    | nil => simp [splitFrom, split]
    | cons b rest => exact ih rest

@[simp]
theorem split_nil (sep : Bytes) : split sep [] = [[]] := rfl

theorem split_cons_of_not (starts : ¬sep <+: b :: rest) :
    split sep (b :: rest) = (split sep rest).modifyHead (b :: ·) := by
  simp [split, splitFrom, starts]

/-- An occurrence at the start ends an empty part. -/
theorem split_append (some : sep ≠ []) (rest : Bytes) : split sep (sep ++ rest) = [] :: split sep rest := by
  obtain ⟨b, tail, rfl⟩ := exists_cons_of_ne_nil some
  have starts : (b :: tail).isPrefixOf (b :: (tail ++ rest)) = true := by
    rw [ isPrefixOf_iff_prefix]
    exact ⟨rest, rfl⟩
  rw [cons_append]
  simp only [split, splitFrom, starts, if_true]
  rw [splitFrom_eq]
  simp [split]

theorem split_ne_nil (some : sep ≠ []) (s : Bytes) : split sep s ≠ [] := by
  induction s with
  | nil => simp
  | cons b rest ih =>
    by_cases starts : sep <+: b :: rest
    · obtain ⟨tail, same⟩ := starts
      rw [← same, split_append some]
      simp
    · rw [split_cons_of_not starts]
      simpa [modifyHead_eq_nil_iff] using ih

/-- A part starts where the string does or behind an occurrence: the rule for whatever is said of a
string by its parts. -/
theorem split_induction (some : sep ≠ []) (s : Bytes) (nil : motive [])
    (occurrence : ∀ rest, motive rest → motive (sep ++ rest))
    (byte : ∀ b rest, ¬sep <+: b :: rest → motive rest → motive (b :: rest)) : motive s := by
  induction length : s.length using Nat.strong_induction_on generalizing s with
  | _ n ih =>
    subst length
    cases s with
    | nil => exact nil
    | cons b rest =>
      by_cases starts : sep <+: b :: rest
      · obtain ⟨tail, same⟩ := starts
        rw [← same]
        have shorter : tail.length < (b :: rest).length := by
          rw [← same, length_append]
          have := length_pos_of_ne_nil some
          omega
        exact occurrence tail (ih _ shorter tail rfl)
      · exact byte b rest starts (ih _ (by simp) rest rfl)

theorem intercalate_modifyHead (sep : Bytes) (b : UInt8) (some : parts ≠ []) :
    sep.intercalate (parts.modifyHead (b :: ·)) = b :: sep.intercalate parts := by
  obtain ⟨first, rest, rfl⟩ := exists_cons_of_ne_nil some
  cases rest <;> simp [intercalate]

@[simp]
theorem replaceAll_nil (old new : Bytes) : replaceAll old new [] = [] := rfl

theorem replaceAll_append (some : old ≠ []) (new rest : Bytes) :
    replaceAll old new (old ++ rest) = new ++ replaceAll old new rest := by
  obtain ⟨first, tail, parts⟩ := exists_cons_of_ne_nil (split_ne_nil some rest)
  simp [replaceAll, split_append some, parts, intercalate]

theorem replaceAll_cons (some : old ≠ []) (new : Bytes) (starts : ¬old <+: b :: rest) :
    replaceAll old new (b :: rest) = b :: replaceAll old new rest := by
  rw [replaceAll, split_cons_of_not starts, intercalate_modifyHead _ _ (split_ne_nil some rest)]
  rfl

/-- Replacing what is there by itself changes nothing. -/
theorem intercalate_split (some : sep ≠ []) (s : Bytes) : sep.intercalate (split sep s) = s := by
  change replaceAll sep sep s = s
  induction s using split_induction some with
  | nil => rfl
  | occurrence rest ih => rw [replaceAll_append some, ih]
  | byte b rest starts ih => rw [replaceAll_cons some _ starts, ih]

theorem prefix_of_prefix_append_cons {q : Bytes} (absent : c ∉ sep) (starts : sep <+: p ++ c :: q) :
    sep <+: p := by
  by_cases short : sep.length ≤ p.length
  · exact prefix_of_prefix_length_le starts (prefix_append _ _) short
  -- a longer separator would reach over the byte it does not hold
  refine absurd ?_ absent
  obtain ⟨rest, same⟩ := starts
  have inside : sep[p.length]? = some c := by
    rw [← getElem?_append_left (by omega), same]
    simp
  exact mem_of_getElem? inside

/-- A byte that is not of `old` keeps the two sides apart. -/
theorem replaceAll_append_cons (some : old ≠ []) (new : Bytes) (absent : c ∉ old) (p q : Bytes) :
    replaceAll old new (p ++ c :: q) = replaceAll old new p ++ c :: replaceAll old new q := by
  induction p using split_induction some with
  | nil =>
    refine replaceAll_cons some new fun starts => ?_
    exact some (prefix_nil.mp (prefix_of_prefix_append_cons (p := []) absent starts))
  | occurrence rest ih => rw [append_assoc, replaceAll_append some, replaceAll_append some, ih,
      append_assoc]
  | byte b rest starts ih =>
    have starts' : ¬old <+: b :: (rest ++ c :: q) := by
      intro longer
      exact starts (prefix_of_prefix_append_cons (p := b :: rest) absent longer)
    rw [cons_append, replaceAll_cons some _ starts', replaceAll_cons some _ starts, ih,
      cons_append]

theorem replaceAll_eq_nil (some : old ≠ []) (full : new ≠ []) : replaceAll old new s = [] ↔ s = [] := by
  induction s using split_induction some with
  | nil => simp
  | occurrence rest ih => simp [replaceAll_append some, full, some]
  | byte b rest starts ih => simp [replaceAll_cons some _ starts]

/-- What becomes a single byte: the byte, or an occurrence if that is what replaces it. -/
theorem replaceAll_eq_singleton (some : old ≠ []) : replaceAll old [d] s = [d] ↔ s = old ∨ s = [d] := by
  induction s using split_induction some with
  | nil => simp [some, eq_comm]
  | occurrence rest _ =>
    rw [replaceAll_append some]
    simp only [singleton_append, cons.injEq, true_and]
    rw [replaceAll_eq_nil some (by simp)]
    constructor
    · rintro rfl
      simp
    · rintro (same | same)
      · simpa using same
      · have length := congrArg length same
        have := length_pos_of_ne_nil some
        simp only [length_append, length_singleton] at length
        exact length_eq_zero_iff.mp (by omega)
  | byte b rest starts _ =>
    rw [replaceAll_cons some _ starts, cons.injEq, replaceAll_eq_nil some (by simp)]
    constructor
    · rintro ⟨rfl, rfl⟩
      simp
    · rintro (same | same)
      · exact absurd (same ▸ prefix_refl _) starts
      · simpa using same

/-- What becomes the byte twice, without being that. -/
theorem replaceAll_eq_pair (some : old ≠ []) (ne : s ≠ [d, d]) :
    replaceAll old [d] s = [d, d] ↔ s = old ++ old ∨ s = old ++ [d] ∨ s = d :: old := by
  have behind : ∀ rest, replaceAll old [d] (old ++ rest) = [d, d] ↔ rest = old ∨ rest = [d] := by
    intro rest
    rw [replaceAll_append some, singleton_append, cons.injEq, replaceAll_eq_singleton some]
    simp
  by_cases starts : old <+: s
  · obtain ⟨rest, rfl⟩ := starts
    rw [behind, append_cancel_left_eq, append_cancel_left_eq]
    refine or_congr_right ⟨.inl, ?_⟩
    rintro (same | same)
    · exact same
    · -- a separator that stands at both ends of `d :: old` consists of that byte
      have length : rest.length = 1 := by
        have := congrArg length same
        simp only [length_append, length_cons] at this
        omega
      obtain ⟨x, rfl⟩ := length_eq_one_iff.mp length
      have count := congrArg (count d) same
      by_cases here : x = d
      · rw [here]
      · simp [here] at count
  · have first : ∀ rest, s ≠ old ++ rest := fun rest same => starts ⟨rest, same.symm⟩
    simp only [first, false_or]
    cases s with
    | nil => simp
    | cons b rest =>
      rw [replaceAll_cons some _ starts, cons.injEq, replaceAll_eq_singleton some, cons.injEq]
      refine and_congr_right fun same => ⟨?_, .inl⟩
      rintro (here | here)
      · exact here
      · exact absurd (by rw [same, here]) ne

/-! ## Parts between single bytes -/

theorem splitOn_append_cons (c : UInt8) (p q : Bytes) :
    (p ++ c :: q).splitOn c = p.splitOn c ++ q.splitOn c :=
  List.splitOnP_append_cons p q (by simp)

/-- A string without the byte is one part; otherwise its first part ends before the byte. -/
theorem splitOn_induction (c : UInt8) (s : Bytes) (single : ∀ p, c ∉ p → motive p)
    (cons : ∀ p q, c ∉ p → motive q → motive (p ++ c :: q)) : motive s := by
  induction length : s.length using Nat.strong_induction_on generalizing s with
  | _ n ih =>
    subst length
    by_cases inside : c ∈ s
    · obtain ⟨p, q, rfl, absent⟩ := eq_append_cons_of_mem inside
      refine cons p q absent (ih _ ?_ q rfl)
      simp only [length_append, length_cons]
      omega
    · exact single s inside

theorem notMem_of_mem_splitOn (part : p ∈ s.splitOn c) : c ∉ p := by
  induction s using splitOn_induction c with
  | single s absent =>
    rw [splitOn_eq_singleton absent, mem_singleton] at part
    exact part ▸ absent
  | cons first rest absent ih =>
    rw [splitOn_append_cons, splitOn_eq_singleton absent] at part
    rcases mem_append.mp part with here | later
    · exact mem_singleton.mp here ▸ absent
    · exact ih later

theorem mem_intercalate (member : b ∈ sep.intercalate parts) : b ∈ sep ∨ ∃ p ∈ parts, b ∈ p := by
  induction parts with
  | nil => cases member
  | cons p rest ih =>
    cases rest with
    | nil => exact .inr ⟨p, by simp, by simpa [intercalate] using member⟩
    | cons q rest =>
      rw [intercalate_cons_cons, mem_append, mem_append] at member
      rcases member with (here | between) | later
      · exact .inr ⟨p, by simp, here⟩
      · exact .inl between
      · exact (ih later).imp_right fun ⟨p, inside, of⟩ => ⟨p, mem_cons_of_mem _ inside, of⟩

theorem mem_intercalate_of_mem (part : p ∈ parts) (member : b ∈ p) : b ∈ sep.intercalate parts := by
  induction parts with
  | nil => cases part
  | cons q rest ih =>
    cases rest with
    | nil => simp_all
    | cons r rest =>
      rw [intercalate_cons_cons, mem_append, mem_append]
      rcases mem_cons.mp part with rfl | later
      · exact .inl (.inl member)
      · exact .inr (ih later)

theorem mem_of_mem_split (some : sep ≠ []) (part : p ∈ split sep s) (member : b ∈ p) : b ∈ s := by
  rw [← intercalate_split some s]
  exact mem_intercalate_of_mem part member

theorem split_singleton (c : UInt8) (s : Bytes) : split [c] s = s.splitOn c := by
  have one : [c] ≠ [] := by simp
  induction s with
  | nil => rfl
  | cons b rest ih =>
    by_cases here : c = b
    · subst here
      have first := splitOn_append_cons c [] rest
      rw [nil_append] at first
      have front : split [c] (c :: rest) = [] :: split [c] rest := split_append one rest
      rw [front, first, ih]
      rfl
    · have starts : ¬[c] <+: b :: rest := by simp [cons_prefix_cons, here]
      rw [split_cons_of_not starts, ih]
      simp only [splitOn]
      rw [splitOnP_cons_eq_if_modifyHead]
      simp [Ne.symm here]

theorem mem_replaceAll (some : old ≠ []) (member : b ∈ replaceAll old new s) : b ∈ new ∨ b ∈ s :=
  (mem_intercalate member).imp_right fun ⟨_, part, inside⟩ => mem_of_mem_split some part inside

/-- Replacing a byte leaves none of it. -/
theorem notMem_replaceAll (absent : c ∉ new) (s : Bytes) : c ∉ replaceAll [c] new s := by
  intro member
  rcases mem_intercalate member with inside | ⟨p, part, inside⟩
  · exact absent inside
  · rw [split_singleton] at part
    exact notMem_of_mem_splitOn part inside

/-! ## White space and case -/

/-- The spellings of the white space characters. -/
def spaces : List Bytes := [[9], [10], [11], [12], [13], [32], [194, 133], [194, 160], [225, 154, 128]] ++
    (List.range 11).map (fun n => [226, 128, UInt8.ofNat (128 + n)]) ++
    [[226, 128, 168], [226, 128, 169], [226, 128, 175], [226, 129, 159], [227, 128, 128]]

/-- The string without the first of the given characters it starts with. -/
def strip (chars : List Bytes) (s : Bytes) : Option Bytes := chars.findSome? fun c => s.dropPrefix? c

/-- The string without the given characters it starts with, at most `fuel` of them. -/
def trimStart (chars : List Bytes) : (fuel : ℕ) → Bytes → Bytes
  | 0, s => s
  | fuel + 1, s =>
    match strip chars s with
    | some rest => trimStart chars fuel rest
    | none => s

def trimSpaceStart (s : Bytes) : Bytes := trimStart spaces s.length s

def trimSpaceEnd (s : Bytes) : Bytes := (trimStart (spaces.map List.reverse) s.length s.reverse).reverse

def trimSpace (s : Bytes) : Bytes := trimSpaceEnd (trimSpaceStart s)

def toLowerByte (b : UInt8) : UInt8 := if 65 ≤ b ∧ b ≤ 90 then b + 32 else b

end Yarilo.Library

import Yarilo.Library.Base64
import Yarilo.Library.Text
import Yarilo.Library.Utf8

/-! # Modified UTF-7

Printable ASCII but the ampersand stands for itself. The ampersand is written with a minus sign
behind it, and a run of other runes as the base64 digits of its UTF-16 form between the two, with a
comma for the slash.
-/

namespace Yarilo.Mailbox

open Library UInt8 Utf8
open List

variable {c b : UInt8}

/-- The bytes that encoded text is written with: the ampersand, the minus sign, and the digits with a
comma for the slash. -/
def ModByte (b : UInt8) : Prop := b = 38 ∨ b = 45 ∨ b = 44 ∨ Base64.Alphabet b ∧ b ≠ 47

instance (b : UInt8) : Decidable (ModByte b) := inferInstanceAs (Decidable (_ ∨ _ ∨ _ ∨ _))

namespace ModUtf7

/-- A rune that stands for itself. -/
def Plain (r : ℕ) : Prop := 0x20 ≤ r ∧ r ≤ 0x7E ∧ r ≠ 38

instance (r : ℕ) : Decidable (Plain r) := inferInstanceAs (Decidable (_ ∧ _ ∧ _))

def utf16 (r : ℕ) : Bytes :=
  if r ≤ 0xFFFF then [UInt8.ofNat (r / 256), UInt8.ofNat (r % 256)]
  else
    let hi := 0xD800 + (r - 0x10000) / 0x400
    let lo := 0xDC00 + (r - 0x10000) % 0x400
    [UInt8.ofNat (hi / 256), UInt8.ofNat (hi % 256), UInt8.ofNat (lo / 256), UInt8.ofNat (lo % 256)]

/-- The slash of the base64 alphabet is written as a comma. -/
def comma (b : UInt8) : UInt8 := if b = 47 then 44 else b

def uncomma (b : UInt8) : UInt8 := if b = 44 then 47 else b

/-- A run of runes that do not stand for themselves. -/
def shifted (run : List ℕ) : Bytes := 38 :: (Base64.encode (run.flatMap utf16)).map comma ++ [45]

/-- The runes written, with a run collected before them. -/
def encodeRuns (run : List ℕ) : List ℕ → Bytes
  | [] => if run = [] then [] else shifted run
  | r :: rest =>
    if run = [] then
      if r = 38 then [38, 45] ++ encodeRuns [] rest
      else if Plain r then UInt8.ofNat r :: encodeRuns [] rest
      else encodeRuns [r] rest
    else if Plain r then shifted run ++ UInt8.ofNat r :: encodeRuns [] rest
    else encodeRuns (run ++ [r]) rest

/-- The two-byte units read as runes. A high surrogate needs a low one behind it. -/
def runesOfUtf16 : Bytes → Option (List ℕ)
  | [] => some []
  | [_] => none
  | [a, b] =>
    let u := a.toNat * 256 + b.toNat
    if 0xD800 ≤ u ∧ u ≤ 0xDBFF then none else some [u]
  | [_, _, _] => none
  | a :: b :: c :: d :: rest =>
    let u := a.toNat * 256 + b.toNat
    let lo := c.toNat * 256 + d.toNat
    if 0xD800 ≤ u ∧ u ≤ 0xDBFF then
      if 0xDC00 ≤ lo ∧ lo ≤ 0xDFFF then
        (runesOfUtf16 rest).map ((0x10000 + (u - 0xD800) * 0x400 + (lo - 0xDC00)) :: ·)
      else none
    else (runesOfUtf16 (c :: d :: rest)).map (u :: ·)

/-- The text between an ampersand and a minus sign. -/
def decodeRun (digits : Bytes) : Option Bytes :=
  if digits = [] then some [38]
  else
    ((Base64.decode (digits.map uncomma)).bind runesOfUtf16).map
      fun runes => runes.flatMap encodeRune

/-- The text read, inside a run with the digits collected so far or outside. -/
def decodeText : (run : Option Bytes) → Bytes → Option Bytes
  | none, [] => some []
  | some _, [] => none
  | none, b :: rest =>
    if b = 38 then decodeText (some []) rest else (decodeText none rest).map (b :: ·)
  | some digits, b :: rest =>
    if b = 45 then
      (decodeRun digits).bind fun text => (decodeText none rest).map (text ++ ·)
    else decodeText (some (digits ++ [b])) rest

/-! ## What is written -/

variable {r : ℕ} {rs run : List ℕ}

theorem Plain.toNat_ofNat (plain : Plain r) : (UInt8.ofNat r).toNat = r :=
  UInt8.toNat_ofNat_of_lt (lt_of_le_of_lt plain.2.1 (by decide))

theorem Plain.ascii (plain : Plain c.toNat) : c < 0x80 := by
  have bound := plain.2.1
  exact lt_iff_toNat_lt.mpr (lt_of_le_of_lt bound (by decide))

/-- A plain rune stands for itself and ends a run. -/
theorem encodeRuns_append_cons (run rs : List ℕ) (plain : Plain r) (rest : List ℕ) :
    encodeRuns run (rs ++ r :: rest) = encodeRuns run rs ++ .ofNat r :: encodeRuns [] rest := by
  induction rs generalizing run with
  | nil =>
    by_cases empty : run = []
    · simp [encodeRuns, empty, plain, plain.2.2]
    · simp [encodeRuns, empty, plain]
  | cons q rs ih =>
    by_cases empty : run = []
    · simp only [cons_append, encodeRuns, empty, if_true]
      split
      · simp [ih]
      split
      · simp [ih]
      · exact ih [q]
    · simp only [cons_append, encodeRuns, empty, if_false]
      split
      · simp [ih]
      · exact ih (run ++ [q])

theorem encodeRuns_of_plain (plain : ∀ r ∈ rs, Plain r) : encodeRuns [] rs = rs.map .ofNat := by
  induction rs with
  | nil => rfl
  | cons r rest ih =>
    have first := plain r (by simp)
    simp only [encodeRuns, if_true, first, first.2.2, if_false, map_cons]
    rw [ih fun r member => plain r (.tail _ member)]

/-- A run and an ampersand are written between an ampersand and a minus sign. -/
theorem mem_encodeRuns_of_not_plain (other : run ≠ [] ∨ ∃ r ∈ rs, ¬Plain r) :
    38 ∈ encodeRuns run rs ∧ 45 ∈ encodeRuns run rs := by
  induction rs generalizing run with
  | nil =>
    have some : run ≠ [] := by simpa using other
    simp [encodeRuns, some, shifted]
  | cons r rest ih =>
    by_cases empty : run = []
    · simp only [encodeRuns, empty, if_true]
      split
      · simp
      split
      · rename_i plain
        have later : ∃ r ∈ rest, ¬Plain r := by simpa [empty, plain] using other
        have both := @ih [] (.inr later)
        exact ⟨mem_cons_of_mem _ both.1, mem_cons_of_mem _ both.2⟩
      · exact ih (.inl (by simp))
    · simp only [encodeRuns, empty, if_false]
      split
      · simp [shifted]
      · exact ih (.inl (by simp))

theorem modByte_of_mem_shifted (member : b ∈ shifted run) : ModByte b := by
  simp only [shifted, mem_append, mem_cons, mem_map, not_mem_nil, or_false] at member
  rcases member with (amp | ⟨digit, written, rfl⟩) | minus
  · exact .inl amp
  · have alphabet := Base64.alphabet_of_mem_encode written
    unfold comma
    split
    · exact .inr (.inr (.inl rfl))
    · exact .inr (.inr (.inr ⟨alphabet, ‹_›⟩))
  · exact .inr (.inl minus)

/-- A byte of what is written: of encoded text, or a plain rune. -/
theorem mem_encodeRuns (member : b ∈ encodeRuns run rs) : ModByte b ∨ ∃ r ∈ rs, Plain r ∧ b = .ofNat r := by
  induction rs generalizing run with
  | nil =>
    unfold encodeRuns at member
    split at member
    · cases member
    · exact .inl (modByte_of_mem_shifted member)
  | cons r rest ih =>
    have later : ∀ {run}, b ∈ encodeRuns run rest → ModByte b ∨ ∃ q ∈ r :: rest, Plain q ∧ b = .ofNat q :=
      fun inside => (ih inside).imp_right fun ⟨q, behind, plain⟩ => ⟨q, .tail _ behind, plain⟩
    have first : Plain r → b ∈ ofNat r :: encodeRuns [] rest →
        ModByte b ∨ ∃ q ∈ r :: rest, Plain q ∧ b = .ofNat q := by
      intro plain inside
      rcases mem_cons.mp inside with here | behind
      · exact .inr ⟨r, .head _, plain, here⟩
      · exact later behind
    unfold encodeRuns at member
    split at member
    · split at member
      · simp only [cons_append, nil_append, mem_cons] at member
        rcases member with amp | minus | behind
        · exact .inl (.inl amp)
        · exact .inl (.inr (.inl minus))
        · exact later behind
      split at member
      · exact first ‹_› member
      · exact later member
    · split at member
      · rcases mem_append.mp member with front | behind
        · exact .inl (modByte_of_mem_shifted front)
        · exact first ‹_› behind
      · exact later member

/-! ## Reading it back -/

theorem utf16_toNat {n : ℕ} (bound : n < 0x10000) :
    (UInt8.ofNat (n / 256)).toNat * 256 + (UInt8.ofNat (n % 256)).toNat = n := by
  have hi : (ofNat (n / 256)).toNat = n / 256 := toNat_ofNat_of_lt (by rw [size]; omega)
  have lo : (ofNat (n % 256)).toNat = n % 256 := toNat_ofNat_of_lt (by rw [size]; omega)
  omega

/-- A unit that is no high surrogate is a rune, whatever follows. -/
theorem runesOfUtf16_unit {u : ℕ} {a : UInt8} (unit : a.toNat * 256 + b.toNat = u)
    (plain : ¬(0xD800 ≤ u ∧ u ≤ 0xDBFF)) {rest : Bytes} {runes : List ℕ}
    (behind : runesOfUtf16 rest = some runes) : runesOfUtf16 (a :: b :: rest) = some (u :: runes) := by
  match rest with
  | [] =>
    cases behind
    simp [runesOfUtf16, unit, plain]
  | [_] => cases behind
  | c :: d :: rest =>
    simp [runesOfUtf16, unit, plain, behind]

theorem runesOfUtf16_flatMap (scalar : ∀ r ∈ run, Utf8.Scalar r) :
    runesOfUtf16 (run.flatMap utf16) = some run := by
  induction run with
  | nil => rfl
  | cons r rest ih =>
    have later := ih fun q member => scalar q (.tail _ member)
    have bounds : Utf8.Scalar r := scalar r (by simp)
    unfold Utf8.Scalar at bounds
    rw [flatMap_cons, utf16]
    split
    · exact runesOfUtf16_unit (utf16_toNat (by omega)) (by omega) later
    simp only [cons_append, nil_append]
    have hi := utf16_toNat (n := 0xD800 + (r - 0x10000) / 0x400) (by omega)
    have lo := utf16_toNat (n := 0xDC00 + (r - 0x10000) % 0x400) (by omega)
    simp only [runesOfUtf16, hi, lo]
    rw [if_pos (by omega), if_pos (by omega), later]
    simp only [Option.map_some, Option.some.injEq, cons.injEq, and_true]
    omega

theorem uncomma_comma (ne : b ≠ 44) : uncomma (comma b) = b := by
  by_cases slash : b = 47
  · simp [comma, uncomma, slash]
  · simp [comma, uncomma, slash, ne]

theorem map_uncomma_comma (s : Bytes) : ((Base64.encode s).map comma).map uncomma = Base64.encode s := by
  rw [map_map]
  refine (map_congr_left fun b member => ?_).trans (map_id _)
  refine uncomma_comma ?_
  rintro rfl
  exact absurd (Base64.alphabet_of_mem_encode member) (by decide)

/-- Between an ampersand and a minus sign nothing is read but digits. -/
theorem decodeText_run (digits : Bytes) (absent : 45 ∉ digits) (acc rest : Bytes) :
    decodeText (some acc) (digits ++ 45 :: rest) =
      (decodeRun (acc ++ digits)).bind fun text => (decodeText none rest).map (text ++ ·) := by
  induction digits generalizing acc with
  | nil => simp [decodeText]
  | cons b digits ih =>
    simp only [mem_cons, not_or] at absent
    rw [cons_append, decodeText, if_neg (Ne.symm absent.1), ih absent.2, append_assoc]
    rfl

theorem decodeText_shifted (some : run ≠ []) (scalar : ∀ r ∈ run, Utf8.Scalar r) (rest : Bytes) :
    decodeText none (shifted run ++ rest) =
      (decodeText none rest).map (run.flatMap encodeRune ++ ·) := by
  have digits : (Base64.encode (run.flatMap utf16)).map comma ≠ [] := by
    rw [ne_eq, map_eq_nil_iff, Base64.encode_eq_nil]
    obtain ⟨r, tail, rfl⟩ := exists_cons_of_ne_nil some
    simp only [flatMap_cons, utf16]
    split <;> simp
  have absent : 45 ∉ (Base64.encode (run.flatMap utf16)).map comma := by
    intro member
    obtain ⟨b, inside, same⟩ := mem_map.mp member
    have alphabet := Base64.alphabet_of_mem_encode inside
    unfold comma at same
    split at same
    · cases same
    · rw [same] at alphabet
      exact absurd alphabet (by decide)
  have read : decodeRun ((Base64.encode (run.flatMap utf16)).map comma) =
      .some (run.flatMap encodeRune) := by
    rw [decodeRun, if_neg digits, map_uncomma_comma, Base64.decode_encode]
    simp [runesOfUtf16_flatMap scalar]
  simp only [shifted, cons_append, append_assoc, nil_append, decodeText, if_true]
  rw [decodeText_run _ absent, nil_append, read]
  rfl

/-- What was written is read back, and then what follows. -/
theorem decodeText_encodeRuns (run rs : List ℕ) (scalar : ∀ r ∈ run ++ rs, Utf8.Scalar r) (rest : Bytes) :
    decodeText none (encodeRuns run rs ++ rest) =
      (decodeText none rest).map ((run ++ rs).flatMap encodeRune ++ ·) := by
  induction rs generalizing run with
  | nil =>
    by_cases empty : run = []
    · simp [encodeRuns, empty]
    · rw [encodeRuns, if_neg empty, decodeText_shifted empty (by simpa using scalar)]
      simp
  | cons r rs ih =>
    have plainRune : Plain r → encodeRune r = [ofNat r] :=
      fun plain => encodeRune_of_ascii (lt_of_le_of_lt plain.2.1 (by decide))
    have plainByte : Plain r → ofNat r ≠ 38 := by
      intro plain amp
      exact plain.2.2 (by rw [← plain.toNat_ofNat, amp]; rfl)
    by_cases empty : run = []
    · subst empty
      have later := ih [] (fun q member => scalar q (.tail _ member))
      simp only [encodeRuns, if_true, nil_append]
      split
      · rename_i amp
        subst amp
        simp only [cons_append, nil_append, decodeText, if_true, decodeRun]
        rw [later]
        simp [encodeRune_of_ascii, Function.comp_def]
      · split
        · rename_i plain
          simp only [cons_append, decodeText, plainByte plain, if_false]
          rw [later]
          simp [plainRune plain, Function.comp_def]
        · exact ih [r] scalar
    · simp only [encodeRuns, empty, if_false]
      split
      · rename_i plain
        have later := ih [] fun q member => scalar q (by simp_all)
        rw [append_assoc, decodeText_shifted empty fun q member => scalar q (by simp [member]),
          cons_append]
        simp only [decodeText, plainByte plain, if_false]
        rw [later]
        simp [plainRune plain, Function.comp_def]
      · rw [ih (run ++ [r]) (by simpa using scalar)]
        simp

end ModUtf7

def toModUTF7 (s : Bytes) : Bytes := ModUtf7.encodeRuns [] (runes s)

def fromModUTF7 (s : Bytes) : Option Bytes := ModUtf7.decodeText none s

section

open ModUtf7

theorem toModUTF7_append_cons (p : Bytes) (plain : Plain c.toNat) (q : Bytes) :
    toModUTF7 (p ++ c :: q) = toModUTF7 p ++ c :: toModUTF7 q := by
  rw [toModUTF7, runes_append_cons p plain.ascii, encodeRuns_append_cons [] _ plain, UInt8.ofNat_toNat]
  rfl

variable {s : Bytes}

/-- Text that is written without an ampersand is written as it is. -/
theorem eq_of_toModUTF7 (absent : 38 ∉ toModUTF7 s) : toModUTF7 s = s := by
  have plain : ∀ r ∈ runes s, Plain r := by
    by_contra other
    push Not at other
    exact absent (mem_encodeRuns_of_not_plain (.inr other)).1
  have same : (runes s).map ofNat = s := by
    refine map_runes_of_ascii fun r member => ?_
    have := (plain r member).2.1
    omega
  rw [toModUTF7, encodeRuns_of_plain plain, same]

theorem toModUTF7_of_plain (plain : ∀ b ∈ s, Plain b.toNat) : toModUTF7 s = s := by
  rw [toModUTF7, runes_of_ascii fun b member => (plain b member).ascii, encodeRuns_of_plain, map_map]
  · simp [Function.comp_def]
  · intro r member
    obtain ⟨b, inside, rfl⟩ := mem_map.mp member
    exact plain b inside

/-- An ampersand is written only before a minus sign. -/
theorem minus_mem_toModUTF7 (amp : 38 ∈ toModUTF7 s) : 45 ∈ toModUTF7 s := by
  by_cases other : ∃ r ∈ runes s, ¬Plain r
  · exact (mem_encodeRuns_of_not_plain (.inr other)).2
  push Not at other
  rw [toModUTF7, encodeRuns_of_plain other, mem_map] at amp
  obtain ⟨r, member, same⟩ := amp
  have plain := other r member
  have value := congrArg toNat same
  rw [plain.toNat_ofNat] at value
  exact absurd value plain.2.2

theorem toModUTF7_eq_nil : toModUTF7 s = [] ↔ s = [] := by
  constructor
  · intro empty
    rw [← eq_of_toModUTF7 (s := s) (by simp [empty]), empty]
  · rintro rfl
    rfl

theorem printable_of_mem_toModUTF7 (member : b ∈ toModUTF7 s) : 0x20 ≤ b ∧ b ≤ 0x7E := by
  rw [le_iff_toNat_le, le_iff_toNat_le]
  rcases mem_encodeRuns member with (rfl | rfl | rfl | ⟨digit, -⟩) | ⟨r, -, plain, rfl⟩
  iterate 3 decide
  · exact ⟨le_trans (by decide) digit.bounds.1, le_trans digit.bounds.2 (by decide)⟩
  · rw [plain.toNat_ofNat]
    exact ⟨plain.1, plain.2.1⟩

/-- Valid text in front is read back. -/
theorem decodeText_toModUTF7 (valid : Utf8.Valid s) (rest : Bytes) :
    decodeText none (toModUTF7 s ++ rest) = (decodeText none rest).map (s ++ ·) := by
  have scalar : ∀ r ∈ [] ++ runes s, Utf8.Scalar r := fun _ => scalar_of_mem_runes
  rw [toModUTF7, decodeText_encodeRuns [] _ scalar, nil_append, valid]

theorem fromModUTF7_toModUTF7 (valid : Utf8.Valid s) : fromModUTF7 (toModUTF7 s) = some s := by
  have read := decodeText_toModUTF7 valid []
  rw [append_nil] at read
  rw [fromModUTF7, read]
  simp [decodeText]

theorem mem_toModUTF7 (member : b ∈ toModUTF7 s) : ModByte b ∨ b ∈ s := by
  refine (mem_encodeRuns member).imp_right ?_
  rintro ⟨r, inside, plain, rfl⟩
  exact mem_of_mem_runes inside (lt_of_le_of_lt plain.2.1 (by decide))

theorem slash_mem_of_mem_toModUTF7 (member : 47 ∈ toModUTF7 s) : 47 ∈ s :=
  (mem_toModUTF7 member).resolve_left (by decide)

/-- A plain byte between texts stays between them. -/
theorem toModUTF7_intercalate (plain : Plain c.toNat) (parts : List Bytes) :
    toModUTF7 ([c].intercalate parts) = [c].intercalate (parts.map toModUTF7) := by
  induction parts with
  | nil => rfl
  | cons p rest ih =>
    cases rest with
    | nil => simp [intercalate]
    | cons q rest =>
      rw [map_cons] at ih
      rw [map_cons, map_cons, intercalate_cons_cons, intercalate_cons_cons,
        append_assoc, append_assoc, singleton_append, singleton_append,
        toModUTF7_append_cons _ plain, ih]

/-- Valid texts between plain bytes are read back. -/
theorem fromModUTF7_intercalate (ne : c ≠ 38) {parts : List Bytes} (valid : ∀ p ∈ parts, Utf8.Valid p) :
    fromModUTF7 ([c].intercalate (parts.map toModUTF7)) = some ([c].intercalate parts) := by
  unfold fromModUTF7
  induction parts with
  | nil => rfl
  | cons p rest ih =>
    have first := valid p (by simp)
    cases rest with
    | nil =>
      have single : ∀ p : Bytes, [c].intercalate [p] = p := by simp [intercalate]
      rw [map_singleton, single, single]
      exact fromModUTF7_toModUTF7 first
    | cons q rest =>
      have later := ih fun p member => valid p (.tail _ member)
      rw [map_cons] at later
      rw [map_cons, map_cons, intercalate_cons_cons, intercalate_cons_cons,
        append_assoc, append_assoc, singleton_append, singleton_append,
        decodeText_toModUTF7 first]
      simp only [decodeText, ne, if_false]
      rw [later]
      rfl

/-- The parts between separators that encoded text is not written with are written one by one. -/
theorem split_toModUTF7 (plain : Plain c.toNat) (free : ¬ModByte c) (s : Bytes) :
    split [c] (toModUTF7 s) = (split [c] s).map toModUTF7 := by
  have whole : ∀ p, c ∉ p → (toModUTF7 p).splitOn c = [toModUTF7 p] := fun p absent =>
    splitOn_eq_singleton fun member => absent ((mem_toModUTF7 member).resolve_left free)
  rw [split_singleton, split_singleton]
  induction s using splitOn_induction c with
  | single p absent => rw [whole p absent, splitOn_eq_singleton absent, map_singleton]
  | cons p q absent ih =>
    rw [toModUTF7_append_cons p plain, splitOn_append_cons, splitOn_append_cons, ih, whole p absent,
      splitOn_eq_singleton absent]
    rfl

/-- Valid text is read back as it was. It is written in printable ASCII, a byte that stands for itself
stands between what is before and behind it, and the bytes that encoded text is not written with
separate the same parts. -/
theorem modUTF7_lossless (s : Bytes) (valid : Utf8.Valid s) :
    fromModUTF7 (toModUTF7 s) = some s ∧ (∀ b ∈ toModUTF7 s, 0x20 ≤ b ∧ b ≤ 0x7E) ∧
      (∀ c p q, Plain c.toNat → s = p ++ c :: q → toModUTF7 s = toModUTF7 p ++ c :: toModUTF7 q) ∧
      (∀ t, Utf8.Valid t → toModUTF7 t = toModUTF7 s → t = s) ∧
      ∀ c, Plain c.toNat → ¬ModByte c → split [c] (toModUTF7 s) = (split [c] s).map toModUTF7 := by
  refine ⟨fromModUTF7_toModUTF7 valid, fun b => printable_of_mem_toModUTF7, ?_, ?_, ?_⟩
  · rintro c p q plain rfl
    exact toModUTF7_append_cons p plain q
  · intro t validT same
    have read := fromModUTF7_toModUTF7 validT
    rw [same, fromModUTF7_toModUTF7 valid] at read
    exact (Option.some.inj read).symm
  · exact fun c plain free => split_toModUTF7 plain free s

theorem modUTF7_lossless_accent :
    fromModUTF7 (toModUTF7 [97, 47, 195, 169]) = some [97, 47, 195, 169] :=
  (modUTF7_lossless [97, 47, 195, 169] (by decide)).1

end

end Yarilo.Mailbox

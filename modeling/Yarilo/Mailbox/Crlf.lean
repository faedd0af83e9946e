import Yarilo.Library.Bytes

/-! # Line ends on the wire

A body that was stored with bare line feeds is served with carriage returns before them, converted as
it is read. Whatever the source hands over at a time, and however little room the caller has, the
pieces together are the body converted at once.
-/

namespace Yarilo.Mailbox

open Library List

/-! ## All at once -/

/-- The line feed in hand has no carriage return before it. -/
abbrev Bare (c prev : UInt8) : Prop := c = 10 ∧ prev ≠ 13

/-- Every byte is looked at with the one before it; before the first there is no carriage return. -/
def needsCRLF (b : Bytes) : Bool := (b.zip (0 :: b)).any fun p => Bare p.1 p.2

def readBodyCRLF (raw : Bytes) : Bytes :=
  if !needsCRLF raw then raw
  else (raw.zip (0 :: raw)).flatMap fun p => if Bare p.1 p.2 then [13, 10] else [p.1]

/-- A carriage return before every line feed that has none; `last` is the byte before the first. -/
def insertCR (last : UInt8) : Bytes → Bytes
  | [] => []
  | b :: rest => if Bare b last then 13 :: 10 :: insertCR b rest else b :: insertCR b rest

/-! ## As it is read -/

namespace Crlf

def needsConversion (last : UInt8) : Bytes → Bool
  | [] => false
  | b :: rest => Bare b last ∨ needsConversion b rest

structure Reader where
  /-- source bytes read but not yet converted -/
  held : Bytes
  /-- the last byte handed out -/
  last : UInt8

def new : Reader := ⟨[], 0⟩

/-- What fits into `room` bytes, what is left of the source, and the last byte handed out. A carriage
return goes out before its line feed is consumed. -/
def convert : (room : ℕ) → (last : UInt8) → (src : Bytes) → Bytes × Reader
  | 0, last, src => ([], ⟨src, last⟩)
  | _ + 1, last, [] => ([], ⟨[], last⟩)
  | room + 1, last, b :: rest =>
    if Bare b last then
      let (written, c) := convert room 13 (b :: rest)
      (13 :: written, c)
    else
      let (written, c) := convert room b rest
      (b :: written, c)

/-- A call of `Read`: the caller's buffer, how many bytes the source hands over if it is asked, and
whether it reports its end together with its last bytes. -/
structure Call where
  len : ℕ
  chunk : ℕ
  early : Bool
  room : 0 < len
  some : 0 < chunk

/-- What a call returns, whether it reports the end, the reader and what the source has left. -/
def Reader.read (c : Reader) (src : Bytes) (call : Call) : (Bytes × Bool) × Reader × Bytes :=
  if c.held ≠ [] then
    let (out, c) := convert call.len c.last c.held
    ((out, false), c, src)
  else
    let chunk := src.take (min call.len call.chunk)
    let rest := src.drop (min call.len call.chunk)
    let eof := rest = [] ∧ call.early
    match chunk.getLast? with
    | none => (([], true), c, src)
    | some b =>
      if needsConversion c.last chunk then
        let (out, c) := convert call.len c.last chunk
        -- an end that comes with held bytes is dropped, and reported again by the next read
        ((out, c.held = [] ∧ eof), c, rest)
      else ((chunk, eof), ⟨[], b⟩, rest)

/-- The calls up to the one that reports the end. -/
def Reader.reads (c : Reader) (src : Bytes) : List Call → List (Bytes × Bool)
  | [] => []
  | call :: rest =>
    let (answer, c, src) := c.read src call
    answer :: if answer.2 then [] else c.reads src rest

/-- What the answers hand out together. -/
def text (answers : List (Bytes × Bool)) : Bytes := answers.flatMap (·.1)

end Crlf

/-! ## The pieces are the whole -/

variable {last : UInt8} {s : Bytes}

theorem insertCR_insertCR (last : UInt8) (s : Bytes) : insertCR last (insertCR last s) = insertCR last s := by
  induction s generalizing last with
  | nil => rfl
  | cons b rest ih =>
    by_cases bare : Bare b last
    · obtain ⟨rfl, other⟩ := bare
      simp [insertCR, Bare, other, ih]
    · simp [insertCR, bare, ih]

/-- The loop over the whole body, at any byte before it. -/
theorem zip_flatMap (last : UInt8) (s : Bytes) :
    ((s.zip (last :: s)).flatMap fun p => if Bare p.1 p.2 then [13, 10] else [p.1]) = insertCR last s := by
  induction s generalizing last with
  | nil => rfl
  | cons b rest ih =>
    rw [zip_cons_cons, flatMap_cons, ih, insertCR]
    split <;> rfl

theorem insertCR_of_not (last : UInt8) (s : Bytes)
    (whole : ((s.zip (last :: s)).any fun p => Bare p.1 p.2) = false) : insertCR last s = s := by
  induction s generalizing last with
  | nil => rfl
  | cons b rest ih =>
    simp only [zip_cons_cons, any_cons, Bool.or_eq_false_iff, decide_eq_false_iff_not] at whole
    rw [insertCR, if_neg whole.1, ih b whole.2]

theorem readBodyCRLF_eq (s : Bytes) : readBodyCRLF s = insertCR 0 s := by
  unfold readBodyCRLF
  split
  · rename_i whole
    exact (insertCR_of_not 0 s ((Bool.not_eq_true' _).mp whole)).symm
  · exact zip_flatMap 0 s

theorem insertCR_ends (s : Bytes) {pre post : Bytes} (cut : insertCR last s = pre ++ 10 :: post) :
    (last :: pre).getLast? = some 13 := by
  induction s generalizing last pre with
  | nil => simp [insertCR] at cut
  | cons b rest ih =>
    rw [insertCR] at cut
    split at cut
    · rename_i bare
      obtain ⟨rfl, -⟩ := bare
      rcases pre with _ | ⟨c, _ | ⟨d, pre⟩⟩
      · cases cut
      · cases cut
        rfl
      · simp only [cons_append, cons.injEq] at cut
        obtain ⟨rfl, rfl, cut⟩ := cut
        exact (getLast?_cons_cons ..).trans ((getLast?_cons_cons ..).trans (ih cut))
    · rename_i kept
      rcases pre with _ | ⟨c, pre⟩
      · cases cut
        exact congrArg some (not_not.mp fun other => kept ⟨rfl, other⟩)
      · obtain ⟨rfl, later⟩ := cons.inj cut
        exact (getLast?_cons_cons ..).trans (ih later)

theorem insertCR_keeps (last : UInt8) (s : Bytes) :
    s <+ insertCR last s ∧ (insertCR last s).filter (· ≠ 13) = s.filter (· ≠ 13) := by
  induction s generalizing last with
  | nil => simp [insertCR]
  | cons b rest ih =>
    specialize ih b
    rw [insertCR]
    split
    · rename_i bare
      obtain ⟨rfl, other⟩ := bare
      simp_all
    · simp_all [filter_cons]

/-- Every line feed that is served has a carriage return before it, and only those were put in. -/
theorem readBodyCRLF_wire (s : Bytes) :
    (∀ pre post, readBodyCRLF s = pre ++ 10 :: post → pre.getLast? = some 13) ∧ s <+ readBodyCRLF s ∧
      (readBodyCRLF s).filter (· ≠ 13) = s.filter (· ≠ 13) := by
  rw [readBodyCRLF_eq]
  refine ⟨fun pre post cut => ?_, insertCR_keeps 0 s⟩
  have before := insertCR_ends s cut
  cases pre with
  | nil => cases before
  | cons c pre => exact before

namespace Crlf

/-- What is still to be handed out. -/
def Reader.pending (c : Reader) (src : Bytes) : Bytes := insertCR c.last (c.held ++ src)

/-- Where nothing is to be inserted, what is read is what is handed out. -/
theorem insertCR_append_of_not {b : UInt8} (whole : needsConversion last s = false)
    (final : s.getLast? = some b) (t : Bytes) : insertCR last (s ++ t) = s ++ insertCR b t := by
  induction s generalizing last with
  | nil => cases final
  | cons a rest ih =>
    simp only [needsConversion, decide_eq_false_iff_not, not_or] at whole
    rw [cons_append, insertCR, if_neg whole.1, cons_append]
    cases rest with
    | nil =>
      obtain rfl : a = b := by simpa using final
      rfl
    | cons a' rest => rw [ih (by simpa using whole.2) (by simpa using final)]

theorem convert_spec (room : ℕ) (last : UInt8) (s t : Bytes) :
    insertCR last (s ++ t) = (convert room last s).1 ++ (convert room last s).2.pending t := by
  induction room generalizing last s with
  | zero => rfl
  | succ room ih =>
    cases s with
    | nil => rfl
    | cons b rest =>
      unfold convert
      split
      · rename_i bare
        obtain ⟨rfl, other⟩ := bare
        show _ = 13 :: (_ ++ _)
        rw [← ih]
        simp [insertCR, Bare, other]
      · rename_i kept
        show _ = b :: (_ ++ _)
        rw [← ih, cons_append, insertCR, if_neg kept]

theorem convert_ne_nil {room : ℕ} (positive : 0 < room) (some : s ≠ []) : (convert room last s).1 ≠ [] := by
  obtain ⟨b, rest, rfl⟩ := exists_cons_of_ne_nil some
  obtain ⟨room, rfl⟩ := Nat.exists_eq_succ_of_ne_zero positive.ne'
  unfold convert
  split <;> simp

variable {c c' : Reader} {src src' out : Bytes} {call : Call} {eof : Bool}

/-- A call hands out the front of what is pending, at least a byte unless it reports the end, and
nothing is pending behind that. -/
theorem Reader.read_spec (answer : c.read src call = ((out, eof), c', src')) :
    c.pending src = out ++ c'.pending src' ∧ (eof = false → out ≠ []) ∧
      (eof = true → c'.pending src' = []) := by
  have positive : 0 < min call.len call.chunk := lt_min call.room call.some
  unfold read at answer
  split at answer
  · rename_i held
    cases answer
    exact ⟨convert_spec _ _ _ _, fun _ => convert_ne_nil call.room held, nofun⟩
  rename_i held
  have start : c.pending src = insertCR c.last src := by rw [pending, not_not.mp held, nil_append]
  dsimp only at answer
  split at answer
  · rename_i empty
    cases answer
    rw [getLast?_eq_none_iff, take_eq_nil_iff] at empty
    rw [start, empty.resolve_left positive.ne']
    exact ⟨rfl, nofun, fun _ => rfl⟩
  rename_i b final
  have some : src.take (min call.len call.chunk) ≠ [] := fun empty => by simp [empty] at final
  rw [start, ← take_append_drop (min call.len call.chunk) src]
  split at answer
  · cases answer
    refine ⟨convert_spec _ _ _ _, fun _ => convert_ne_nil call.room some, fun ended => ?_⟩
    obtain ⟨converted, rest, -⟩ := of_decide_eq_true ended
    rw [pending, converted, rest]
    rfl
  · rename_i whole
    cases answer
    refine ⟨insertCR_append_of_not (by simpa using whole) final _, fun _ => some, fun ended => ?_⟩
    rw [pending, (of_decide_eq_true ended).1]
    rfl

theorem Reader.reads_spec (c : Reader) (src : Bytes) (calls : List Call) :
    (∀ a ∈ c.reads src calls, a.2 = false → a.1 ≠ []) ∧
      ((∃ a ∈ c.reads src calls, a.2 = true) → text (c.reads src calls) = c.pending src) ∧
      ((c.pending src).length < calls.length → ∃ a ∈ c.reads src calls, a.2 = true) := by
  induction calls generalizing c src with
  | nil => simp [reads, text]
  | cons call rest ih =>
    rcases answer : c.read src call with ⟨⟨out, eof⟩, c', src'⟩
    obtain ⟨front, progress, done⟩ := read_spec answer
    simp only [reads, answer]
    cases eof with
    | true =>
      rw [done rfl, append_nil] at front
      simp [text, front]
    | false =>
      obtain ⟨later, whole, ends⟩ := ih c' src'
      have some := length_pos_iff.mpr (progress rfl)
      have texts : text ((out, false) :: c'.reads src' rest) = out ++ text (c'.reads src' rest) := rfl
      simp only [Bool.false_eq_true, if_false, texts, front, exists_mem_cons_iff, false_or,
        append_cancel_left_eq]
      refine ⟨forall_mem_cons.mpr ⟨progress, later⟩, whole, fun long => ends ?_⟩
      simp only [length_append, length_cons] at long
      omega

/-- However the source is split and however small the buffers are, every call makes progress until the
source ends, the pieces are then the body with a carriage return before every bare line feed, as when it
is converted at once, and what is converted already is read as it is. -/
theorem reads_converted (s : Bytes) (calls : List Call) :
    (∀ a ∈ new.reads s calls, a.2 = false → a.1 ≠ []) ∧
      ((∃ a ∈ new.reads s calls, a.2 = true) → text (new.reads s calls) = insertCR 0 s) ∧
      readBodyCRLF s = insertCR 0 s ∧
      ((readBodyCRLF s).length < calls.length → ∃ a ∈ new.reads s calls, a.2 = true) ∧
      ((∃ a ∈ new.reads (readBodyCRLF s) calls, a.2 = true) →
        text (new.reads (readBodyCRLF s) calls) = readBodyCRLF s) := by
  obtain ⟨progress, whole, ends⟩ := new.reads_spec s calls
  rw [readBodyCRLF_eq]
  refine ⟨progress, whole, rfl, ends, fun ended => ?_⟩
  rw [(new.reads_spec (insertCR 0 s) calls).2.1 ended]
  exact insertCR_insertCR 0 s

end Crlf

end Yarilo.Mailbox

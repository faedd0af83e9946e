import Yarilo.Library.Buffer
import Yarilo.MailIndex.Layout

/-! # The extended header

One entry per extension: sixteen bytes of fields, the name and the header data, each of the two
filled up to eight bytes. All positions are 32-bit words, on both sides.
-/

namespace Yarilo.MailIndex

open Library Extension List

/-- Arithmetic on a 32-bit word. -/
def u32 (n : ℕ) : ℕ := n % 2 ^ 32

/-- Rounds a word up to eight. -/
def headerSizeAlign (size : ℕ) : ℕ := u32 (size + 7) / 8 * 8

def extHeaderEntrySize (e : Extension) : ℕ :=
  headerSizeAlign (u32 (headerSizeAlign (u32 (16 + e.name.length)) + e.hdrSize.toNat))

/-- Writes all of `src` at `pos`; `none` is the runtime's panic. -/
def putAt (buf : Bytes) (pos : ℕ) (src : Bytes) : Option Bytes :=
  if pos + src.length ≤ buf.length then some (blit pos src buf) else none

/-- Copies as much of `src` as fits behind `pos`; `none` is the runtime's panic. -/
def copyAt (buf : Bytes) (pos : ℕ) (src : Bytes) : Option Bytes :=
  if pos ≤ buf.length then some (blit pos (src.take (buf.length - pos)) buf) else none

namespace Extension

/-- The fixed part of an entry. -/
def fixedBytes (e : Extension) : Bytes :=
  put32 e.hdrSize ++ put32 e.resetID ++ put16 e.recordOffset ++ put16 e.recordSize ++
    put16 e.recordAlign ++ putLe 2 e.name.length

end Extension

/-- The position behind an entry's part that ends at `pos`, filled up relative to the entry. -/
def behindPadding (entryStart pos : ℕ) : ℕ :=
  u32 (entryStart + headerSizeAlign (u32 (pos + 2 ^ 32 - entryStart)))

/-- One turn of the encoder's loop, on the buffer and the position. -/
def encodeEntry (st : Bytes × ℕ) (e : Extension) : Except FileErr (Bytes × ℕ) :=
  let entryStart := st.2
  match putAt st.1 entryStart e.fixedBytes with
  | none => .error .sliceBounds
  | some buf =>
    let pos := u32 (entryStart + 16)
    match copyAt buf pos e.name with
    | none => .error .sliceBounds
    | some buf =>
      let pos := behindPadding entryStart (u32 (pos + e.name.length))
      if e.hdrSize = 0 then .ok (buf, behindPadding entryStart pos)
      else
        match copyAt buf pos e.hdrData with
        | none => .error .sliceBounds
        | some buf => .ok (buf, behindPadding entryStart (u32 (pos + e.hdrSize.toNat)))

def extHeadersTotal (exts : List Extension) : ℕ :=
  exts.foldl (fun total e => u32 (total + extHeaderEntrySize e)) 0

def encodeExtHeaders (exts : List Extension) : Except FileErr Bytes :=
  let total := extHeadersTotal exts
  if total = 0 then .ok []
  else
    match exts.foldlM encodeEntry (List.replicate total 0, 0) with
    | .error err => .error err
    | .ok (buf, _) => .ok buf

/-- One turn of the decoder's loop. -/
def decodeEntry (bs : Bytes) (entryStart : ℕ) : Except FileErr (Extension × ℕ) :=
  let length := u32 bs.length
  if length < u32 (entryStart + 16) then .error .entryTruncated
  else if bs.length < entryStart + 16 then .error .sliceBounds
  else
    let hdrSize := get32 entryStart bs
    let nameSize := getLe 2 (entryStart + 14) bs
    let pos := u32 (entryStart + 16)
    if nameSize = 0 ∨ extNameMaxLength < nameSize then .error .nameSize
    else if length < u32 (pos + nameSize) then .error .nameTruncated
    else if u32 (pos + nameSize) < pos then .error .sliceBounds
    else
      let e : Extension := {
        name := slice pos nameSize bs
        hdrSize := hdrSize
        resetID := get32 (entryStart + 4) bs
        recordOffset := get16 (entryStart + 8) bs
        recordSize := get16 (entryStart + 10) bs
        recordAlign := get16 (entryStart + 12) bs
        hdrData := [] }
      let pos := behindPadding entryStart (u32 (pos + nameSize))
      if hdrSize = 0 then .ok (e, behindPadding entryStart pos)
      else if length < u32 (pos + hdrSize.toNat) then .error .dataTruncated
      else if u32 (pos + hdrSize.toNat) < pos then .error .sliceBounds
      else
        .ok ({ e with hdrData := slice pos hdrSize.toNat bs },
          behindPadding entryStart (u32 (pos + hdrSize.toNat)))

/-- The decoder's loop. Every entry is longer than its sixteen bytes, so `fuel` of the region's
length is never used up. -/
def decodeEntries (bs : Bytes) : (fuel pos : ℕ) → Except FileErr (List Extension)
  | 0, _ => .error .sliceBounds
  | fuel + 1, pos =>
    if u32 bs.length ≤ pos then .ok []
    else
      match decodeEntry bs pos with
      | .error err => .error err
      | .ok (e, next) =>
        match decodeEntries bs fuel next with
        | .error err => .error err
        | .ok rest => .ok (e :: rest)

def decodeExtHeaders (bs : Bytes) : Except FileErr (List Extension) := decodeEntries bs (bs.length + 1) 0

/-! ## An entry in bytes -/

/-- Rounds a number up to eight. -/
def up8 (n : ℕ) : ℕ := (n + 7) / 8 * 8

def zeros (n : ℕ) : Bytes := List.replicate n 0

@[simp] theorem length_zeros (n : ℕ) : (zeros n).length = n := List.length_replicate

private theorem zeros_add (m n : ℕ) :
    zeros (m + n) = zeros m ++ zeros n := List.replicate_append_replicate.symm

private theorem le_up8 (n : ℕ) : n ≤ up8 n := by
  unfold up8
  omega

variable {n pos fuel : ℕ} {done src buf buf' bs : Bytes} {e : Extension} {exts : List Extension}

private theorem headerSizeAlign_eq (small : n + 7 < 2 ^ 32) : headerSizeAlign n = up8 n := by
  rw [headerSizeAlign, up8, u32, Nat.mod_eq_of_lt small]

theorem u32_eq (small : n < 2 ^ 32) : u32 n = n := Nat.mod_eq_of_lt small

private theorem behindPadding_eq {entryStart size : ℕ} (small : entryStart + size + 7 < 2 ^ 32) :
    behindPadding entryStart (entryStart + size) = entryStart + up8 size := by
  have inside : u32 (entryStart + size + 2 ^ 32 - entryStart) = size := by
    unfold u32
    omega
  rw [behindPadding, inside, headerSizeAlign_eq (by omega), u32_eq]
  unfold up8
  omega

namespace Extension

/-- Where the header data starts in an entry. -/
def dataStart (e : Extension) : ℕ := up8 (16 + e.name.length)

/-- The length of an entry. -/
def entryLength (e : Extension) : ℕ := up8 (e.dataStart + e.hdrData.length)

def entryBytes (e : Extension) : Bytes :=
  e.fixedBytes ++ e.name ++ zeros (e.dataStart - (16 + e.name.length)) ++ e.hdrData ++
    zeros (e.entryLength - (e.dataStart + e.hdrData.length))

@[simp] theorem length_fixedBytes (e : Extension) : e.fixedBytes.length = 16 := by
  simp [fixedBytes]

@[simp] theorem length_entryBytes (e : Extension) : e.entryBytes.length = e.entryLength := by
  have first := le_up8 (16 + e.name.length)
  have second := le_up8 (e.dataStart + e.hdrData.length)
  simp only [entryBytes, length_append, length_fixedBytes, length_zeros, entryLength, dataStart]
    at *
  omega

theorem entryLength_ge (e : Extension) : e.dataStart + e.hdrData.length ≤ e.entryLength := le_up8 _

private theorem dataStart_ge (e : Extension) : 16 + e.name.length ≤ e.dataStart := le_up8 _

/-- What the layout's checks leave of an extension: a name that fits and data of the declared
size. -/
structure Encodable (e : Extension) : Prop where
  named : e.name ≠ []
  short : e.name.length ≤ extNameMaxLength
  data : e.hdrSize.toNat = e.hdrData.length

end Extension

/-- The bytes of the extended header, as a number. -/
def extHeadersLength (exts : List Extension) : ℕ := (exts.map entryLength).sum

@[simp] theorem extHeadersLength_nil : extHeadersLength [] = 0 := rfl

@[simp] theorem extHeadersLength_cons (e : Extension) (exts : List Extension) :
    extHeadersLength (e :: exts) = e.entryLength + extHeadersLength exts := List.sum_cons

/-- An entry without data ends where its data would start. -/
private theorem Extension.Encodable.undeclared (encodable : e.Encodable) (empty : e.hdrSize = 0) :
    e.hdrData = [] ∧ e.entryLength = up8 e.dataStart := by
  have data := encodable.data
  rw [empty] at data
  have none : e.hdrData = [] := eq_nil_of_length_eq_zero data.symm
  exact ⟨none, by simp [entryLength, none]⟩

/-! ## Writing the entries -/

private theorem putAt_zeros (room : src.length ≤ n) :
    putAt (done ++ zeros n) done.length src = some (done ++ src ++ zeros (n - src.length)) := by
  have fits : done.length + src.length ≤ (done ++ zeros n).length := by
    rw [length_append, length_zeros]
    omega
  rw [putAt, if_pos fits, blit_append]
  simp [zeros]

private theorem copyAt_zeros (room : src.length ≤ n) :
    copyAt (done ++ zeros n) done.length src = some (done ++ src ++ zeros (n - src.length)) := by
  have fits : done.length ≤ (done ++ zeros n).length := by
    rw [length_append]
    omega
  have whole : src.take ((done ++ zeros n).length - done.length) = src := by
    apply take_of_length_le
    rw [length_append, length_zeros]
    omega
  rw [copyAt, if_pos fits, whole, blit_append]
  simp [zeros]

/-- What an entry leaves in the buffer once its data is copied. -/
private theorem entryBytes_zeros (e : Extension) (done : Bytes) (room : e.entryLength ≤ n) :
    done ++ e.fixedBytes ++ e.name ++ zeros (e.dataStart - (16 + e.name.length)) ++ e.hdrData ++
        zeros (n - e.dataStart - e.hdrData.length) =
      done ++ e.entryBytes ++ zeros (n - e.entryLength) := by
  have outer := e.entryLength_ge
  have split : n - e.dataStart - e.hdrData.length =
      (e.entryLength - (e.dataStart + e.hdrData.length)) + (n - e.entryLength) := by omega
  rw [split, zeros_add]
  simp [entryBytes]

/-- An entry written behind what is done, into a buffer of zeros with room for it. -/
private theorem encodeEntry_zeros (encodable : e.Encodable) (room : e.entryLength ≤ n)
    (small : done.length + n + 7 < 2 ^ 32) :
    encodeEntry (done ++ zeros n, done.length) e =
      .ok (done ++ e.entryBytes ++ zeros (n - e.entryLength), done.length + e.entryLength) := by
  have inner := e.dataStart_ge
  have outer := e.entryLength_ge
  have data := encodable.data
  have put : putAt (done ++ zeros n) done.length e.fixedBytes =
      some (done ++ e.fixedBytes ++ zeros (n - 16)) := by
    rw [putAt_zeros (by rw [e.length_fixedBytes]; omega), e.length_fixedBytes]
  have pos : u32 (done.length + 16) = (done ++ e.fixedBytes).length := by
    rw [u32_eq (by omega), length_append, e.length_fixedBytes]
  -- the padding behind the name is there already
  let front := done ++ e.fixedBytes ++ e.name ++ zeros (e.dataStart - (16 + e.name.length))
  have reached : front.length = done.length + e.dataStart := by
    simp only [front, length_append, e.length_fixedBytes, length_zeros]
    omega
  have named : copyAt (done ++ e.fixedBytes ++ zeros (n - 16)) (done ++ e.fixedBytes).length e.name =
      some (front ++ zeros (n - e.dataStart)) := by
    have split : n - 16 - e.name.length =
        (e.dataStart - (16 + e.name.length)) + (n - e.dataStart) := by omega
    rw [copyAt_zeros (by omega), split, zeros_add]
    simp [front]
  have start : behindPadding done.length (u32 ((done ++ e.fixedBytes).length + e.name.length)) =
      front.length := by
    have flat : (done ++ e.fixedBytes).length + e.name.length = done.length + (16 + e.name.length) := by
      rw [length_append, e.length_fixedBytes, Nat.add_assoc]
    rw [flat, u32_eq (by omega), behindPadding_eq (by omega), reached]
    rfl
  simp only [encodeEntry, put, pos, named, start]
  by_cases empty : e.hdrSize = 0
  · obtain ⟨none, finish⟩ := encodable.undeclared empty
    have written := entryBytes_zeros e done room
    rw [if_pos empty, reached, behindPadding_eq (by omega), ← finish, ← written]
    simp [front, none]
  · have copied : copyAt (front ++ zeros (n - e.dataStart)) front.length e.hdrData =
        some (done ++ e.entryBytes ++ zeros (n - e.entryLength)) := by
      rw [copyAt_zeros (by omega), entryBytes_zeros e done room]
    rw [if_neg empty]
    simp only [copied]
    rw [reached, data, Nat.add_assoc, u32_eq (by omega), behindPadding_eq (by omega)]
    rfl

private theorem encodeEntries_zeros (encodable : ∀ e ∈ exts, e.Encodable) (room : extHeadersLength exts ≤ n)
    (small : done.length + n + 7 < 2 ^ 32) : exts.foldlM encodeEntry (done ++ zeros n, done.length) =
      .ok (done ++ exts.flatMap entryBytes ++ zeros (n - extHeadersLength exts),
        done.length + extHeadersLength exts) := by
  induction exts generalizing done n with
  | nil => simp [pure, Except.pure]
  | cons e rest ih =>
    rw [extHeadersLength_cons] at room ⊢
    have first : encodeEntry (done ++ zeros n, done.length) e = _ :=
      encodeEntry_zeros (encodable e (by simp)) (by omega) small
    have length : (done ++ e.entryBytes).length = done.length + e.entryLength := by
      rw [length_append, e.length_entryBytes]
    have later : rest.foldlM encodeEntry
        (done ++ e.entryBytes ++ zeros (n - e.entryLength), (done ++ e.entryBytes).length) = _ :=
      ih (fun f member => encodable f (by simp [member])) (by omega) (by omega)
    rw [foldlM_cons, first]
    simp only [bind, Except.bind]
    rw [← length, later, length]
    simp [Nat.sub_sub, Nat.add_assoc]

theorem length_flatMap_entryBytes (exts : List Extension) :
    (exts.flatMap entryBytes).length = extHeadersLength exts := by
  simp [length_flatMap, extHeadersLength]

private theorem extHeaderEntrySize_eq (encodable : e.Encodable) (small : e.entryLength + 7 < 2 ^ 32) :
    extHeaderEntrySize e = e.entryLength := by
  have inner := e.dataStart_ge
  have outer := e.entryLength_ge
  have start : headerSizeAlign (u32 (16 + e.name.length)) = e.dataStart := by
    rw [u32_eq (by omega), headerSizeAlign_eq (by omega)]
    rfl
  rw [extHeaderEntrySize, start, encodable.data, u32_eq (by omega), headerSizeAlign_eq (by omega)]
  rfl

theorem extHeadersTotal_eq (encodable : ∀ e ∈ exts, e.Encodable)
    (small : extHeadersLength exts + 7 < 2 ^ 32) : extHeadersTotal exts = extHeadersLength exts := by
  have folded : ∀ (exts : List Extension) (total : ℕ), (∀ e ∈ exts, e.Encodable) →
      total + extHeadersLength exts + 7 < 2 ^ 32 →
      exts.foldl (fun total e => u32 (total + extHeaderEntrySize e)) total =
        total + extHeadersLength exts := by
    intro exts
    induction exts with
    | nil => simp
    | cons e rest ih =>
      intro total encodable small
      rw [extHeadersLength_cons] at small ⊢
      rw [foldl_cons, extHeaderEntrySize_eq (encodable e (by simp)) (by omega),
        u32_eq (by omega), ih _ (fun f member => encodable f (by simp [member])) (by omega),
        Nat.add_assoc]
  have done := folded exts 0 encodable (by omega)
  rwa [Nat.zero_add] at done

private theorem entryLength_pos (e : Extension) : 0 < e.entryLength := by
  have inner := e.dataStart_ge
  have outer := e.entryLength_ge
  omega

theorem encodeExtHeaders_eq (encodable : ∀ e ∈ exts, e.Encodable)
    (small : extHeadersLength exts + 7 < 2 ^ 32) : encodeExtHeaders exts = .ok (exts.flatMap entryBytes) := by
  simp only [encodeExtHeaders, extHeadersTotal_eq encodable small]
  split
  · rename_i empty
    cases exts with
    | nil => rfl
    | cons e rest =>
      have := entryLength_pos e
      rw [extHeadersLength_cons] at empty
      omega
  · have written : exts.foldlM encodeEntry ([] ++ zeros (extHeadersLength exts), 0) = _ :=
      encodeEntries_zeros encodable (le_refl _) (by simpa using small)
    rw [nil_append] at written
    simp only [zeros] at written
    rw [written]
    simp

private theorem length_putAt (put : putAt buf pos src = some buf') : buf'.length = buf.length := by
  unfold putAt at put
  split at put
  · rename_i fits
    cases put
    exact length_blit fits
  · cases put

private theorem length_copyAt (copied : copyAt buf pos src = some buf') : buf'.length = buf.length := by
  unfold copyAt at copied
  split at copied
  · cases copied
    apply length_blit
    rw [length_take]
    omega
  · cases copied

private theorem length_encodeEntry {st st' : Bytes × ℕ} (done : encodeEntry st e = .ok st') :
    st'.1.length = st.1.length := by
  simp only [encodeEntry] at done
  split at done
  · cases done
  rename_i buf put
  split at done
  · cases done
  rename_i buf' copied
  split at done
  · cases done
    exact (length_copyAt copied).trans (length_putAt put)
  split at done
  · cases done
  rename_i buf'' data
  cases done
  exact (length_copyAt data).trans ((length_copyAt copied).trans (length_putAt put))

theorem length_encodeExtHeaders {bytes : Bytes} (done : encodeExtHeaders exts = .ok bytes) :
    bytes.length = extHeadersTotal exts := by
  have folded : ∀ (exts : List Extension) (st st' : Bytes × ℕ),
      exts.foldlM encodeEntry st = .ok st' → st'.1.length = st.1.length := by
    intro exts
    induction exts with
    | nil =>
      intro st st' done
      cases done
      rfl
    | cons e rest ih =>
      intro st st' done
      rw [foldlM_cons] at done
      cases first : encodeEntry st e with
      | error err => simp [first, bind, Except.bind] at done
      | ok middle =>
        simp only [first, bind, Except.bind] at done
        exact (ih middle st' done).trans (length_encodeEntry first)
  simp only [encodeExtHeaders] at done
  split at done
  · rename_i empty
    cases done
    rw [empty]
    rfl
  · split at done
    · cases done
    rename_i buf pos written
    cases done
    simpa using folded _ _ _ written

/-! ## Reading the entries -/

/-- The fixed part, read behind what is done. -/
private theorem get_fixedBytes (e : Extension) (done rest : Bytes) :
    get32 done.length (done ++ e.fixedBytes ++ rest) = e.hdrSize ∧
      get32 (done.length + 4) (done ++ e.fixedBytes ++ rest) = e.resetID ∧
      get16 (done.length + 8) (done ++ e.fixedBytes ++ rest) = e.recordOffset ∧
      get16 (done.length + 10) (done ++ e.fixedBytes ++ rest) = e.recordSize ∧
      get16 (done.length + 12) (done ++ e.fixedBytes ++ rest) = e.recordAlign ∧
      getLe 2 (done.length + 14) (done ++ e.fixedBytes ++ rest) = e.name.length % 65536 := by
  rw [append_assoc, get32_behind _ (le_refl _)]
  simp only [get32_behind, get16_behind, getLe_behind, Nat.le_add_right, Nat.add_sub_cancel_left,
    Nat.sub_self]
  unfold fixedBytes
  simp (disch := simp) only [append_assoc, get16_behind, get32_behind, getLe_behind,
    length_put32, length_put16, Nat.reduceSub, get32_put32, get16_put16, getLe_putLe]
  simp

private theorem decodeEntry_entryBytes (encodable : e.Encodable) {rest : Bytes}
    (small : done.length + e.entryLength + rest.length + 7 < 2 ^ 32) :
    decodeEntry (done ++ e.entryBytes ++ rest) done.length = .ok (e, done.length + e.entryLength) := by
  have inner := e.dataStart_ge
  have outer := e.entryLength_ge
  have short := encodable.short
  simp only [extNameMaxLength] at short
  have named : 0 < e.name.length := length_pos_iff.mpr encodable.named
  -- the file with the parts of the entry in view
  let behind := zeros (e.dataStart - (16 + e.name.length)) ++ e.hdrData ++
    zeros (e.entryLength - (e.dataStart + e.hdrData.length)) ++ rest
  have parts : done ++ e.entryBytes ++ rest = done ++ e.fixedBytes ++ (e.name ++ behind) := by
    simp only [behind, entryBytes, append_assoc]
  have length : (done ++ e.entryBytes ++ rest).length = done.length + e.entryLength + rest.length := by
    simp only [length_append, e.length_entryBytes]
  obtain ⟨hdrSize, resetID, recordOffset, recordSize, recordAlign, nameSize⟩ :=
    get_fixedBytes e done (e.name ++ behind)
  rw [← parts] at hdrSize resetID recordOffset recordSize recordAlign nameSize
  rw [Nat.mod_eq_of_lt (by omega)] at nameSize
  have name : slice (done.length + 16) e.name.length (done ++ e.entryBytes ++ rest) = e.name := by
    have cut := slice_append (done ++ e.fixedBytes) e.name behind
    rwa [length_append, e.length_fixedBytes, append_assoc _ e.name, ← parts] at cut
  have data : slice (done.length + e.dataStart) e.hdrData.length (done ++ e.entryBytes ++ rest) =
      e.hdrData := by
    have cut := slice_append
      (done ++ e.fixedBytes ++ e.name ++ zeros (e.dataStart - (16 + e.name.length))) e.hdrData
      (zeros (e.entryLength - (e.dataStart + e.hdrData.length)) ++ rest)
    have start : (done ++ e.fixedBytes ++ e.name ++
        zeros (e.dataStart - (16 + e.name.length))).length = done.length + e.dataStart := by
      simp only [length_append, e.length_fixedBytes, length_zeros]
      omega
    rw [start] at cut
    simp only [append_assoc] at cut
    simp only [entryBytes, append_assoc]
    exact cut
  have pos : u32 (done.length + 16) = done.length + 16 := u32_eq (by omega)
  have posName : u32 (done.length + 16 + e.name.length) = done.length + (16 + e.name.length) := by
    rw [Nat.add_assoc]
    exact u32_eq (by omega)
  have padded : behindPadding done.length (done.length + (16 + e.name.length)) =
      done.length + e.dataStart := behindPadding_eq (by omega)
  simp only [decodeEntry, length, hdrSize, resetID, recordOffset, recordSize, recordAlign, nameSize,
    pos, posName, name, padded, extNameMaxLength]
  rw [u32_eq (by omega), if_neg (by omega), if_neg (by omega), if_neg (by omega), if_neg (by omega),
    if_neg (by omega)]
  by_cases empty : e.hdrSize = 0
  · obtain ⟨none, finish⟩ := encodable.undeclared empty
    rw [if_pos empty, behindPadding_eq (by omega), ← finish, ← none]
  · have posData : u32 (done.length + e.dataStart + e.hdrData.length) =
        done.length + (e.dataStart + e.hdrData.length) := by
      rw [Nat.add_assoc]
      exact u32_eq (by omega)
    have finish : behindPadding done.length (done.length + (e.dataStart + e.hdrData.length)) =
        done.length + e.entryLength := behindPadding_eq (by omega)
    rw [if_neg empty, encodable.data, posData, if_neg (by omega), if_neg (by omega), data, finish]

private theorem decodeEntries_flatMap (encodable : ∀ e ∈ exts, e.Encodable) (enough : exts.length < fuel)
    (small : done.length + extHeadersLength exts + 7 < 2 ^ 32) :
    decodeEntries (done ++ exts.flatMap entryBytes) fuel done.length = .ok exts := by
  induction exts generalizing done fuel with
  | nil =>
    obtain ⟨fuel, rfl⟩ : ∃ k, fuel = k + 1 := ⟨fuel - 1, by simp at enough; omega⟩
    rw [decodeEntries, if_pos]
    simp only [flatMap_nil, append_nil]
    rw [u32_eq (by omega)]
  | cons e rest ih =>
    obtain ⟨fuel, rfl⟩ : ∃ k, fuel = k + 1 := ⟨fuel - 1, by simp at enough; omega⟩
    have positive := entryLength_pos e
    rw [extHeadersLength_cons] at small
    have tail := length_flatMap_entryBytes rest
    have file : done ++ (e :: rest).flatMap entryBytes =
        done ++ e.entryBytes ++ rest.flatMap entryBytes := by
      rw [flatMap_cons, append_assoc]
    have length : (done ++ e.entryBytes ++ rest.flatMap entryBytes).length =
        done.length + e.entryLength + extHeadersLength rest := by
      simp only [length_append, e.length_entryBytes, tail]
    have first : decodeEntry (done ++ e.entryBytes ++ rest.flatMap entryBytes)
        done.length = _ :=
      decodeEntry_entryBytes (encodable e (by simp)) (by rw [tail]; omega)
    have later : decodeEntries (done ++ e.entryBytes ++ rest.flatMap entryBytes) fuel
        (done ++ e.entryBytes).length = _ :=
      ih (fun f member => encodable f (by simp [member])) (by simpa using enough)
        (by rw [length_append, e.length_entryBytes]; omega)
    rw [length_append, e.length_entryBytes] at later
    rw [decodeEntries, file, length, if_neg (by rw [u32_eq (by omega)]; omega), first]
    simp only [later]

theorem length_le_extHeadersLength (exts : List Extension) : exts.length ≤ extHeadersLength exts := by
  induction exts with
  | nil => simp
  | cons e rest ih =>
    have positive := entryLength_pos e
    rw [extHeadersLength_cons, length_cons]
    omega

theorem decodeExtHeaders_flatMap (encodable : ∀ e ∈ exts, e.Encodable)
    (small : extHeadersLength exts + 7 < 2 ^ 32) : decodeExtHeaders (exts.flatMap entryBytes) = .ok exts := by
  have room := length_le_extHeadersLength exts
  have read : decodeEntries ([] ++ exts.flatMap entryBytes)
      ((exts.flatMap entryBytes).length + 1) ([] : Bytes).length = .ok exts :=
    decodeEntries_flatMap encodable (by rw [length_flatMap_entryBytes]; omega) (by simpa using small)
  exact read

/-- A wrapped end would lie in front of its start. -/
private theorem u32_forward {w : ℕ} (low : pos < 2 ^ 32) (word : w < 2 ^ 32)
    (forward : ¬u32 (pos + w) < pos) :
    u32 (pos + w) = pos + w := by
  unfold u32 at *
  omega

section

variable (small : bs.length + headerMinSize < 2 ^ 32)

include small

/-- What the decoder reads of an entry it accepts, with its sums as they are without wrapping. -/
private theorem decodeEntry_reads {next : ℕ} (read : decodeEntry bs pos = .ok (e, next)) :
    ∃ size, 0 < size ∧ size ≤ extNameMaxLength ∧ pos + 16 + size ≤ bs.length ∧
      e.name = slice (pos + 16) size bs ∧
      (e.hdrSize = 0 ∧ e.hdrData = [] ∧ next = behindPadding pos (pos + up8 (16 + size)) ∨
        pos + up8 (16 + size) + e.hdrSize.toNat ≤ bs.length ∧
          e.hdrData = slice (pos + up8 (16 + size)) e.hdrSize.toNat bs ∧
          next = behindPadding pos (pos + up8 (16 + size) + e.hdrSize.toNat)) := by
  simp only [headerMinSize] at small
  have length : u32 bs.length = bs.length := u32_eq (by omega)
  unfold decodeEntry at read
  simp only [extNameMaxLength, length] at read ⊢
  generalize getLe 2 (pos + 14) bs = size at read
  split at read
  · cases read
  split at read
  · cases read
  split at read
  · cases read
  rw [u32_eq (n := pos + 16) (by omega), u32_eq (n := pos + 16 + size) (by omega)] at read
  split at read
  · cases read
  split at read
  · cases read
  have rounded : up8 (16 + size) ≤ 16 + size + 7 := by
    unfold up8
    omega
  rw [Nat.add_assoc pos, behindPadding_eq (by omega)] at read
  refine ⟨size, by omega, by omega, by omega, ?_⟩
  split at read
  · cases read
    exact ⟨rfl, .inl ⟨‹_›, rfl, rfl⟩⟩
  split at read
  · cases read
  rename_i inside
  split at read
  · cases read
  rename_i forward
  have noWrap := u32_forward (by omega) (get32 pos bs).toNat_lt forward
  rw [noWrap] at read inside
  cases read
  exact ⟨rfl, .inr ⟨Nat.not_lt.mp inside, rfl, rfl⟩⟩

/-- What the decoder accepts is an entry, and the region reaches up to its padding. -/
private theorem decodeEntry_ok {next : ℕ} (read : decodeEntry bs pos = .ok (e, next)) :
    e.Encodable ∧ next = pos + e.entryLength ∧ next ≤ bs.length + 7 := by
  obtain ⟨size, some, bound, fits, name, data⟩ := decodeEntry_reads small read
  simp only [headerMinSize, extNameMaxLength] at small bound
  have nameLength : e.name.length = size := (congrArg _ name).trans (length_slice fits)
  have named : e.name ≠ [] := by
    rw [← length_pos_iff]
    omega
  have rounded : up8 (16 + size) ≤ 16 + size + 7 := by
    unfold up8
    omega
  rcases data with ⟨empty, none, rfl⟩ | ⟨inside, data, rfl⟩
  · rw [behindPadding_eq (by omega)]
    refine ⟨⟨named, by simpa [nameLength, extNameMaxLength] using bound, by simp [empty, none]⟩, ?_, ?_⟩
    · simp [entryLength, dataStart, nameLength, none]
    · unfold up8 at *
      omega
  · have dataLength : e.hdrData.length = e.hdrSize.toNat := (congrArg _ data).trans (length_slice inside)
    rw [Nat.add_assoc, behindPadding_eq (by omega)]
    refine ⟨⟨named, by simpa [nameLength, extNameMaxLength] using bound, dataLength.symm⟩, ?_, ?_⟩
    · simp [entryLength, dataStart, nameLength, dataLength]
    · unfold up8 at *
      omega

private theorem decodeEntries_ok (read : decodeEntries bs fuel pos = .ok exts)
    (reached : pos ≤ bs.length + 7) :
    (∀ e ∈ exts, e.Encodable) ∧ pos + extHeadersLength exts ≤ bs.length + 7 := by
  induction fuel generalizing pos exts with
  | zero => cases read
  | succ fuel ih =>
    rw [decodeEntries] at read
    split at read
    · cases read
      simpa using reached
    split at read
    · cases read
    rename_i e next first
    split at read
    · cases read
    rename_i rest later
    cases read
    obtain ⟨encodable, rfl, inside⟩ := decodeEntry_ok small first
    obtain ⟨others, total⟩ := ih later inside
    refine ⟨forall_mem_cons.mpr ⟨encodable, others⟩, ?_⟩
    rw [extHeadersLength_cons]
    omega

/-- The region is as long as the entries read from it, up to the last padding. -/
theorem decodeExtHeaders_ok (read : decodeExtHeaders bs = .ok exts) :
    (∀ e ∈ exts, e.Encodable) ∧ extHeadersLength exts ≤ bs.length + 7 := by
  have done := decodeEntries_ok small read (by omega)
  rwa [Nat.zero_add] at done

end

end Yarilo.MailIndex

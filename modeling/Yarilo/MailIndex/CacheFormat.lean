import Mathlib.Data.Finset.Empty
import Mathlib.Data.List.DropRight
import Mathlib.Data.List.GetD
import Mathlib.Logic.Function.Basic
import Yarilo.MailIndex.ExtHeaders
import Yarilo.MailIndex.Log

/-! # The bytes of a cache file

A header of 32 bytes, tables of field definitions linked by packed offsets, and records linked by
plain ones. A table is written whole with every field known so far.
-/

namespace Yarilo.MailIndex

open Library List

inductive CacheErr where
  | invalid
  | unknownField
  | fieldSize
  | full
  | endless
  /-- the runtime's panic on slice bounds -/
  | sliceBounds
deriving DecidableEq

/-- The size that marks a field of variable length. -/
def variableSize : UInt32 := 0xffffffff

structure CacheHeader where
  majorVersion : UInt8
  compatSizeofUoffT : UInt8
  minorVersion : UInt8
  producerGen : UInt8
  indexID : UInt32
  fileSeq : UInt32
  continuedRecordCount : UInt32
  recordCount : UInt32
  backwardsCompatUsedFileSize : UInt32
  deletedRecordCount : UInt32
  fieldHeaderOffset : UInt32
deriving DecidableEq

def cacheHeaderSize : ℕ := 32

def CacheHeader.encode (h : CacheHeader) : Bytes :=
  put8 h.majorVersion ++ put8 h.compatSizeofUoffT ++ put8 h.minorVersion ++ put8 h.producerGen ++
    put32 h.indexID ++ put32 h.fileSeq ++ put32 h.continuedRecordCount ++ put32 h.recordCount ++
    put32 h.backwardsCompatUsedFileSize ++ put32 h.deletedRecordCount ++ put32 h.fieldHeaderOffset

def decodeCacheHeader (b : Bytes) : Option CacheHeader :=
  if b.length < cacheHeaderSize then none
  else
    some {
      majorVersion := get8 0 b
      compatSizeofUoffT := get8 1 b
      minorVersion := get8 2 b
      producerGen := get8 3 b
      indexID := get32 4 b
      fileSeq := get32 8 b
      continuedRecordCount := get32 12 b
      recordCount := get32 16 b
      backwardsCompatUsedFileSize := get32 20 b
      deletedRecordCount := get32 24 b
      fieldHeaderOffset := get32 28 b }

structure CacheField where
  name : Bytes
  type : UInt8
  decision : UInt8
  size : UInt32
  lastUsed : UInt32
deriving DecidableEq

/-- One field's data in a record. -/
structure CacheFieldValue where
  fieldID : UInt32
  data : Bytes
deriving DecidableEq

/-! ## Tables -/

/-- The names of a table, each closed by a NUL. -/
def nameBytes (fields : List CacheField) : Bytes := fields.flatMap fun fl => fl.name ++ [0]

/-- The size a table is given, in 32-bit arithmetic. -/
def tableSize (fields : List CacheField) : ℕ :=
  let size := u32 (12 + 10 * fields.length + (nameBytes fields).length)
  u32 (size + pad4 size)

/-- A table behind its link word. What the size leaves no room for of the names is not copied. -/
def tableRest (fields : List CacheField) : Bytes :=
  let room := tableSize fields - (12 + 10 * fields.length)
  putLe 4 (tableSize fields) ++ putLe 4 fields.length ++
    (fields.map CacheField.lastUsed).flatMap put32 ++ (fields.map CacheField.size).flatMap put32 ++
    fields.map CacheField.type ++ fields.map CacheField.decision ++
    (nameBytes fields).take room ++ zeros (room - (nameBytes fields).length)

/-- The buffer of a new table, not linked to a successor. -/
def encodeTable (fields : List CacheField) : Except CacheErr Bytes :=
  if tableSize fields < 12 + 10 * fields.length then .error .sliceBounds
  else .ok (putLe 4 0 ++ tableRest fields)

/-- The fields of a table from what follows its first twelve bytes. -/
def decodeFields (count : ℕ) (body : Bytes) : Except CacheErr (List CacheField) :=
  let names := ((body.drop (10 * count)).rdropWhile fun b => b = 0).splitOn 0
  if u32 names.length < count then .error .invalid
  else
    .ok ((List.range count).map fun i => {
      name := names.getD i []
      type := get8 (8 * count + i) body
      decision := get8 (9 * count + i) body
      size := get32 (4 * count + i * 4) body
      lastUsed := get32 (i * 4) body })

/-! ## Records -/

def encodeValue (fields : List CacheField) (v : CacheFieldValue) : Except CacheErr Bytes :=
  match fields[v.fieldID.toNat]? with
  | none => .error .unknownField
  | some fl =>
    if fl.size = variableSize then
      .ok (put32 v.fieldID ++ (put32 (UInt32.ofNat v.data.length) ++
        (v.data ++ zeros (pad4 v.data.length))))
    else if UInt32.ofNat v.data.length ≠ fl.size then .error .fieldSize
    else .ok (put32 v.fieldID ++ (v.data ++ zeros (pad4 v.data.length)))

def encodeBody (fields : List CacheField) : List CacheFieldValue → Except CacheErr Bytes
  | [] => .ok []
  | v :: rest =>
    match encodeValue fields v, encodeBody fields rest with
    | .ok bytes, .ok body => .ok (bytes ++ body)
    | .error err, _ => .error err
    | .ok _, .error err => .error err

/-- The values read so far. -/
abbrev CacheValues := UInt32 → Option Bytes

/-- One field's data from what is left of a record's body: the field, its data and what follows. -/
def decodeValue (fields : List CacheField) (body : Bytes) : Except CacheErr (UInt32 × Bytes × Bytes) :=
  let id := get32 0 body
  let body := body.drop 4
  match fields[id.toNat]? with
  | none => .error .invalid
  | some fl =>
    if fl.size = variableSize ∧ body.length < 4 then .error .invalid
    else
      let dlen := if fl.size = variableSize then (get32 0 body).toNat else fl.size.toNat
      let body := if fl.size = variableSize then body.drop 4 else body
      if body.length < dlen then .error .invalid
      else .ok (id, body.take dlen, body.drop (dlen + pad4 dlen))

/-- The loop over a record's body. A round takes four bytes at least, so the body's length bounds
the rounds. -/
def decodeBody (fields : List CacheField) : (fuel : ℕ) → Bytes → CacheValues → Except CacheErr CacheValues
  | 0, _, out => .ok out
  | fuel + 1, body, out =>
    if body.length < 4 then .ok out
    else
      match decodeValue fields body with
      | .error err => .error err
      | .ok (id, data, rest) =>
        decodeBody fields fuel rest
          (if (out id).isSome then out else Function.update out id (some data))

/-! ## Packed offsets -/

/-- The byte order of the wire, as both packings spell it. -/
def wireOrder (v : BitVec 32) : BitVec 32 :=
  v >>> 24 ||| (v >>> 8 &&& 0xff00#32) ||| (v <<< 8 &&& 0xff0000#32) ||| v <<< 24

def packCacheOffset (off : BitVec 32) : BitVec 32 :=
  let off := off >>> 2
  wireOrder (0x80#32 ||| (off &&& 0x7f#32) ||| 0x8000#32 ||| (off &&& 0x3f80#32) >>> 7 <<< 8 |||
    0x800000#32 ||| (off &&& 0x1fc000#32) >>> 14 <<< 16 |||
    0x80000000#32 ||| (off &&& 0xfe00000#32) >>> 21 <<< 24)

def unpackCacheOffset (stored : BitVec 32) : BitVec 32 :=
  let v := wireOrder stored
  if v &&& 0x80808080#32 ≠ 0x80808080#32 then 0#32
  else
    ((v &&& 0x7f#32) ||| (v &&& 0x7f00#32) >>> 8 <<< 7 ||| (v &&& 0x7f0000#32) >>> 16 <<< 14 |||
      (v &&& 0x7f000000#32) >>> 24 <<< 21) <<< 2

theorem wireOrder_eq (v : BitVec 32) : wireOrder v = byteSwap32 v := by
  apply BitVec.eq_of_getLsbD_eq
  intro i _
  interval_cases i <;> simp [wireOrder, byteSwap32]

/-- The packing is the log's framing. -/
theorem packCacheOffset_of_encode {off framed : BitVec 32} (encoded : encodeFramedSize off = some framed) :
    packCacheOffset off = framed := by
  unfold encodeFramedSize at encoded
  split_ifs at encoded
  rw [← Option.some.inj encoded, packCacheOffset, wireOrder_eq]
  refine congrArg byteSwap32 (BitVec.eq_of_getLsbD_eq fun i _ => ?_)
  interval_cases i <;> simp

theorem unpackCacheOffset_eq (stored : BitVec 32) : unpackCacheOffset stored = decodeFramedSize stored := by
  simp only [unpackCacheOffset, decodeFramedSize, wireOrder_eq]
  refine if_congr .rfl rfl (BitVec.eq_of_getLsbD_eq fun i _ => ?_)
  interval_cases i <;> simp

theorem unpackCacheOffset_pack {off : BitVec 32} (bound : off.toNat < 2 ^ 30)
    (aligned : off.toNat % 4 = 0) : unpackCacheOffset (packCacheOffset off) = off := by
  obtain ⟨framed, encoded⟩ := Option.isSome_iff_exists.mp ((encodeFramedSize_isSome off).mpr ⟨bound, aligned⟩)
  rw [packCacheOffset_of_encode encoded, unpackCacheOffset_eq, decodeFramedSize_of_encode encoded]

/-- Exactly the aligned sizes below 1 GiB are framed. The cache file's packing frames them alike, both
read them back, and a word that lost any of its bytes is read as zero. -/
theorem framed_sizes_torn_proof (size : BitVec 32) :
    ((encodeFramedSize size).isSome ↔ size.toNat < 2 ^ 30 ∧ size.toNat % 4 = 0) ∧
      ∀ framed ∈ encodeFramedSize size, decodeFramedSize framed = size ∧
        packCacheOffset size = framed ∧ unpackCacheOffset framed = size ∧
        ∀ (torn : Finset (Fin 4)) (stored : BitVec 32), torn.Nonempty →
          (∀ k : Fin 4, stored.extractLsb' (8 * k) 8 =
            if k ∈ torn then 0#8 else framed.extractLsb' (8 * k) 8) →
          decodeFramedSize stored = 0#32 ∧ unpackCacheOffset stored = 0#32 := by
  refine ⟨encodeFramedSize_isSome size, fun framed encoded => ?_⟩
  have decoded := decodeFramedSize_of_encode encoded
  refine ⟨decoded, packCacheOffset_of_encode encoded, by rw [unpackCacheOffset_eq, decoded], ?_⟩
  rintro torn stored ⟨k, member⟩ bytes
  have zero := decodeFramedSize_of_zero_byte ((bytes k).trans (if_pos member))
  exact ⟨zero, (unpackCacheOffset_eq stored).trans zero⟩

/-- The link word of a table whose successor is at `next`, zero for none. -/
def linkWord (next : ℕ) : ℕ := if next = 0 then 0 else (packCacheOffset (BitVec.ofNat 32 next)).toNat

/-- The successor a link word names. -/
def linkTarget (word : ℕ) : ℕ := (unpackCacheOffset (BitVec.ofNat 32 word)).toNat

theorem linkWord_lt (next : ℕ) : linkWord next < 256 ^ 4 := by
  unfold linkWord
  split
  · decide
  · exact (packCacheOffset _).isLt

theorem linkTarget_linkWord {next : ℕ} (bound : next < 2 ^ 30) (aligned : next % 4 = 0) :
    linkTarget (linkWord next) = next := by
  unfold linkWord linkTarget
  split
  · rename_i none
    rw [none]
    decide
  have word : (BitVec.ofNat 32 next).toNat = next := by
    rw [BitVec.toNat_ofNat]
    exact Nat.mod_eq_of_lt (by omega)
  rw [BitVec.ofNat_toNat, BitVec.setWidth_eq,
    unpackCacheOffset_pack (by rw [word]; exact bound) (by rw [word]; exact aligned), word]

theorem CacheHeader.length_encode (h : CacheHeader) : h.encode.length = cacheHeaderSize := by
  unfold CacheHeader.encode
  rfl

theorem decodeCacheHeader_encode (h : CacheHeader) : decodeCacheHeader h.encode = some h := by
  rw [decodeCacheHeader, if_neg (by rw [h.length_encode]; omega)]
  unfold CacheHeader.encode
  have whole : put32 h.fieldHeaderOffset = put32 h.fieldHeaderOffset ++ [] := (append_nil _).symm
  rw [whole]
  simp (disch := simp) only [append_assoc, get8_behind, get32_behind, length_put32, length_put8,
    Nat.reduceSub, get32_put32, get8_put8]

/-! ## A table read back -/

/-- A name a table can hold. -/
def CacheField.Named (fl : CacheField) : Prop := fl.name ≠ [] ∧ 0 ∉ fl.name

instance (fl : CacheField) : Decidable fl.Named := inferInstanceAs (Decidable (_ ∧ _))

/-- The bytes a table takes, its link word included. -/
def tableSpan (fields : List CacheField) : ℕ :=
  let size := 12 + 10 * fields.length + (nameBytes fields).length
  size + pad4 size

variable {fields : List CacheField} {v : CacheFieldValue} {body bytes : Bytes}
  {values : List CacheFieldValue}

theorem tableSize_eq (small : tableSpan fields < 2 ^ 32) : tableSize fields = tableSpan fields := by
  unfold tableSpan at small ⊢
  unfold tableSize
  simp only at small ⊢
  rw [u32_eq (n := 12 + 10 * fields.length + (nameBytes fields).length) (by omega), u32_eq small]

theorem tableSpan_ge (fields : List CacheField) :
    12 + 10 * fields.length + (nameBytes fields).length ≤ tableSpan fields :=
  Nat.le_add_right _ _

theorem tableSpan_mod (fields : List CacheField) : tableSpan fields % 4 = 0 := add_pad4_mod _

/-- The bytes of a table behind its first twelve, where the size does not wrap. -/
def tableBody (fields : List CacheField) : Bytes :=
  (fields.map CacheField.lastUsed).flatMap put32 ++ ((fields.map CacheField.size).flatMap put32 ++
    (fields.map CacheField.type ++ (fields.map CacheField.decision ++ (nameBytes fields ++
      zeros (tableSpan fields - (12 + 10 * fields.length + (nameBytes fields).length))))))

theorem tableRest_eq (small : tableSpan fields < 2 ^ 32) : tableRest fields =
      putLe 4 (tableSpan fields) ++ (putLe 4 fields.length ++ tableBody fields) := by
  have room := tableSpan_ge fields
  unfold tableRest tableBody
  simp only [tableSize_eq small, append_assoc, Nat.sub_sub]
  rw [take_of_length_le (by omega)]

theorem length_tableBody (fields : List CacheField) : (tableBody fields).length = tableSpan fields - 12 := by
  have room := tableSpan_ge fields
  unfold tableBody
  simp only [length_append, length_flatMap_put32, length_map, length_zeros]
  omega

theorem rdropWhile_zeros (bs : Bytes) (n : ℕ) :
    (bs ++ zeros n).rdropWhile (fun b => b = 0) = bs.rdropWhile fun b => b = 0 := by
  induction n with
  | zero => rw [zeros, replicate_zero, append_nil]
  | succ n ih =>
    rw [zeros, replicate_succ', ← append_assoc, rdropWhile_concat_pos _ _ _ (by simp)]
    exact ih

theorem splitOn_nameBytes (named : ∀ fl ∈ fields, fl.Named) {last : Bytes} (closed : 0 ∉ last) :
    (nameBytes fields ++ last).splitOn 0 = fields.map CacheField.name ++ [last] := by
  induction fields with
  | nil => exact splitOn_eq_singleton closed
  | cons fl rest ih =>
    have whole : nameBytes (fl :: rest) ++ last = fl.name ++ 0 :: (nameBytes rest ++ last) := by
      simp [nameBytes]
    rw [whole, splitOn_append_cons_self_of_not_mem (named fl (by simp)).2,
      ih fun other member => named other (by simp [member])]
    rfl

/-- Trimming takes the last NUL and the padding, splitting the others. -/
theorem splitOn_trimmed (some : fields ≠ []) (named : ∀ fl ∈ fields, fl.Named) (n : ℕ) :
    ((nameBytes fields ++ zeros n).rdropWhile fun b => b = 0).splitOn 0 = fields.map CacheField.name := by
  obtain none | ⟨init, last, rfl⟩ := eq_nil_or_concat fields
  · exact absurd none some
  rw [concat_eq_append] at named ⊢
  have lastNamed : last.Named := named last (by simp)
  obtain none | ⟨front, b, name⟩ := eq_nil_or_concat last.name
  · exact absurd none lastNamed.1
  rw [concat_eq_append] at name
  have solid : b ≠ 0 := by
    intro zero
    exact lastNamed.2 (by simp [name, zero])
  have bytes : nameBytes (init ++ [last]) = nameBytes init ++ front ++ [b] ++ zeros 1 := by
    simp [nameBytes, name, zeros]
  rw [rdropWhile_zeros, bytes, rdropWhile_zeros,
    rdropWhile_concat_neg _ _ _ (by simpa using solid), append_assoc, ← name,
    splitOn_nameBytes (fun fl member => named fl (by simp [member])) lastNamed.2, map_append]
  rfl

theorem get8_behind_bytes {bs : Bytes} {i : ℕ} (inside : i < bs.length) (after : Bytes) :
    get8 i (bs ++ after) = bs[i] := by
  have byte : ((bs ++ after).drop i).take 1 = [bs[i]] := by
    rw [drop_append_of_le_length inside.le, drop_eq_getElem_cons inside]
    rfl
  unfold get8 getLe
  rw [byte]
  simp [leNat]

theorem decodeFields_tableBody (some : fields ≠ []) (named : ∀ fl ∈ fields, fl.Named)
    (small : tableSpan fields < 2 ^ 32) : decodeFields fields.length (tableBody fields) = .ok fields := by
  have room := tableSpan_ge fields
  set count := fields.length with counted
  have names : ((tableBody fields).drop (10 * count)).rdropWhile (fun b => b = 0) =
      (nameBytes fields ++ zeros (tableSpan fields - (12 + 10 * count +
        (nameBytes fields).length))).rdropWhile fun b => b = 0 := by
    unfold tableBody
    rw [← append_assoc, ← append_assoc, ← append_assoc, drop_left']
    simp only [length_append, length_flatMap_put32, length_map]
    omega
  unfold decodeFields
  simp only [names, splitOn_trimmed some named, length_map, ← counted]
  rw [u32_eq (by omega), if_neg (lt_irrefl _)]
  congr 1
  apply ext_getElem (by simp [counted])
  intro i bound inside
  have words (f : CacheField → UInt32) : ((fields.map f).flatMap put32).length = 4 * count := by
    rw [length_flatMap_put32, length_map]
  have bytes (f : CacheField → UInt8) : (fields.map f).length = count := length_map _
  have lastUsed : get32 (i * 4) (tableBody fields) = fields[i].lastUsed := by
    unfold tableBody
    rw [get32_flatMap _ (by simpa using inside), getElem_map]
  have size : get32 (4 * count + i * 4) (tableBody fields) = fields[i].size := by
    unfold tableBody
    rw [get32_behind _ (by rw [words]; omega), words, Nat.add_sub_cancel_left,
      get32_flatMap _ (by simpa using inside), getElem_map]
  have type : get8 (8 * count + i) (tableBody fields) = fields[i].type := by
    have offset : 8 * count + i - 4 * count - 4 * count = i := by omega
    unfold tableBody
    rw [get8_behind _ (by rw [words]; omega), get8_behind _ (by rw [words, words]; omega), words,
      words, offset, get8_behind_bytes (by simpa using inside), getElem_map]
  have decision : get8 (9 * count + i) (tableBody fields) = fields[i].decision := by
    have offset : 9 * count + i - 4 * count - 4 * count - count = i := by omega
    unfold tableBody
    rw [get8_behind _ (by rw [words]; omega), get8_behind _ (by rw [words, words]; omega),
      get8_behind _ (by rw [words, words, bytes]; omega), words, words, bytes, offset,
      get8_behind_bytes (by simpa using inside), getElem_map]
  have name : (fields.map CacheField.name).getD i [] = fields[i].name := by
    rw [getD_eq_getElem _ _ (by simpa using inside), getElem_map]
  rw [getElem_map, getElem_range, lastUsed, size, type, decision, name]

/-! ## A record read back -/

/-- The first of the values for a field. -/
def firstValue (values : List CacheFieldValue) : CacheValues := fun id =>
  (values.find? fun v => v.fieldID = id).map CacheFieldValue.data

/-- What was read before wins over the values. -/
def CacheValues.merge (out : CacheValues) (values : List CacheFieldValue) : CacheValues := fun id =>
  (out id).or (firstValue values id)

theorem CacheValues.merge_nil (out : CacheValues) : out.merge [] = out := by
  funext id
  exact Option.or_none

theorem CacheValues.merge_append (out : CacheValues) (values later : List CacheFieldValue) :
    out.merge (values ++ later) = (out.merge values).merge later := by
  funext id
  simp [merge, firstValue, find?_append, Option.map_or, Option.or_assoc]

/-- A value is kept where the field has none yet. -/
theorem CacheValues.merge_cons (out : CacheValues) (v : CacheFieldValue) (rest : List CacheFieldValue) :
    out.merge (v :: rest) = .merge
      (if (out v.fieldID).isSome then out else Function.update out v.fieldID (some v.data)) rest := by
  funext id
  have first : firstValue (v :: rest) id =
      if v.fieldID = id then some v.data else firstValue rest id := by
    by_cases same : v.fieldID = id <;> simp [firstValue, same]
  unfold merge
  rw [first]
  by_cases same : v.fieldID = id
  · subst same
    cases held : out v.fieldID with
    | none => simp
    | some data => simp [held]
  · rw [if_neg same]
    split
    · rfl
    · rw [Function.update_of_ne (Ne.symm same)]

theorem encodeBody_cons {rest : List CacheFieldValue} (encoded : encodeBody fields (v :: rest) = .ok body) :
    ∃ bytes tail, encodeValue fields v = .ok bytes ∧ encodeBody fields rest = .ok tail ∧
      body = bytes ++ tail := by
  rw [encodeBody] at encoded
  split at encoded
  · rename_i bytes tail first later
    exact ⟨bytes, tail, first, later, (Except.ok.inj encoded).symm⟩
  · cases encoded
  · cases encoded

section

variable (encoded : encodeValue fields v = .ok bytes)

include encoded

/-- What an accepted value is written as. -/
theorem encodeValue_ok :
    ∃ fl, fields[v.fieldID.toNat]? = some fl ∧
      (fl.size = variableSize ∧ bytes = put32 v.fieldID ++ (put32 (.ofNat v.data.length) ++
          (v.data ++ zeros (pad4 v.data.length))) ∨
        fl.size ≠ variableSize ∧ .ofNat v.data.length = fl.size ∧
          bytes = put32 v.fieldID ++ (v.data ++ zeros (pad4 v.data.length))) := by
  unfold encodeValue at encoded
  split at encoded
  · cases encoded
  rename_i fl found
  refine ⟨fl, found, ?_⟩
  split at encoded
  · rename_i varying
    exact .inl ⟨varying, (Except.ok.inj encoded).symm⟩
  rename_i fixed
  split at encoded
  · cases encoded
  · rename_i sized
    exact .inr ⟨fixed, not_not.mp sized, (Except.ok.inj encoded).symm⟩

theorem length_encodeValue : 4 + v.data.length ≤ bytes.length ∧ bytes.length % 4 = 0 := by
  have aligned := add_pad4_mod v.data.length
  obtain ⟨fl, -, ⟨-, rfl⟩ | ⟨-, -, rfl⟩⟩ := encodeValue_ok encoded
  · simp only [length_append, length_put32, length_zeros]
    omega
  · simp only [length_append, length_put32, length_zeros]
    omega

theorem decodeValue_encodeValue (small : v.data.length < 2 ^ 32) (rest : Bytes) :
    decodeValue fields (bytes ++ rest) = .ok (v.fieldID, v.data, rest) := by
  have word : (UInt32.ofNat v.data.length).toNat = v.data.length := by
    rw [UInt32.toNat_ofNat']
    exact Nat.mod_eq_of_lt small
  have taken : (v.data ++ (zeros (pad4 v.data.length) ++ rest)).take v.data.length = v.data :=
    take_left' rfl
  have left : (v.data ++ (zeros (pad4 v.data.length) ++ rest)).drop
      (v.data.length + pad4 v.data.length) = rest := by
    rw [← append_assoc, drop_left' (by simp)]
  obtain ⟨fl, found, ⟨varying, rfl⟩ | ⟨fixed, sized, rfl⟩⟩ := encodeValue_ok encoded
  · unfold decodeValue
    simp only [append_assoc, get32_put32, drop_left' (length_put32 _), found, varying,
      true_and, if_true, word, taken, left]
    rw [if_neg (by simp), if_neg (by simp)]
  · unfold decodeValue
    have length : fl.size.toNat = v.data.length := by rw [← sized, word]
    simp only [append_assoc, get32_put32, drop_left' (length_put32 _), found, fixed,
      false_and, if_false, length, taken, left]
    rw [if_neg (by simp)]

end

theorem encodeBody_length_mod (encoded : encodeBody fields values = .ok body) : body.length % 4 = 0 := by
  induction values generalizing body with
  | nil =>
    rw [← Except.ok.inj encoded]
    rfl
  | cons v rest ih =>
    obtain ⟨bytes, tail, first, later, rfl⟩ := encodeBody_cons encoded
    have head := (length_encodeValue first).2
    have others := ih later
    rw [length_append]
    omega

/-- The loop over a body keeps the first value of every field that had none. -/
theorem decodeBody_encodeBody (encoded : encodeBody fields values = .ok body)
    (small : body.length < 2 ^ 32) {fuel : ℕ} (enough : body.length ≤ fuel) (out : CacheValues) :
    decodeBody fields fuel body out = .ok (out.merge values) := by
  induction values generalizing body fuel out with
  | nil =>
    rw [← Except.ok.inj encoded, out.merge_nil]
    cases fuel with
    | zero => rfl
    | succ fuel => rfl
  | cons v rest ih =>
    obtain ⟨bytes, tail, first, later, rfl⟩ := encodeBody_cons encoded
    have length := (length_encodeValue first).1
    rw [length_append] at small enough
    cases fuel with
    | zero => omega
    | succ fuel =>
      rw [decodeBody, if_neg (by rw [length_append]; omega),
        decodeValue_encodeValue first (by omega) tail, out.merge_cons]
      exact ih later (by omega) (by omega) _

/-- Fields added later do not change what a record is written as. -/
theorem encodeValue_grown (encoded : encodeValue fields v = .ok bytes) (more : List CacheField) :
    encodeValue (fields ++ more) v = .ok bytes := by
  obtain ⟨fl, found, -⟩ := encodeValue_ok encoded
  have inside : v.fieldID.toNat < fields.length := (List.getElem?_eq_some_iff.mp found).1
  rw [← encoded]
  unfold encodeValue
  rw [getElem?_append_left inside]

theorem encodeBody_grown (encoded : encodeBody fields values = .ok body) (more : List CacheField) :
    encodeBody (fields ++ more) values = .ok body := by
  induction values generalizing body with
  | nil => exact encoded
  | cons v rest ih =>
    obtain ⟨bytes, tail, first, later, rfl⟩ := encodeBody_cons encoded
    rw [encodeBody, encodeValue_grown first more, ih later]

end Yarilo.MailIndex

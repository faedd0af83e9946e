import Yarilo.FileIndex.Pairing
import Yarilo.Library.FramedLog

/-! # The log as bytes

The folder's log as the bytes on disk: the header, the framed records and the BOUNDARY mark before
each group. A replay decodes the bytes record by record. Records that `appendMutLog` writes decode
to themselves, so the byte-level replay of complete groups is the replay the folder model uses, and
what is left to say is what a torn tail does.
-/

namespace Yarilo.FileIndex

open Library MailIndex TxRecord Replay
open List hiding modify

/-- The low 28 bits of a type word; the rest are flags. -/
def txTypeMask : ℕ := 2 ^ 28

section Payloads

def decodeModseq (bs : Bytes) : ℕ × ℕ := (getLe 4 0 bs, getLe 4 4 bs + 2 ^ 32 * getLe 4 8 bs)

def decodeFlagUpdate (bs : Bytes) : FlagUpdate where
  uid1 := getLe 4 0 bs
  uid2 := getLe 4 4 bs
  add := BitVec.ofNat 8 (getLe 1 8 bs)
  remove := BitVec.ofNat 8 (getLe 1 9 bs)

/-- A piece of 28 bytes carries the expunge's modseq, one of 20 does not. -/
def decodeExpunge (stride : ℕ) (bs : Bytes) : Expunge where
  uid := getLe 4 0 bs
  guid := BitVec.ofNat 128 (getLe 16 4 bs)
  modseq := if stride = 28 then some (getLe 8 20 bs) else none

/-- The longer form is recognised by its length, unless the shorter one divides it too. -/
def expungeStride (payload : Bytes) : ℕ :=
  if 0 < payload.length ∧ payload.length % 28 = 0 ∧ payload.length % 20 ≠ 0 then 28 else 20

/-- The updates of a header record: offset and data, until one does not fit. -/
def decodeHeaderUpdates : ℕ → Bytes → List (ℕ × Bytes)
  | 0, _ => []
  | fuel + 1, payload =>
    if payload.length < 4 then []
    else
      let size := getLe 2 2 payload
      let rest := payload.drop 4
      if rest.length < size then []
      else (getLe 2 0 payload, rest.take size) ::
        decodeHeaderUpdates fuel (rest.drop (size + pad4 (4 + size)))

def recordSize : ℕ := 56

def decodeRecord (bs : Bytes) : Record where
  uid := getLe 4 0 bs
  flags := BitVec.ofNat 8 (getLe 1 4 bs)
  modseq := getLe 8 8 bs
  cache := some (getLe 4 16 bs)
  idate := some (getLe 4 20 bs)
  keywords := BitVec.ofNat 32 (getLe 4 24 bs)
  mdbox := some (getLe 4 28 bs, getLe 4 32 bs)
  vsize := getLe 4 36 bs
  guid := BitVec.ofNat 128 (getLe 16 40 bs)

def decodeRange (bs : Bytes) : ℕ × ℕ := (getLe 4 0 bs, getLe 4 4 bs)

/-- The mode, name and UID ranges of a keyword record; `none` when the name does not fit. -/
def decodeKeywordUpdate (payload : Bytes) : Option (KeywordModify × Keyword × List (ℕ × ℕ)) :=
  if payload.length < 4 then none
  else
    let nameLen := getLe 2 2 payload
    if payload.length < 4 + nameLen then none
    else
      let headerLen := 4 + nameLen
      some (if getLe 1 0 payload = 1 then .remove else .add, (payload.drop 4).take nameLen,
        (strides 8 (payload.drop (headerLen + pad4 headerLen))).map decodeRange)

/-- Registers the name once, then changes every range. -/
def Replay.applyKeywordRanges (s : Replay) (modify : KeywordModify) (name : Keyword)
    (ranges : List (ℕ × ℕ)) : Option Replay :=
  (keywordsBitmaskFor s.keywords [name]).map fun (bits, registry) =>
    ranges.foldl (fun s range => s.mapRecords (·.map fun r =>
        if inRange range.1 range.2 r then
          { r with keywords :=
            if modify = .remove then r.keywords &&& ~~~bits else r.keywords ||| bits }
        else r))
      { s with
        keywords := registry
        file := { s.file with ext := { s.file.ext with keywords := storedRegistry registry } } }

/-- Replays one record from its bytes; `none` is a record the replay stops at with an error. -/
def applyPayload (s : Replay) (kind : ℕ) (payload : Bytes) : Option Replay :=
  if kind = txTypeModseqUpdate then
    some (((strides 12 payload).map decodeModseq).foldl applyModseq s)
  else if kind = txTypeFlagUpdate then
    some (((strides 12 payload).map decodeFlagUpdate).foldl applyFlags s)
  else if kind = txTypeExpungeGUIDProt then
    let stride := expungeStride payload
    some (((strides stride payload).map (decodeExpunge stride)).foldl applyExpunge s)
  else if kind = txTypeHeaderUpdate then
    some ((decodeHeaderUpdates payload.length payload).foldl
      (fun s u => if u.2.length = 4 then s.applyHeader u.1 (leNat u.2) else s) s)
  else if kind = txTypeAppend then
    some (((strides recordSize payload).map decodeRecord).foldl applyAppend s)
  else if kind = txTypeKeywordUpdate then
    (decodeKeywordUpdate payload).bind fun (modify, name, ranges) =>
      s.applyKeywordRanges modify name ranges
  else if kind = txTypeKeywordReset then
    some (((strides 8 payload).map decodeRange).foldl
      (fun s range => s.applyKeywordReset range.1 range.2) s)
  else if kind = txTypeExpunge ∨ kind = txTypeExpungeGUID then some s
  else none

end Payloads

section Records

/-- The fields of a record fit the words they are written to. -/
structure Record.Fits (r : Record) : Prop where
  uid : r.uid < 2 ^ 32
  modseq : r.modseq < 2 ^ 64
  cache : r.cache.getD 0 < 2 ^ 32
  idate : r.idate.getD 0 < 2 ^ 32
  mapUID : (r.mdbox.getD (0, 0)).1 < 2 ^ 32
  saveDate : (r.mdbox.getD (0, 0)).2 < 2 ^ 32
  vsize : r.vsize < 2 ^ 32

/-- The fields of a log record fit the words they are written to. A writer logs one expunge at a
time. -/
def TxRecord.Fits : TxRecord → Prop
  | .modseqUpdate updates => ∀ u ∈ updates, u.1 < 2 ^ 32 ∧ u.2 < 2 ^ 64
  | .flagUpdate updates => ∀ u ∈ updates, u.uid1 < 2 ^ 32 ∧ u.uid2 < 2 ^ 32
  | .expungeGUID expunges => ∃ e, expunges = [e] ∧ e.uid < 2 ^ 32 ∧ ∀ modseq ∈ e.modseq, modseq < 2 ^ 64
  | .headerUpdate offset value => offset < 2 ^ 16 ∧ value < 2 ^ 32
  | .append records => ∀ r ∈ records, r.Fits
  | .keywordUpdate _ name uid1 uid2 => name.length < 2 ^ 16 ∧ uid1 < 2 ^ 32 ∧ uid2 < 2 ^ 32
  | .keywordReset uid1 uid2 => uid1 < 2 ^ 32 ∧ uid2 < 2 ^ 32

theorem decodeModseq_encode {u : ℕ × ℕ} (uid : u.1 < 2 ^ 32) (modseq : u.2 < 2 ^ 64) :
    decodeModseq (putLe 4 u.1 ++ putLe 8 u.2) = u := by
  have split : putLe 8 u.2 = putLe 4 u.2 ++ putLe 4 (u.2 / 256 ^ 4) := putLe_add 4 4 u.2
  unfold decodeModseq
  rw [split]
  simp (disch := decide) only [getLe_putLe, getLe_skip, getLe_putLe_nil, Nat.reduceSub]
  refine Prod.ext (Nat.mod_eq_of_lt uid) ?_
  omega

variable {n uid1 uid2 : ℕ} {α β : Type}

theorem mod_four (bound : n < 2 ^ 32) : n % 256 ^ 4 = n := Nat.mod_eq_of_lt bound

theorem mod_eight (bound : n < 2 ^ 64) : n % 256 ^ 8 = n := Nat.mod_eq_of_lt bound

theorem ofNat_toNat_mod (width : ℕ) (flags : BitVec (8 * width)) :
    .ofNat (8 * width) (flags.toNat % 256 ^ width) = flags := by
  have bound : flags.toNat < 256 ^ width := by
    have lt := flags.isLt
    rwa [pow_mul] at lt
  rw [Nat.mod_eq_of_lt bound, BitVec.ofNat_toNat, BitVec.setWidth_eq]

theorem decodeFlagUpdate_encode {u : FlagUpdate} (uid1 : u.uid1 < 2 ^ 32) (uid2 : u.uid2 < 2 ^ 32) :
    decodeFlagUpdate (putLe 4 u.uid1 ++ putLe 4 u.uid2 ++ putLe 1 u.add.toNat ++
      putLe 1 u.remove.toNat ++ [0, 0]) = u := by
  have add : .ofNat 8 (u.add.toNat % 256 ^ 1) = u.add := ofNat_toNat_mod 1 u.add
  have remove : .ofNat 8 (u.remove.toNat % 256 ^ 1) = u.remove := ofNat_toNat_mod 1 u.remove
  unfold decodeFlagUpdate
  simp (disch := decide) only [append_assoc, getLe_putLe, getLe_skip, Nat.reduceSub, add, remove]
  rw [mod_four uid1, mod_four uid2]

theorem decodeExpunge_encode {e : Expunge} (uid : e.uid < 2 ^ 32)
    (modseq : ∀ modseq ∈ e.modseq, modseq < 2 ^ 64) :
    decodeExpunge (if e.modseq.isSome then 28 else 20)
      (putLe 4 e.uid ++ putLe 16 e.guid.toNat ++ (e.modseq.map (putLe 8)).getD []) = e := by
  obtain ⟨uid', guid', modseq'⟩ := e
  have guid : .ofNat 128 (guid'.toNat % 256 ^ 16) = guid' := ofNat_toNat_mod 16 guid'
  change uid' < 2 ^ 32 at uid
  unfold decodeExpunge
  cases modseq' with
  | none =>
    simp (disch := decide) only [append_assoc, getLe_putLe, getLe_skip, Nat.reduceSub,
      Option.map_none, Option.getD_none, guid]
    rw [mod_four uid]
    rfl
  | some modseq' =>
    simp (disch := decide) only [append_assoc, getLe_putLe, getLe_skip, Nat.reduceSub,
      Option.map_some, Option.getD_some, getLe_putLe_nil, guid]
    rw [mod_four uid, mod_eight (modseq modseq' rfl)]
    rfl

theorem length_encodeRecord (r : Record) : (encodeRecord r).length = recordSize := by
  simp [encodeRecord, recordSize]

/-- A record is read back with its missing slots as zeros. -/
theorem decodeRecord_encode {r : Record} (fits : r.Fits) : decodeRecord (encodeRecord r) = r.stored := by
  have flags : .ofNat 8 (r.flags.toNat % 256 ^ 1) = r.flags := ofNat_toNat_mod 1 r.flags
  have keywords : .ofNat 32 (r.keywords.toNat % 256 ^ 4) = r.keywords := ofNat_toNat_mod 4 r.keywords
  have guid : .ofNat 128 (r.guid.toNat % 256 ^ 16) = r.guid := ofNat_toNat_mod 16 r.guid
  unfold decodeRecord encodeRecord
  simp (disch := decide) only [append_assoc, cons_append, nil_append, getLe_putLe,
    getLe_skip, getLe_putLe_nil, getLe_cons, Nat.reduceSub, flags, keywords, guid]
  rw [mod_four fits.uid, mod_eight fits.modseq, mod_four fits.vsize, mod_four fits.idate,
    mod_four fits.mapUID, mod_four fits.saveDate, mod_four fits.cache]
  rfl

theorem decodeRange_encode (first : uid1 < 2 ^ 32) (last : uid2 < 2 ^ 32) :
    decodeRange (putLe 4 uid1 ++ putLe 4 uid2) = (uid1, uid2) := by
  unfold decodeRange
  simp (disch := decide) only [getLe_putLe, getLe_skip, getLe_putLe_nil, Nat.reduceSub]
  rw [mod_four first, mod_four last]

/-- Entries of one width, written one behind the other, are read back in order. -/
theorem strides_decode (width : ℕ) (pos : 0 < width) (encode : α → Bytes) (decode : Bytes → β)
    (image : α → β) (xs : List α) (length : ∀ x ∈ xs, (encode x).length = width)
    (decoded : ∀ x ∈ xs, decode (encode x) = image x) :
    (strides width (xs.flatMap encode)).map decode = xs.map image := by
  rw [strides_flatMap pos encode xs length, map_map]
  exact map_congr_left decoded

theorem strides_decode_one {width : ℕ} (pos : 0 < width) (decode : Bytes → β) {bs : Bytes}
    (length : bs.length = width) : (strides width bs).map decode = [decode bs] := by
  have one := strides_decode width pos (fun bs : Bytes => bs) decode decode [bs]
    (fun x member => by rwa [mem_singleton.mp member]) fun _ _ => rfl
  simpa using one

theorem decodeHeaderUpdates_encode {offset : ℕ} (bound : offset < 2 ^ 16) (value fuel : ℕ) :
    decodeHeaderUpdates (fuel + 2) (putLe 2 offset ++ putLe 2 4 ++ putLe 4 value) =
      [(offset, putLe 4 value)] := by
  have small : offset % 256 ^ 2 = offset := Nat.mod_eq_of_lt bound
  have size : getLe 2 2 (putLe 2 offset ++ (putLe 2 4 ++ putLe 4 value)) = 4 := by
    rw [getLe_skip _ _ _ (by decide), Nat.sub_self, getLe_putLe]
    decide
  have rest : (putLe 2 offset ++ (putLe 2 4 ++ putLe 4 value)).drop 4 = putLe 4 value := by
    rw [← append_assoc, drop_left' (by simp)]
  rw [append_assoc]
  unfold decodeHeaderUpdates
  rw [if_neg (by simp)]
  rw [size, rest, if_neg (by simp), getLe_putLe, small, take_of_length_le (by simp),
    drop_eq_nil_of_le (by simp)]
  rfl

theorem decodeKeywordUpdate_encode {modify : KeywordModify} {name : Keyword}
    (length : name.length < 2 ^ 16) (first : uid1 < 2 ^ 32) (last : uid2 < 2 ^ 32) :
    decodeKeywordUpdate (TxRecord.keywordUpdate modify name uid1 uid2).payload =
      some (modify, name, [(uid1, uid2)]) := by
  have small : name.length % 256 ^ 2 = name.length := Nat.mod_eq_of_lt length
  have shape : (keywordUpdate modify name uid1 uid2).payload =
      [if modify = .remove then 1 else 0, 0] ++ putLe 2 name.length ++ name ++
        replicate (pad4 (4 + name.length)) 0 ++ (putLe 4 uid1 ++ putLe 4 uid2) := by
    simp [payload]
  generalize (keywordUpdate modify name uid1 uid2).payload = payload at shape
  have size : payload.length = 4 + name.length + pad4 (4 + name.length) + 8 := by
    simp [shape]; omega
  have nameLen : getLe 2 2 payload = name.length := by
    simp only [shape, append_assoc, cons_append, nil_append, getLe_cons, getLe_putLe, small]
  have mode : (if getLe 1 0 payload = 1 then .remove else .add) = modify := by
    rw [shape]
    cases modify <;> rfl
  have read : (payload.drop 4).take name.length = name := by
    rw [shape, append_assoc, append_assoc, drop_left' (by simp), take_left]
  have ranges : payload.drop (4 + name.length + pad4 (4 + name.length)) = putLe 4 uid1 ++ putLe 4 uid2 := by
    rw [shape, drop_left']
    simp only [length_append, length_cons, length_nil, length_putLe, length_replicate]
  unfold decodeKeywordUpdate
  rw [if_neg (by omega)]
  dsimp only
  rw [nameLen, if_neg (by omega), mode, read, ranges,
    strides_decode_one (by decide) decodeRange (by simp), decodeRange_encode first last]

/-- A record a writer logged is replayed from its bytes as the record it is. -/
theorem applyPayload_encode (s : Replay) {tx : TxRecord} (fits : tx.Fits) :
    applyPayload s tx.type tx.payload = applyTx s tx := by
  cases tx with
  | modseqUpdate updates =>
    have decoded := strides_decode 12 (by decide) (fun u : ℕ × ℕ => putLe 4 u.1 ++ putLe 8 u.2)
      decodeModseq id updates (fun _ _ => by simp)
      fun u member => decodeModseq_encode (fits u member).1 (fits u member).2
    rw [map_id] at decoded
    exact congrArg (fun us => some (us.foldl applyModseq s)) decoded
  | flagUpdate updates =>
    have decoded := strides_decode 12 (by decide) (fun u : FlagUpdate =>
        putLe 4 u.uid1 ++ putLe 4 u.uid2 ++ putLe 1 u.add.toNat ++ putLe 1 u.remove.toNat ++ [0, 0])
      decodeFlagUpdate id updates (fun _ _ => by simp)
      fun u member => decodeFlagUpdate_encode (fits u member).1 (fits u member).2
    rw [map_id] at decoded
    exact congrArg (fun us => some (us.foldl applyFlags s)) decoded
  | expungeGUID expunges =>
    obtain ⟨e, rfl, uid, modseq⟩ := fits
    have stride : expungeStride (expungeGUID [e]).payload =
        if e.modseq.isSome then 28 else 20 := by
      obtain ⟨uid', guid', modseq'⟩ := e
      cases modseq' <;> simp [expungeStride, payload]
    have length : (expungeGUID [e]).payload.length = if e.modseq.isSome then 28 else 20 := by
      obtain ⟨uid', guid', modseq'⟩ := e
      cases modseq' <;> simp [payload]
    have decoded : decodeExpunge (if e.modseq.isSome then 28 else 20)
        (expungeGUID [e]).payload = e := by
      rw [payload, flatMap_singleton]
      exact decodeExpunge_encode uid modseq
    show some (((strides (expungeStride (expungeGUID [e]).payload) _).map
      (decodeExpunge (expungeStride _))).foldl applyExpunge s) = _
    rw [stride, strides_decode_one (by split <;> decide) _ length, decoded]
    rfl
  | headerUpdate offset value =>
    have value' : leNat (putLe 4 value) = value := by rw [leNat_putLe, mod_four fits.2]
    have decoded := decodeHeaderUpdates_encode fits.1 value 6
    have length : (headerUpdate offset value).payload.length = 6 + 2 := by
      simp [payload]
    show some ((decodeHeaderUpdates (headerUpdate offset value).payload.length
      (putLe 2 offset ++ putLe 2 4 ++ putLe 4 value)).foldl _ s) = _
    rw [length, decoded]
    simp [applyTx, value']
  | append records =>
    have decoded := strides_decode recordSize (by decide) encodeRecord decodeRecord .stored records
      (fun r _ => length_encodeRecord r) fun r member => decodeRecord_encode (fits r member)
    show some (((strides recordSize (records.flatMap encodeRecord)).map decodeRecord).foldl
      applyAppend s) = some (records.foldl applyAppend s)
    rw [decoded, foldl_map]
    rfl
  | keywordUpdate modify name uid1 uid2 =>
    obtain ⟨length, first, last⟩ := fits
    show (decodeKeywordUpdate _).bind _ = s.applyKeyword modify name uid1 uid2
    rw [decodeKeywordUpdate_encode length first last]
    rfl
  | keywordReset uid1 uid2 =>
    show some (((strides 8 (putLe 4 uid1 ++ putLe 4 uid2)).map decodeRange).foldl _ s) = _
    rw [strides_decode_one (by decide) decodeRange (by simp), decodeRange_encode fits.1 fits.2]
    rfl

theorem length_flatMap_mod (encode : α → Bytes) (xs : List α)
    (aligned : ∀ x ∈ xs, (encode x).length % 4 = 0) : (xs.flatMap encode).length % 4 = 0 := by
  induction xs with
  | nil => rfl
  | cons x xs ih =>
    have first := aligned x (.head _)
    have rest := ih fun y member => aligned y (.tail _ member)
    rw [flatMap_cons, length_append]
    omega

theorem payload_aligned (tx : TxRecord) : tx.payload.length % 4 = 0 := by
  cases tx with
  | modseqUpdate updates => exact length_flatMap_mod _ _ fun _ _ => by simp
  | flagUpdate updates => exact length_flatMap_mod _ _ fun _ _ => by simp
  | expungeGUID expunges =>
    refine length_flatMap_mod _ _ fun e _ => ?_
    cases e.modseq <;> simp
  | headerUpdate offset value => simp [payload]
  | append records =>
    exact length_flatMap_mod _ _ fun r _ => by rw [length_encodeRecord]; rfl
  | keywordUpdate modify name uid1 uid2 =>
    have padded := add_pad4_mod (4 + name.length)
    simp only [payload, length_append, length_cons, length_nil, length_putLe,
      length_replicate]
    omega
  | keywordReset uid1 uid2 => simp [payload]

end Records

section Replay

open FramedLog

/-- Records behind an eight-byte header with a framed size. -/
def logFormat : Format ℕ where
  header := 8
  header_pos := by decide
  encode kind payload := encodeTxHeader { size := 8 + payload.length, type := kind } ++ payload
  decode buf := (decodeTxHeader buf).map fun h => (h.size - 8, h.type % txTypeMask)
  Valid kind payload := kind < txTypeMask ∧ 8 + payload.length < 2 ^ 30 ∧ payload.length % 4 = 0
  length_encode _ := by simp
  decode_encode := by
    rintro kind payload ⟨small, bound, aligned⟩
    have wide : kind < 2 ^ 32 := small.trans (by decide)
    rw [List.take_left' (length_encodeTxHeader _),
      decodeTxHeader_encode (Nat.le_add_right 8 _) bound (by show (8 + _) % 4 = 0; omega) wide]
    simp [Nat.mod_eq_of_lt small]
  drop_encode _ := List.drop_left' (length_encodeTxHeader _)

def logReader : Reader ℕ Replay where
  isMark kind := kind = txTypeBoundary
  declared payload := if 4 ≤ payload.length then some (getLe 4 0 payload) else none
  apply := applyPayload

/-- A group's mark is a BOUNDARY record whose payload is the size of the group with its mark. -/
def boundary : Marking logFormat logReader where
  kind := txTypeBoundary
  payload := putLe 4
  width := 4
  limit := 2 ^ 32
  isMark := by decide
  length_payload _ := length_putLe ..
  valid size := ⟨by decide, by simp, by simp⟩
  declared size bound := by
    simp only [logReader, length_putLe, le_refl, if_true, getLe_putLe_nil, mod_four bound]

structure LogRead where
  content : Content
  offset : ℕ
  file : Bytes
  /-- False when the read ended with an error. -/
  ok : Bool
deriving DecidableEq

/-- `applyLogFrom` on the bytes of the log: the file in memory, the offset taken as applied, and the
log file afterwards. -/
def applyLogBytes (c : Content) (file : Bytes) (fromOffset : ℕ) : LogRead :=
  match decodeLogHeader file with
  | none => ⟨c, fromOffset, file, true⟩
  | some hdr =>
    if hdr.indexID ≠ c.file.header.indexID then ⟨c, fromOffset, file, false⟩
    else
      let start := max fromOffset logHeaderSize
      let pos := if fromOffset = 0 then logHeaderSize else fromOffset
      match scan logFormat logReader file.length ⟨c.startReplay, pos, pos⟩ (file.drop start) with
      | (s, false) => ⟨s.state.toContent, s.committed, file, false⟩
      | (s, true) =>
        -- only a full replay cuts the part it read and could not confirm
        ⟨s.state.finish, s.committed,
          if fromOffset = 0 ∧ 0 < s.committed ∧ s.committed < s.pos then file.take s.committed
          else file, true⟩

/-- The bytes `appendMutLog` writes for a group. -/
def encodeGroup (group : Group) : Bytes :=
  encodeTxHeader { size := boundarySize, type := txTypeBoundary } ++ putLe 4 (groupSize group) ++
    group.flatMap TxRecord.encode

/-- A group whose fields and sizes fit the words they are written to. -/
structure Group.Fits (group : Group) : Prop where
  record : ∀ tx ∈ group, tx.Fits ∧ tx.size < 2 ^ 30
  size : groupSize group < 2 ^ 32

/-- The records of a group as the format sees them. -/
def framed (group : Group) : List (ℕ × Bytes) := group.map fun tx => (tx.type, tx.payload)

theorem encodeAll_framed (group : Group) :
    encodeAll logFormat (framed group) = group.flatMap TxRecord.encode := by
  rw [encodeAll, framed, flatMap_map]
  rfl

theorem length_encode (tx : TxRecord) : tx.encode.length = tx.size := by
  simp [encode, size]

theorem boundary_size (group : Group) : boundary.size (framed group) = groupSize group := by
  have length : (group.flatMap encode).length = (group.map size).sum := by
    rw [length_flatMap]
    simp [length_encode]
  rw [Marking.size, encodeAll_framed, length]
  rfl

theorem boundary_encode (group : Group) : boundary.encode (framed group) = encodeGroup group := by
  rw [Marking.encode, boundary_size, encodeAll_framed, encodeGroup]
  rfl

theorem type_lt_mask (tx : TxRecord) : tx.type < txTypeMask ∧ tx.type ≠ txTypeBoundary := by
  cases tx <;> constructor <;>
    simp [type, txTypeMask, txTypeBoundary, txTypeModseqUpdate, txTypeFlagUpdate,
      txTypeExpungeGUIDProt, txTypeHeaderUpdate, txTypeAppend, txTypeKeywordUpdate,
      txTypeKeywordReset]

variable {group : Group}

theorem Group.Fits.written (fits : group.Fits) : boundary.Written (framed group) := by
  refine ⟨?_, by rw [boundary_size]; exact fits.size⟩
  intro r member
  obtain ⟨tx, inside, rfl⟩ := mem_map.mp member
  obtain ⟨small, plain⟩ := type_lt_mask tx
  exact ⟨⟨small, (fits.record tx inside).2, payload_aligned tx⟩, decide_eq_false plain⟩

theorem applyAll_framed (s : Replay) (fits : ∀ tx ∈ group, tx.Fits) :
    applyAll logReader s (framed group) = applyTxs s group := by
  induction group generalizing s with
  | nil => rfl
  | cons tx group ih =>
    have first : logReader.apply s tx.type tx.payload = applyTx s tx :=
      applyPayload_encode s (fits tx (.head _))
    rw [framed, map_cons, applyAll, first, applyTxs]
    cases applyTx s tx with
    | none => rfl
    | some middle => exact ih middle fun tx member => fits tx (.tail _ member)

theorem length_newLogHeader (indexID fileSeq createStamp : ℕ) :
    (newLogHeader indexID fileSeq createStamp).encodeBytes.length = logHeaderSize := by
  simp [LogHeader.encodeBytes, logHeaderSize]

theorem decodeLogHeader_new {indexID : ℕ} (bound : indexID < 2 ^ 32) (fileSeq createStamp : ℕ)
    (rest : Bytes) :
    ∃ hdr, decodeLogHeader ((newLogHeader indexID fileSeq createStamp).encodeBytes ++ rest) =
      some hdr ∧ hdr.indexID = indexID := by
  have length := length_newLogHeader indexID fileSeq createStamp
  have size : getLe 2 2 ((newLogHeader indexID fileSeq createStamp).encodeBytes ++ rest) =
      logHeaderSize := by
    unfold LogHeader.encodeBytes newLogHeader
    simp (disch := decide) only [append_assoc, cons_append, nil_append, getLe_cons,
      getLe_putLe]
    decide
  have word : getLe 4 4 (newLogHeader indexID fileSeq createStamp).encodeBytes = indexID := by
    unfold LogHeader.encodeBytes newLogHeader
    simp (disch := decide) only [append_assoc, cons_append, nil_append, getLe_cons,
      getLe_skip, Nat.reduceSub, getLe_putLe]
    exact mod_four bound
  have major : ∀ rest, getLe 1 0 ((newLogHeader indexID fileSeq createStamp).encodeBytes ++ rest) =
      logMajorVersion := fun _ => rfl
  generalize (newLogHeader indexID fileSeq createStamp).encodeBytes = head at *
  have buf : (head ++ rest).take logHeaderSize ++ replicate (logHeaderSize - logHeaderSize) 0 = head := by
    rw [take_left' length]
    simp
  unfold decodeLogHeader
  rw [if_neg (by rw [length_append, length]; show ¬40 + _ < 4; omega), major, if_neg (not_not.mpr rfl)]
  rw [size, if_neg (by decide), if_neg (by rw [length_append, length]; omega), buf]
  exact ⟨_, rfl, word⟩

/-- Whether the registry takes every name the groups bring. -/
def NamesFit (registry : Registry) (groups : List Group) : Prop :=
  (groups.flatten.foldlM keywordStep registry).isSome = true

/-- A log file after a crash in the middle of a write: complete groups, and a proper part of one
more. -/
structure TornLog where
  base : Content
  fileSeq : ℕ
  createStamp : ℕ
  groups : List Group
  torn : Group
  cut : ℕ
  indexID : base.file.header.indexID < 2 ^ 32
  complete_fits : ∀ group ∈ groups, group.Fits
  torn_fits : torn.Fits
  proper : cut < groupSize torn

namespace TornLog

variable (log : TornLog) {state : Replay}

def header : Bytes := (newLogHeader log.base.file.header.indexID log.fileSeq log.createStamp).encodeBytes

/-- The log up to its last complete group. -/
def complete : Bytes := log.header ++ log.groups.flatMap encodeGroup

def file : Bytes := log.complete ++ (encodeGroup log.torn).take log.cut

/-- The state of the complete groups, the offset behind them, and the log cut there. -/
def Recovers : Prop := applyLogBytes log.base log.file 0 =
    ⟨(log.base.replay log.groups).1, log.complete.length, log.complete, true⟩

theorem encodeGroups_framed (groups : List Group) :
    encodeGroups boundary (groups.map framed) = groups.flatMap encodeGroup := by
  rw [encodeGroups, flatMap_map]
  simp [boundary_encode]

theorem length_complete :
    log.complete.length = logHeaderSize + (encodeGroups boundary (log.groups.map framed)).length := by
  rw [complete, length_append, header, length_newLogHeader, encodeGroups_framed]

theorem length_encodeGroup (group : Group) : (encodeGroup group).length = groupSize group := by
  rw [← boundary_encode, Marking.length_encode, boundary_size]

theorem length_file : log.file.length = log.complete.length + log.cut := by
  have proper := log.proper
  rw [file, length_append, length_take, length_encodeGroup]
  omega

theorem drop_header : log.file.drop logHeaderSize = encodeGroups boundary (log.groups.map framed) ++
      (boundary.encode (framed log.torn)).take log.cut := by
  rw [file, complete, header, append_assoc, drop_left' (length_newLogHeader ..),
    encodeGroups_framed, boundary_encode]

theorem written : ∀ group ∈ log.groups.map framed, boundary.Written group := by
  intro group member
  obtain ⟨group, inside, rfl⟩ := mem_map.mp member
  exact (log.complete_fits group inside).written

theorem applyAll_groups (s : Replay) :
    applyAll logReader s (log.groups.map framed).flatten = applyTxs s log.groups.flatten := by
  have flat : (log.groups.map framed).flatten = framed log.groups.flatten := by
    rw [framed, map_flatten]
    rfl
  rw [flat]
  refine applyAll_framed s fun tx member => ?_
  obtain ⟨group, inside, member⟩ := mem_flatten.mp member
  exact ((log.complete_fits group inside).record tx member).1

/-- A full replay scans what follows the header. -/
theorem applyLogBytes_file : applyLogBytes log.base log.file 0 =
      match scan logFormat logReader log.file.length
        ⟨log.base.startReplay, logHeaderSize, logHeaderSize⟩ (log.file.drop logHeaderSize) with
      | (s, false) => ⟨s.state.toContent, s.committed, log.file, false⟩
      | (s, true) => ⟨s.state.finish, s.committed,
          if 0 < s.committed ∧ s.committed < s.pos then log.file.take s.committed else log.file,
          true⟩ := by
  obtain ⟨hdr, decoded, same⟩ := decodeLogHeader_new log.indexID log.fileSeq log.createStamp
    (log.groups.flatMap encodeGroup ++ (encodeGroup log.torn).take log.cut)
  have shape : log.file = log.header ++
      (log.groups.flatMap encodeGroup ++ (encodeGroup log.torn).take log.cut) := by
    rw [file, complete, append_assoc]
  rw [applyLogBytes]
  rw [show decodeLogHeader log.file = some hdr by rw [shape]; exact decoded]
  dsimp only
  rw [if_neg (not_not.mpr same)]
  simp

/-- Enough fuel for every record and one more. -/
theorem fuel_split : ∃ fuel, log.file.length =
    ((log.groups.map framed).map fun g => g.length + 1).sum + (fuel + 1) := by
  have enough := length_encodeGroups_ge boundary log.written
  have length := log.length_file
  rw [length_complete] at length
  have header : logHeaderSize = 40 := rfl
  exact ⟨log.file.length - ((log.groups.map framed).map fun g => g.length + 1).sum - 1, by omega⟩

section

variable (accepted : applyTxs log.base.startReplay log.groups.flatten = (state, true))

include accepted

theorem scan_complete : ∃ fuel, scan logFormat logReader log.file.length
        ⟨log.base.startReplay, logHeaderSize, logHeaderSize⟩ (log.file.drop logHeaderSize) =
      scan logFormat logReader (fuel + 1) ⟨state, log.complete.length, log.complete.length⟩
        ((boundary.encode (framed log.torn)).take log.cut) := by
  obtain ⟨fuel, fuels⟩ := log.fuel_split
  rw [drop_header, fuels, length_complete]
  obtain ⟨stop, scanned⟩ := scan_groups (s := ⟨log.base.startReplay, logHeaderSize, logHeaderSize⟩) boundary
    log.written rfl
  rw [log.applyAll_groups, accepted] at scanned
  exact ⟨fuel, scanned⟩

theorem replay_accepted : (log.base.replay log.groups).1 = state.finish := by
  rw [Content.replay, accepted]

/-- A tail that ends inside its BOUNDARY record is cut away. -/
theorem recovers_of_torn_mark (torn : log.cut < boundarySize) : log.Recovers := by
  obtain ⟨fuel, scanned⟩ := log.scan_complete accepted
  have taken : log.file.take log.complete.length = log.complete := take_left
  have positive : 0 < log.complete.length := by
    rw [length_complete]
    exact Nat.add_pos_left (by decide) _
  rw [Recovers, applyLogBytes_file, scanned,
    scan_torn_mark (s := ⟨state, log.complete.length, log.complete.length⟩) boundary _ torn]
  dsimp only
  rw [log.replay_accepted accepted]
  by_cases any : 0 < log.cut
  · rw [if_pos ⟨positive, by omega⟩, taken]
  have whole : log.file = log.complete := by
    rw [file, Nat.eq_zero_of_not_pos any, take_zero, append_nil]
  rw [if_neg (by omega), whole]

/-- A tail that holds its whole BOUNDARY record is taken as confirmed to the end it declares. -/
theorem offset_of_torn_records (past : boundarySize ≤ log.cut) :
    (applyLogBytes log.base log.file 0).offset = log.complete.length + groupSize log.torn := by
  obtain ⟨fuel, scanned⟩ := log.scan_complete accepted
  have committed : (scan logFormat logReader (fuel + 1)
      ⟨state, log.complete.length, log.complete.length⟩
      ((boundary.encode (framed log.torn)).take log.cut)).1.committed =
      log.complete.length + groupSize log.torn := by
    rw [scan_torn_records boundary log.torn_fits.written past, boundary_size]
  rw [applyLogBytes_file, scanned]
  split <;> rename_i found <;> rw [found] at committed <;> exact committed

end

theorem refused_of_names (refused : applyTxs log.base.startReplay log.groups.flatten = (state, false)) :
    (applyLogBytes log.base log.file 0).ok = false := by
  obtain ⟨fuel, fuels⟩ := log.fuel_split
  obtain ⟨stop, scanned⟩ := scan_groups (s := ⟨log.base.startReplay, logHeaderSize, logHeaderSize⟩) boundary
    log.written rfl
  rw [log.applyAll_groups, refused] at scanned
  rw [applyLogBytes_file, drop_header, fuels, scanned]
  rfl

end TornLog

/-- A crash in the middle of a write is undone exactly when the part that reached the log ends
inside its BOUNDARY record. -/
theorem torn_tail_recovered_iff (log : TornLog) :
    log.Recovers ↔ NamesFit log.base.keywords log.groups ∧ log.cut < boundarySize := by
  have names := applyTxs_accepted log.base.startReplay log.groups.flatten
  have fit : NamesFit log.base.keywords log.groups ↔
      (applyTxs log.base.startReplay log.groups.flatten).2 = true := by
    rw [names]
    rfl
  rw [fit]
  cases result : applyTxs log.base.startReplay log.groups.flatten with
  | mk state accepted =>
  cases accepted with
  | true =>
    constructor
    · intro recovers
      refine ⟨rfl, ?_⟩
      by_contra past
      have offset := log.offset_of_torn_records result (Nat.le_of_not_lt past)
      have proper := log.proper
      rw [recovers] at offset
      change log.complete.length = _ at offset
      omega
    · rintro ⟨_, torn⟩
      exact log.recovers_of_torn_mark result torn
  | false =>
    have refused := log.refused_of_names result
    constructor
    · intro recovers
      rw [recovers] at refused
      cases refused
    · rintro ⟨accepted, _⟩
      cases accepted

/-- An append to a folder just created, torn behind its first record. -/
def tornAppend : TornLog where
  base := (createFresh 7 9).fs.toContent
  fileSeq := 1
  createStamp := 0
  groups := []
  torn := [.append [⟨1, flagSeen, 1, 0, 10, 0, none, none, none⟩], .headerUpdate 28 2]
  cut := 76
  indexID := by decide
  complete_fits := by simp
  torn_fits := by
    refine ⟨?_, by decide⟩
    intro tx member
    obtain rfl | rfl : tx = .append [⟨1, flagSeen, 1, 0, 10, 0, none, none, none⟩] ∨
        tx = .headerUpdate 28 2 := by simpa using member
    · refine ⟨?_, by decide⟩
      intro r inside
      obtain rfl := List.mem_singleton.mp inside
      constructor <;> decide
    · exact ⟨by constructor <;> decide, by decide⟩
  proper := by decide

/-- The replay shows the message of the torn append, reports an offset behind the end of the file
and leaves the tail in place. -/
theorem torn_append_replayed : NamesFit tornAppend.base.keywords tornAppend.groups ∧ ¬tornAppend.Recovers ∧
      (applyLogBytes tornAppend.base tornAppend.file 0).content ≠
        (tornAppend.base.replay tornAppend.groups).1 ∧
      tornAppend.file.length < (applyLogBytes tornAppend.base tornAppend.file 0).offset ∧
      (applyLogBytes tornAppend.base tornAppend.file 0).file = tornAppend.file := by
  unfold NamesFit TornLog.Recovers
  decide +kernel

end Replay

end Yarilo.FileIndex

import Yarilo.Library.Bytes

/-! # Scanning a log of framed records

A log is a sequence of records, each a fixed-width header that states the payload's length and the
record's kind. A scan reads record after record and stops at the first one it cannot complete.
Records come in groups behind a mark that declares the size of its group, and the scan takes a
group's end as confirmed when it meets the mark. The lemmas say what a scan does with complete
groups and with every proper part of one more group.
-/

namespace Yarilo.Library.FramedLog

open List

variable {κ σ : Type} {cut : ℕ} {state : σ} {records more : List (κ × Bytes)}

/-- How records are framed. -/
structure Format (κ : Type) where
  header : ℕ
  header_pos : 0 < header
  encode : κ → Bytes → Bytes
  /-- The payload length and kind a header announces. -/
  decode : Bytes → Option (ℕ × κ)
  Valid : κ → Bytes → Prop
  length_encode : ∀ {kind payload}, Valid kind payload →
    (encode kind payload).length = header + payload.length
  decode_encode : ∀ {kind payload}, Valid kind payload →
    decode ((encode kind payload).take header) = some (payload.length, kind)
  drop_encode : ∀ {kind payload}, Valid kind payload → (encode kind payload).drop header = payload

/-- What a reader does with a record: a mark declares the size of its group, any other record
changes the state or is refused. -/
structure Reader (κ σ : Type) where
  isMark : κ → Bool
  declared : Bytes → Option ℕ
  apply : σ → κ → Bytes → Option σ

/-- The state of a scan: how far it has read and up to where it takes the log as confirmed. -/
structure Scan (σ : Type) where
  state : σ
  pos : ℕ
  committed : ℕ

/-- Reads records until one is incomplete. The flag is false when a record was refused. -/
def scan (F : Format κ) (R : Reader κ σ) : ℕ → Scan σ → Bytes → Scan σ × Bool
  | 0, s, _ => (s, true)
  | fuel + 1, s, rest =>
    if rest.length < F.header then ({ s with pos := s.pos + rest.length }, true)
    else
      match F.decode (rest.take F.header) with
      | none => ({ s with pos := s.pos + F.header }, true)
      | some (size, kind) =>
        let body := rest.drop F.header
        if body.length < size then ({ s with pos := s.pos + F.header + body.length }, true)
        else
          let next : Scan σ := { s with pos := s.pos + F.header + size }
          if R.isMark kind then
            scan F R fuel
              { next with committed := ((R.declared (body.take size)).map (s.pos + ·)).getD s.committed }
              (body.drop size)
          else
            match R.apply s.state kind (body.take size) with
            | none => (next, false)
            | some state => scan F R fuel { next with state := state } (body.drop size)

variable {F : Format κ} {R : Reader κ σ} {s : Scan σ} {kind : κ} {payload rest : Bytes} {fuel : ℕ}

/-- A complete record behind the scan's position is read as it was encoded. -/
theorem scan_encode (valid : F.Valid kind payload) : scan F R (fuel + 1) s (F.encode kind payload ++ rest) =
      if R.isMark kind then
        scan F R fuel
          { s with
            pos := s.pos + F.header + payload.length
            committed := ((R.declared payload).map (s.pos + ·)).getD s.committed } rest
      else
        match R.apply s.state kind payload with
        | none => ({ s with pos := s.pos + F.header + payload.length }, false)
        | some state =>
          scan F R fuel { s with pos := s.pos + F.header + payload.length, state := state } rest := by
  have length := F.length_encode valid
  have long : ¬(F.encode kind payload ++ rest).length < F.header := by
    rw [length_append]; omega
  have first : (F.encode kind payload ++ rest).take F.header =
      (F.encode kind payload).take F.header := take_append_of_le_length (by omega)
  have behind : (F.encode kind payload ++ rest).drop F.header = payload ++ rest := by
    rw [drop_append_of_le_length (by omega), F.drop_encode valid]
  have complete : ¬(payload ++ rest).length < payload.length := by
    rw [length_append]; omega
  conv_lhs => unfold scan
  rw [if_neg long, first, F.decode_encode valid]
  dsimp only
  rw [behind, if_neg complete, take_left, drop_left]

/-- A proper part of a record stops the scan where the bytes end. -/
theorem scan_torn (valid : F.Valid kind payload) (torn : cut < (F.encode kind payload).length) :
    scan F R (fuel + 1) s ((F.encode kind payload).take cut) = ({ s with pos := s.pos + cut }, true) := by
  have length := F.length_encode valid
  have size : ((F.encode kind payload).take cut).length = cut := length_take_of_le (Nat.le_of_lt torn)
  unfold scan
  by_cases short : cut < F.header
  · rw [if_pos (by rwa [size]), size]
  have first : ((F.encode kind payload).take cut).take F.header =
      (F.encode kind payload).take F.header := by
    rw [take_take, Nat.min_eq_left (by omega)]
  have behind : (((F.encode kind payload).take cut).drop F.header).length = cut - F.header := by
    rw [length_drop, size]
  rw [if_neg (by rwa [size]), first, F.decode_encode valid]
  dsimp only
  rw [behind, if_pos (by omega)]
  have end_ : s.pos + F.header + (cut - F.header) = s.pos + cut := by omega
  rw [end_]

/-- Records that carry no mark. -/
def Ordinary (F : Format κ) (R : Reader κ σ) (records : List (κ × Bytes)) : Prop :=
  ∀ r ∈ records, F.Valid r.1 r.2 ∧ R.isMark r.1 = false

def encodeAll (F : Format κ) (records : List (κ × Bytes)) : Bytes :=
  records.flatMap fun r => F.encode r.1 r.2

/-- Applies records in order. A refused one leaves what those before it did. -/
def applyAll (R : Reader κ σ) (state : σ) : List (κ × Bytes) → σ × Bool
  | [] => (state, true)
  | r :: records =>
    match R.apply state r.1 r.2 with
    | none => (state, false)
    | some state => applyAll R state records

theorem applyAll_append (state : σ) (records more : List (κ × Bytes)) :
    applyAll R state (records ++ more) = if (applyAll R state records).2 then
      applyAll R (applyAll R state records).1 more else applyAll R state records := by
  induction records generalizing state with
  | nil => rfl
  | cons r records ih =>
    rw [cons_append, applyAll, applyAll]
    cases R.apply state r.1 r.2 with
    | none => rfl
    | some next => exact ih next

/-- Records are applied in order, and one that is refused ends the scan as refused. -/
theorem scan_records (ordinary : Ordinary F R records) :
    ∃ stop, scan F R (records.length + fuel) s (encodeAll F records ++ rest) =
      if (applyAll R s.state records).2 then scan F R fuel { s with
          state := (applyAll R s.state records).1
          pos := s.pos + (encodeAll F records).length } rest
      else (stop, false) := by
  induction records generalizing s with
  | nil => exact ⟨s, by simp [encodeAll, applyAll]⟩
  | cons r records ih =>
    obtain ⟨valid, plain⟩ := ordinary r (.head _)
    have fuels : (r :: records).length + fuel = records.length + fuel + 1 := by
      rw [length_cons]; omega
    rw [fuels, encodeAll, flatMap_cons, append_assoc, scan_encode valid, plain, applyAll]
    cases R.apply s.state r.1 r.2 with
    | none => exact ⟨_, rfl⟩
    | some middle =>
      obtain ⟨stop, next⟩ := ih (s := { s with pos := s.pos + F.header + r.2.length, state := middle })
        fun r member => ordinary r (.tail _ member)
      refine ⟨stop, next.trans ?_⟩
      rw [length_append, F.length_encode valid, encodeAll]
      simp [Nat.add_assoc]

/-- No part of records without a mark moves the confirmed end. -/
theorem scan_committed (ordinary : Ordinary F R records) (cut : ℕ) :
    (scan F R fuel s ((encodeAll F records).take cut)).1.committed = s.committed := by
  induction records generalizing s cut fuel with
  | nil =>
    cases fuel with
    | zero => rfl
    | succ fuel =>
      unfold scan
      rw [if_pos (by simpa [encodeAll] using F.header_pos)]
  | cons r records ih =>
    cases fuel with
    | zero => rfl
    | succ fuel =>
      obtain ⟨valid, plain⟩ := ordinary r (.head _)
      rw [encodeAll, flatMap_cons]
      by_cases torn : cut < (F.encode r.1 r.2).length
      · rw [take_append_of_le_length (Nat.le_of_lt torn), scan_torn valid torn]
      rw [take_append, take_of_length_le (by omega), scan_encode valid, plain]
      cases R.apply s.state r.1 r.2 with
      | none => rfl
      | some state => exact ih (fun r member => ordinary r (.tail _ member)) _

section Groups

/-- How a writer marks a group: the mark's kind, and its payload for a group of so many bytes. -/
structure Marking (F : Format κ) (R : Reader κ σ) where
  kind : κ
  payload : ℕ → Bytes
  width : ℕ
  limit : ℕ
  isMark : R.isMark kind = true
  length_payload : ∀ size, (payload size).length = width
  valid : ∀ size, F.Valid kind (payload size)
  declared : ∀ size, size < limit → R.declared (payload size) = some size

variable (M : Marking F R) {groups : List (List (κ × Bytes))}

/-- The bytes a mark and its records take. -/
def Marking.size (records : List (κ × Bytes)) : ℕ := F.header + M.width + (encodeAll F records).length

/-- A group as it is written: the mark and the records behind it. -/
def Marking.encode (records : List (κ × Bytes)) : Bytes :=
  F.encode M.kind (M.payload (M.size records)) ++ encodeAll F records

/-- Records that may be written as one group. -/
def Marking.Written (records : List (κ × Bytes)) : Prop := Ordinary F R records ∧ M.size records < M.limit

theorem Marking.length_mark (size : ℕ) : (F.encode M.kind (M.payload size)).length = F.header + M.width := by
  rw [F.length_encode (M.valid size), M.length_payload]

theorem Marking.length_encode (records : List (κ × Bytes)) : (M.encode records).length = M.size records := by
  rw [Marking.encode, length_append, M.length_mark, Marking.size]

/-- Meeting a mark confirms the group's declared end at once. -/
theorem scan_mark (written : M.Written records) :
    scan F R (fuel + 1) s (F.encode M.kind (M.payload (M.size records)) ++ rest) = scan F R fuel
        { s with pos := s.pos + (F.header + M.width), committed := s.pos + M.size records } rest := by
  rw [scan_encode (M.valid _), if_pos M.isMark, M.declared _ written.2, M.length_payload, Nat.add_assoc]
  rfl

theorem scan_group (written : M.Written records) :
    ∃ stop, scan F R (records.length + 1 + fuel) s (M.encode records ++ rest) =
      if (applyAll R s.state records).2 then scan F R fuel
        ⟨(applyAll R s.state records).1, s.pos + M.size records, s.pos + M.size records⟩ rest
      else (stop, false) := by
  have fuels : records.length + 1 + fuel = records.length + fuel + 1 := by omega
  rw [fuels, Marking.encode, append_assoc, scan_mark M written]
  obtain ⟨stop, next⟩ := scan_records (s := { s with
    pos := s.pos + (F.header + M.width), committed := s.pos + M.size records }) written.1
  refine ⟨stop, next.trans ?_⟩
  rw [Marking.size]
  simp [Nat.add_assoc]

def encodeGroups (groups : List (List (κ × Bytes))) : Bytes := groups.flatMap M.encode

/-- Complete groups are applied in order and confirmed to their last byte, and a group with a refused
record ends the scan as refused. -/
theorem scan_groups (written : ∀ g ∈ groups, M.Written g) (confirmed : s.committed = s.pos) :
    ∃ stop, scan F R ((groups.map fun g => g.length + 1).sum + fuel) s (encodeGroups M groups ++ rest) =
      if (applyAll R s.state groups.flatten).2 then scan F R fuel
        { state := (applyAll R s.state groups.flatten).1
          pos := s.pos + (encodeGroups M groups).length
          committed := s.pos + (encodeGroups M groups).length } rest
      else (stop, false) := by
  induction groups generalizing s with
  | nil =>
    obtain ⟨state, pos, committed⟩ := s
    obtain rfl : committed = pos := confirmed
    exact ⟨⟨state, committed, committed⟩, by simp [encodeGroups, applyAll]⟩
  | cons g groups ih =>
    have fuels : ((g :: groups).map fun g => g.length + 1).sum + fuel =
        g.length + 1 + ((groups.map fun g => g.length + 1).sum + fuel) := by
      rw [map_cons, sum_cons, Nat.add_assoc]
    obtain ⟨stop, first⟩ := scan_group M (s := s) (written g (.head _))
    rw [fuels, encodeGroups, flatMap_cons, append_assoc, first, flatten_cons, applyAll_append]
    split
    · obtain ⟨stop, next⟩ := ih (s := ⟨(applyAll R s.state g).1, s.pos + M.size g, s.pos + M.size g⟩)
        (fun g member => written g (.tail _ member)) rfl
      refine ⟨stop, next.trans ?_⟩
      rw [encodeGroups, length_append, M.length_encode]
      simp [Nat.add_assoc]
    · exact ⟨stop, rfl⟩

theorem length_encodeAll_ge (ordinary : Ordinary F R records) :
    records.length ≤ (encodeAll F records).length := by
  have header := F.header_pos
  induction records with
  | nil => simp
  | cons r records ih =>
    have rest := ih fun r member => ordinary r (.tail _ member)
    have first := F.length_encode (ordinary r (.head _)).1
    rw [encodeAll, flatMap_cons, length_append, length_cons, first]
    rw [encodeAll] at rest
    omega

/-- A log is at least as long as the number of records and marks a scan meets in it. -/
theorem length_encodeGroups_ge (written : ∀ g ∈ groups, M.Written g) :
    (groups.map fun g => g.length + 1).sum ≤ (encodeGroups M groups).length := by
  have header := F.header_pos
  induction groups with
  | nil => simp
  | cons g groups ih =>
    have rest := ih fun g member => written g (.tail _ member)
    have first := length_encodeAll_ge (written g (.head _)).1
    rw [encodeGroups, flatMap_cons, length_append, M.length_encode, map_cons,
      sum_cons, Marking.size]
    rw [encodeGroups] at rest
    omega

/-- A part of a group that ends inside its mark changes nothing and confirms nothing. -/
theorem scan_torn_mark (records : List (κ × Bytes)) (torn : cut < F.header + M.width) :
    scan F R (fuel + 1) s ((M.encode records).take cut) = ({ s with pos := s.pos + cut }, true) := by
  have mark := M.length_mark (M.size records)
  rw [Marking.encode, take_append_of_le_length (by omega), scan_torn (M.valid _) (by omega)]

/-- A part that holds the whole mark is confirmed to the end the mark declares. -/
theorem scan_torn_records (written : M.Written records) (past : F.header + M.width ≤ cut) :
    (scan F R (fuel + 1) s ((M.encode records).take cut)).1.committed = s.pos + M.size records := by
  have mark := M.length_mark (M.size records)
  rw [Marking.encode, take_append, take_of_length_le (by omega), scan_mark M written,
    scan_committed written.1]

end Groups

end Yarilo.Library.FramedLog

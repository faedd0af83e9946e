import Mathlib.Data.List.TakeWhile
import Yarilo.Library.Bytes

/-! # Keyword names and their bits

A message's keywords are a 32-bit mask whose bits are numbered by the folder's registry of names.
Names are byte strings. The registry grows at its end when a name is first used and is stored in
an extension header as a count, one offset per name and the zero-terminated names.
-/

namespace Yarilo.FileIndex

open Library Option

/-- A keyword name, as the bytes of a Go string. -/
abbrev Keyword := Bytes

/-- The registry: the name at index `n` owns bit `n`. -/
abbrev Registry := List Keyword

def keywordsMaxBits : ℕ := 32

/-- The encodings of the runes `unicode.IsSpace` accepts. -/
def spaceRunes : List Bytes :=
  [[9], [10], [11], [12], [13], [32], [0xC2, 0x85], [0xC2, 0xA0], [0xE1, 0x9A, 0x80],
    [0xE2, 0x80, 0x80], [0xE2, 0x80, 0x81], [0xE2, 0x80, 0x82], [0xE2, 0x80, 0x83],
    [0xE2, 0x80, 0x84], [0xE2, 0x80, 0x85], [0xE2, 0x80, 0x86], [0xE2, 0x80, 0x87],
    [0xE2, 0x80, 0x88], [0xE2, 0x80, 0x89], [0xE2, 0x80, 0x8A], [0xE2, 0x80, 0xA8],
    [0xE2, 0x80, 0xA9], [0xE2, 0x80, 0xAF], [0xE2, 0x81, 0x9F], [0xE3, 0x80, 0x80]]

/-- Drops leading members of `runes`, at most `fuel` of them. -/
def trimLeft (runes : List Bytes) : (fuel : ℕ) → Bytes → Bytes
  | 0, s => s
  | fuel + 1, s =>
    match runes.find? (·.isPrefixOf s) with
    | some rune => trimLeft runes fuel (s.drop rune.length)
    | none => s

/-- `strings.TrimSpace`. -/
def trimSpace (s : Bytes) : Bytes :=
  let left := trimLeft spaceRunes s.length s
  (trimLeft (spaceRunes.map List.reverse) left.length left.reverse).reverse

/-- One name of `keywordsBitmaskFor`'s loop: its bit, and the registry that now has it. -/
def registerKeyword (registry : Registry) (name : Keyword) : Option (BitVec 32 × Registry) :=
  let n := trimSpace name
  if n = [] then some (0, registry)
  else
    match registry.findIdx? (· == n) with
    | some idx => some (1#32 <<< idx, registry)
    | none =>
      if keywordsMaxBits ≤ registry.length then none
      else some (1#32 <<< registry.length, registry ++ [n])

/-- The mask of `names`, registering those the registry lacks; `none` is the full registry. -/
def keywordsBitmaskFor (registry : Registry) : List Keyword → Option (BitVec 32 × Registry)
  | [] => some (0, registry)
  | name :: names => do
    let (bit, registry) ← registerKeyword registry name
    let (bits, registry) ← keywordsBitmaskFor registry names
    return (bit ||| bits, registry)

/-- Names that `registerKeyword` neither adds nor refuses. -/
def Registered (registry : Registry) (name : Keyword) : Prop :=
  trimSpace name = [] ∨ trimSpace name ∈ registry

variable {registry registry' : Registry} {name : Keyword} {names : List Keyword}

theorem Registered.mono (known : Registered registry name) (extends_ : registry <+: registry') :
    Registered registry' name :=
  known.imp_right fun member => extends_.subset member

/-- The bit of a name in a registry that knows it. -/
def keywordBit (registry : Registry) (name : Keyword) : BitVec 32 :=
  if trimSpace name = [] then 0 else 1#32 <<< registry.idxOf (trimSpace name)

theorem keywordBit_of_grown (known : Registered registry name) (grew : registry <+: registry') :
    keywordBit registry' name = keywordBit registry name := by
  obtain ⟨more, rfl⟩ := grew
  rcases known with empty | member
  · simp [keywordBit, empty]
  · rw [keywordBit, keywordBit, List.idxOf_append_of_mem member]

/-- Registration gives the name's bit in the new registry, which is the old one or has the name as
its last. -/
theorem registerKeyword_eq_some_iff {bit : BitVec 32} :
    registerKeyword registry name = some (bit, registry') ↔
      Registered registry' name ∧ bit = keywordBit registry' name ∧ (registry' = registry ∨
        trimSpace name ≠ [] ∧ trimSpace name ∉ registry ∧ registry.length < keywordsMaxBits ∧
          registry' = registry ++ [trimSpace name]) := by
  have index : registry.findIdx? (· == trimSpace name) =
      guard (· < registry.length) (registry.idxOf (trimSpace name)) := List.findIdx?_eq_guard_findIdx_lt
  simp only [registerKeyword, index, guard_apply, List.idxOf_lt_length_iff, decide_eq_true_eq]
  by_cases empty : trimSpace name = []
  · simp [empty, Registered, keywordBit, @eq_comm _ registry, @eq_comm _ bit]
  by_cases member : trimSpace name ∈ registry
  · simp [empty, member, Registered, keywordBit]
    grind
  · have last : (registry ++ [trimSpace name]).idxOf (trimSpace name) = registry.length := by
      rw [List.idxOf_append, if_neg member]
      simp
    simp [empty, member, Registered, keywordBit]
    grind

theorem keywordsBitmaskFor_cons (registry : Registry) (name : Keyword) (names : List Keyword) :
    keywordsBitmaskFor registry (name :: names) = (registerKeyword registry name).bind fun first =>
        (keywordsBitmaskFor first.2 names).map fun rest => (first.1 ||| rest.1, rest.2) := by
  cases registered : registerKeyword registry name with
  | none => simp [keywordsBitmaskFor, registered]
  | some first =>
    cases rest : keywordsBitmaskFor first.2 names <;>
      simp [keywordsBitmaskFor, registered, rest]

theorem keywordsBitmaskFor_append (registry : Registry) (names more : List Keyword) :
    keywordsBitmaskFor registry (names ++ more) = (keywordsBitmaskFor registry names).bind fun first =>
        (keywordsBitmaskFor first.2 more).map fun rest => (first.1 ||| rest.1, rest.2) := by
  induction names generalizing registry with
  | nil =>
    have none_ : keywordsBitmaskFor registry [] = some (0, registry) := rfl
    rw [List.nil_append, none_, bind_some]
    simp
  | cons name names ih =>
    rw [List.cons_append, keywordsBitmaskFor_cons, keywordsBitmaskFor_cons]
    cases registerKeyword registry name with
    | none => rfl
    | some first =>
      rw [bind_some, bind_some, ih]
      cases keywordsBitmaskFor first.2 names with
      | none => rfl
      | some second =>
        rw [bind_some, map_some, bind_some, map_map]
        refine congrArg (fun f => Option.map f _) (funext fun rest => ?_)
        simp [BitVec.or_assoc]

theorem keywordsBitmaskFor_cons_eq_some {bits : BitVec 32}
    (success : keywordsBitmaskFor registry (name :: names) = some (bits, registry')) :
    ∃ bit middle rest, registerKeyword registry name = some (bit, middle) ∧
      keywordsBitmaskFor middle names = some (rest, registry') ∧ bits = bit ||| rest := by
  rw [keywordsBitmaskFor_cons, bind_eq_some_iff] at success
  obtain ⟨⟨bit, middle⟩, first, success⟩ := success
  obtain ⟨⟨rest, last⟩, tail, same⟩ := map_eq_some_iff.mp success
  cases same
  exact ⟨bit, middle, rest, first, tail, rfl⟩

theorem keywordsBitmaskFor_spec {bits : BitVec 32}
    (success : keywordsBitmaskFor registry names = some (bits, registry')) :
    registry <+: registry' ∧ ∀ name ∈ names, Registered registry' name := by
  induction names generalizing registry bits with
  | nil =>
    cases success
    exact ⟨List.prefix_refl _, by simp⟩
  | cons name names ih =>
    obtain ⟨bit, middle, rest, first, tail, -⟩ := keywordsBitmaskFor_cons_eq_some success
    obtain ⟨known, -, grew⟩ := registerKeyword_eq_some_iff.mp first
    obtain ⟨grew', known'⟩ := ih tail
    refine ⟨?_, List.forall_mem_cons.mpr ⟨known.mono grew', known'⟩⟩
    rcases grew with rfl | ⟨-, -, -, rfl⟩
    · exact grew'
    · exact (List.prefix_append _ _).trans grew'

/-- Known names change nothing. -/
theorem keywordsBitmaskFor_of_registered (known : ∀ name ∈ names, Registered registry name) :
    ∃ bits, keywordsBitmaskFor registry names = some (bits, registry) := by
  induction names with
  | nil => exact ⟨0, rfl⟩
  | cons name names ih =>
    have first := registerKeyword_eq_some_iff.mpr ⟨known name (by simp), rfl, .inl rfl⟩
    obtain ⟨bits, rest⟩ := ih fun other member => known other (by simp [member])
    exact ⟨_ ||| bits, by simp [keywordsBitmaskFor_cons, first, rest]; rfl⟩

/-- Byte-wise lexicographic order, the order of `sort.Strings`. -/
def bytesLe : Bytes → Bytes → Bool
  | [], _ => true
  | _ :: _, [] => false
  | a :: as, b :: bs => if a = b then bytesLe as bs else a < b

def insertSorted (name : Keyword) : List Keyword → List Keyword
  | [] => [name]
  | other :: rest => if bytesLe name other then name :: other :: rest else other :: insertSorted name rest

def sortStrings (names : List Keyword) : List Keyword := names.foldr insertSorted []

/-- The names of the set bits of `bits`, where the registry starts at bit `idx`. -/
def namesFrom (bits : BitVec 32) : (idx : ℕ) → Registry → List Keyword
  | _, [] => []
  | idx, name :: rest =>
    if bits.getLsbD idx then name :: namesFrom bits (idx + 1) rest else namesFrom bits (idx + 1) rest

def keywordsFromBitmask (registry : Registry) (bits : BitVec 32) : List Keyword :=
  sortStrings (namesFrom bits 0 registry)

/-- `a` without any member of `b`. -/
def subtractStrings (a b : List Keyword) : List Keyword := a.filter (· ∉ b)

/-- The loop of `unionStrings`: keeps the first occurrence of each non-empty string. -/
def unionFrom (seen : List Keyword) : List Keyword → List Keyword
  | [] => []
  | s :: rest => if s = [] ∨ s ∈ seen then unionFrom seen rest else s :: unionFrom (s :: seen) rest

/-- `a`, then whatever `b` adds. -/
def unionStrings (a b : List Keyword) : List Keyword := unionFrom [] (a ++ b)

/-- The offset of each name in the zero-terminated name data. -/
def nameOffsets (pos : ℕ) : Registry → List ℕ
  | [] => []
  | name :: rest => pos :: nameOffsets (pos + name.length + 1) rest

def encodeKeywordsHdr (names : Registry) : Bytes :=
  putLe 4 names.length ++ (nameOffsets 0 names).flatMap (fun pos => putLe 4 0 ++ putLe 4 pos) ++
    names.flatMap (· ++ [0])

/-- Reads the registry; `none` stands for each of the decoder's errors. -/
def decodeKeywordsHdr (b : Bytes) : Option Registry :=
  if b.length < 4 then some []
  else
    let count := getLe 4 0 b
    if count = 0 then some []
    else if keywordsMaxBits < count then none
    else
      let entriesEnd := 4 + count * 8
      if b.length % 2 ^ 32 < entriesEnd then none
      else
        let nameData := b.drop entriesEnd
        (List.range count).mapM fun i =>
          let nameOff := getLe 4 (4 + i * 8 + 4) b
          if nameData.length ≤ nameOff then none
          else some (((nameData.take (nameData.length % 2 ^ 32)).drop nameOff).takeWhile (· ≠ 0))

/-- The registry a reader finds in an encoded header: each name ends at its first zero byte. -/
def storedRegistry (names : Registry) : Registry := names.map (·.takeWhile (· ≠ 0))

variable {bits : BitVec 32}

section

open List

/-! ## Masks -/

theorem mem_insertSorted {other : Keyword} :
    other ∈ insertSorted name names ↔ other = name ∨ other ∈ names := by
  induction names with
  | nil => simp [insertSorted]
  | cons first rest ih =>
    unfold insertSorted
    split
    · simp
    · simp only [mem_cons, ih]
      tauto

theorem mem_sortStrings : name ∈ sortStrings names ↔ name ∈ names := by
  induction names with
  | nil => rfl
  | cons first rest ih =>
    rw [sortStrings, foldr_cons, mem_insertSorted, mem_cons]
    exact or_congr .rfl ih

theorem namesFrom_eq (bits : BitVec 32) (idx : ℕ) (registry : Registry) : namesFrom bits idx registry =
    ((registry.zipIdx idx).filter fun e => bits.getLsbD e.2).map Prod.fst := by
  induction registry generalizing idx with
  | nil => rfl
  | cons first rest ih =>
    rw [namesFrom, zipIdx_cons, filter_cons, ih]
    split <;> rfl

/-- The bits of a mask are those of its names in the registry it leaves. -/
theorem getLsbD_keywordsBitmaskFor {i : ℕ}
    (made : keywordsBitmaskFor registry names = some (bits, registry')) :
    bits.getLsbD i = true ↔
      i < 32 ∧ ∃ name ∈ names, trimSpace name ≠ [] ∧ registry'.idxOf (trimSpace name) = i := by
  induction names generalizing registry bits with
  | nil =>
    cases made
    simp
  | cons name names ih =>
    obtain ⟨bit, middle, rest, first, tail, rfl⟩ := keywordsBitmaskFor_cons_eq_some made
    obtain ⟨known, rfl, -⟩ := registerKeyword_eq_some_iff.mp first
    rw [← keywordBit_of_grown known (keywordsBitmaskFor_spec tail).1, BitVec.getLsbD_or,
      Bool.or_eq_true, ih tail, keywordBit]
    by_cases empty : trimSpace name = []
    · simp [empty]
    · rw [if_neg empty, ← BitVec.twoPow_eq, BitVec.getLsbD_twoPow]
      simp [empty, and_or_left]
      grind

/-- Further names leave what a mask stands for. -/
theorem keywordsFromBitmask_of_grown {more : List Keyword} {bits' : BitVec 32} {last : Registry}
    (made : keywordsBitmaskFor registry names = some (bits, registry'))
    (grown : keywordsBitmaskFor registry' more = some (bits', last)) :
    keywordsFromBitmask last bits = keywordsFromBitmask registry' bits := by
  obtain ⟨rest, rfl⟩ := (keywordsBitmaskFor_spec grown).1
  have unset : ((rest.zipIdx (0 + registry'.length)).filter fun e => bits.getLsbD e.2) = [] := by
    rw [filter_eq_nil_iff]
    rintro ⟨other, i⟩ member owned
    obtain ⟨-, name, used, some, rfl⟩ := (getLsbD_keywordsBitmaskFor made).mp owned
    have held := ((keywordsBitmaskFor_spec made).2 name used).resolve_left some
    have inside := idxOf_lt_length_of_mem held
    have behind := (mem_zipIdx member).1
    omega
  rw [keywordsFromBitmask, keywordsFromBitmask, namesFrom_eq, namesFrom_eq, zipIdx_append, filter_append,
    unset, append_nil]

/-- Names of the registry make a mask that stands for them. -/
theorem mem_keywordsFromBitmask_drawn (few : registry.length ≤ keywordsMaxBits) (inside : names ⊆ registry)
    (trimmed : ∀ name ∈ names, trimSpace name = name ∧ name ≠ []) :
    ∃ bits, keywordsBitmaskFor registry names = some (bits, registry) ∧
      ∀ name, name ∈ keywordsFromBitmask registry bits ↔ name ∈ names := by
  obtain ⟨bits, made⟩ := keywordsBitmaskFor_of_registered fun name member =>
    .inr ((trimmed name member).1.symm ▸ inside member)
  refine ⟨bits, made, fun name => ?_⟩
  rw [keywordsFromBitmask, mem_sortStrings, namesFrom_eq]
  simp only [List.mem_map, mem_filter, getLsbD_keywordsBitmaskFor made]
  constructor
  · rintro ⟨⟨_, i⟩, ⟨here, -, other, member, -, rfl⟩, rfl⟩
    rw [(trimmed other member).1, mem_zipIdx_iff_getElem?, getElem?_idxOf (inside member)] at here
    exact Option.some.inj here ▸ member
  · intro member
    obtain ⟨trim, some⟩ := trimmed name member
    have index := getElem?_idxOf (inside member)
    have bound := (idxOf_lt_length_of_mem (inside member)).trans_le few
    exact ⟨(name, registry.idxOf name), ⟨mem_zipIdx_iff_getElem?.mpr index, bound, name, member,
      by simp [trim, some]⟩, rfl⟩

/-! ## The header -/

theorem length_entries (pos : ℕ) (names : Registry) :
    ((nameOffsets pos names).flatMap fun pos => putLe 4 0 ++ putLe 4 pos).length = names.length * 8 := by
  have count : (nameOffsets pos names).length = names.length := by
    induction names generalizing pos with
    | nil => rfl
    | cons name names ih => exact congrArg (· + 1) (ih _)
  simp [length_flatMap, count]

/-- The word a reader takes for a name's offset. -/
theorem getLe_entries (pos : ℕ) (before : Registry) (name : Keyword) (after : Registry) (tail : Bytes) :
    getLe 4 (before.length * 8 + 4) (((nameOffsets pos (before ++ name :: after)).flatMap fun pos =>
      putLe 4 0 ++ putLe 4 pos) ++ tail) = (pos + (before.flatMap (· ++ [0])).length) % 2 ^ 32 := by
  induction before generalizing pos with
  | nil =>
    rw [nil_append, nameOffsets, flatMap_cons, append_assoc, append_assoc]
    exact getLe_append (putLe 4 0) _ 4 pos
  | cons first before ih =>
    have offset : (first :: before).length * 8 + 4 =
        (putLe 4 0 ++ putLe 4 pos).length + (before.length * 8 + 4) := by
      rw [length_append, length_putLe, length_putLe, length_cons]
      omega
    rw [offset, cons_append, nameOffsets, flatMap_cons, append_assoc, getLe_add_length, ih]
    simp [Nat.add_assoc, Nat.add_comm 1]

theorem takeWhile_terminated (name rest : Bytes) :
    (name ++ 0 :: rest).takeWhile (· ≠ 0) = name.takeWhile (· ≠ 0) := by
  induction name with
  | nil => rfl
  | cons b name ih => rw [cons_append, takeWhile_cons, takeWhile_cons, ih]

theorem decodeKeywordsHdr_encode (few : registry.length ≤ keywordsMaxBits)
    (small : (encodeKeywordsHdr registry).length < 2 ^ 32) :
    decodeKeywordsHdr (encodeKeywordsHdr registry) = some (storedRegistry registry) := by
  have count : getLe 4 0 (encodeKeywordsHdr registry) = registry.length := by
    rw [encodeKeywordsHdr, append_assoc, getLe_putLe]
    exact Nat.mod_eq_of_lt (few.trans_lt (by decide))
  have start : (putLe 4 registry.length ++ (nameOffsets 0 registry).flatMap fun pos =>
      putLe 4 0 ++ putLe 4 pos).length = 4 + registry.length * 8 := by
    rw [length_append, length_entries, length_putLe]
  have data : (encodeKeywordsHdr registry).drop (4 + registry.length * 8) = registry.flatMap (· ++ [0]) :=
    drop_left' start
  have length : (encodeKeywordsHdr registry).length =
      4 + registry.length * 8 + (registry.flatMap (· ++ [0])).length := by
    rw [encodeKeywordsHdr, length_append, start]
  unfold decodeKeywordsHdr
  rw [if_neg (by omega), count]
  dsimp only
  split
  · rename_i empty
    rw [length_eq_zero_iff.mp empty]
    rfl
  rw [if_neg (not_lt.mpr few), Nat.mod_eq_of_lt small, if_neg (by omega), data,
    Nat.mod_eq_of_lt (by omega), take_length,
    mapM_eq_pure (g := fun i => (registry.getD i []).takeWhile (· ≠ 0))]
  · refine congrArg some (ext_getElem (by simp [storedRegistry]) ?_)
    simp +contextual [storedRegistry]
  intro i member
  have bound := mem_range.mp member
  obtain ⟨before, name, after, rfl, rfl⟩ : ∃ before name after,
      registry = before ++ name :: after ∧ before.length = i :=
    ⟨registry.take i, registry[i], registry.drop (i + 1), by simp, by simp [bound.le]⟩
  have names : (before ++ name :: after).flatMap (· ++ [0]) =
      before.flatMap (· ++ [0]) ++ (name ++ 0 :: after.flatMap (· ++ [0])) := by simp
  have word := getLe_entries 0 before name after ((before ++ name :: after).flatMap (· ++ [0]))
  have size := congrArg List.length names
  simp only [length_append, length_cons] at size
  rw [Nat.zero_add, Nat.mod_eq_of_lt (by omega)] at word
  have shift : 4 + before.length * 8 + 4 =
      (putLe 4 (before ++ name :: after).length).length + (before.length * 8 + 4) := by
    rw [length_putLe, Nat.add_assoc]
  rw [shift, encodeKeywordsHdr, append_assoc, getLe_add_length, word, if_neg (by omega), names, drop_left,
    takeWhile_terminated]
  simp

theorem storedRegistry_eq (storable : ∀ name ∈ registry, 0 ∉ name) : storedRegistry registry = registry := by
  have whole : ∀ name ∈ registry, name.takeWhile (· ≠ 0) = id name := by
    intro name member
    refine takeWhile_eq_self_iff.mpr fun byte inside => ?_
    have nonzero : byte ≠ 0 := fun zero => storable name member (zero ▸ inside)
    simpa using nonzero
  rw [storedRegistry, map_congr_left whole, List.map_id]

/-- The stored registry is read back, and masks keep their names. -/
theorem keyword_registry_round_trips (registry : Registry) (few : registry.length ≤ keywordsMaxBits)
    (plain : ∀ name ∈ registry, 0 ∉ name) (small : (encodeKeywordsHdr registry).length < 2 ^ 32) :
    decodeKeywordsHdr (encodeKeywordsHdr registry) = some registry ∧
      (∀ drawn ⊆ registry, (∀ name ∈ drawn, trimSpace name = name ∧ name ≠ []) →
        ∃ bits, keywordsBitmaskFor registry drawn = some (bits, registry) ∧
          ∀ name, name ∈ keywordsFromBitmask registry bits ↔ name ∈ drawn) ∧
      ∀ names bits registry' more bits' registry'',
        keywordsBitmaskFor registry names = some (bits, registry') →
        keywordsBitmaskFor registry' more = some (bits', registry'') →
        keywordsFromBitmask registry'' bits = keywordsFromBitmask registry' bits := by
  refine ⟨?_, fun drawn inside trimmed => mem_keywordsFromBitmask_drawn few inside trimmed,
    fun names bits registry' more bits' registry'' => keywordsFromBitmask_of_grown⟩
  rw [decodeKeywordsHdr_encode few small, storedRegistry_eq plain]

theorem keyword_registry_round_trips_pair :
    decodeKeywordsHdr (encodeKeywordsHdr [[97], [98, 99]]) = some [[97], [98, 99]] :=
  (keyword_registry_round_trips [[97], [98, 99]] (by decide) (by decide) (by decide)).1

/-- A name with a blank in front is looked up without it. -/
theorem blank_keyword_renamed : (0 : UInt8) ∉ [32, 97] ∧
    keywordsBitmaskFor [[32, 97]] [[32, 97]] = some (2, [[32, 97], [97]]) ∧
      keywordsFromBitmask [[32, 97], [97]] 2 = [[97]] := by
  decide

end

end Yarilo.FileIndex
